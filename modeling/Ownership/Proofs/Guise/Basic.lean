import Mathlib.Data.List.Nodup
import Mathlib.Logic.Equiv.Defs
import Ownership.Checker.Session

/-!
# Programs in another guise

The number of a type and the span of a node are names that mean nothing by themselves. A guise
renames the numbers of types by a bijection and replaces spans. It may also leave out the findings
that a switch of the options is about. Here the guise is put on programs, places, flows, loans and
scope trees; all that is asked of them is answered as before, in the guise.
-/

namespace Ownership

open List

/-! ### Registries with other keys and values -/

namespace Registry

variable {κ κ' υ υ' : Type} {k : κ → κ'}

/-- The registry with other keys and values, in the same order. -/
def relabel (k : κ → κ') (hk : k.Injective) (v : υ → υ') (r : Registry κ υ) : Registry κ' υ' where
  entries := r.entries.map (Prod.map k v)
  nodup := by
    have hkeys : (r.entries.map (Prod.map k v)).map Prod.fst = (r.entries.map Prod.fst).map k := by
      simp [Function.comp_def]
    rw [hkeys]
    exact r.nodup.map hk

variable [DecidableEq κ] [DecidableEq κ'] (hk : k.Injective) (v : υ → υ') (r s : Registry κ υ)

omit [DecidableEq κ] [DecidableEq κ'] in
lemma keys_relabel : (r.relabel k hk v).keys = r.keys.map k := by
  simp [keys, relabel, Function.comp_def]

lemma get?_relabel (a : κ) : (r.relabel k hk v).get? (k a) = (r.get? a).map v := by
  have hlookup : ∀ l : List (κ × υ), (l.map (Prod.map k v)).lookup (k a) = (l.lookup a).map v := by
    intro l
    induction l with
    | nil => rfl
    | cons e l ih =>
      rw [map_cons, lookup_cons, lookup_cons, ih]
      by_cases h : a = e.1
      · simp [h]
      · have hne : k a ≠ k e.1 := hk.ne h
        simp [beq_false_of_ne h, beq_false_of_ne hne]
  exact hlookup r.entries

lemma contains_relabel (a : κ) : (r.relabel k hk v).contains (k a) = r.contains a := by
  simp [contains, get?_relabel]

lemma insert_relabel (a : κ) (b : υ) :
    (r.relabel k hk v).insert (k a) (v b) = (r.insert a b).relabel k hk v := by
  have hput : ∀ l : List (κ × υ),
      put (k a) (v b) (l.map (Prod.map k v)) = (put a b l).map (Prod.map k v) := by
    intro l
    induction l with
    | nil => rfl
    | cons e l ih =>
      simp only [map_cons, put, Prod.map_fst, hk.eq_iff]
      split
      · rfl
      · rw [ih]
        rfl
  exact Registry.ext (hput r.entries)

omit [DecidableEq κ] [DecidableEq κ'] in
lemma keep_relabel {p : κ → Bool} {p' : κ' → Bool} (hp : ∀ a, p' (k a) = p a) :
    (r.relabel k hk v).keep p' = (r.keep p).relabel k hk v := by
  refine Registry.ext ?_
  simp [keep, relabel, filter_map, Function.comp_def, hp]

lemma combine_relabel {f : Option υ → Option υ → Option υ} {f' : Option υ' → Option υ' → Option υ'}
    (hf : ∀ a b, f' (a.map v) (b.map v) = (f a b).map v) :
    combine f' (r.relabel k hk v) (s.relabel k hk v) = (combine f r s).relabel k hk v := by
  have hjoint : (r.relabel k hk v).jointKeys (s.relabel k hk v) = (r.jointKeys s).map k := by
    simp [jointKeys, keys_relabel, filter_map, Function.comp_def, contains_relabel]
  refine Registry.ext ?_
  simp only [combine, relabel] at hjoint ⊢
  rw [hjoint, filterMap_map, map_filterMap]
  congr 1
  funext a
  have ha := get?_relabel hk v r a
  have hb := get?_relabel hk v s a
  simp only [relabel] at ha hb
  simp [ha, hb, hf, Function.comp_def]

end Registry

/-- Other numbers for types, other spans, and which of the findings with a switch are kept. -/
structure Guise where
  span : Span → Span
  type : Equiv.Perm TypeId
  /-- Whether moves while borrowed are kept. -/
  moves : Bool := true
  /-- Whether writes while borrowed are kept. -/
  writes : Bool := true
  /-- Whether the findings of coverage are kept. -/
  coverage : Bool := true
  span_unknown : span .unknown = .unknown
  span_orElse : ∀ s t, span (s.orElse t) = (span s).orElse (span t)

namespace Guise

variable (g : Guise)

/-! ### Types -/

def field (f : FieldDecl) : FieldDecl := { f with type := g.type f.type }

def variantArm (a : VariantArm) : VariantArm := { a with fields := a.fields.map g.field }

def shape : Shape → Shape
  | .scalar => .scalar
  | .owned => .owned
  | .box inner => .box (g.type inner)
  | .ref inner mutable => .ref (g.type inner) mutable
  | .struct fields => .struct (fields.map g.field)
  | .variant arms => .variant (arms.map g.variantArm)
  | .unknown => .unknown

def typeDef (d : TypeDef) : TypeDef := { d with shape := g.shape d.shape }

def ty (g : Guise) : Ty → Ty
  | .unknown => .unknown
  | .named id => .named (g.type id)
  | .ref inner mutable => .ref (g.ty inner) mutable

def signature (s : Signature) : Signature := { s with returnType := s.returnType.map g.type }

/-! ### Programs -/

mutual

/-- An expression in the guise. -/
def expr (g : Guise) : Expr → Expr
  | .absent => .absent
  | .literal value loc => .literal value (g.span loc)
  | .var name loc => .var name (g.span loc)
  | .field e name loc => .field (g.expr e) name (g.span loc)
  | .deref e loc => .deref (g.expr e) (g.span loc)
  | .borrow e mutable loc => .borrow (g.expr e) mutable (g.span loc)
  | .call callee args loc => .call callee (g.exprs args) (g.span loc)
  | .binary op l r loc => .binary op (g.expr l) (g.expr r) (g.span loc)
  | .construct typeName variant args loc => .construct typeName variant (g.exprs args) (g.span loc)
  | .foreign kind => .foreign kind

def exprs (g : Guise) : List Expr → List Expr
  | [] => []
  | e :: rest => g.expr e :: g.exprs rest

end

mutual

def stmt (g : Guise) : Stmt → Stmt
  | .block b => .block (g.block b)
  | .declare name type value mutable loc =>
    .declare name (type.map g.type) (g.expr value) mutable (g.span loc)
  | .assign target value loc => .assign (g.expr target) (g.expr value) (g.span loc)
  | .evaluate value loc => .evaluate (g.expr value) (g.span loc)
  | .ret value loc => .ret (g.expr value) (g.span loc)
  | .branch test t e loc => .branch (g.expr test) (g.block t) (g.blockOpt e) (g.span loc)
  | .loop test b loc => .loop (g.expr test) (g.block b) (g.span loc)
  | .select e arms type loc => .select (g.expr e) (g.arms arms) (type.map g.type) (g.span loc)
  | .foreign kind => .foreign kind

def block (g : Guise) : Block → Block
  | .mk stmts loc => .mk (g.stmts stmts) (g.span loc)

def blockOpt (g : Guise) : Option Block → Option Block
  | none => none
  | some b => some (g.block b)

def stmts (g : Guise) : List Stmt → List Stmt
  | [] => []
  | s :: rest => g.stmt s :: g.stmts rest

def arms (g : Guise) : List Arm → List Arm
  | [] => []
  | .mk variant b binders byRef loc :: rest =>
    .mk variant (g.block b) binders byRef (g.span loc) :: g.arms rest

end

def arm : Arm → Arm
  | .mk variant b binders byRef loc => .mk variant (g.block b) binders byRef (g.span loc)

def param (p : Param) : Param := { p with type := p.type.map g.type, loc := g.span p.loc }

def function (f : Function) : Function where
  name := f.name
  params := f.params.map g.param
  body := g.block f.body
  returnType := f.returnType.map g.type
  loc := g.span f.loc

def selection (s : Selection) : Selection where
  scrutinee := g.expr s.scrutinee
  type := s.type.map g.type
  label := s.label

def node : Node → Node
  | .function => .function
  | .param p => .param (g.param p)
  | .stmt s => .stmt (g.stmt s)
  | .arm a sel => .arm (g.arm a) (sel.map g.selection)

def event (e : Event) : Event := { e with node := g.node e.node }

/-! ### Places -/

def binding (b : Binding) : Binding := { b with declaredType := b.declaredType.map g.type }

def place (p : Place) : Place := { p with base := g.binding p.base }

lemma binding_injective : Function.Injective g.binding := by
  intro b b' h
  cases b
  cases b'
  simp only [binding, Binding.mk.injEq] at h ⊢
  exact ⟨h.1, h.2.1, Option.map_injective g.type.injective h.2.2.1, h.2.2.2⟩

lemma place_injective : Function.Injective g.place := by
  intro p q h
  cases p
  cases q
  simp only [place, Place.mk.injEq] at h ⊢
  exact ⟨g.binding_injective h.1, h.2⟩

variable {g} {b b' : Binding} {p q : Place}

@[simp] lemma binding_inj : g.binding b = g.binding b' ↔ b = b' := g.binding_injective.eq_iff

@[simp] lemma place_inj : g.place p = g.place q ↔ p = q := g.place_injective.eq_iff

@[simp] lemma ofBinding_binding (b : Binding) :
    Place.ofBinding (g.binding b) = g.place (.ofBinding b) :=
  rfl

@[simp] lemma base_place (p : Place) : (g.place p).base = g.binding p.base := rfl

@[simp] lemma path_place (p : Place) : (g.place p).path = p.path := rfl

@[simp] lemma project_place (p : Place) (step : Projection) :
    (g.place p).project step = g.place (p.project step) := rfl

@[simp] lemma strictPrefixes_place (p : Place) :
    (g.place p).strictPrefixes = p.strictPrefixes.map g.place := by
  simp only [Place.strictPrefixes, path_place, map_map]
  rfl

@[simp] lemma covers_place (p q : Place) : (g.place p).covers (g.place q) = p.covers q := by
  simp [Place.covers]

@[simp] lemma overlaps_place (p q : Place) : (g.place p).overlaps (g.place q) = p.overlaps q := by
  simp [Place.overlaps]

@[simp] lemma describe_place (p : Place) : (g.place p).describe = p.describe := rfl

@[simp] lemma relativePath_place (p : Place) : (g.place p).relativePath = p.relativePath := rfl

/-! ### Flows -/

variable (g)

def site (s : MoveSite) : MoveSite := { s with span := g.span s.span }

def flow (f : Flow) : Flow where
  states := f.states.relabel g.place g.place_injective id
  sites := f.sites.relabel g.place g.place_injective g.site
  returned := f.returned

def refusal : Refusal → Refusal
  | .uninitialized => .uninitialized
  | .moved cause => .moved (g.place cause)

variable {g} {f f' : Flow}

@[simp] lemma returned_flow (f : Flow) : (g.flow f).returned = f.returned := rfl

@[simp] lemma get?_states_flow (f : Flow) (p : Place) :
    (g.flow f).states.get? (g.place p) = f.states.get? p := by
  simp [flow, Registry.get?_relabel]

@[simp] lemma stateOf_flow (f : Flow) (p : Place) :
    (g.flow f).stateOf (g.place p) = f.stateOf p := by
  simp [Flow.stateOf]

@[simp] lemma siteOf_flow (f : Flow) (p : Place) :
    (g.flow f).siteOf (g.place p) = g.site (f.siteOf p) := by
  have hmissing : g.site .missing = .missing := by simp [site, MoveSite.missing, g.span_unknown]
  rw [Flow.siteOf, Flow.siteOf, flow, Registry.get?_relabel]
  cases f.sites.get? p with
  | none => exact hmissing.symm
  | some s => rfl

@[simp] lemma merge_flow (f f' : Flow) : (g.flow f).merge (g.flow f') = g.flow (f.merge f') := by
  unfold Flow.merge
  rw [returned_flow, returned_flow]
  cases f.returned with
  | true => rfl
  | false =>
    cases f'.returned with
    | true => rfl
    | false =>
      simp only [Bool.false_eq_true, if_false, flow, Flow.mk.injEq, and_true]
      refine ⟨Registry.combine_relabel _ _ _ _
        fun a b => by simp, Registry.combine_relabel _ _ _ _ ?_⟩
      intro a b
      cases a <;> rfl

@[simp] lemma isMoved_flow (f : Flow) (p : Place) :
    (g.flow f).isMoved (g.place p) = f.isMoved p := by
  simp [Flow.isMoved]

@[simp] lemma baseUninit_flow (f : Flow) (p : Place) :
    (g.flow f).baseUninit (g.place p) = f.baseUninit p := by
  simp [Flow.baseUninit]

lemma find?_isMoved_flow (f : Flow) (ps : List Place) :
    (ps.map g.place).find? (g.flow f).isMoved = (ps.find? f.isMoved).map g.place := by
  have hmoved : (g.flow f).isMoved ∘ g.place = f.isMoved := funext fun p => isMoved_flow f p
  rw [find?_map, hmoved]

@[simp] lemma movedConflict?_flow (f : Flow) (p : Place) :
    (g.flow f).movedConflict? (g.place p) = (f.movedConflict? p).map g.place := by
  have haround : (g.place p).strictPrefixes ++ [g.place p] =
      (p.strictPrefixes ++ [p]).map g.place := by
    simp
  unfold Flow.movedConflict?
  rw [haround, find?_isMoved_flow]
  simp only [flow, Registry.relabel, find?_map, Function.comp_def, Option.map_map, ne_eq,
    Prod.map_fst, Prod.map_snd, id_eq, place_inj, covers_place]
  cases (p.strictPrefixes ++ [p]).find? f.isMoved with
  | none => simp [Function.comp_def]
  | some q => rfl

@[simp] lemma refusal?_flow (f : Flow) (p : Place) :
    (g.flow f).refusal? (g.place p) = (f.refusal? p).map g.refusal := by
  simp only [Flow.refusal?, baseUninit_flow, movedConflict?_flow]
  split
  · rfl
  · cases f.movedConflict? p <;> rfl

@[simp] lemma writeRefusal?_flow (f : Flow) (p : Place) :
    (g.flow f).writeRefusal? (g.place p) = (f.writeRefusal? p).map g.refusal := by
  simp only [Flow.writeRefusal?, path_place, baseUninit_flow, strictPrefixes_place,
    find?_isMoved_flow]
  split
  · rfl
  · split
    · rfl
    · cases p.strictPrefixes.find? f.isMoved <;> rfl

@[simp] lemma mark_flow (f : Flow) (p : Place) (st : PlaceState) :
    (g.flow f).mark (g.place p) st = g.flow (f.mark p st) := by
  simp only [Flow.mark, flow, Flow.mk.injEq, and_true]
  exact Registry.insert_relabel g.place_injective id f.states p st

@[simp] lemma resetBelow_flow (f : Flow) (p : Place) :
    (g.flow f).resetBelow (g.place p) = g.flow (f.resetBelow p) := by
  simp only [Flow.resetBelow, flow, Flow.mk.injEq, and_true]
  constructor <;> exact Registry.keep_relabel _ _ _ fun q => by simp

@[simp] lemma moveOut_flow (f : Flow) (p : Place) (s : MoveSite) :
    (g.flow f).moveOut (g.place p) (g.site s) = g.flow (f.moveOut p s) := by
  simp only [Flow.moveOut, resetBelow_flow, mark_flow]
  simp only [flow, Flow.mk.injEq, true_and, and_true]
  exact Registry.insert_relabel g.place_injective g.site _ p s

@[simp] lemma refill_flow (f : Flow) (p : Place) :
    (g.flow f).refill (g.place p) = g.flow (f.refill p) := by
  simp only [Flow.refill, resetBelow_flow, mark_flow]

@[simp] lemma forget_flow (f : Flow) (b : Binding) :
    (g.flow f).forget (g.binding b) = g.flow (f.forget b) := by
  simp only [Flow.forget, flow, Flow.mk.injEq, and_true]
  constructor <;> exact Registry.keep_relabel _ _ _ fun q => by simp

@[simp] lemma movedParts_flow (f : Flow) (b : Binding) :
    (g.flow f).movedParts (g.binding b) = (f.movedParts b).map g.place := by
  simp only [Flow.movedParts, flow, Registry.relabel, filter_map, map_map,
    Function.comp_def, Prod.map_fst, Prod.map_snd, id_eq, base_place, path_place, binding_inj]

@[simp] lemma status_flow (f : Flow) (b : Binding) :
    (g.flow f).status (g.binding b) = f.status b := by
  unfold Flow.status
  rw [ofBinding_binding, stateOf_flow, movedParts_flow]
  cases f.stateOf (.ofBinding b) with
  | uninit => rfl
  | moved => rfl
  | owned => cases f.movedParts b <;> simp

/-! ### Loans -/

variable (g)

def holder (h : Holder) : Holder := { h with binding := g.binding h.binding }

def loan (l : Loan) : Loan where
  id := l.id
  place := g.place l.place
  kind := l.kind
  start := l.start
  span := g.span l.span
  stop := l.stop
  holders := l.holders.map g.holder
  loop := l.loop

variable {g}

@[simp] lemma activeAt_loan (l : Loan) (p : Int) : (g.loan l).activeAt p = l.activeAt p := rfl

@[simp] lemma info_loan (l : Loan) : (g.loan l).info = l.info := rfl

/-! ### Scope trees -/

variable (g)

def tree (t : ScopeTree) : ScopeTree where
  events := t.events.map g.event
  scopes := t.scopes
  bindings := t.bindings.map g.binding
  loops := t.loops
  positions := t.positions
  opened := t.opened
  resolved := t.resolved.relabel id Function.injective_id g.binding
  uses := t.uses
  defs := t.defs

variable {g} {t : ScopeTree}

@[simp] lemma scopeOf_tree (label : Int) (kind : String) :
    (g.tree t).scopeOf label kind = t.scopeOf label kind := rfl

@[simp] lemma resolve_tree (label : Int) (name : String) :
    (g.tree t).resolve label name = (t.resolve label name).map g.binding :=
  Registry.get?_relabel Function.injective_id g.binding t.resolved (label, name)

@[simp] lemma declaredBy_tree (label : Int) :
    (g.tree t).declaredBy label = (t.declaredBy label).map g.binding := by
  simp only [ScopeTree.declaredBy, tree, filter_map]
  rfl

@[simp] lemma bindingsOf_tree (scope : Nat) :
    (g.tree t).bindingsOf scope = (t.bindingsOf scope).map g.binding := by
  simp only [ScopeTree.bindingsOf, tree, filter_map]
  rfl

@[simp] lemma dropOrder_tree (scope : Nat) :
    (g.tree t).dropOrder scope = (t.dropOrder scope).map g.binding := by
  simp [ScopeTree.dropOrder]

@[simp] lemma attach_loan (b : Binding) (since : Int) (l : Loan) :
    (g.loan l).attach (g.tree t) (g.binding b) since = g.loan (l.attach t b since) := by
  have hheld :
      (g.loan l).holders.any (fun h => h.binding.index = (g.binding b).index && h.since = since) =
      l.holders.any fun h => h.binding.index = b.index && h.since = since := by
    simp only [loan, any_map]
    rfl
  unfold Loan.attach
  rw [hheld]
  split
  · rfl
  · simp only [loan, map_append, Loan.mk.injEq, true_and]
    exact ⟨rfl, rfl, rfl⟩

@[simp] lemma heldBy_loan (b : Binding) (p : Int) (l : Loan) :
    (g.loan l).heldBy (g.tree t) (g.binding b) p = l.heldBy t b p := by
  simp only [Loan.heldBy, loan, any_map]
  rfl

end Guise

end Ownership
