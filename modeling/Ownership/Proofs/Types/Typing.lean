import Ownership.Proofs.Types.Tables

/-!
# Which faults types lead to

A type that arises while a function is analysed is made of numbers of the table. If the table and
the stated types lead to allowed faults only, then so do all questions about types: those of places,
of expressions, of binders and of the bindings of a function.
-/

namespace Ownership

open List

variable {P : Fault → Prop}

/-! ### Types of the body -/

namespace TypeDef

variable {d : TypeDef} {name : String} {m : FieldDecl}

lemma mem_members_of_field? (h : d.field? name = some m) : m ∈ d.members := by
  have hmem : m ∈ d.fields := mem_of_find?_eq_some h
  unfold fields at hmem
  unfold members
  split at hmem
  · rename_i fields hs
    rw [hs]
    exact hmem
  · cases hmem

lemma mem_members_of_arm? {a : VariantArm} (h : d.arm? name = some a) (hm : m ∈ a.fields) :
    m ∈ d.members := by
  have hmem : a ∈ d.arms := mem_of_find?_eq_some h
  unfold arms at hmem
  unfold members
  split at hmem
  · rename_i arms hs
    rw [hs]
    exact mem_flatMap.mpr ⟨a, hmem, hm⟩
  · cases hmem

end TypeDef

namespace TypeTable

variable {t : TypeTable} {ty : Ty}

/-- Whether the numbers in a type have types, unless it is allowed that they have none. -/
def Knows (t : TypeTable) (P : Fault → Prop) : Ty → Prop
  | .unknown => True
  | .named id => t.Has P id
  | .ref inner _ => t.Knows P inner

lemma knows_ofOption {id? : Option TypeId} (h : ∀ id, id? = some id → t.Has P id) :
    t.Knows P (.ofOption id?) := by
  cases id? with
  | none => exact trivial
  | some id => exact h id rfl

namespace Allows

variable (h : t.Allows P)

include h

lemma yields_tyIsCopy (hk : t.Knows P ty) : Yields P (t.tyIsCopy ty) fun _ => True := by
  cases ty with
  | unknown => exact trivial
  | named id => exact h.yields_copies hk
  | ref inner mutable => exact trivial

omit h in
lemma yields_tyIsRef (hk : t.Knows P ty) : Yields P (t.tyIsRef ty) fun _ => True := by
  cases ty with
  | unknown => exact trivial
  | named id => exact (yields_get hk).map fun _ _ => trivial
  | ref inner mutable => exact trivial

omit h in
lemma yields_tyIsMutRef (hk : t.Knows P ty) : Yields P (t.tyIsMutRef ty) fun _ => True := by
  cases ty with
  | unknown => exact trivial
  | named id => exact (yields_get hk).map fun _ _ => trivial
  | ref inner mutable => exact trivial

omit h in
lemma yields_describeTy (hk : t.Knows P ty) : Yields P (t.describeTy ty) fun _ => True := by
  induction ty with
  | unknown => exact trivial
  | named id => exact (yields_get hk).map fun _ _ => trivial
  | ref inner mutable ih => exact (ih hk).bind fun _ _ => trivial

lemma yields_tyPointee (hk : t.Knows P ty) : Yields P (t.tyPointee ty) (t.Knows P) := by
  cases ty with
  | unknown => exact trivial
  | named id =>
    apply Yields.map (Q := fun inner? => ∀ inner, inner? = some inner → t.Has P inner)
    · apply (yields_get hk).map
      intro d hd inner hi
      exact h.pointee id d inner hd hi
    · intro inner? hinner
      exact knows_ofOption hinner
  | ref inner mutable => exact hk

lemma yields_aggregateFrom (kind : AggregateKind) (steps : Nat) {id : TypeId} (hid : t.Has P id) :
    Yields P (t.aggregateFrom kind steps id) fun d? => ∀ d, d? = some d → ∃ i,
      t.get? i = some d := by
  induction steps generalizing id with
  | zero => exact fun d hd => nomatch hd
  | succ steps ih =>
    rw [aggregateFrom]
    apply (yields_get hid).bind
    intro d hd
    split
    · rintro d' hd'
      cases hd'
      exact ⟨id, hd⟩
    · split
      · rename_i inner hi
        exact ih (h.pointee id d inner hd hi)
      · exact fun d hd => nomatch hd

lemma yields_aggregate? (kind : AggregateKind) (hk : t.Knows P ty) :
    Yields P (t.aggregate? kind ty) fun d? => ∀ d, d? = some d → ∃ i, t.get? i = some d := by
  induction ty with
  | unknown => exact fun d hd => nomatch hd
  | named id => exact h.yields_aggregateFrom kind _ hk
  | ref inner mutable ih => exact ih hk

lemma yields_tyField (name : String) (hk : t.Knows P ty) :
    Yields P (t.tyField ty name) (t.Knows P) := by
  apply (h.yields_aggregate? .struct hk).bind
  intro d? hd?
  cases d? with
  | none => exact trivial
  | some d =>
    obtain ⟨i, hi⟩ := hd? d rfl
    apply knows_ofOption
    intro id hid
    obtain ⟨m, hm, rfl⟩ := Option.map_eq_some_iff.mp hid
    exact h.member i d hi m (TypeDef.mem_members_of_field? hm)

end Allows

end TypeTable

/-! ### Signatures -/

/-- Whether the types that the signatures of a program mention are there, unless it is allowed that
they are not. -/
structure Program.Allows (p : Program) (P : Fault → Prop) : Prop where
  table : p.types.Allows P
  param : ∀ f ∈ p.functions, ∀ x ∈ f.params, ∀ id, x.type = some id → p.types.Has P id
  result : ∀ f ∈ p.functions, ∀ id, f.returnType = some id → p.types.Has P id
  external : ∀ name sig, p.externs.get? name = some sig → ∀ id, sig.returnType = some id →
    p.types.Has P id

lemma Yields.mapM {α β : Type} {f : α → Except Fault β} {l : List α}
    (h : ∀ a ∈ l, Yields P (f a) fun _ => True) : Yields P (l.mapM f) fun _ => True := by
  induction l with
  | nil => exact trivial
  | cons a l ih =>
    rw [mapM_cons]
    apply (h a mem_cons_self).bind
    intro _ _
    apply (ih fun b hb => h b (mem_cons_of_mem _ hb)).bind
    intro _ _
    exact trivial

lemma TypeTable.yields_modeOf {t : TypeTable} {id? : Option TypeId}
    (h : ∀ id, id? = some id → t.Has P id) : Yields P (t.modeOf id?) fun _ => True := by
  cases id? with
  | none => exact trivial
  | some id =>
    apply (yields_get (h id rfl)).bind
    intro _ _
    exact trivial

/-- The type that a callee returns is in the table. -/
lemma Program.Allows.yields_signature? {p : Program} (h : p.Allows P) (callee : String) :
    Yields P (p.signature? callee) fun sig? =>
      ∀ sig, sig? = some sig → ∀ id, sig.returnType = some id → p.types.Has P id := by
  rw [signature?]
  split
  · rename_i sig hs
    rintro sig' hsig
    cases hsig
    exact h.external callee sig hs
  · split
    · exact fun sig hsig => nomatch hsig
    · rename_i f hf
      have hmem : f ∈ p.functions := mem_of_find?_eq_some hf
      have hmodes : Yields P (f.params.mapM fun param => p.types.modeOf param.type) fun _ => True :=
        .mapM fun x hx => TypeTable.yields_modeOf (h.param f hmem x hx)
      have hsig : Yields P (p.signatureOf f) fun sig => sig.returnType = f.returnType := by
        apply hmodes.bind
        intro _ _
        exact rfl
      apply hsig.map
      rintro sig hret sig' hsig'
      cases hsig'
      rw [hret]
      exact h.result f hmem

/-! ### Typings -/

namespace Typing

variable {g : Typing} {ty : Ty} {meaning : String → Option Binding}

/-- Whether a typing gives types that are there, unless it is allowed that they are not. -/
structure Allows (g : Typing) (P : Fault → Prop) : Prop where
  program : g.program.Allows P
  bindings : ∀ index ty, g.bindings.get? index = some ty → g.table.Knows P ty

namespace Allows

lemma assign (h : g.Allows P) (b : Binding) (hk : g.table.Knows P ty) :
    (g.assign b ty).Allows P := by
  refine ⟨h.program, fun index ty' hty => ?_⟩
  rw [Typing.assign, Registry.get?_insert] at hty
  split at hty
  · cases hty
    exact hk
  · exact h.bindings index ty' hty

variable (h : g.Allows P)

include h

lemma table : g.table.Allows P := h.program.table

lemma knows_bindingType (b : Binding) : g.table.Knows P (g.bindingType b) := by
  rw [bindingType]
  cases hb : g.bindings.get? b.index with
  | none => exact trivial
  | some ty => exact h.bindings b.index ty hb

lemma yields_followPath (path : List Projection) (hk : g.table.Knows P ty) :
    Yields P (g.followPath ty path) (g.table.Knows P) := by
  induction path generalizing ty with
  | nil => exact hk
  | cons step rest ih =>
    rw [followPath.eq_def]
    dsimp only
    split
    · exact trivial
    · exact (h.table.yields_tyPointee hk).bind fun _ hk' => ih hk'
    · exact (h.table.yields_tyField _ hk).bind fun _ hk' => ih hk'

lemma yields_placeType (p : Place) : Yields P (g.placeType p) (g.table.Knows P) :=
  h.yields_followPath p.path (h.knows_bindingType p.base)

lemma knows_lookup (name : String) : g.table.Knows P (.ofOption (g.table.lookup name)) :=
  TypeTable.knows_ofOption (h.table.named name)

lemma knows_literalType (value : Literal) : g.table.Knows P (g.literalType value) := by
  cases value with
  | other => exact trivial
  | _ => exact h.knows_lookup _

/-- The type of a known expression is made of types of the table. -/
lemma yields_exprType (e : Expr) (he : e.firstForeign? = none) :
    Yields P (g.exprType meaning e) (g.table.Knows P) := by
  match e with
  | .absent => exact trivial
  | .literal value _ => exact h.knows_literalType value
  | .var name l =>
    rw [exprType]
    split
    · exact h.yields_placeType _
    · exact trivial
  | .field e name l =>
    rw [exprType]
    split
    · exact h.yields_placeType _
    · exact (yields_exprType e he).bind fun _ hk => h.table.yields_tyField name hk
  | .deref e l =>
    rw [exprType]
    split
    · exact h.yields_placeType _
    · exact (yields_exprType e he).bind fun _ hk => h.table.yields_tyPointee hk
  | .borrow e mutable _ => exact (yields_exprType e he).bind fun _ hk => hk
  | .call callee _ _ =>
    apply (h.program.yields_signature? callee).bind
    intro sig? hsig
    cases sig? with
    | none => exact trivial
    | some sig => exact TypeTable.knows_ofOption (hsig sig rfl)
  | .construct typeName _ _ _ => exact h.knows_lookup typeName
  | .binary op left right _ =>
    rw [Expr.firstForeign?, Option.or_eq_none_iff] at he
    rw [exprType]
    split
    · exact h.knows_lookup _
    · exact yields_exprType left he.1
  | .foreign kind => cases he

lemma yields_lastRef? (ps : List Place) : Yields P (g.lastRef? ps) fun _ => True := by
  induction ps with
  | nil => exact trivial
  | cons p rest ih =>
    apply (h.yields_placeType p).bind
    intro ty hk
    apply (TypeTable.Allows.yields_tyIsRef hk).bind
    intro _ _
    exact ih.bind fun _ _ => trivial

lemma yields_refPrefix? (p : Place) : Yields P (g.refPrefix? p) fun _ => True :=
  h.yields_lastRef? p.strictPrefixes

/-! ### Selections -/

omit h in
lemma mem_members_of_armFields {d? : Option TypeDef} {variant : Option String} {m : FieldDecl}
    (hm : m ∈ armFields d? variant) : ∃ d, d? = some d ∧ m ∈ d.members := by
  cases d? with
  | none => cases hm
  | some d =>
    cases variant with
    | none => cases hm
    | some name =>
      cases harm : d.arm? name with
      | none => simp [armFields, harm] at hm
      | some arm =>
        refine ⟨d, rfl, TypeDef.mem_members_of_arm? harm ?_⟩
        rw [armFields, harm] at hm
        exact hm

lemma yields_scrutineeType {scrutinee : Expr} {stated : Option TypeId}
    (he : scrutinee.firstForeign? = none) (hs : ∀ id, stated = some id → g.table.Has P id) :
    Yields P (g.scrutineeType meaning scrutinee stated) (g.table.Knows P) := by
  cases stated with
  | none => exact h.yields_exprType scrutinee he
  | some id => exact hs id rfl

lemma yields_binderTypes (a : Arm) (hk : g.table.Knows P ty) :
    Yields P (g.binderTypes ty a) fun types => ∀ ty ∈ types, g.table.Knows P ty := by
  apply (h.table.yields_aggregate? .variant hk).bind
  intro d? hd?
  apply (TypeTable.Allows.yields_tyIsRef hk).bind
  intro isRef _
  apply (TypeTable.Allows.yields_tyIsMutRef hk).bind
  intro isMutRef _ ty' hty'
  obtain ⟨i, -, rfl⟩ := mem_map.mp hty'
  -- A binder has the type of a field, which is a member of the variant, or is a reference to it.
  have hfield :
      g.table.Knows P (.ofOption (((armFields d? a.variant)[i]?).map FieldDecl.type)) := by
    apply TypeTable.knows_ofOption
    intro id hid
    obtain ⟨m, hm, rfl⟩ := Option.map_eq_some_iff.mp hid
    obtain ⟨d, hd, hmem⟩ := mem_members_of_armFields (mem_of_getElem? hm)
    obtain ⟨j, hj⟩ := hd? d hd
    exact h.table.member j d hj m hmem
  dsimp only
  split
  · exact hfield
  · exact hfield

end Allows

end Typing

/-! ### Streams -/

namespace Node

/-- The expressions whose type may be asked for at a node. -/
def typed : Node → List Expr
  | stmt s => s.expressions
  | arm _ (some sel) => [sel.scrutinee]
  | _ => []

def statedType? : Node → Option TypeId
  | param p => p.type
  | stmt (.declare _ type _ _ _) => type
  | stmt (.select _ _ type _) => type
  | arm _ (some sel) => sel.type
  | _ => none

/-- Whether a node and the expressions at it are of known kinds, and the type that it states is
there, unless it is allowed that it is not. -/
structure Allowed (t : TypeTable) (P : Fault → Prop) (n : Node) : Prop where
  ne_foreign : ∀ kind, n ≠ .stmt (.foreign kind)
  known : ∀ e ∈ n.typed, e.firstForeign? = none
  stated : ∀ id, n.statedType? = some id → t.Has P id

end Node

namespace Typing

variable {g : Typing} {tree : ScopeTree}

lemma Allows.assignAll (h : g.Allows P) (bs : List (Binding × Ty))
    (hk : ∀ b ∈ bs, g.table.Knows P b.2) :
    (bs.foldl (fun g (b, ty) => g.assign b ty) g).Allows P ∧
      (bs.foldl (fun g (b, ty) => g.assign b ty) g).program = g.program := by
  induction bs generalizing g with
  | nil => exact ⟨h, rfl⟩
  | cons b bs ih =>
    exact ih (h.assign b.1 (hk b mem_cons_self)) fun b' hb' =>
      hk b' (mem_cons_of_mem _ hb')

lemma foldl_assign (bs : List Binding) (ty : Ty) (g : Typing) :
    bs.foldl (fun g b => g.assign b ty) g =
      (bs.map fun b => (b, ty)).foldl (fun g (b, ty) => g.assign b ty) g := by
  rw [foldl_map]

/-- Bindings get types of the table only. -/
lemma Allows.yields_readEvent (h : g.Allows P) {e : Event}
    (he : e.kind = .step → e.node.Allowed g.table P) :
    Yields P (g.readEvent tree e) fun g' => g'.Allows P ∧ g'.program = g.program := by
  rw [readEvent]
  split
  · rename_i p hs hn
    have hp := (he hs).stated
    rw [hn] at hp
    rw [foldl_assign]
    apply h.assignAll
    intro b hb
    obtain ⟨b', -, rfl⟩ := mem_map.mp hb
    exact TypeTable.knows_ofOption hp
  · rename_i name type value mutable loc hs hn
    obtain ⟨-, hknown, hstated⟩ := he hs
    rw [hn] at hknown hstated
    have hall : ∀ ty, g.table.Knows P ty →
        Yields P (.ok ((tree.declaredBy e.label).foldl (fun g b => g.assign b ty) g))
          fun g' => g'.Allows P ∧ g'.program = g.program := by
      intro ty hk
      rw [foldl_assign]
      apply h.assignAll
      intro b hb
      obtain ⟨b', -, rfl⟩ := mem_map.mp hb
      exact hk
    cases type with
    | none => exact (h.yields_exprType value (hknown value mem_cons_self)).bind hall
    | some id => exact hall _ (hstated id rfl)
  · rename_i a sel hs hn
    obtain ⟨-, hknown, hstated⟩ := he hs
    rw [hn] at hknown hstated
    apply (h.yields_scrutineeType (hknown sel.scrutinee mem_cons_self) hstated).bind
    intro ty hk
    apply (h.yields_binderTypes a hk).bind
    intro types htypes
    apply h.assignAll
    intro b hb
    have hmem : b.2 ∈ namedTypes a types := (of_mem_zip hb).2
    obtain ⟨c, hc, hcb⟩ := mem_map.mp hmem
    rw [← hcb]
    exact htypes _ (of_mem_zip (mem_filter.mp hc).1).2
  · exact ⟨h, rfl⟩

theorem Allows.yields_readEvents (h : g.Allows P) (tree : ScopeTree) (es : List Event)
    (hes : ∀ e ∈ es, e.kind = .step → e.node.Allowed g.table P) :
    Yields P (g.readEvents tree es) fun g' => g'.Allows P ∧ g'.program = g.program := by
  induction es generalizing g with
  | nil => exact ⟨h, rfl⟩
  | cons e rest ih =>
    apply (h.yields_readEvent (hes e mem_cons_self)).bind
    rintro g' ⟨hg', hp⟩
    have hrest : ∀ e ∈ rest, e.kind = .step → e.node.Allowed g'.table P := by
      intro e' he' hs
      rw [Typing.table, hp]
      exact hes e' (mem_cons_of_mem _ he') hs
    apply (ih hg' hrest).mono
    rintro g'' ⟨hg'', hp'⟩
    exact ⟨hg'', hp'.trans hp⟩

end Typing

end Ownership
