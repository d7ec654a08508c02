import Ownership.Proofs.Types.Typing

/-!
# Programs that look alike

Types inside a function are found by looking up definitions and names in the type table and
signatures of callees in the program. Two programs that agree on these lookups give all places and
expressions the same types, whatever their tables remember besides and in whatever order they list
their functions.
-/

namespace Ownership

namespace TypeTable

/-- Whether two tables have the same definitions and names. -/
structure Alike (t t' : TypeTable) : Prop where
  defs : t'.defs = t.defs
  names : t'.names = t.names

namespace Alike

variable {t t' t'' : TypeTable}

lemma refl (t : TypeTable) : t.Alike t := ⟨rfl, rfl⟩

lemma symm (h : t.Alike t') : t'.Alike t := ⟨h.defs.symm, h.names.symm⟩

lemma trans (h : t.Alike t') (h' : t'.Alike t'') : t.Alike t'' :=
  ⟨h'.defs.trans h.defs, h'.names.trans h.names⟩

lemma warm (t : TypeTable) : t.Alike t.warm := ⟨defs_warm t, names_warm t⟩

variable (h : t.Alike t')

include h

lemma get : t'.get = t.get := by
  funext id
  rw [TypeTable.get, TypeTable.get, get?_congr h.defs]

lemma size : t'.size = t.size := congrArg List.length h.defs

lemma lookup : t'.lookup = t.lookup := by
  funext name
  rw [TypeTable.lookup, TypeTable.lookup, h.names]

lemma tyIsRef : t'.tyIsRef = t.tyIsRef := by
  funext ty
  cases ty <;> simp only [TypeTable.tyIsRef, h.get]

lemma tyIsMutRef : t'.tyIsMutRef = t.tyIsMutRef := by
  funext ty
  cases ty <;> simp only [TypeTable.tyIsMutRef, h.get]

lemma tyPointee : t'.tyPointee = t.tyPointee := by
  funext ty
  cases ty <;> simp only [TypeTable.tyPointee, pointee, h.get]

lemma describeTy : t'.describeTy = t.describeTy := by
  funext ty
  induction ty with
  | unknown => rfl
  | named id => simp only [TypeTable.describeTy, nameOf, h.get]
  | ref inner mutable ih => rw [TypeTable.describeTy, TypeTable.describeTy, ih]

lemma aggregateFrom (kind : AggregateKind) (steps : Nat) :
    t'.aggregateFrom kind steps = t.aggregateFrom kind steps := by
  induction steps with
  | zero => rfl
  | succ steps ih =>
    funext id
    rw [TypeTable.aggregateFrom, TypeTable.aggregateFrom, h.get, ih]

lemma aggregate? (kind : AggregateKind) : t'.aggregate? kind = t.aggregate? kind := by
  funext ty
  induction ty with
  | unknown => rfl
  | named id => rw [TypeTable.aggregate?, TypeTable.aggregate?, h.size, h.aggregateFrom]
  | ref inner mutable ih => exact ih

lemma tyField : t'.tyField = t.tyField := by
  funext ty name
  rw [TypeTable.tyField, TypeTable.tyField, h.aggregate?]

lemma modeOf : t'.modeOf = t.modeOf := by
  funext id?
  cases id? <;> simp only [TypeTable.modeOf, h.get]

end Alike

end TypeTable

namespace Program

/-- Whether two programs have tables that are alike and give all callees the same signatures. -/
structure Alike (p q : Program) : Prop where
  types : p.types.Alike q.types
  signature? : q.signature? = p.signature?

namespace Alike

variable {p q r : Program}

lemma symm (h : p.Alike q) : q.Alike p := ⟨h.types.symm, h.signature?.symm⟩

lemma trans (h : p.Alike q) (h' : q.Alike r) : p.Alike r :=
  ⟨h.types.trans h'.types, h'.signature?.trans h.signature?⟩

lemma of_function? (htypes : p.types.Alike q.types) (hexterns : q.externs = p.externs)
    (hfunction : q.function? = p.function?) : p.Alike q := by
  refine ⟨htypes, ?_⟩
  have hof : q.signatureOf = p.signatureOf := by
    funext f
    rw [signatureOf, signatureOf, htypes.modeOf]
  funext callee
  rw [Program.signature?, Program.signature?, hexterns, hfunction, hof]

lemma of_types {t : TypeTable} (h : p.types.Alike t) : p.Alike { p with types := t } :=
  of_function? h rfl rfl

end Alike

end Program

namespace Typing

def under (g : Typing) (q : Program) : Typing := { g with program := q }

variable {g : Typing} {q : Program} (h : g.program.Alike q)

include h

lemma alike_table : g.table.Alike (g.under q).table := h.types

lemma placeType_under : (g.under q).placeType = g.placeType := by
  have hfollow : ∀ path ty, (g.under q).followPath ty path = g.followPath ty path := by
    intro path
    induction path with
    | nil => exact fun _ => rfl
    | cons step rest ih =>
      intro ty
      cases ty <;> cases step <;>
        simp only [followPath, (alike_table h).tyPointee, (alike_table h).tyField, ih]
  funext p
  exact hfollow p.path _

lemma literalType_under (value : Literal) :
    (g.under q).literalType value = g.literalType value := by
  cases value <;> simp only [literalType, (alike_table h).lookup]

lemma exprType_under (meaning : String → Option Binding) (e : Expr) :
    (g.under q).exprType meaning e = g.exprType meaning e := by
  match e with
  | .absent | .foreign _ => rfl
  | .literal value _ => simp only [exprType, literalType_under h]
  | .var name _ => simp only [exprType, placeType_under h]
  | .field e name _ =>
    simp only [exprType, placeType_under h, (alike_table h).tyField, exprType_under meaning e]
  | .deref e _ =>
    simp only [exprType, placeType_under h, (alike_table h).tyPointee, exprType_under meaning e]
  | .borrow e mutable _ => simp only [exprType, exprType_under meaning e]
  | .call callee args _ => simp only [exprType, under, h.signature?]
  | .construct typeName variant args _ => simp only [exprType, (alike_table h).lookup]
  | .binary op left right _ =>
    simp only [exprType, (alike_table h).lookup, exprType_under meaning left]

lemma refPrefix?_under : (g.under q).refPrefix? = g.refPrefix? := by
  have hlast : ∀ ps, (g.under q).lastRef? ps = g.lastRef? ps := by
    intro ps
    induction ps with
    | nil => rfl
    | cons p rest ih =>
      simp only [lastRef?, (alike_table h).tyIsRef, placeType_under h, ih]
  funext p
  exact hlast _

lemma scrutineeType_under : (g.under q).scrutineeType = g.scrutineeType := by
  funext meaning scrutinee stated
  cases stated with
  | none => exact exprType_under h meaning scrutinee
  | some id => rfl

lemma binderTypes_under : (g.under q).binderTypes = g.binderTypes := by
  funext ty a
  simp only [binderTypes, (alike_table h).aggregate?, (alike_table h).tyIsRef,
    (alike_table h).tyIsMutRef]

end Typing

/-! ### Computing the types of bindings -/

namespace Typing

variable {g g' : Typing} {q : Program} {tree : ScopeTree}

lemma program_readEvent {e : Event} (h : g.readEvent tree e = .ok g') : g'.program = g.program := by
  have hall : ∀ (bs : List Binding) (ty : Ty),
      (bs.foldl (fun g b => g.assign b ty) g).program = g.program := fun bs ty =>
    foldl_keeps (g := fun g b => g.assign b ty) Typing.program (fun _ _ => rfl) bs g
  unfold readEvent at h
  split at h
  · rw [← Except.ok.inj h]
    exact hall _ _
  · rename_i type value mutable loc hk hn
    cases type with
    | some id =>
      rw [← Except.ok.inj h]
      exact hall _ _
    | none =>
      obtain ⟨ty, -, h⟩ := bind_eq_ok.mp h
      rw [← Except.ok.inj h]
      exact hall _ _
  · obtain ⟨ty, -, h⟩ := bind_eq_ok.mp h
    obtain ⟨types, -, h⟩ := bind_eq_ok.mp h
    rw [← Except.ok.inj h]
    exact foldl_keeps (g := fun g (b, ty) => g.assign b ty) Typing.program (fun _ _ => rfl) _ g
  · rw [← Except.ok.inj h]

lemma program_readEvents {es : List Event} (h : g.readEvents tree es = .ok g') :
    g'.program = g.program := by
  induction es generalizing g with
  | nil => rw [← Except.ok.inj h]
  | cons e es ih =>
    obtain ⟨m, hm, h⟩ := bind_eq_ok.mp h
    rw [ih h, program_readEvent hm]

lemma foldl_assign_under {α : Type} (bs : List α) (binding : α → Binding) (ty : α → Ty)
    (g : Typing) :
    bs.foldl (fun g b => g.assign (binding b) (ty b)) (g.under q) =
      (bs.foldl (fun g b => g.assign (binding b) (ty b)) g).under q := by
  induction bs generalizing g with
  | nil => rfl
  | cons b rest ih => exact ih (g.assign (binding b) (ty b))

lemma readEvent_under (h : g.program.Alike q) (e : Event) :
    (g.under q).readEvent tree e = (under · q) <$> g.readEvent tree e := by
  have hall : ∀ (bs : List Binding) (ty : Ty), bs.foldl (fun g b => g.assign b ty) (g.under q) =
      (bs.foldl (fun g b => g.assign b ty) g).under q :=
    fun bs ty => foldl_assign_under bs id (fun _ => ty) g
  unfold readEvent
  split
  · exact congrArg Except.ok (hall _ _)
  · rename_i type value mutable loc hk hn
    cases type with
    | some id => exact congrArg Except.ok (hall _ _)
    | none =>
      simp only [exprType_under h]
      cases g.exprType (tree.resolve e.label) value with
      | error fault => rfl
      | ok ty => exact congrArg Except.ok (hall _ _)
  · rename_i a sel hk hn
    rw [scrutineeType_under h, binderTypes_under h]
    cases g.scrutineeType (tree.resolve sel.label) sel.scrutinee sel.type with
    | error fault => rfl
    | ok ty =>
      simp only [bind, Except.bind]
      cases g.binderTypes ty a with
      | error fault => rfl
      | ok types => exact congrArg Except.ok (foldl_assign_under _ Prod.fst Prod.snd g)
  · rfl

lemma readEvents_under (h : g.program.Alike q) (es : List Event) :
    (g.under q).readEvents tree es = (under · q) <$> g.readEvents tree es := by
  induction es generalizing g with
  | nil => rfl
  | cons e es ih =>
    rw [readEvents, readEvents, readEvent_under h]
    cases hm : g.readEvent tree e with
    | error fault => rfl
    | ok m => exact ih (by rwa [program_readEvent hm])

lemma ofTree_under {p : Program} (h : p.Alike q) (tree : ScopeTree) :
    ofTree q tree = (under · q) <$> ofTree p tree :=
  readEvents_under (g := { program := p }) h tree.events

end Typing

namespace Context

variable {c : Context} {p q : Program} {f : Function} {options : Options}

def under (c : Context) (q : Program) :
    Context := { c with program := q, typing := c.typing.under q }

lemma build_under (h : p.Alike q) (f : Function) (options : Options) :
    build q f options = (under · q) <$> build p f options := by
  rw [build, build]
  cases ScopeTree.ofFunction f with
  | error fault => rfl
  | ok tree =>
    simp only [bind, Except.bind]
    rw [Typing.ofTree_under h]
    cases Typing.ofTree p tree <;> rfl

lemma programs_of_build (h : build p f options = .ok c) : c.program = p ∧ c.typing.program = p := by
  obtain ⟨tree, typing, -, htyping, rfl⟩ := build_cases h
  exact ⟨rfl, Typing.program_readEvents htyping⟩

end Context

end Ownership
