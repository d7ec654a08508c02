import Ownership.Proofs.Sketch.Growth

/-!
# Declaring the types

The types of a sketch are declared before anything in it is taken. This succeeds exactly if their
names differ from each other and from those of the types that are always there, whatever their
order.
-/

namespace Ownership.Sketch

open List

open TypeTable (builtinTable)

variable {known is : List Item} {i : Item} {t t' : TypeTable} {name other : String} {shape : Shape}
  {loc : Span}

/-- The type that a declaration declares, with its shape as long as nothing else is known about
it. -/
def Item.declares? : Item → Option (String × Shape)
  | struct name _ _ => some (name, .struct [])
  | variant name _ _ => some (name, .variant [])
  | outside .. | function _ => none

/-- The name of the type that a declaration declares. -/
def Item.typeName? (i : Item) : Option String := i.declares?.map Prod.fst

/-! ### Names -/

@[simp] lemma structNames_append (is is' : List Item) :
    structNames (is ++ is') = structNames is ++ structNames is' := filterMap_append

@[simp] lemma variantNames_append (is is' : List Item) :
    variantNames (is ++ is') = variantNames is ++ variantNames is' := filterMap_append

lemma typeNames_sublist (is more : List Item) :
    (typeNames is).Sublist (typeNames (is ++ more)) := by
  rw [typeNames, typeNames, structNames_append, variantNames_append]
  have hstructs := sublist_append_left (structNames is) (structNames more)
  exact ((List.Sublist.refl builtinNames).append hstructs).append (sublist_append_left _ _)

lemma mem_structNames_of_declares? (h : i.declares? = some (name, shape)) :
    other ∈ structNames [i] ↔ other = name ∧ (TypeDef.mk name shape).isStruct := by
  cases i <;> cases h <;> simp [structNames, TypeDef.isStruct]

lemma mem_variantNames_of_declares? (h : i.declares? = some (name, shape)) :
    other ∈ variantNames [i] ↔ other = name ∧ (TypeDef.mk name shape).isVariant := by
  cases i <;> cases h <;> simp [variantNames, TypeDef.isVariant]

lemma structNames_of_declares?_eq_none (h : i.declares? = none) : structNames [i] = [] := by
  cases i <;> cases h <;> rfl

lemma variantNames_of_declares?_eq_none (h : i.declares? = none) : variantNames [i] = [] := by
  cases i <;> cases h <;> rfl

lemma typeNames_perm (is : List Item) :
    (typeNames is).Perm (builtinNames ++ is.filterMap Item.typeName?) := by
  rw [typeNames, append_assoc]
  refine .append_left _ ?_
  induction is with
  | nil => exact .nil
  | cons i is ih =>
    cases i with
    | struct name fields loc => exact ih.cons name
    | variant name arms loc => exact perm_middle.trans (ih.cons name)
    | outside | function => exact ih

lemma mem_typeNames_append_iff : name ∈ typeNames (known ++ [i]) ↔
    name ∈ typeNames known ∨ i.typeName? = some name := by
  rw [(typeNames_perm _).mem_iff, (typeNames_perm _).mem_iff, filterMap_append]
  cases h : i.typeName? <;> simp [h, or_assoc, eq_comm]

lemma nodup_typeNames_append_iff : (typeNames (known ++ [i])).Nodup ↔
    (typeNames known).Nodup ∧ ∀ name ∈ i.typeName?, name ∉ typeNames known := by
  have hperm : (typeNames (known ++ [i])).Perm (typeNames known ++ i.typeName?.toList) := by
    refine (typeNames_perm _).trans (.trans ?_ ((typeNames_perm known).append_right _).symm)
    rw [filterMap_append, append_assoc]
    cases h : i.typeName? <;> simp [h]
  rw [hperm.nodup_iff, nodup_append]
  cases i.typeName? with
  | none => simp
  | some name => simp [forall_mem_ne']

/-! ### One declaration -/

lemma discard_table_eq_ok_iff {α : Type} {step : TypeTable → Except Fault (α × TypeTable)} :
    discard (Build.table loc step) t = .ok ((), t') ↔ ∃ a, step t = .ok (a, t') := by
  cases h : step t with
  | error fault =>
    simp [discard, Functor.discard, Functor.mapConst, StateT.map, Build.table, h, Except.mapError]
  | ok r =>
    obtain ⟨a, u⟩ := r
    simp [discard, Functor.discard, Functor.mapConst, StateT.map, Build.table, h, Except.mapError]

lemma declare_eq_ok_iff (h : i.declares? = some (name, shape)) :
    i.declare t = .ok ((), t') ↔ ∃ id, t.addNamed name shape = .ok (id, t') := by
  cases i with
  | struct name' fields loc =>
    cases h
    have hdeclare : t.declareStruct name none = t.addNamed name (.struct []) := by
      unfold TypeTable.declareStruct
      cases t.addNamed name (.struct []) <;> rfl
    rw [Item.declare, discard_table_eq_ok_iff, hdeclare]
  | variant name' arms loc =>
    cases h
    have hdeclare : t.declareVariant name none = t.addNamed name (.variant []) := by
      unfold TypeTable.declareVariant
      cases t.addNamed name (.variant []) <;> rfl
    rw [Item.declare, discard_table_eq_ok_iff, hdeclare]
  | outside | function => cases h

lemma declare_of_declares?_eq_none (h : i.declares? = none) : i.declare t = .ok ((), t) := by
  cases i <;> cases h <;> rfl

/-- A table to which only declarations have been added. -/
structure Declared (known : List Item) (t : TypeTable) : Prop extends t.Serves known where
  bare : ∀ inner w, t.wrapped? inner w = none
  grows : builtinTable.Grows t
  keeps : builtinTable.Keeps t

variable (h : Declared known t)

include h

lemma Declared.of_perm {known' : List Item}
    (hstructs : (structNames known').Perm (structNames known))
    (hvariants : (variantNames known').Perm (variantNames known)) : Declared known' t where
  toServes := h.toServes.of_perm hstructs hvariants
  bare := h.bare
  grows := h.grows
  keeps := h.keeps

lemma Declared.declare (hi : i.declare t = .ok ((), t')) : Declared (known ++ [i]) t' := by
  cases hdecl : i.declares? with
  | none =>
    rw [declare_of_declares?_eq_none hdecl] at hi
    cases hi
    refine h.of_perm ?_ ?_
    · simp [structNames_of_declares?_eq_none hdecl]
    · simp [variantNames_of_declares?_eq_none hdecl]
  | some d =>
    obtain ⟨name, shape⟩ := d
    obtain ⟨id, hadd⟩ := (declare_eq_ok_iff hdecl).1 hi
    obtain ⟨hnone, -, ht'⟩ := TypeTable.addNamed_eq_ok_iff.1 hadd
    have hname : name ∉ typeNames known := by
      rw [← h.known, hnone]
      exact Bool.false_ne_true
    simp only [typeNames, mem_append, not_or] at hname
    obtain ⟨⟨-, hstruct⟩, hvariant⟩ := hname
    have hserves : t'.Serves (known ++ [i]) ∧ t.Grows t' ∧ t.Keeps t' := by
      refine h.toServes.addNamed hadd (fun other => ?_) (fun other d hne hd => ?_) ?_
      · simp [mem_typeNames_append_iff, Item.typeName?, hdecl, eq_comm]
      · refine ⟨hd.name_eq, hd.pointee?, ?_, ?_⟩
        · simp [hd.isStruct_iff, mem_structNames_of_declares? hdecl, hne]
        · simp [hd.isVariant_iff, mem_variantNames_of_declares? hdecl, hne]
      · refine ⟨rfl, by cases i <;> cases hdecl <;> rfl, ?_, ?_⟩
        · simp [mem_structNames_of_declares? hdecl, hstruct]
        · simp [mem_variantNames_of_declares? hdecl, hvariant]
    refine ⟨hserves.1, fun inner w => ?_, h.grows.trans hserves.2.1, h.keeps.trans hserves.2.2⟩
    rw [← h.bare inner w, ht']
    cases w <;> rfl

lemma Declared.exists_declare_iff (hknown : (typeNames known).Nodup) :
    (∃ t', i.declare t = .ok ((), t')) ↔ (typeNames (known ++ [i])).Nodup := by
  rw [nodup_typeNames_append_iff]
  cases hdecl : i.declares? with
  | none => simp [declare_of_declares?_eq_none hdecl, Item.typeName?, hdecl, hknown]
  | some d =>
    obtain ⟨name, shape⟩ := d
    have hnew : t.lookup name = none ↔ name ∉ typeNames known := by
      rw [← h.known, Option.not_isSome_iff_eq_none]
    simp [declare_eq_ok_iff hdecl, TypeTable.addNamed_eq_ok_iff, Item.typeName?, hdecl,
      hnew, hknown]

omit h in
lemma define_eq_ok {step : TypeTable → TypeId → Except Fault TypeTable} {id : TypeId}
    (hid : t.lookup name = some id) (hstep : step t id = .ok t') :
    define name loc step t = .ok ((), t') := by
  simp [define, TypeExpr.build, Build.ask, Build.table, bind, StateT.bind, Except.bind, Except.map,
    Except.mapError, hid, hstep]

/-! ### All declarations -/

lemma Declared.declares (hknown : (typeNames known).Nodup)
    (his : is.forM (·.declare) t = .ok ((), t')) :
    Declared (known ++ is) t' ∧ (typeNames (known ++ is)).Nodup := by
  induction is generalizing known t with
  | nil =>
    cases his
    simpa using ⟨h, hknown⟩
  | cons i is ih =>
    rw [append_cons]
    cases hi : i.declare t with
    | error e => simp [List.forM, bind, StateT.bind, Except.bind, hi] at his
    | ok r =>
      obtain ⟨⟨⟩, u⟩ := r
      refine ih (h.declare hi) ((h.exists_declare_iff hknown).1 ⟨u, hi⟩) ?_
      simpa [List.forM, bind, StateT.bind, Except.bind, hi] using his

lemma Declared.exists_declares (hnames : (typeNames (known ++ is)).Nodup) :
    ∃ t', is.forM (·.declare) t = .ok ((), t') := by
  induction is generalizing known t with
  | nil => exact ⟨t, rfl⟩
  | cons i is ih =>
    rw [append_cons] at hnames
    have hfirst := hnames.sublist (typeNames_sublist (known ++ [i]) is)
    obtain ⟨u, hi⟩ := (h.exists_declare_iff (nodup_typeNames_append_iff.1 hfirst).1).2 hfirst
    obtain ⟨t', his⟩ := ih (h.declare hi) hnames
    refine ⟨t', ?_⟩
    simp [List.forM, bind, StateT.bind, Except.bind, hi, his]

omit h

lemma build_eq_ok_iff {p : Program} : build is = .ok p ↔ ∃ t o T,
    is.forM (·.declare) builtinTable = .ok ((), t) ∧ is.foldlM Item.build {} t = .ok (o, T) ∧
      p = ⟨T, o.functions, o.externs⟩ := by
  have hrun : buildItems is .empty = (is.forM (·.declare) builtinTable).bind
      fun r => is.foldlM Item.build {} r.2 := by
    simp only [buildItems, bind, StateT.bind, Except.bind, TypeTable.builtins_empty]
  have hbuild : build is = (buildItems is .empty).bind
      fun r => .ok ⟨r.2, r.1.functions, r.1.externs⟩ := rfl
  rw [hbuild, hrun]
  cases hdeclare : is.forM (·.declare) builtinTable with
  | error e => simp [Except.bind]
  | ok r =>
    obtain ⟨⟨⟩, t⟩ := r
    cases htake : is.foldlM Item.build {} t with
    | error e => simp [Except.bind, htake]
    | ok r =>
      obtain ⟨o, T⟩ := r
      simp [Except.bind, htake, eq_comm]

lemma declared_builtinTable : Declared [] builtinTable where
  toServes := TypeTable.serves_builtinTable
  bare _ w := by cases w <;> rfl
  grows := .refl _
  keeps := .refl _

end Ownership.Sketch
