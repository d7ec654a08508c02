import Ownership.Proofs.Types.Tables
import Ownership.Typing

/-!
# What a type table represents

The definitions of a table determine its registers. A name is registered for the one named type of
that name, and a reference or a box for the one type of that shape. A pointer is added after the
type that it points to, so chains of pointers go down and come to an end.
-/

namespace Ownership

namespace TypeTable

variable {t t' : TypeTable} {id inner : TypeId} {d : TypeDef} {w : Wrapper} {name : String}

/-! ### The invariant -/

/-- Whether the registers of a table say what its definitions say, and pointers lead down. -/
structure Sound (t : TypeTable) : Prop where
  named : ∀ {name id}, t.lookup name = some id ↔
    ∃ d, t.get? id = some d ∧ d.name = name ∧ d.pointee? = none
  wrapped : ∀ {inner w id}, t.wrapped? inner w = some id ↔
    ∃ d, t.get? id = some d ∧ d.shape = w.shape inner
  smaller : ∀ {id d inner}, t.get? id = some d → d.pointee? = some inner →
    1 ≤ inner.val ∧ inner.val < id.val

lemma get?_append_iff (hdefs : t'.defs = t.defs ++ [d]) {x : TypeDef} :
    t'.get? id = some x ↔ t.get? id = some x ∨ id = ⟨(t.size : Int) + 1⟩ ∧ x = d := by
  constructor
  · intro hx
    refine (get?_or_next hdefs hx).imp_right ?_
    rintro rfl
    exact ⟨rfl, Option.some.inj (hx.symm.trans (get?_next hdefs))⟩
  · rintro (hx | ⟨rfl, rfl⟩)
    · exact get?_of_defs_append hdefs id x hx
    · exact get?_next hdefs

namespace Sound

lemma empty : Sound .empty := by
  have hget : ∀ id, TypeTable.empty.get? id = none := by
    intro id
    rw [get?]
    split <;> rfl
  refine ⟨?_, ?_, ?_⟩
  · intro name id
    simp only [hget, reduceCtorEq, false_and, exists_false, iff_false]
    intro h
    cases h
  · intro inner w id
    simp only [hget, reduceCtorEq, false_and, exists_false, iff_false]
    intro h
    cases w <;> cases h
  · intro id d inner hd
    rw [hget] at hd
    cases hd

variable (h : t.Sound)

include h

lemma isCopy (id : Option TypeId) : (t.isCopy id).2.Sound := by
  cases id with
  | none => exact h
  | some id =>
    refine ⟨h.named, fun {inner w id} => ?_, h.smaller⟩
    cases w with
    | ref mutable => exact h.wrapped (w := .ref mutable)
    | box => exact h.wrapped (w := .box)

lemma names {shape : Shape} (hn : t.Names t' name shape)
    (hs : (TypeDef.mk name shape).pointee? = none) : t'.Sound := by
  refine ⟨fun {n i} => ?_, fun {inner w i} => ?_, fun {i e inner} he hi => ?_⟩
  · simp only [get?_append_iff hn.defs, or_and_right, exists_or, ← h.named, hn.lookup]
    split
    · rename_i heq
      subst heq
      simp [hn.fresh, hs, eq_comm]
    · rename_i hne
      simp [Ne.symm hne]
  · simp only [get?_append_iff hn.defs, or_and_right, exists_or, hn.wrapped, ← h.wrapped]
    refine ⟨.inl, fun hor => hor.resolve_right ?_⟩
    rintro ⟨e, ⟨-, rfl⟩, hshape⟩
    rw [Wrapper.pointee?_of_shape_eq hshape] at hs
    cases hs
  · rcases (get?_append_iff hn.defs).mp he with he | ⟨-, rfl⟩
    · exact h.smaller he hi
    · rw [hs] at hi
      cases hi

/-- A table stays sound when a pointer is added. -/
lemma wraps (hd : t.get? inner = some d) (hw : t.Wraps t' inner w d) : t'.Sound := by
  have hnew : (TypeDef.mk (w.name d.name) (w.shape inner)).pointee? = some inner :=
    Wrapper.pointee?_of_shape_eq rfl
  refine ⟨fun {name i} => ?_, fun {j v i} => ?_, fun {i e j} he hi => ?_⟩
  · rw [hw.lookup_eq, h.named]
    simp only [get?_append_iff hw.defs, or_and_right, exists_or]
    refine ⟨.inl, fun hor => hor.resolve_right ?_⟩
    rintro ⟨e, ⟨-, rfl⟩, -, hnone⟩
    rw [hnew] at hnone
    cases hnone
  · simp only [get?_append_iff hw.defs, or_and_right, exists_or, ← h.wrapped, hw.wrapped]
    split
    · rename_i heq
      obtain ⟨rfl, rfl⟩ := heq
      simp [hw.fresh, eq_comm]
    · rename_i hne
      refine ⟨.inl, fun hor => hor.resolve_right ?_⟩
      rintro ⟨e, ⟨-, rfl⟩, hshape⟩
      obtain ⟨rfl, rfl⟩ := Wrapper.shape_inj.mp hshape
      exact hne ⟨rfl, rfl⟩
  · rcases (get?_append_iff hw.defs).mp he with he | ⟨rfl, rfl⟩
    · exact h.smaller he hi
    · obtain rfl := Option.mem_unique hnew hi
      obtain ⟨hpos, hle⟩ := get?_eq_some_bounds hd
      exact ⟨hpos, by dsimp only; omega⟩

/-- A table stays sound when a type that is no pointer gets its shape. -/
lemma setShape {shape : Shape} (hd : t.get? id = some d) (hold : d.pointee? = none)
    (hs : (TypeDef.mk d.name shape).pointee? = none) : (t.setShape id shape).Sound := by
  have hget : ∀ i, (t.setShape id shape).get? i = _ := get?_setShape hd
  refine ⟨fun {name i} => ?_, fun {j v i} => ?_, fun {i e j} he hi => ?_⟩
  · change t.lookup name = some i ↔ _
    rw [h.named, hget]
    by_cases heq : i = id
    · subst heq
      simp [hd, hold, hs]
    · rw [if_neg heq]
  · -- Neither the old shape nor the new one is that of a pointer.
    have hwrapped : (t.setShape id shape).wrapped? j v = t.wrapped? j v := by
      cases v <;> rfl
    rw [hwrapped, h.wrapped, hget]
    by_cases heq : i = id
    · subst heq
      rw [if_pos rfl]
      constructor
      · rintro ⟨e, he, hshape⟩
        obtain rfl := Option.mem_unique hd he
        rw [Wrapper.pointee?_of_shape_eq hshape] at hold
        cases hold
      · rintro ⟨e, he, hshape⟩
        cases he
        rw [Wrapper.pointee?_of_shape_eq hshape] at hs
        cases hs
    · rw [if_neg heq]
  · rw [hget] at he
    split at he
    · cases he
      rw [hs] at hi
      cases hi
    · exact h.smaller he hi

lemma change (hchange : t.Change t') : t'.Sound := by
  induction hchange with
  | refl t => exact h
  | remember t id => exact h.isCopy id
  | name hn hs => exact h.names hn hs
  | wrap hd hw => exact h.wraps hd hw
  | reshape hd hold hs => exact h.setShape hd hold hs
  | trans _ _ ih ih' => exact ih' (ih h)

end Sound

/-- A type keeps its number and its name. A pointer stays what it is, and nothing else becomes
one. -/
lemma Change.exists_get? (h : t.Change t') (hd : t.get? id = some d) :
    ∃ d', t'.get? id = some d' ∧ d'.name = d.name ∧
      (d' = d ∨ d.pointee? = none ∧ d'.pointee? = none) := by
  induction h generalizing d with
  | refl t => exact ⟨d, hd, rfl, .inl rfl⟩
  | remember t i =>
    exact ⟨d, (congrFun (get?_congr (defs_isCopy t i)) id).trans hd, rfl, .inl rfl⟩
  | name hn _ => exact ⟨d, get?_of_defs_append hn.defs id d hd, rfl, .inl rfl⟩
  | wrap _ hw => exact ⟨d, get?_of_defs_append hw.defs id d hd, rfl, .inl rfl⟩
  | @reshape t i e shape he hold hs =>
    rw [get?_setShape he]
    by_cases heq : id = i
    · subst heq
      obtain rfl := Option.mem_unique he hd
      exact ⟨_, if_pos rfl, rfl, .inr ⟨hold, hs⟩⟩
    · exact ⟨d, by rw [if_neg heq, hd], rfl, .inl rfl⟩
  | trans _ _ ih ih' =>
    obtain ⟨e, he, hname, hkind⟩ := ih hd
    obtain ⟨d', hd', hname', hkind'⟩ := ih' he
    refine ⟨d', hd', hname'.trans hname, ?_⟩
    rcases hkind with rfl | ⟨hold, hnone⟩
    · exact hkind'
    · exact .inr ⟨hold, hkind'.elim (fun heq => heq ▸ hnone) (·.2)⟩

/-- Equal pointers have one number, now and later. -/
lemma Sound.wrap_eq_iff (h : t.Sound) {t₁ m t₂ : TypeTable} {inner' id' : TypeId} {w' : Wrapper}
    (hw : t.wrap inner w = .ok (id, t₁)) (hm : t₁.Change m)
    (hw' : m.wrap inner' w' = .ok (id', t₂)) :
    id = id' ↔ inner = inner' ∧ w = w' := by
  obtain ⟨henter, hid⟩ := Enters.of_wrap hw
  obtain ⟨henter', hid'⟩ := Enters.of_wrap hw'
  have h₁ := h.change henter.change
  have hlater := hm.trans henter'.change
  have h₂ := h₁.change hlater
  obtain ⟨d, hd, hshape⟩ := h₁.wrapped.mp hid
  obtain ⟨d', hd', -, hkind⟩ := hlater.exists_get? hd
  -- A pointer is never defined anew, so the first one is still there when the second is asked for.
  obtain rfl : d' = d := by
    refine hkind.resolve_right fun hnone => ?_
    rw [Wrapper.pointee?_of_shape_eq hshape] at hnone
    cases hnone.1
  have hkept : t₂.wrapped? inner w = some id := h₂.wrapped.mpr ⟨d', hd', hshape⟩
  constructor
  · rintro rfl
    obtain ⟨e, he, hshape'⟩ := h₂.wrapped.mp hid'
    obtain rfl := Option.mem_unique hd' he
    exact (Wrapper.shape_inj.mp (hshape.symm.trans hshape')).symm
  · rintro ⟨rfl, rfl⟩
    exact Option.mem_unique hkept hid'

/-! ### Chains of pointers -/

/-- Whether a definition is the first one on the chain of pointers from a type that is no
pointer. -/
inductive Leads (t : TypeTable) : TypeId → TypeDef → Prop
  | here {id : TypeId} {d : TypeDef} (hd : t.get? id = some d) (hp : d.pointee? = none) :
    Leads t id d
  | step {id inner : TypeId} {d e : TypeDef} (hd : t.get? id = some d)
    (hp : d.pointee? = some inner)
      (h : Leads t inner e) : Leads t id e

/-- A chain of pointers has one end. -/
lemma Leads.unique {e : TypeDef} (h : t.Leads id d) (h' : t.Leads id e) : e = d := by
  induction h with
  | here hd hp =>
    cases h' with
    | here he _ => exact Option.mem_unique he hd
    | step he hp' _ =>
      obtain rfl := Option.mem_unique he hd
      rw [hp] at hp'
      cases hp'
  | step hd hp _ ih =>
    cases h' with
    | here he hp' =>
      obtain rfl := Option.mem_unique he hd
      rw [hp] at hp'
      cases hp'
    | step he hp' h' =>
      obtain rfl := Option.mem_unique he hd
      obtain rfl := Option.mem_unique hp hp'
      exact ih h'

lemma AggregateKind.holds_of_pointee? {kind : AggregateKind} (h : d.pointee? = some inner) :
    kind.holds d = false := by
  unfold TypeDef.pointee? at h
  cases kind
  · unfold AggregateKind.holds TypeDef.isStruct
    split at h <;> simp_all
  · unfold AggregateKind.holds TypeDef.isVariant
    split at h <;> simp_all

/-- Every chain comes to an end, and as many steps as the number of the type are enough to find
it. -/
lemma Sound.exists_leads (h : t.Sound) (hid : (t.get? id).isSome) : ∃ d, t.Leads id d ∧
    ∀ (kind : AggregateKind) (steps : Nat), id.val ≤ steps →
      t.aggregateFrom kind steps id = .ok (if kind.holds d then some d else none) := by
  -- The numbers on a chain get smaller.
  induction hn : id.val.toNat using Nat.strongRecOn generalizing id with
  | _ n ih =>
    obtain ⟨d, hd⟩ := Option.isSome_iff_exists.mp hid
    obtain ⟨hpos, hle⟩ := get?_eq_some_bounds hd
    cases hp : d.pointee? with
    | none =>
      refine ⟨d, .here hd hp, fun kind steps hsteps => ?_⟩
      obtain ⟨k, rfl⟩ : ∃ k, steps = k + 1 := ⟨steps - 1, by omega⟩
      simp only [aggregateFrom, get_eq_ok_iff.mpr hd, bind, Except.bind, hp]
      split <;> rfl
    | some inner =>
      obtain ⟨hinner, hlt⟩ := h.smaller hd hp
      obtain ⟨e, he, hfrom⟩ :=
        ih inner.val.toNat (by omega) (get?_isSome_iff.mpr ⟨hinner, by omega⟩) rfl
      refine ⟨e, .step hd hp he, fun kind steps hsteps => ?_⟩
      obtain ⟨k, rfl⟩ : ∃ k, steps = k + 1 := ⟨steps - 1, by omega⟩
      simp only [aggregateFrom, get_eq_ok_iff.mpr hd, bind, Except.bind, hp,
        AggregateKind.holds_of_pointee? hp, Bool.false_eq_true, if_false]
      exact hfrom kind k (by omega)

end TypeTable

/-- The type of the table below the references that arise in a body. -/
def Ty.root? : Ty → Option TypeId
  | .unknown => none
  | .named id => some id
  | .ref inner _ => inner.root?

namespace TypeTable

lemma aggregate?_eq (t : TypeTable) (kind : AggregateKind) (ty : Ty) : t.aggregate? kind ty =
    ty.root?.elim (.ok none) (t.aggregateFrom kind (t.size + 1)) := by
  induction ty with
  | unknown => rfl
  | named id => rfl
  | ref inner mutable ih => exact ih

/-- What a table that is made by operations represents. Its types are numbered from one on in the
order in which they were added: an operation that adds a type answers with the next number, one
that fails leaves the definitions and the names, and all types keep their numbers, their names and
what they point to. A name is registered for the one type of that name that is no pointer.
References and boxes are had once for each pointee, in all the time between two calls. A pointer
has a larger number than its pointee. So a search through references and boxes comes to the first
type that is neither, in as many steps as the number of the type where it begins, and finds it
exactly if it has the kind that is asked for. -/
theorem representation_of_run (steps : List Step) :
    let t := (empty.run steps).2
    (∀ id, (t.get? id).isSome ↔ 1 ≤ id.val ∧ id.val ≤ t.size) ∧
    (∀ s : Step,
      (∀ f, (s.apply t).1 = .error f → (s.apply t).2.defs = t.defs ∧
        (s.apply t).2.names = t.names) ∧
      ((s.apply t).2.size = t.size ∨ (s.apply t).2.size = t.size + 1 ∧
        (s.apply t).1 = .ok (.type (some ⟨(t.size : Int) + 1⟩))) ∧
      ∀ id d, t.get? id = some d → ∃ d', (s.apply t).2.get? id = some d' ∧ d'.name = d.name ∧
        d'.pointee? = d.pointee?) ∧
    (∀ name id, t.lookup name = some id ↔
      ∃ d, t.get? id = some d ∧ d.name = name ∧ d.pointee? = none) ∧
    (∀ inner w id t₁ more inner' w' id' t₂, t.wrap inner w = .ok (id, t₁) →
      (t₁.run more).2.wrap inner' w' = .ok (id', t₂) → (id = id' ↔ inner = inner' ∧ w = w')) ∧
    (∀ id d inner, t.get? id = some d → d.pointee? = some inner →
      1 ≤ inner.val ∧ inner.val < id.val) ∧
    (∀ kind (ty : Ty), ty.root? = none → t.aggregate? kind ty = .ok none) ∧
    ∀ kind (ty : Ty) id, ty.root? = some id → (t.get? id).isSome →
      ∃ d, t.Leads id d ∧ (∀ e, t.Leads id e → e = d) ∧
        (∀ steps : Nat, id.val ≤ steps →
          t.aggregateFrom kind steps id = .ok (if kind.holds d then some d else none)) ∧
        t.aggregate? kind ty = .ok (if kind.holds d then some d else none) := by
  intro t
  have hsound : t.Sound := Sound.empty.change (change_run .empty steps)
  refine ⟨fun id => get?_isSome_iff, fun s => ?_, fun name id => hsound.named, ?_,
    fun id d inner => hsound.smaller, fun kind ty hroot => ?_, fun kind ty id hroot hid => ?_⟩
  · have hdone := performed_apply t s
    refine ⟨hdone.failed, hdone.last, fun id d hd => ?_⟩
    obtain ⟨d', hd', hname, hkind⟩ := hdone.change.exists_get? hd
    refine ⟨d', hd', hname, ?_⟩
    rcases hkind with rfl | ⟨hold, hnew⟩
    · rfl
    · rw [hold, hnew]
  · intro inner w id t₁ more inner' w' id' t₂ hw hw'
    exact hsound.wrap_eq_iff hw (change_run t₁ more) hw'
  · rw [aggregate?_eq, hroot]
    rfl
  · obtain ⟨d, hd, hfrom⟩ := hsound.exists_leads hid
    have hbound := get?_isSome_iff.mp hid
    rw [aggregate?_eq, hroot]
    exact ⟨d, hd, fun e he => hd.unique he, hfrom kind, hfrom kind (t.size + 1) (by omega)⟩

end TypeTable

end Ownership
