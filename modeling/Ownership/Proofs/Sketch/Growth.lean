import Ownership.Proofs.Sketch.Expressions
import Ownership.Proofs.Types.Changes

/-!
# Type tables of a sketch

While a sketch is taken, its type table only grows (`TypeTable.Grows`): types that are once written
keep their identifiers. `TypeTable.Serves` says what holds of the table from the moment on when all
types are declared: it knows just the declared names, tells structs from variants, finds under every
identifier what it was registered for, and has no type that cannot be written.
-/

namespace Ownership

lemma TypeDef.isVariant_of_isStruct {d : TypeDef} (h : d.isStruct = true) :
    d.isVariant = false := by
  unfold isStruct at h
  unfold isVariant
  split at h <;> simp_all

lemma TypeDef.isStruct_of_isVariant {d : TypeDef} (h : d.isVariant = true) :
    d.isStruct = false := by
  unfold isVariant at h
  unfold isStruct
  split at h <;> simp_all

namespace Sketch.TypeExpr

/-- References and boxes as they are written. -/
def wrap (e : TypeExpr) : Wrapper → TypeExpr
  | .ref mutable => .ref e mutable
  | .box => .box e

lemma bare_wrap (e : TypeExpr) (w : Wrapper) : (e.wrap w).bare = e.bare.wrap w := by
  cases w <;> rfl

@[elab_as_elim]
lemma wrap_induction {motive : TypeExpr → Prop} (named : ∀ name loc, motive (.named name loc))
    (wrap : ∀ e w, motive e → motive (e.wrap w)) (e : TypeExpr) : motive e := by
  induction e with
  | named name loc => exact named name loc
  | ref inner mutable ih => exact wrap inner (.ref mutable) ih
  | box inner ih => exact wrap inner .box ih

end Sketch.TypeExpr

namespace TypeTable

open Sketch

variable {t t' t'' : TypeTable} {items items' : List Item} {id inner : TypeId} {d : TypeDef}
  {e : TypeExpr} {w : Wrapper} {name : String} {shape : Shape}

lemma idIn_wrap : (e.wrap w).idIn t = (e.idIn t).bind (t.wrapped? · w) := by
  cases w <;> rfl

lemma idIn_wrap_eq_some_iff :
    (e.wrap w).idIn t = some id ↔ ∃ i, e.idIn t = some i ∧ t.wrapped? i w = some id := by
  rw [idIn_wrap, Option.bind_eq_some_iff]

/-! ### Growing -/

/-- Names, references and boxes keep their identifiers. -/
structure Grows (t t' : TypeTable) : Prop where
  names : ∀ {name id}, t.lookup name = some id → t'.lookup name = some id
  wrapped : ∀ {inner w id}, t.wrapped? inner w = some id → t'.wrapped? inner w = some id

lemma Grows.refl (t : TypeTable) : t.Grows t := ⟨id, id⟩

lemma Grows.trans (h : t.Grows t') (h' : t'.Grows t'') : t.Grows t'' where
  names hid := h'.names (h.names hid)
  wrapped hid := h'.wrapped (h.wrapped hid)

lemma Grows.idIn (h : t.Grows t') (he : e.idIn t = some id) : e.idIn t' = some id := by
  induction e using TypeExpr.wrap_induction generalizing id with
  | named name loc => exact h.names he
  | wrap e w ih =>
    obtain ⟨i, hi, hid⟩ := idIn_wrap_eq_some_iff.1 he
    exact idIn_wrap_eq_some_iff.2 ⟨i, ih hi, h.wrapped hid⟩

lemma Grows.isSome_idIn (h : t.Grows t') (he : (e.idIn t).isSome) : (e.idIn t').isSome := by
  obtain ⟨id, hid⟩ := Option.isSome_iff_exists.1 he
  rw [h.idIn hid]
  rfl

/-- Every identifier leads to what it was registered for. -/
structure Registered (t : TypeTable) : Prop where
  named : ∀ {name id}, t.lookup name = some id →
    ∃ d, t.get? id = some d ∧ d.name = name ∧ d.pointee? = none
  ref : ∀ {inner mutable id}, t.refs.get? (inner, mutable) = some id →
    ∃ d, t.get? id = some d ∧ d.shape = .ref inner mutable
  box : ∀ {inner id}, t.boxes.get? inner = some id →
    ∃ d, t.get? id = some d ∧ d.shape = .box inner

lemma Registered.wrapped (h : t.Registered) (hid : t.wrapped? inner w = some id) :
    ∃ d, t.get? id = some d ∧ d.shape = w.shape inner := by
  cases w with
  | ref mutable => exact h.ref hid
  | box => exact h.box hid

lemma Registered.bare_eq (h : t.Registered) {e' : TypeExpr} (he : e.idIn t = some id)
    (he' : e'.idIn t = some id) : e.bare = e'.bare := by
  -- A name is not the one of a reference or a box.
  have hne : ∀ {name id i w}, t.lookup name = some id → t.wrapped? i w ≠ some id := by
    intro name id i w hname hw
    obtain ⟨d, hd, -, hpointee⟩ := h.named hname
    obtain ⟨d', hd', hshape⟩ := h.wrapped hw
    obtain rfl := Option.mem_unique hd hd'
    simp [Wrapper.pointee?_of_shape_eq hshape] at hpointee
  induction e using TypeExpr.wrap_induction generalizing e' id with
  | named name loc =>
    cases e' using TypeExpr.wrap_induction with
    | named name' loc' =>
      obtain ⟨d, hd, rfl, -⟩ := h.named he
      obtain ⟨d', hd', rfl, -⟩ := h.named he'
      obtain rfl := Option.mem_unique hd hd'
      rfl
    | wrap e' w' =>
      obtain ⟨i', -, hw'⟩ := idIn_wrap_eq_some_iff.1 he'
      exact absurd hw' (hne he)
  | wrap e w ih =>
    obtain ⟨i, hi, hw⟩ := idIn_wrap_eq_some_iff.1 he
    cases e' using TypeExpr.wrap_induction with
    | named name' loc' => exact absurd hw (hne he')
    | wrap e' w' =>
      obtain ⟨i', hi', hw'⟩ := idIn_wrap_eq_some_iff.1 he'
      obtain ⟨d, hd, hshape⟩ := h.wrapped hw
      obtain ⟨d', hd', hshape'⟩ := h.wrapped hw'
      obtain rfl := Option.mem_unique hd hd'
      obtain ⟨rfl, rfl⟩ := Wrapper.shape_inj.1 (hshape.symm.trans hshape')
      rw [TypeExpr.bare_wrap, TypeExpr.bare_wrap, ih hi hi']

/-! ### Tables after the declarations -/

/-- The definition of a name that is known with some declarations. -/
structure IsNamed (items : List Item) (name : String) (d : TypeDef) : Prop where
  name_eq : d.name = name
  pointee? : d.pointee? = none
  isStruct_iff : d.isStruct ↔ name ∈ structNames items
  isVariant_iff : d.isVariant ↔ name ∈ variantNames items

/-- The table knows just the types that are known with some declarations, and tells them apart. All
other types are references and boxes, and nothing is remembered about copying. -/
structure Serves (t : TypeTable) (items : List Item) : Prop where
  known : ∀ name, (t.lookup name).isSome ↔ name ∈ typeNames items
  named : ∀ {name id}, t.lookup name = some id → ∃ d, t.get? id = some d ∧ IsNamed items name d
  wrapped : ∀ {inner w id}, t.wrapped? inner w = some id →
    ∃ d, t.get? inner = some d ∧ t.get? id = some ⟨w.name d.name, w.shape inner⟩
  spelled : ∀ {id d}, t.get? id = some d → ∃ e : TypeExpr, e.idIn t = some id
  copies : t.copies = .empty

variable (h : t.Serves items)

include h

lemma Serves.registered : t.Registered where
  named hid := by
    obtain ⟨d, hd, hnamed⟩ := h.named hid
    exact ⟨d, hd, hnamed.name_eq, hnamed.pointee?⟩
  ref hid := by
    obtain ⟨d, -, hd⟩ := h.wrapped (w := .ref _) hid
    exact ⟨_, hd, rfl⟩
  box hid := by
    obtain ⟨d, -, hd⟩ := h.wrapped (w := .box) hid
    exact ⟨_, hd, rfl⟩

lemma Serves.exists_get? (he : e.idIn t = some id) : ∃ d, t.get? id = some d := by
  cases e using TypeExpr.wrap_induction with
  | named name loc =>
    obtain ⟨d, hd, -⟩ := h.named he
    exact ⟨d, hd⟩
  | wrap e w =>
    obtain ⟨i, -, hid⟩ := idIn_wrap_eq_some_iff.1 he
    obtain ⟨d, -, hd⟩ := h.wrapped hid
    exact ⟨_, hd⟩

lemma Serves.of_perm (hstructs : (structNames items').Perm (structNames items))
    (hvariants : (variantNames items').Perm (variantNames items)) : t.Serves items' where
  known name := by
    rw [h.known]
    simp only [typeNames, List.mem_append, hstructs.mem_iff, hvariants.mem_iff]
  named hid := by
    obtain ⟨d, hd, hname, hpointee, hstruct, hvariant⟩ := h.named hid
    exact ⟨d, hd, hname, hpointee, hstruct.trans hstructs.mem_iff.symm,
      hvariant.trans hvariants.mem_iff.symm⟩
  wrapped := h.wrapped
  spelled := h.spelled
  copies := h.copies

/-! ### One more type -/

lemma Serves.spelled_of_append (hdefs : t'.defs = t.defs ++ [d]) (hgrows : t.Grows t')
    (hnew : ∃ e : TypeExpr, e.idIn t' = some ⟨(t.size : Int) + 1⟩) {x : TypeDef}
    (hx : t'.get? id = some x) : ∃ e : TypeExpr, e.idIn t' = some id := by
  rcases get?_or_next hdefs hx with hx | rfl
  · obtain ⟨e, he⟩ := h.spelled hx
    exact ⟨e, hgrows.idIn he⟩
  · exact hnew

omit h

section

variable (h : t.Serves items) (hinner : t.get? inner = some d) (hw : t.Wraps t' inner w d)

include hw

lemma Wraps.grows : t.Grows t' where
  names hid := (hw.lookup_eq _).trans hid
  wrapped hid := by
    rw [hw.wrapped, if_neg]
    · exact hid
    · rintro ⟨rfl, rfl⟩
      simp [hw.fresh] at hid

include h

lemma Wraps.idIn_cases (he : e.idIn t' = some id) :
    e.idIn t = some id ∨ id = ⟨(t.size : Int) + 1⟩ := by
  induction e using TypeExpr.wrap_induction generalizing id with
  | named name loc => exact .inl ((hw.lookup_eq name).symm.trans he)
  | wrap e v ih =>
    obtain ⟨i, hi, hid⟩ := idIn_wrap_eq_some_iff.1 he
    refine (hw.wrapped_cases hid).imp (fun hid => ?_) And.left
    rcases ih hi with hi | rfl
    · exact idIn_wrap_eq_some_iff.2 ⟨i, hi, hid⟩
    · obtain ⟨x, hx, -⟩ := h.wrapped hid
      rw [get?_size_succ] at hx
      cases hx

include hinner

lemma Wraps.serves : t'.Serves items where
  known name := by rw [hw.lookup_eq, h.known]
  named hid := by
    rw [hw.lookup_eq] at hid
    obtain ⟨x, hx, hnamed⟩ := h.named hid
    exact ⟨x, get?_of_defs_append hw.defs _ _ hx, hnamed⟩
  wrapped hid := by
    rcases hw.wrapped_cases hid with hid | ⟨rfl, rfl, rfl⟩
    · obtain ⟨x, hx, hid⟩ := h.wrapped hid
      exact ⟨x, get?_of_defs_append hw.defs _ _ hx, get?_of_defs_append hw.defs _ _ hid⟩
    · exact ⟨d, get?_of_defs_append hw.defs _ _ hinner, get?_next hw.defs⟩
  spelled hx := by
    obtain ⟨e, he⟩ := h.spelled hinner
    refine h.spelled_of_append hw.defs hw.grows ⟨e.wrap w, ?_⟩ hx
    exact idIn_wrap_eq_some_iff.2 ⟨inner, hw.grows.idIn he, hw.wrapped_self⟩
  copies := hw.copies.trans h.copies

end

/-- A step after which at most one type more is written. -/
structure Gains (t : TypeTable) (items : List Item) (t' : TypeTable) (id : TypeId) : Prop where
  serves : t'.Serves items
  grows : t.Grows t'
  keeps : t.Keeps t'
  within : ∀ {e : TypeExpr}, (e.idIn t').isSome → (e.idIn t).isSome ∨ e.idIn t' = some id

variable (h : t.Serves items)

include h

lemma Serves.wrap (hinner : t.get? inner = some d) (w : Wrapper) :
    ∃ id t', t.wrap inner w = .ok (id, t') ∧ t.Gains items t' id ∧
      t'.wrapped? inner w = some id := by
  rcases wrap_eq_ok hinner w with ⟨id, hok, hid⟩ | ⟨t', hok, hw⟩
  · exact ⟨id, t, hok, ⟨h, .refl t, .refl t, .inl⟩, hid⟩
  · refine ⟨_, t', hok, ⟨hw.serves h hinner, hw.grows, get?_of_defs_append hw.defs, fun he => ?_⟩,
      hw.wrapped_self⟩
    obtain ⟨id, hid⟩ := Option.isSome_iff_exists.1 he
    rcases hw.idIn_cases h hid with hold | rfl
    · exact .inl (by rw [hold]; rfl)
    · exact .inr hid

omit h in
lemma addNamed_eq_ok_iff :
    t.addNamed name shape = .ok (id, t') ↔ t.lookup name = none ∧ id = ⟨(t.size : Int) + 1⟩ ∧
      t' = { t with
        defs := t.defs ++ [⟨name, shape⟩]
        names := t.names.insert name ⟨(t.size : Int) + 1⟩ } := by
  unfold TypeTable.addNamed
  rw [Registry.contains, ← lookup]
  cases hname : t.lookup name with
  | some i => simp
  | none => simp [add, eq_comm]

/-- A table also serves the declaration of the name that it gets. -/
lemma Serves.addNamed (hadd : t.addNamed name shape = .ok (id, t'))
    (hknown : ∀ other, other ∈ typeNames items' ↔ other ∈ typeNames items ∨ other = name)
    (hold : ∀ other d, other ≠ name → IsNamed items other d → IsNamed items' other d)
    (hnew : IsNamed items' name ⟨name, shape⟩) : t'.Serves items' ∧ t.Grows t' ∧ t.Keeps t' := by
  obtain ⟨hnone, rfl, ht'⟩ := addNamed_eq_ok_iff.1 hadd
  have hdefs : t'.defs = t.defs ++ [⟨name, shape⟩] := by rw [ht']
  have hkeeps := get?_of_defs_append hdefs
  have hlookup : ∀ other, t'.lookup other =
      if other = name then some ⟨(t.size : Int) + 1⟩ else t.lookup other := by
    intro other
    rw [ht']
    exact Registry.get?_insert ..
  have hwrapped : t'.wrapped? = t.wrapped? := by
    funext i w
    rw [ht']
    cases w <;> rfl
  have hgrows : t.Grows t' := by
    refine ⟨fun {other id} hid => ?_, fun hid => hwrapped ▸ hid⟩
    rw [hlookup, if_neg]
    · exact hid
    · rintro rfl
      exact Option.some_ne_none id (hid.symm.trans hnone)
  refine ⟨⟨fun other => ?_, fun {other id} hid => ?_, fun {_ w _} hid => ?_, fun hx => ?_, ?_⟩,
    hgrows, hkeeps⟩
  · rw [hknown, ← h.known, hlookup]
    by_cases hother : other = name <;> simp [hother]
  · rw [hlookup] at hid
    split at hid
    · next heq =>
      subst heq
      cases hid
      exact ⟨_, get?_next hdefs, hnew⟩
    · next hother =>
      obtain ⟨x, hx, hnamed⟩ := h.named hid
      exact ⟨x, hkeeps _ _ hx, hold other x hother hnamed⟩
  · rw [hwrapped] at hid
    obtain ⟨x, hx, hid⟩ := h.wrapped hid
    exact ⟨x, hkeeps _ _ hx, hkeeps _ _ hid⟩
  · refine h.spelled_of_append hdefs hgrows ⟨.named name .unknown, ?_⟩ hx
    rw [TypeExpr.idIn, hlookup, if_pos rfl]
  · rw [ht']
    exact h.copies

/-! ### Declared types get their shapes -/

omit h in
lemma wrapped?_setShape (t : TypeTable) (id : TypeId) (shape : Shape) :
    (t.setShape id shape).wrapped? = t.wrapped? := by
  funext inner w
  cases w <;> rfl

omit h in
lemma idIn_setShape (t : TypeTable) (id : TypeId) (shape : Shape) (e : TypeExpr) :
    e.idIn (t.setShape id shape) = e.idIn t := by
  induction e using TypeExpr.wrap_induction with
  | named name loc => rfl
  | wrap e w ih => rw [idIn_wrap, idIn_wrap, ih, wrapped?_setShape]

/-- A declared type gets its shape, and nothing else changes. -/
structure Shapes (t : TypeTable) (items : List Item) (t' : TypeTable) (name : String)
    (shape : Shape) :
    Prop where
  serves : t'.Serves items
  grows : t.Grows t'
  idIn : ∀ e : TypeExpr, e.idIn t' = e.idIn t
  shaped : ∃ id, t.lookup name = some id ∧ t'.get? id = some ⟨name, shape⟩ ∧
    ∀ i, i ≠ id → t'.get? i = t.get? i

lemma Serves.setShape (hid : t.lookup name = some id) (hnew : IsNamed items name ⟨name, shape⟩) :
    t.Shapes items (t.setShape id shape) name shape := by
  obtain ⟨d, hd, hold⟩ := h.named hid
  have hself : (t.setShape id shape).get? id = some ⟨name, shape⟩ := by
    rw [get?_setShape hd, hd, ← hold.name_eq]
    simp
  have hother : ∀ i, i ≠ id → (t.setShape id shape).get? i = t.get? i := by
    intro i hi
    rw [get?_setShape hd]
    simp [hi]
  refine ⟨⟨h.known, fun {other i} hi => ?_, fun {i w j} hj => ?_, fun {i x} hx => ?_, rfl⟩,
    ⟨fun hid => hid, fun hid => wrapped?_setShape t id shape ▸ hid⟩, idIn_setShape t id shape,
    id, hid, hself, hother⟩
  · obtain ⟨x, hx, hnamed⟩ := h.named hi
    by_cases heq : i = id
    · subst heq
      obtain rfl := Option.mem_unique hd hx
      obtain rfl : name = other := hold.name_eq.symm.trans hnamed.name_eq
      exact ⟨_, hself, hnew⟩
    · exact ⟨x, (hother i heq).trans hx, hnamed⟩
  · rw [wrapped?_setShape] at hj
    obtain ⟨x, hx, hj⟩ := h.wrapped hj
    -- A pointer is not what gets a shape.
    have hne : j ≠ id := by
      rintro rfl
      obtain rfl := Option.mem_unique hd hj
      exact Option.some_ne_none i ((Wrapper.pointee?_of_shape_eq rfl).symm.trans hold.pointee?)
    rw [hother j hne]
    by_cases heq : i = id
    · subst heq
      obtain rfl := Option.mem_unique hd hx
      exact ⟨_, hself, by rw [hj, hold.name_eq]⟩
    · exact ⟨x, (hother i heq).trans hx, hj⟩
  · have hsome : ∃ y, t.get? i = some y := by
      by_cases heq : i = id
      · exact ⟨d, heq ▸ hd⟩
      · exact ⟨x, (hother i heq).symm.trans hx⟩
    obtain ⟨y, hy⟩ := hsome
    obtain ⟨e, he⟩ := h.spelled hy
    exact ⟨e, (idIn_setShape t id shape e).trans he⟩

lemma Serves.exists_named (hname : name ∈ typeNames items) :
    ∃ id d, t.lookup name = some id ∧ t.get? id = some d ∧ IsNamed items name d := by
  obtain ⟨id, hid⟩ := Option.isSome_iff_exists.1 ((h.known name).2 hname)
  obtain ⟨d, hd, hnamed⟩ := h.named hid
  exact ⟨id, d, hid, hd, hnamed⟩

lemma Serves.defineStruct (hname : name ∈ structNames items) (fields : List FieldDecl) :
    ∃ id t', t.lookup name = some id ∧ t.defineStruct id fields = .ok t' ∧
      t.Shapes items t' name (.struct fields) := by
  have hknown : name ∈ typeNames items := by simp [typeNames, hname]
  obtain ⟨id, d, hid, hd, hold⟩ := h.exists_named hknown
  have hstruct : d.isStruct = true := hold.isStruct_iff.2 hname
  have hvariant : name ∉ variantNames items := by
    rw [← hold.isVariant_iff, TypeDef.isVariant_of_isStruct hstruct]
    exact Bool.false_ne_true
  refine ⟨id, _, hid, ?_, h.setShape hid ⟨rfl, rfl, by simp [TypeDef.isStruct, hname],
    by simp [TypeDef.isVariant, hvariant]⟩⟩
  rw [TypeTable.defineStruct, get_eq_ok_iff.2 hd]
  simp [hstruct, bind, Except.bind, pure, Except.pure]

lemma Serves.defineVariant (hname : name ∈ variantNames items) (arms : List VariantArm) :
    ∃ id t', t.lookup name = some id ∧ t.defineVariant id arms = .ok t' ∧
      t.Shapes items t' name (.variant arms) := by
  have hknown : name ∈ typeNames items := by simp [typeNames, hname]
  obtain ⟨id, d, hid, hd, hold⟩ := h.exists_named hknown
  have hvariant : d.isVariant = true := hold.isVariant_iff.2 hname
  have hstruct : name ∉ structNames items := by
    rw [← hold.isStruct_iff, TypeDef.isStruct_of_isVariant hvariant]
    exact Bool.false_ne_true
  refine ⟨id, _, hid, ?_, h.setShape hid ⟨rfl, rfl, by simp [TypeDef.isStruct, hstruct],
    by simp [TypeDef.isVariant, hname]⟩⟩
  rw [TypeTable.defineVariant, get_eq_ok_iff.2 hd]
  simp [hvariant, bind, Except.bind, pure, Except.pure]

/-! ### The table that every sketch starts with -/

def builtinTable : TypeTable where
  defs := [⟨"Int", .scalar⟩, ⟨"Bool", .scalar⟩, ⟨"Char", .scalar⟩, ⟨"Float", .scalar⟩,
    ⟨"String", .owned⟩, ⟨"Vec", .owned⟩]
  names := {
    entries := [("Int", ⟨1⟩), ("Bool", ⟨2⟩), ("Char", ⟨3⟩), ("Float", ⟨4⟩), ("String", ⟨5⟩),
      ("Vec", ⟨6⟩)]
    nodup := by decide }

omit h

lemma builtins_empty : builtins .empty = .ok ((), builtinTable) := rfl

lemma serves_builtinTable : builtinTable.Serves [] := by
  refine ⟨fun name => ?_, fun {name id} hid => ?_, fun {_ w _} hid => ?_, fun {id d} hd => ?_, rfl⟩
  · rw [Option.isSome_iff_exists]
    exact Registry.mem_keys_iff.symm
  · have hmem := Registry.get?_eq_some_iff.1 hid
    simp only [builtinTable, List.mem_cons, Prod.mk.injEq, List.not_mem_nil, or_false] at hmem
    rcases hmem with ⟨rfl, rfl⟩ | ⟨rfl, rfl⟩ | ⟨rfl, rfl⟩ | ⟨rfl, rfl⟩ | ⟨rfl, rfl⟩ | ⟨rfl, rfl⟩ <;>
    exact ⟨_, rfl, rfl, rfl, by simp [structNames, TypeDef.isStruct],
      by simp [variantNames, TypeDef.isVariant]⟩
  · cases w <;> simp [builtinTable, wrapped?] at hid
  · obtain ⟨v⟩ := id
    obtain ⟨hpos, hle⟩ := get?_eq_some_bounds hd
    have hsize : builtinTable.size = 6 := rfl
    have hv : v = 1 ∨ v = 2 ∨ v = 3 ∨ v = 4 ∨ v = 5 ∨ v = 6 := by
      rw [hsize] at hle
      dsimp only at hpos hle
      omega
    rcases hv with rfl | rfl | rfl | rfl | rfl | rfl
    exacts [⟨.named "Int" .unknown, rfl⟩, ⟨.named "Bool" .unknown, rfl⟩,
      ⟨.named "Char" .unknown, rfl⟩,
      ⟨.named "Float" .unknown, rfl⟩, ⟨.named "String" .unknown, rfl⟩, ⟨.named "Vec" .unknown, rfl⟩]

end TypeTable

end Ownership
