import Ownership.Proofs.Checker.Session
import Ownership.Types.Script

/-!
# What operations do to a type table

All operations on a table are made of a few changes: a type is added under a new name, a reference
to a type of the table or a box of one is added, a struct or a variant gets a new shape, and
answers about copying are remembered. An operation that fails changes no definition and no name.
-/

namespace Ownership

/-! ### References and boxes -/

/-- What makes a type of another one. -/
inductive Wrapper where
  | ref (mutable : Bool)
  | box
deriving DecidableEq

namespace Wrapper

def shape (inner : TypeId) : Wrapper → Shape
  | ref mutable => .ref inner mutable
  | box => .box inner

/-- The name of the type, given the name of the other one. -/
def name (inner : String) : Wrapper → String
  | ref mutable => (if mutable then "&mut " else "&") ++ inner
  | box => "Box<" ++ inner ++ ">"

lemma shape_inj {w w' : Wrapper} {i i' : TypeId} : w.shape i = w'.shape i' ↔ w = w' ∧ i = i' := by
  cases w <;> cases w' <;> simp [shape, and_comm]

lemma pointee?_of_shape_eq {w : Wrapper} {inner : TypeId} {d : TypeDef}
    (h : d.shape = w.shape inner) : d.pointee? = some inner := by
  rw [TypeDef.pointee?, h]
  cases w <;> rfl

end Wrapper

namespace TypeTable

variable {t t' t'' : TypeTable} {id inner : TypeId} {d : TypeDef} {w : Wrapper} {name : String}
  {shape : Shape}

/-- The reference to a type or the box of it, if there is one. -/
def wrapped? (t : TypeTable) (inner : TypeId) : Wrapper → Option TypeId
  | .ref mutable => t.refs.get? (inner, mutable)
  | .box => t.boxes.get? inner

/-- The reference to a type or the box of it, which is added if there is none. -/
def wrap (t : TypeTable) (inner : TypeId) : Wrapper → Except Fault (TypeId × TypeTable)
  | .ref mutable => t.ensureRef inner mutable
  | .box => t.ensureBox inner

def Keeps (t t' : TypeTable) : Prop := ∀ id d, t.get? id = some d → t'.get? id = some d

lemma Keeps.refl (t : TypeTable) : t.Keeps t := fun _ _ hd => hd

lemma Keeps.trans (h : t.Keeps t') (h' : t'.Keeps t'') : t.Keeps t'' :=
  fun id d hd => h' id d (h id d hd)

/-! ### One more type -/

lemma get?_of_defs_append (hdefs : t'.defs = t.defs ++ [d]) : t.Keeps t' := by
  intro id x h
  unfold get? at h ⊢
  split at h
  · next hpos =>
    obtain ⟨hlt, -⟩ := List.getElem?_eq_some_iff.1 h
    rw [if_pos hpos, hdefs, List.getElem?_append_left hlt, h]
  · cases h

lemma get?_next (hdefs : t'.defs = t.defs ++ [d]) : t'.get? ⟨(t.size : Int) + 1⟩ = some d := by
  have hpos : (0 : Int) < (t.size : Int) + 1 := by omega
  have hindex : ((t.size : Int) + 1 - 1).toNat = t.defs.length := by simp [size]
  rw [get?, if_pos hpos, hindex, hdefs]
  simp

lemma get?_size_succ (t : TypeTable) : t.get? ⟨(t.size : Int) + 1⟩ = none := by
  rw [← Option.not_isSome_iff_eq_none, get?_isSome_iff]
  intro h
  have hle : (t.size : Int) + 1 ≤ t.size := h.2
  omega

lemma get?_or_next {x : TypeDef} (hdefs : t'.defs = t.defs ++ [d]) (h : t'.get? id = some x) :
    t.get? id = some x ∨ id = ⟨(t.size : Int) + 1⟩ := by
  by_cases hid : (t.get? id).isSome
  · obtain ⟨y, hy⟩ := Option.isSome_iff_exists.1 hid
    left
    rw [hy, ← h]
    exact (get?_of_defs_append hdefs id y hy).symm
  · right
    have hbounds := get?_eq_some_bounds h
    have hsize : t'.size = t.size + 1 := by simp [size, hdefs]
    rw [get?_isSome_iff] at hid
    obtain ⟨v⟩ := id
    simp only [TypeId.mk.injEq] at hbounds hid ⊢
    omega

/-- A reference or a box is added that was not there. -/
structure Wraps (t t' : TypeTable) (inner : TypeId) (w : Wrapper) (d : TypeDef) : Prop where
  fresh : t.wrapped? inner w = none
  defs : t'.defs = t.defs ++ [⟨w.name d.name, w.shape inner⟩]
  names : t'.names = t.names
  copies : t'.copies = t.copies
  wrapped : ∀ i v, t'.wrapped? i v =
    if i = inner ∧ v = w then some ⟨(t.size : Int) + 1⟩ else t.wrapped? i v

/-- A pointer to a type is looked up, or added at the end. -/
lemma wrap_eq_ok (hinner : t.get? inner = some d) (w : Wrapper) :
    (∃ id, t.wrap inner w = .ok (id, t) ∧ t.wrapped? inner w = some id) ∨
      ∃ t', t.wrap inner w = .ok (⟨(t.size : Int) + 1⟩, t') ∧ t.Wraps t' inner w d := by
  cases w with
  | ref mutable =>
    rw [wrap, TypeTable.ensureRef, wrapped?]
    cases hid : t.refs.get? (inner, mutable) with
    | some id => exact .inl ⟨id, rfl, rfl⟩
    | none =>
      rw [get_eq_ok_iff.2 hinner]
      refine .inr ⟨_, rfl, hid, rfl, rfl, rfl, fun i v => ?_⟩
      cases v <;> simp [wrapped?, Registry.get?_insert]
  | box =>
    rw [wrap, TypeTable.ensureBox, wrapped?]
    cases hid : t.boxes.get? inner with
    | some id => exact .inl ⟨id, rfl, rfl⟩
    | none =>
      rw [get_eq_ok_iff.2 hinner]
      refine .inr ⟨_, rfl, hid, rfl, rfl, rfl, fun i v => ?_⟩
      cases v <;> simp [wrapped?, Registry.get?_insert]

section

variable (hw : t.Wraps t' inner w d)

include hw

lemma Wraps.lookup_eq (name : String) : t'.lookup name = t.lookup name := by
  rw [lookup, lookup, hw.names]

lemma Wraps.wrapped_self : t'.wrapped? inner w = some ⟨(t.size : Int) + 1⟩ := by
  simp [hw.wrapped]

lemma Wraps.wrapped_cases {i : TypeId} {v : Wrapper} (hid : t'.wrapped? i v = some id) :
    t.wrapped? i v = some id ∨ id = ⟨(t.size : Int) + 1⟩ ∧ i = inner ∧ v = w := by
  rw [hw.wrapped] at hid
  split at hid
  · next heq => exact .inr ⟨(Option.some.inj hid).symm, heq⟩
  · exact .inl hid

end

/-- A type is added under a name that was not there. -/
structure Names (t t' : TypeTable) (name : String) (shape : Shape) : Prop where
  fresh : t.lookup name = none
  defs : t'.defs = t.defs ++ [⟨name, shape⟩]
  lookup : ∀ n, t'.lookup n = if n = name then some ⟨(t.size : Int) + 1⟩ else t.lookup n
  wrapped : ∀ i v, t'.wrapped? i v = t.wrapped? i v
  copies : t'.copies = t.copies

lemma addNamed_eq_ok (h : t.addNamed name shape = .ok (id, t')) :
    id = ⟨(t.size : Int) + 1⟩ ∧ t.Names t' name shape := by
  unfold addNamed at h
  split at h
  · cases h
  · rename_i hnew
    cases h
    refine ⟨rfl,
      by simpa [Registry.contains, lookup] using hnew, rfl, fun n => ?_, fun i v => ?_, rfl⟩
    · rw [lookup]
      exact Registry.get?_insert ..
    · cases v <;> rfl

/-- A new shape changes one definition. -/
lemma get?_setShape (hd : t.get? id = some d) (i : TypeId) :
    (t.setShape id shape).get? i = if i = id then some ⟨d.name, shape⟩ else t.get? i := by
  obtain ⟨hpos, -⟩ := get?_eq_some_bounds hd
  rw [get?, if_pos (by omega)] at hd
  by_cases hi : 0 < i.val
  · rw [get?, get?, if_pos hi, if_pos hi, setShape, List.getElem?_modify]
    -- Numbers begin with one, so that different ones have different indices.
    have hiff : i = id ↔ (id.val - 1).toNat = (i.val - 1).toNat := by
      constructor
      · rintro rfl
        rfl
      · intro heq
        have : i.val = id.val := by omega
        cases i
        cases id
        exact congrArg TypeId.mk this
    by_cases heq : i = id
    · subst heq
      simp only [hd, Option.map_eq_map, Option.map_some, if_true]
    · simp only [if_neg heq, if_neg (mt hiff.mpr heq), Option.map_eq_map, Option.map_id']
  · have hne : i ≠ id := by
      rintro rfl
      omega
    rw [if_neg hne, get?, get?, if_neg hi, if_neg hi]

/-! ### Changes -/

/-- The changes that operations are made of. -/
inductive Change : TypeTable → TypeTable → Prop
  | refl (t : TypeTable) : Change t t
  /-- An answer about copying is remembered, or several. -/
  | remember (t : TypeTable) (id : Option TypeId) : Change t (t.isCopy id).2
  | name {t t' : TypeTable} {name : String} {shape : Shape} (h : t.Names t' name shape)
      (hs : (TypeDef.mk name shape).pointee? = none) : Change t t'
  | wrap {t t' : TypeTable} {inner : TypeId} {w : Wrapper} {d : TypeDef}
    (hd : t.get? inner = some d)
      (h : t.Wraps t' inner w d) : Change t t'
  | reshape {t : TypeTable} {id : TypeId} {d : TypeDef} {shape : Shape} (hd : t.get? id = some d)
      (hold : d.pointee? = none) (hs : (TypeDef.mk d.name shape).pointee? = none) :
      Change t (t.setShape id shape)
  | trans {t t' t'' : TypeTable} (h : Change t t') (h' : Change t' t'') : Change t t''

/-- Whether a registration is made of changes, with its number for the last type if one is added. -/
structure Enters (t : TypeTable) (id : TypeId) (t' : TypeTable) : Prop where
  change : t.Change t'
  last : t'.size = t.size ∨ t'.size = t.size + 1 ∧ id = ⟨(t.size : Int) + 1⟩

lemma Enters.of_addNamed (h : t.addNamed name shape = .ok (id, t'))
    (hs : (TypeDef.mk name shape).pointee? = none) : t.Enters id t' := by
  obtain ⟨rfl, hnames⟩ := addNamed_eq_ok h
  exact ⟨.name hnames hs, .inr ⟨by simp [size, hnames.defs], rfl⟩⟩

lemma Enters.of_ensureNamed (h : t.ensureNamed name shape = .ok (id, t'))
    (hs : (TypeDef.mk name shape).pointee? = none) : t.Enters id t' := by
  unfold ensureNamed at h
  split at h
  · obtain ⟨-, rfl⟩ := Prod.mk.inj (Except.ok.inj h)
    exact ⟨.refl t, .inl rfl⟩
  · exact .of_addNamed h hs

lemma exists_get?_of_wrap (h : t.wrap inner w = .ok (id, t')) :
    (t' = t ∧ t.wrapped? inner w = some id) ∨ ∃ d, t.get? inner = some d := by
  cases w with
  | ref mutable =>
    rw [wrap, ensureRef] at h
    split at h
    · rename_i hid
      cases h
      exact .inl ⟨rfl, hid⟩
    · obtain ⟨d, hd, -⟩ := bind_eq_ok.mp h
      exact .inr ⟨d, get_eq_ok_iff.mp hd⟩
  | box =>
    rw [wrap, ensureBox] at h
    split at h
    · rename_i hid
      cases h
      exact .inl ⟨rfl, hid⟩
    · obtain ⟨d, hd, -⟩ := bind_eq_ok.mp h
      exact .inr ⟨d, get_eq_ok_iff.mp hd⟩

lemma Enters.of_wrap (h : t.wrap inner w = .ok (id, t')) :
    t.Enters id t' ∧ t'.wrapped? inner w = some id := by
  rcases exists_get?_of_wrap h with ⟨rfl, hid⟩ | ⟨d, hd⟩
  · exact ⟨⟨.refl _, .inl rfl⟩, hid⟩
  · rcases wrap_eq_ok hd w with ⟨i, hok, hid⟩ | ⟨m, hok, hw⟩
    · obtain ⟨rfl, rfl⟩ := Prod.mk.inj (ok_inj hok h)
      exact ⟨⟨.refl _, .inl rfl⟩, hid⟩
    · obtain ⟨rfl, rfl⟩ := Prod.mk.inj (ok_inj hok h)
      exact ⟨⟨.wrap hd hw, .inr ⟨by simp [size, hw.defs], rfl⟩⟩, hw.wrapped_self⟩

lemma change_defineStruct {fields : List FieldDecl} (h : t.defineStruct id fields = .ok t') :
    t.Change t' ∧ t'.size = t.size := by
  obtain ⟨d, hd, h⟩ := bind_eq_ok.mp h
  split at h
  · rename_i hstruct
    cases h
    refine ⟨.reshape (get_eq_ok_iff.mp hd) ?_ rfl, by simp [size, setShape]⟩
    unfold TypeDef.isStruct at hstruct
    unfold TypeDef.pointee?
    split at hstruct <;> simp_all
  · cases h

lemma change_defineVariant {arms : List VariantArm} (h : t.defineVariant id arms = .ok t') :
    t.Change t' ∧ t'.size = t.size := by
  obtain ⟨d, hd, h⟩ := bind_eq_ok.mp h
  split at h
  · rename_i hvariant
    cases h
    refine ⟨.reshape (get_eq_ok_iff.mp hd) ?_ rfl, by simp [size, setShape]⟩
    unfold TypeDef.isVariant at hvariant
    unfold TypeDef.pointee?
    split at hvariant <;> simp_all
  · cases h

lemma Enters.then (h : t.Enters id t') (h' : t'.Change t'' ∧ t''.size = t'.size) :
    t.Enters id t'' :=
  ⟨h.change.trans h'.1, h'.2 ▸ h.last⟩

lemma Enters.of_declareStruct {fields : Option (List FieldDecl)}
    (h : t.declareStruct name fields = .ok (id, t')) : t.Enters id t' := by
  obtain ⟨⟨i, m⟩, hm, h⟩ := bind_eq_ok.mp h
  cases fields with
  | none =>
    cases h
    exact .of_addNamed hm rfl
  | some fields =>
    obtain ⟨m', hm', h⟩ := bind_eq_ok.mp h
    cases h
    exact .then (.of_addNamed hm rfl) (change_defineStruct hm')

lemma Enters.of_declareVariant {arms : Option (List VariantArm)}
    (h : t.declareVariant name arms = .ok (id, t')) : t.Enters id t' := by
  obtain ⟨⟨i, m⟩, hm, h⟩ := bind_eq_ok.mp h
  cases arms with
  | none =>
    cases h
    exact .of_addNamed hm rfl
  | some arms =>
    obtain ⟨m', hm', h⟩ := bind_eq_ok.mp h
    cases h
    exact .then (.of_addNamed hm rfl) (change_defineVariant hm')

/-! ### Operations -/

/-- What an operation comes to: it fails and changes no more than what is remembered, or it is made
of changes, with the number of the last type for an answer if one is added. -/
structure Performed (t : TypeTable) (r : Except Fault Answer × TypeTable) : Prop where
  change : t.Change r.2
  failed : ∀ f, r.1 = .error f → r.2.defs = t.defs ∧ r.2.names = t.names
  last : r.2.size = t.size ∨
    r.2.size = t.size + 1 ∧ r.1 = .ok (.type (some ⟨(t.size : Int) + 1⟩))

lemma performed_same (t : TypeTable) (a : Except Fault Answer) : t.Performed (a, t) :=
  ⟨.refl t, fun _ _ => ⟨rfl, rfl⟩, .inl rfl⟩

lemma performed_registered {r : Except Fault (TypeId × TypeTable)}
    (h : ∀ id t', r = .ok (id, t') → t.Enters id t') : t.Performed (Step.registered t r) := by
  cases r with
  | error f => exact performed_same t _
  | ok r =>
    obtain ⟨hchange, hlast⟩ := h r.1 r.2 rfl
    refine ⟨hchange, (fun f hf => nomatch hf), hlast.imp_right fun hlast => ⟨hlast.1, ?_⟩⟩
    rw [← hlast.2]
    rfl

lemma performed_defined {r : Except Fault TypeTable}
    (h : ∀ t', r = .ok t' → t.Change t' ∧ t'.size = t.size) : t.Performed (Step.defined t r) := by
  cases r with
  | error f => exact performed_same t _
  | ok t' =>
    obtain ⟨hchange, hsize⟩ := h t' rfl
    exact ⟨hchange, (fun f hf => nomatch hf), .inl hsize⟩

theorem performed_apply (t : TypeTable) (s : Step) : t.Performed (s.apply t) := by
  cases s with
  | newScalar name | newOwned name => exact performed_registered fun _ _ h => .of_addNamed h rfl
  | ensureInt | ensureBool | ensureString | ensureUnknown =>
    exact performed_registered fun _ _ h => .of_ensureNamed h rfl
  | ensureRef inner mutable =>
    exact performed_registered fun _ _ h => (Enters.of_wrap (w := .ref mutable) h).1
  | ensureBox inner => exact performed_registered fun _ _ h => (Enters.of_wrap (w := .box) h).1
  | declareStruct name fields => exact performed_registered fun _ _ h => .of_declareStruct h
  | declareVariant name arms => exact performed_registered fun _ _ h => .of_declareVariant h
  | defineStruct id fields => exact performed_defined fun _ h => change_defineStruct h
  | defineVariant id arms => exact performed_defined fun _ h => change_defineVariant h
  | isCopy id =>
    -- The one operation that changes a table also if it fails.
    refine ⟨.remember t id, fun _ _ => ⟨defs_isCopy t id, names_isCopy t id⟩, .inl ?_⟩
    exact congrArg List.length (defs_isCopy t id)
  | _ => exact performed_same t _

/-- Operations one after another are made of changes. -/
theorem change_run (t : TypeTable) (steps : List Step) : t.Change (t.run steps).2 := by
  induction steps generalizing t with
  | nil => exact .refl t
  | cons s rest ih => exact (performed_apply t s).change.trans (ih (s.apply t).2)

end TypeTable

end Ownership
