import Ownership.Proofs.Types.Changes
import Mathlib.Logic.Relation

/-!
# Which faults a type table allows

A question to a type table fails if it comes to a number without a type, or to a type that contains
itself by value. The lemmas here are about all kinds of faults `P` at once: if `P` holds of the
faults that the table can lead to, then questions fail with `P` only. With nothing in `P`, they do
not fail.

Tables that are made by operations are coherent: names and pointers lead to types of the table.
-/

namespace Ownership

/-! ### Allowed faults -/

/-- Whether a computation has a result with a property or fails with an allowed fault. -/
def Yields {α : Type} (P : Fault → Prop) (x : Except Fault α) (Q : α → Prop) : Prop :=
  match x with
  | .ok a => Q a
  | .error e => P e

namespace Yields

variable {α β : Type} {P : Fault → Prop} {x : Except Fault α} {Q : α → Prop} {R : β → Prop}

variable (h : Yields P x Q)

include h

lemma mono {Q' : α → Prop} (hQ : ∀ a, Q a → Q' a) : Yields P x Q' := by
  cases x with
  | error e => exact h
  | ok a => exact hQ a h

lemma bind {f : α → Except Fault β} (hf : ∀ a, Q a → Yields P (f a) R) : Yields P (x >>= f) R := by
  cases x with
  | error e => exact h
  | ok a => exact hf a h

lemma map {f : α → β} (hf : ∀ a, Q a → R (f a)) : Yields P (x.map f) R := by
  cases x with
  | error e => exact h
  | ok a => exact hf a h

lemma of_error {e : Fault} (he : x = .error e) : P e := by
  rw [he] at h
  exact h

end Yields

/-- The fields of a struct, or those of all arms of a variant: what a value is made of. -/
def TypeDef.members (d : TypeDef) : List FieldDecl :=
  match d.shape with
  | .struct fields => fields
  | .variant arms => arms.flatMap (·.fields)
  | _ => []

lemma TypeDef.members_of_copyRule {d : TypeDef} {fields : List FieldDecl}
    (h : d.copyRule = .fields fields) : d.members = fields := by
  unfold copyRule at h
  unfold members
  split at h
  · cases h
  · cases h
  · cases h
  · cases h
  · cases h
  · rename_i hs
    rw [hs]
    exact CopyRule.fields.inj h
  · rename_i hs
    rw [hs]
    exact CopyRule.fields.inj h

namespace TypeTable

variable {t t' : TypeTable} {P : Fault → Prop} {id inner : TypeId} {d : TypeDef}

/-- Whether a type number has a type, unless it is allowed that it has none. -/
def Has (t : TypeTable) (P : Fault → Prop) (id : TypeId) : Prop :=
  t.get? id = none → P (.missingType id)

/-- Whether values of one type contain values of another. -/
def Contains (t : TypeTable) (outer inner : TypeId) : Prop :=
  ∃ d, t.get? outer = some d ∧ ∃ m ∈ d.members, m.type = inner

/-- Whether the faults that a table can lead to are allowed. -/
structure Allows (t : TypeTable) (P : Fault → Prop) : Prop where
  pointee : ∀ id d inner, t.get? id = some d → d.pointee? = some inner → t.Has P inner
  member : ∀ id d, t.get? id = some d → ∀ m ∈ d.members, t.Has P m.type
  named : ∀ name id, t.lookup name = some id → t.Has P id
  cyclic : ∀ id, Relation.TransGen t.Contains id id → ∀ name cycle, P (.cyclicType name cycle)

lemma get?_congr (h : t'.defs = t.defs) : t'.get? = t.get? := by
  funext id
  rw [get?, get?, h]

lemma Allows.of_same (h : t.Allows P) (hd : t'.defs = t.defs) (hn : t'.names = t.names) :
    t'.Allows P := by
  have hget := get?_congr hd
  have hhas : t'.Has = t.Has := by
    funext P id
    rw [Has, Has, hget]
  have hcontains : t'.Contains = t.Contains := by
    funext i j
    rw [Contains, Contains, hget]
  have hlookup : t'.lookup = t.lookup := by
    funext name
    rw [lookup, lookup, hn]
  constructor
  · rw [hget, hhas]
    exact h.pointee
  · rw [hget, hhas]
    exact h.member
  · rw [hlookup, hhas]
    exact h.named
  · rw [hcontains]
    exact h.cyclic

lemma yields_get (h : t.Has P id) : Yields P (t.get id) fun d => t.get? id = some d := by
  unfold get
  split
  · rename_i d hd
    exact hd
  · rename_i hn
    exact h hn

/-! ### Copy classification -/

lemma yields_classifyFields {classify : TypeId → CopyMemo → Except Fault Bool × CopyMemo}
    {fields : List FieldDecl}
    (h : ∀ f ∈ fields, ∀ memo, Yields P (classify f.type memo).1 fun _ => True) (memo : CopyMemo) :
    Yields P (classifyFields classify fields memo).1 fun _ => True := by
  induction fields generalizing memo with
  | nil => exact trivial
  | cons f rest ih =>
    have hf := h f List.mem_cons_self memo
    have ih := ih fun g hg => h g (List.mem_cons_of_mem _ hg)
    rw [classifyFields]
    split
    · rename_i e memo' hc
      rw [hc] at hf
      exact hf
    · rename_i b memo' hc
      have hrest := ih memo'
      split
      · rename_i e memo'' hcs
        rw [hcs] at hrest
        exact hrest
      · exact trivial

/-- Classifying a type below some others that contain it fails in allowed ways only. -/
lemma Allows.yields_classify (h : t.Allows P) (budget : Nat) (path : List TypeId) (id : TypeId)
    (memo : CopyMemo) (hid : t.Has P id) (hpath : ∀ i ∈ path, Relation.TransGen t.Contains i id) :
    Yields P (t.classify budget path id memo).1 fun _ => True := by
  induction budget generalizing path id memo with
  | zero => exact trivial
  | succ budget ih =>
    rw [classify]
    split
    · exact trivial
    · split
      · rename_i hn
        exact hid hn
      · rename_i d hd
        split
        · exact trivial
        · rename_i fields hfields
          split
          · rename_i hmem
            exact h.cyclic id (hpath id hmem) _ _
          · have hinner : ∀ f ∈ fields, ∀ memo,
                Yields P (t.classify budget (path ++ [id]) f.type memo).1 fun _ => True := by
              intro f hf memo
              rw [← TypeDef.members_of_copyRule hfields] at hf
              have hin : t.Contains id f.type := ⟨d, hd, f, hf, rfl⟩
              apply ih _ _ _ (h.member id d hd f hf)
              intro i hi
              rcases List.mem_append.mp hi with hi | hi
              · exact (hpath i hi).tail hin
              · obtain rfl := List.mem_singleton.mp hi
                exact .single hin
            have hall := yields_classifyFields hinner memo
            split
            · rename_i e memo' hc
              rw [hc] at hall
              exact hall
            · exact trivial

lemma Allows.yields_copies (h : t.Allows P) (hid : t.Has P id) :
    Yields P (t.copies? (some id)) fun _ => True :=
  h.yields_classify (t.size + 1) [] id t.copies hid fun _ hi => nomatch hi

lemma defs_warm (t : TypeTable) : t.warm.defs = t.defs :=
  foldl_keeps (·.defs) (fun t _ => defs_isCopy t _) _ t

lemma names_warm (t : TypeTable) : t.warm.names = t.names :=
  foldl_keeps (·.names) (fun t _ => names_isCopy t _) _ t

/-! ### Tables that are made by operations -/

/-- Whether names and pointers lead to types of the table. -/
structure Coherent (t : TypeTable) : Prop where
  pointee : ∀ id d inner, t.get? id = some d → d.pointee? = some inner → (t.get? inner).isSome
  named : ∀ name id, t.lookup name = some id → (t.get? id).isSome

namespace Coherent

lemma empty : Coherent .empty := by
  constructor
  · intro id d inner hd
    have hnil : ([] : List TypeDef)[(id.val - 1).toNat]? = none := rfl
    rw [get?, TypeTable.empty, hnil, ite_self] at hd
    cases hd
  · intro name id hid
    cases hid

variable (h : t.Coherent)

include h

lemma of_same (hd : t'.defs = t.defs) (hn : t'.names = t.names) : t'.Coherent := by
  have hlookup : t'.lookup = t.lookup := by
    funext name
    rw [lookup, lookup, hn]
  constructor
  · rw [get?_congr hd]
    exact h.pointee
  · rw [get?_congr hd, hlookup]
    exact h.named

/-- One more type keeps a table coherent if it points to an old one, if to any. -/
lemma grow (hd : t'.defs = t.defs ++ [d])
    (hp : ∀ inner, d.pointee? = some inner → (t.get? inner).isSome)
    (hn : ∀ name id, t'.lookup name = some id → t.lookup name = some id ∨
      id = ⟨(t.size : Int) + 1⟩) :
    t'.Coherent := by
  have hold : ∀ {id}, (t.get? id).isSome → (t'.get? id).isSome := by
    intro id hid
    obtain ⟨x, hx⟩ := Option.isSome_iff_exists.mp hid
    rw [get?_of_defs_append hd id x hx]
    rfl
  constructor
  · intro id e inner he hi
    rcases get?_or_next hd he with he | rfl
    · exact hold (h.pointee id e inner he hi)
    · obtain rfl := Option.some.inj (he.symm.trans (get?_next hd))
      exact hold (hp inner hi)
  · intro name id hid
    rcases hn name id hid with hid | rfl
    · exact hold (h.named name id hid)
    · rw [get?_next hd]
      rfl

lemma setShape {shape : Shape} (hd : t.get? id = some d)
    (hs : (TypeDef.mk d.name shape).pointee? = none) : (t.setShape id shape).Coherent := by
  have hsome : ∀ {i}, ((t.setShape id shape).get? i).isSome ↔ (t.get? i).isSome := by
    intro i
    rw [get?_isSome_iff, get?_isSome_iff]
    simp [size, TypeTable.setShape]
  constructor
  · intro i e inner he hi
    rw [hsome]
    rw [get?_setShape hd] at he
    split at he
    · cases he
      rw [hs] at hi
      cases hi
    · exact h.pointee i e inner he hi
  · intro name i hi
    exact hsome.mpr (h.named name i hi)

lemma change (hchange : t.Change t') : t'.Coherent := by
  induction hchange with
  | refl t => exact h
  | remember t id => exact h.of_same (defs_isCopy t id) (names_isCopy t id)
  | name hn hs =>
    refine h.grow hn.defs (fun inner hi => ?_) fun name id hid => ?_
    · rw [hs] at hi
      cases hi
    · rw [hn.lookup] at hid
      split at hid
      · exact .inr (Option.some.inj hid).symm
      · exact .inl hid
  | wrap hd hw =>
    refine h.grow hw.defs (fun inner hi => ?_) fun name id hid => .inl (hw.lookup_eq name ▸ hid)
    rw [Wrapper.pointee?_of_shape_eq rfl] at hi
    rw [← Option.some.inj hi, hd]
    rfl
  | reshape hd _ hs => exact h.setShape hd hs
  | trans _ _ ih ih' => exact ih' (ih h)

/-- Tables that are made by operations are coherent. -/
theorem run (steps : List Step) : (t.run steps).2.Coherent :=
  h.change (change_run t steps)

end Coherent

end TypeTable

end Ownership
