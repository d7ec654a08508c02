import Ownership.Proofs.Types.Tables
import Mathlib.Data.List.Nodup
import Mathlib.Data.List.Perm.Subperm

/-!
# What a table remembers about copying

Classifying a type leaves answers behind, also where the search is given up because of a cycle or a
missing type, and later definitions may change what the answers were about. Every answer that a
table remembers is nevertheless final: it has a derivation from the definitions of the table. A type
with such a derivation is on no cycle, so the search may take its answer from memory without missing
a fault.
-/

namespace Ownership

open List

lemma TypeDef.members_of_settled {d : TypeDef} {b : Bool} (h : d.copyRule = .settled b) :
    d.members = [] := by
  unfold copyRule at h
  unfold members
  split at h <;> simp_all

namespace TypeTable

variable {t t' : TypeTable} {id : TypeId} {b : Bool} {budget : Nat} {path : List TypeId}
  {memo : CopyMemo}

/-! ### Classification without memory -/

/-- The answer for the types of fields, given those for single types. -/
def allCopied (classify : TypeId → Except Fault Bool) : List FieldDecl → Except Fault Bool
  | [] => .ok true
  | f :: rest => do
    let b ← classify f.type
    let c ← allCopied classify rest
    return b && c

/-- Classifies a type below the structs and variants on `path` and remembers nothing. -/
def classifyAnew (t : TypeTable) :
    (budget : Nat) → (path : List TypeId) → TypeId → Except Fault Bool
  | 0, _, _ => .ok false
  | budget + 1, path, id =>
    match t.get? id with
    | none => .error (.missingType id)
    | some d =>
      match d.copyRule with
      | .settled b => .ok b
      | .fields fields =>
        if id ∈ path then .error (.cyclicType d.name (t.cycleNames path id ++ [d.name]))
        else allCopied (t.classifyAnew budget (path ++ [id])) fields

lemma classifyAnew_congr (h : t'.defs = t.defs) : t'.classifyAnew = t.classifyAnew := by
  have hget := get?_congr h
  funext budget
  induction budget with
  | zero => rfl
  | succ budget ih =>
    funext path id
    simp only [classifyAnew, cycleNames, hget, ih]

/-- The answers that follow from the definitions in finitely many steps. -/
inductive Settles (t : TypeTable) : TypeId → Bool → Prop
  | kind {id : TypeId} {d : TypeDef} {b : Bool} (hd : t.get? id = some d)
      (hr : d.copyRule = .settled b) : Settles t id b
  | fields {id : TypeId} {d : TypeDef} {fields : List FieldDecl} {copy : TypeId → Bool}
      (hd : t.get? id = some d) (hr : d.copyRule = .fields fields)
      (hf : ∀ f ∈ fields, Settles t f.type (copy f.type)) :
      Settles t id (fields.all fun f => copy f.type)

lemma Settles.not_contains_self (h : t.Settles id b) : ¬Relation.TransGen t.Contains id id := by
  induction h with
  | kind hd hr =>
    rintro hcycle
    obtain ⟨inner, ⟨e, he, m, hm, -⟩, -⟩ := Relation.TransGen.head'_iff.mp hcycle
    obtain rfl := Option.mem_unique hd he
    rw [TypeDef.members_of_settled hr] at hm
    cases hm
  | fields hd hr hf ih =>
    rintro hcycle
    obtain ⟨inner, ⟨e, he, m, hm, rfl⟩, hback⟩ := Relation.TransGen.head'_iff.mp hcycle
    obtain rfl := Option.mem_unique hd he
    have hin : t.Contains _ m.type := ⟨_, hd, m, hm, rfl⟩
    rw [TypeDef.members_of_copyRule hr] at hm
    exact ih m hm (.tail' hback hin)

lemma Settles.mono (h : t.Settles id b) (hd : t.defs <+: t'.defs) : t'.Settles id b := by
  have hget : ∀ {i : TypeId} {d : TypeDef}, t.get? i = some d → t'.get? i = some d := by
    intro i d hi
    obtain ⟨more, hmore⟩ := hd
    unfold get? at hi ⊢
    split at hi
    · rename_i hpos
      rw [if_pos hpos, ← hmore, List.getElem?_append_left (List.getElem?_eq_some_iff.mp hi).1]
      exact hi
    · cases hi
  induction h with
  | kind hd hr => exact .kind (hget hd) hr
  | fields hd hr _ ih => exact .fields (hget hd) hr ih

/-! ### The search -/

/-- Whether a search can come to a type below the structs and variants on a path with a budget that
is large enough for what is left. -/
structure Descends (t : TypeTable) (budget : Nat) (path : List TypeId) (id : TypeId) : Prop where
  reaches : ∀ i ∈ path, Relation.TransGen t.Contains i id
  known : ∀ i ∈ path, (t.get? i).isSome
  nodup : path.Nodup
  room : t.size < budget + path.length

namespace Descends

variable {budget : Nat} {path : List TypeId}

lemma start (t : TypeTable) (id : TypeId) : t.Descends (t.size + 1) [] id where
  reaches _ hi := nomatch hi
  known _ hi := nomatch hi
  nodup := nodup_nil
  room := by simp

lemma budget_ne_zero (h : t.Descends budget path id) : budget ≠ 0 := by
  have hbounds : ∀ i ∈ path, 1 ≤ i.val ∧ i.val ≤ t.size :=
    fun i hi => get?_isSome_iff.mp (h.known i hi)
  have hsub : path.map (fun i => i.val.toNat) ⊆ range' 1 t.size := by
    intro n hn
    obtain ⟨i, hi, rfl⟩ := mem_map.mp hn
    have := hbounds i hi
    rw [mem_range'_1]
    omega
  have hnodup : (path.map fun i => i.val.toNat).Nodup := by
    refine h.nodup.map_on fun i hi j hj hij => ?_
    have hival := hbounds i hi
    have hjval := hbounds j hj
    have : i.val = j.val := by omega
    cases i
    cases j
    exact congrArg TypeId.mk this
  have hlen := (subperm_of_subset hnodup hsub).length_le
  rw [length_map, length_range'] at hlen
  have := h.room
  omega

/-- From a struct or variant the search goes on to the types of its fields. -/
lemma step {d : TypeDef} {fields : List FieldDecl} {f : FieldDecl}
    (h : t.Descends (budget + 1) path id) (hd : t.get? id = some d)
    (hr : d.copyRule = .fields fields)
    (hid : id ∉ path) (hf : f ∈ fields) : t.Descends budget (path ++ [id]) f.type := by
  have hin : t.Contains id f.type := ⟨d, hd, f, (TypeDef.members_of_copyRule hr).symm ▸ hf, rfl⟩
  constructor
  · intro i hi
    rcases mem_append.mp hi with hi | hi
    · exact (h.reaches i hi).tail hin
    · obtain rfl := mem_singleton.mp hi
      exact .single hin
  · intro i hi
    rcases mem_append.mp hi with hi | hi
    · exact h.known i hi
    · obtain rfl := mem_singleton.mp hi
      rw [hd]
      rfl
  · exact nodup_append'.mpr ⟨h.nodup, nodup_singleton id,
      disjoint_singleton.mpr hid⟩
  · have := h.room
    rw [length_append, length_singleton]
    omega

end Descends

section

variable {classify : TypeId → Except Fault Bool} {fields : List FieldDecl}

lemma allCopied_of_ok {copy : TypeId → Bool}
    (h : ∀ f ∈ fields, classify f.type = .ok (copy f.type)) :
    allCopied classify fields = .ok (fields.all fun f => copy f.type) := by
  induction fields with
  | nil => rfl
  | cons f rest ih =>
    rw [allCopied, h f mem_cons_self, ih fun g hg => h g (mem_cons_of_mem _ hg)]
    rfl

lemma exists_of_allCopied (h : allCopied classify fields = .ok b) :
    ∀ f ∈ fields, ∃ c, classify f.type = .ok c := by
  induction fields generalizing b with
  | nil => simp
  | cons f rest ih =>
    obtain ⟨c, hc, h⟩ := bind_eq_ok.mp h
    obtain ⟨c', hc', -⟩ := bind_eq_ok.mp h
    intro g hg
    rcases mem_cons.mp hg with rfl | hg
    · exact ⟨c, hc⟩
    · exact ih hc' g hg

end

/-- An answer that follows from the definitions is the one that the search finds. -/
lemma Settles.classifyAnew_eq (h : t.Settles id b) (hpath : t.Descends budget path id) :
    t.classifyAnew budget path id = .ok b := by
  induction h generalizing budget path with
  | kind hd hr =>
    obtain ⟨budget, rfl⟩ := Nat.exists_eq_succ_of_ne_zero hpath.budget_ne_zero
    rw [classifyAnew, hd]
    simp only [hr]
  | @fields id d fields copy hd hr hf ih =>
    obtain ⟨budget, rfl⟩ := Nat.exists_eq_succ_of_ne_zero hpath.budget_ne_zero
    have hid : id ∉ path := fun hmem =>
      (Settles.fields hd hr hf).not_contains_self (hpath.reaches id hmem)
    rw [classifyAnew, hd]
    simp only [hr, hid, if_false]
    exact allCopied_of_ok fun f hmem => ih f hmem (hpath.step hd hr hid hmem)

/-- An answer of the search is derived from the definitions. -/
lemma settles_of_classifyAnew (hpath : t.Descends budget path id)
    (h : t.classifyAnew budget path id = .ok b) : t.Settles id b := by
  induction budget generalizing path id b with
  | zero => exact absurd rfl hpath.budget_ne_zero
  | succ budget ih =>
    rw [classifyAnew] at h
    split at h
    · cases h
    · rename_i d hd
      split at h
      · rename_i c hr
        cases h
        exact .kind hd hr
      · rename_i fields hr
        split at h
        · cases h
        · rename_i hid
          -- The answer for a type does not depend on which field it stands in.
          have hall := exists_of_allCopied h
          let copy : TypeId → Bool := fun i =>
            (t.classifyAnew budget (path ++ [id]) i).toOption.getD false
          have hcopy : ∀ f ∈ fields,
              t.classifyAnew budget (path ++ [id]) f.type = .ok (copy f.type) := by
            intro f hf
            obtain ⟨c, hc⟩ := hall f hf
            simp only [copy, hc]
            rfl
          rw [allCopied_of_ok hcopy] at h
          cases h
          exact .fields hd hr fun f hf => ih (hpath.step hd hr hid hf) (hcopy f hf)

/-! ### Memory -/

/-- Whether all that is remembered follows from the definitions. -/
def Remembers (t : TypeTable) (memo : CopyMemo) : Prop :=
  ∀ id b, memo.get? id = some b → t.Settles id b

lemma Remembers.empty (t : TypeTable) : t.Remembers .empty := by
  intro id b h
  cases h

lemma Remembers.insert (h : t.Remembers memo) (hid : t.Settles id b) :
    t.Remembers (memo.insert id b) := by
  intro i c hi
  rw [Registry.get?_insert] at hi
  split at hi
  · rename_i heq
    cases hi
    rw [heq]
    exact hid
  · exact h i c hi

lemma Remembers.mono (h : t.Remembers memo) (hd : t.defs <+: t'.defs) : t'.Remembers memo :=
  fun id b hid => (h id b hid).mono hd

/-- Whether a computation answers like one without memory and remembers only what follows from the
definitions, also when it fails. -/
def Answers (t : TypeTable) (r : Except Fault Bool × CopyMemo) (answer : Except Fault Bool) :
    Prop :=
  r.1 = answer ∧ t.Remembers r.2

/-- Remembered answers do not change what is said about fields. -/
lemma answers_classifyFields {classify : TypeId → CopyMemo → Except Fault Bool × CopyMemo}
    {anew : TypeId → Except Fault Bool} {fields : List FieldDecl}
    (h : ∀ f ∈ fields, ∀ memo, t.Remembers memo → t.Answers (classify f.type memo) (anew f.type))
    (hmemo : t.Remembers memo) :
    t.Answers (classifyFields classify fields memo) (allCopied anew fields) := by
  induction fields generalizing memo with
  | nil => exact ⟨rfl, hmemo⟩
  | cons f rest ih =>
    have hf := h f mem_cons_self memo hmemo
    have hrest := ih (fun g hg => h g (mem_cons_of_mem _ hg)) hf.2
    rw [classifyFields, allCopied, ← hf.1, ← hrest.1]
    rcases hc : classify f.type memo with ⟨answer, memo'⟩
    rw [hc] at hf hrest
    cases answer with
    | error e => exact ⟨rfl, hf.2⟩
    | ok b =>
      rcases hcs : classifyFields classify rest memo' with ⟨answers, memo''⟩
      rw [hcs] at hrest
      dsimp only
      rw [hcs]
      cases answers with
      | error e => exact ⟨rfl, hrest.2⟩
      | ok c => exact ⟨rfl, hrest.2⟩

/-- With a memory of answers that follow from the definitions the search finds what it finds without
one. -/
lemma answers_classify (hpath : t.Descends budget path id) (hmemo : t.Remembers memo) :
    t.Answers (t.classify budget path id memo) (t.classifyAnew budget path id) := by
  induction budget generalizing path id memo with
  | zero => exact ⟨rfl, hmemo⟩
  | succ budget ih =>
    -- A new answer is entered only when the search has found it.
    have henter : ∀ {b : Bool} {memo' : CopyMemo}, t.Remembers memo' →
        t.classifyAnew (budget + 1) path id = .ok b → t.Remembers (memo'.insert id b) :=
      fun hmemo' hb => hmemo'.insert (settles_of_classifyAnew hpath hb)
    cases hm : memo.get? id with
    | some b =>
      rw [(hmemo id b hm).classifyAnew_eq hpath]
      simp only [classify, hm]
      exact ⟨rfl, hmemo⟩
    | none =>
      cases hd : t.get? id with
      | none =>
        simp only [classify, classifyAnew, hm, hd]
        exact ⟨rfl, hmemo⟩
      | some d =>
        cases hr : d.copyRule with
        | settled b =>
          simp only [classify, classifyAnew, hm, hd, hr] at henter ⊢
          exact ⟨rfl, henter hmemo rfl⟩
        | fields fields =>
          by_cases hid : id ∈ path
          · simp only [classify, classifyAnew, hm, hd, hr, hid, if_true]
            exact ⟨rfl, hmemo⟩
          · have hfields := answers_classifyFields
              (fun f hf memo hm => ih (hpath.step hd hr hid hf) hm) hmemo
            simp only [classify, classifyAnew, hm, hd, hr, hid, if_false] at henter ⊢
            rcases hc : classifyFields (t.classify budget (path ++ [id])) fields memo with
              ⟨answer, memo'⟩
            rw [hc] at hfields
            cases answer with
            | error e => exact hfields
            | ok b => exact ⟨hfields.1, henter hfields.2 hfields.1.symm⟩

/-! ### Tables that are made by operations -/

/-- Whether a table remembers only what follows from its definitions. -/
def Faithful (t : TypeTable) : Prop := t.Remembers t.copies

variable (h : t.Faithful)

include h

lemma Faithful.isCopy (id : Option TypeId) : (t.isCopy id).2.Faithful := by
  cases id with
  | none => exact h
  | some id =>
    have hmemo := (answers_classify (.start t id) h).2
    exact hmemo.mono (prefix_refl t.defs)

lemma Faithful.warm : t.warm.Faithful := by
  rw [TypeTable.warm]
  generalize range t.size = ids
  induction ids generalizing t with
  | nil => exact h
  | cons i rest ih => exact ih (h.isCopy _)

/-- Every change keeps a table faithful: definitions are added and the memory stays, or it is given
up. -/
lemma Faithful.change (hchange : t.Change t') : t'.Faithful := by
  induction hchange with
  | refl t => exact h
  | remember t id => exact h.isCopy id
  | name hn hs =>
    unfold Faithful
    rw [hn.copies]
    exact h.mono ⟨_, hn.defs.symm⟩
  | wrap hd hw =>
    unfold Faithful
    rw [hw.copies]
    exact h.mono ⟨_, hw.defs.symm⟩
  | reshape hd _ hs => exact .empty _
  | trans _ _ ih ih' => exact ih' (ih h)

/-- Tables that are made by operations are faithful. -/
theorem Faithful.run (steps : List Step) : (t.run steps).2.Faithful :=
  h.change (change_run t steps)

/-- A table that is faithful answers from the definitions alone. -/
theorem Faithful.copies?_eq (id : TypeId) :
    t.copies? (some id) = t.classifyAnew (t.size + 1) [] id :=
  (answers_classify (.start t id) h).1

omit h

/-- Whether values of a type are copied does not depend on what was asked or attempted before: after
any operations, failed ones included, the answer or the fault is that of a table with the same
definitions that remembers nothing. -/
theorem copies?_run_eq_cold (steps : List Step) (id : Option TypeId) :
    (TypeTable.empty.run steps).2.copies? id = (TypeTable.empty.run steps).2.cold.copies? id := by
  cases id with
  | none => rfl
  | some id =>
    have hwarm : (TypeTable.empty.run steps).2.Faithful :=
      Faithful.run (t := TypeTable.empty) (.empty _) steps
    have hcold : (TypeTable.empty.run steps).2.cold.Faithful := .empty _
    have hanew : (TypeTable.empty.run steps).2.cold.classifyAnew =
        (TypeTable.empty.run steps).2.classifyAnew := classifyAnew_congr rfl
    rw [hwarm.copies?_eq, hcold.copies?_eq, hanew]
    rfl

end TypeTable

end Ownership
