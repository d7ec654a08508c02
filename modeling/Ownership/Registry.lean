/-!
# Insertion-ordered registries

A registry is a finite map that remembers the order in which its keys were entered. Overwriting a
key keeps its place; a key that is erased and entered again goes to the end. The order is part of
what the analyses report, so it is part of the type.

The view of a registry is `Registry.get?`; every operation has one lemma that says what it does to
the view, and one that says what it does to `Registry.keys`.
-/

namespace Ownership

variable {κ υ : Type}

/-- A finite map with distinct keys, in the order in which they were entered. -/
structure Registry (κ υ : Type) where
  entries : List (κ × υ)
  nodup : (entries.map Prod.fst).Nodup

namespace Registry

def empty : Registry κ υ := ⟨[], List.nodup_nil⟩

instance : Inhabited (Registry κ υ) := ⟨empty⟩

instance : EmptyCollection (Registry κ υ) := ⟨empty⟩

def keys (r : Registry κ υ) : List κ := r.entries.map Prod.fst

@[ext]
theorem ext {r s : Registry κ υ} (h : r.entries = s.entries) : r = s := by
  cases r; cases s; simp_all

theorem nodup_keys (r : Registry κ υ) : r.keys.Nodup := r.nodup

section Lookup

variable [DecidableEq κ]

def get? (r : Registry κ υ) (k : κ) : Option υ := r.entries.lookup k

def contains (r : Registry κ υ) (k : κ) : Bool := (r.get? k).isSome

@[simp] theorem get?_empty (k : κ) : (empty : Registry κ υ).get? k = none := rfl

private theorem lookup_eq_none_iff {l : List (κ × υ)} {k : κ} :
    l.lookup k = none ↔ k ∉ l.map Prod.fst := by
  induction l with
  | nil => simp
  | cons e l ih =>
    obtain ⟨k', v'⟩ := e
    by_cases h : k = k'
    · subst h; simp
    · have : (k == k') = false := by simpa using h
      simp [List.lookup_cons, this, ih, h]

private theorem lookup_eq_some_iff {l : List (κ × υ)} (hl : (l.map Prod.fst).Nodup)
    {k : κ} {v : υ} : l.lookup k = some v ↔ (k, v) ∈ l := by
  induction l with
  | nil => simp
  | cons e l ih =>
    obtain ⟨k', v'⟩ := e
    simp only [List.map_cons, List.nodup_cons] at hl
    by_cases h : k = k'
    · subst h
      have hk : (k, v) ∉ l := fun hm => hl.1 (List.mem_map.mpr ⟨_, hm, rfl⟩)
      simp [hk, eq_comm]
    · have hb : (k == k') = false := by simpa using h
      simp [List.lookup_cons, hb, ih hl.2, h]

theorem get?_eq_none_iff {r : Registry κ υ} {k : κ} : r.get? k = none ↔ k ∉ r.keys :=
  lookup_eq_none_iff

theorem get?_eq_some_iff {r : Registry κ υ} {k : κ} {v : υ} :
    r.get? k = some v ↔ (k, v) ∈ r.entries :=
  lookup_eq_some_iff r.nodup

theorem mem_keys_iff {r : Registry κ υ} {k : κ} : k ∈ r.keys ↔ ∃ v, r.get? k = some v := by
  rw [← Option.ne_none_iff_exists', ne_eq, get?_eq_none_iff, Classical.not_not]

/-- Replaces the first entry of a key, or adds the key at the end. -/
def put (k : κ) (v : υ) : List (κ × υ) → List (κ × υ)
  | [] => [(k, v)]
  | (k', v') :: rest => if k' = k then (k, v) :: rest else (k', v') :: put k v rest

private theorem map_fst_put (k : κ) (v : υ) (l : List (κ × υ)) :
    (put k v l).map Prod.fst
      = if k ∈ l.map Prod.fst then l.map Prod.fst else l.map Prod.fst ++ [k] := by
  induction l with
  | nil => simp [put]
  | cons e l ih =>
    obtain ⟨k', v'⟩ := e
    by_cases h : k' = k
    · subst h; simp [put]
    · have h' : ¬ k = k' := fun he => h he.symm
      simp only [put, h, if_false, List.map_cons, ih, List.mem_cons, h', false_or]
      split <;> simp

private theorem lookup_put (k j : κ) (v : υ) (l : List (κ × υ)) :
    (put k v l).lookup j = if j = k then some v else l.lookup j := by
  induction l with
  | nil =>
    by_cases h : j = k
    · subst h; simp [put]
    · have hb : (j == k) = false := by simpa using h
      simp [put, List.lookup_cons, hb, h]
  | cons e l ih =>
    obtain ⟨k', v'⟩ := e
    by_cases h : k' = k
    · subst h
      by_cases hj : j = k'
      · subst hj; simp [put]
      · have hb : (j == k') = false := by simpa using hj
        simp [put, List.lookup_cons, hb, hj]
    · by_cases hj : j = k'
      · subst hj; simp [put, h]
      · have hb : (j == k') = false := by simpa using hj
        simp [put, List.lookup_cons, h, hb, ih]

/-- Enters a value under a key: an entered key keeps its place, a new one goes to the end. -/
def insert (r : Registry κ υ) (k : κ) (v : υ) : Registry κ υ where
  entries := put k v r.entries
  nodup := by
    rw [map_fst_put]
    split
    · exact r.nodup
    · next h =>
      rw [List.nodup_append]
      exact ⟨r.nodup,
        by simp, by simpa using fun a b hb => fun he => h (by simpa using ⟨b, he ▸ hb⟩)⟩

theorem get?_insert (r : Registry κ υ) (k j : κ) (v : υ) :
    (r.insert k v).get? j = if j = k then some v else r.get? j :=
  lookup_put k j v r.entries

@[simp] theorem get?_insert_self (r : Registry κ υ) (k : κ) (v : υ) :
    (r.insert k v).get? k = some v := by simp [get?_insert]

theorem get?_insert_of_ne (r : Registry κ υ) {k j : κ} (v : υ) (h : j ≠ k) :
    (r.insert k v).get? j = r.get? j := by simp [get?_insert, h]

/-- Enters a value under a key that has none yet, and leaves an entered key alone. -/
def insertNew (r : Registry κ υ) (k : κ) (v : υ) : Registry κ υ :=
  if r.contains k then r else r.insert k v

private theorem lookup_filter (p : κ → Bool) (l : List (κ × υ)) (k : κ) :
    (l.filter fun e => p e.1).lookup k = if p k then l.lookup k else none := by
  induction l with
  | nil => simp
  | cons e l ih =>
    obtain ⟨k', v'⟩ := e
    by_cases h : k = k'
    · subst h
      cases hp : p k <;> simp [List.filter, hp, ih]
    · have hb : (k == k') = false := by simpa using h
      cases hp : p k' <;> simp [List.filter, hp, List.lookup_cons, hb, ih]

def keep (r : Registry κ υ) (p : κ → Bool) : Registry κ υ where
  entries := r.entries.filter fun e => p e.1
  nodup := r.nodup.sublist (List.filter_sublist.map _)

@[simp] theorem get?_keep (r : Registry κ υ) (p : κ → Bool) (k : κ) :
    (r.keep p).get? k = if p k then r.get? k else none :=
  lookup_filter p r.entries k

/-- The keys of two registries: those of the first, then those that only the second has. -/
def jointKeys (r s : Registry κ υ) : List κ :=
  r.keys ++ s.keys.filter fun k => !r.contains k

theorem contains_iff {r : Registry κ υ} {k : κ} : r.contains k = true ↔ k ∈ r.keys := by
  rw [contains, mem_keys_iff, Option.isSome_iff_exists]

theorem mem_jointKeys {r s : Registry κ υ} {k : κ} :
    k ∈ r.jointKeys s ↔ k ∈ r.keys ∨ k ∈ s.keys := by
  simp only [jointKeys, List.mem_append, List.mem_filter, Bool.not_eq_true', ← Bool.not_eq_true,
    contains_iff]
  by_cases h : k ∈ r.keys <;> simp [h]

theorem nodup_jointKeys (r s : Registry κ υ) : (r.jointKeys s).Nodup := by
  unfold jointKeys
  rw [List.nodup_append]
  refine ⟨r.nodup_keys, s.nodup_keys.sublist List.filter_sublist, ?_⟩
  intro a ha b hb he
  subst he
  simp only [List.mem_filter, Bool.not_eq_true', ← Bool.not_eq_true, contains_iff] at hb
  exact hb.2 ha

private theorem lookup_filterMap_key (f : κ → Option υ) (l : List κ) (k : κ) :
    (l.filterMap fun j => (f j).map fun v => (j, v)).lookup k = if k ∈ l then f k else none := by
  induction l with
  | nil => simp
  | cons j l ih =>
    by_cases h : k = j
    · subst h
      cases hf : f k with
      | none => simp [hf, ih]
      | some v => simp [hf]
    · have hb : (k == j) = false := by simpa using h
      cases hf : f j with
      | none => simp [hf, ih, h]
      | some v => simp [hf, List.lookup_cons, hb, ih, h]

omit [DecidableEq κ] in
private theorem map_fst_filterMap_key_sublist (f : κ → Option υ) (l : List κ) :
    ((l.filterMap fun j => (f j).map fun v => (j, v)).map Prod.fst).Sublist l := by
  induction l with
  | nil => simp
  | cons j l ih =>
    cases hf : f j with
    | none => simpa [List.filterMap_cons, hf] using ih.cons j
    | some v => simpa [List.filterMap_cons, hf] using ih

/-- Combines two registries key by key; the keys of the first come first. -/
def combine (f : Option υ → Option υ → Option υ) (r s : Registry κ υ) : Registry κ υ where
  entries := (r.jointKeys s).filterMap fun k => (f (r.get? k) (s.get? k)).map fun v => (k, v)
  nodup := (nodup_jointKeys r s).sublist (map_fst_filterMap_key_sublist _ _)

theorem get?_combine (f : Option υ → Option υ → Option υ) (hf : f none none = none)
    (r s : Registry κ υ) (k : κ) : (combine f r s).get? k = f (r.get? k) (s.get? k) := by
  show List.lookup k _ = _
  unfold combine
  rw [lookup_filterMap_key]
  split
  · rfl
  · next h =>
    rw [mem_jointKeys, not_or] at h
    rw [get?_eq_none_iff.mpr h.1, get?_eq_none_iff.mpr h.2, hf]

end Lookup

end Registry

end Ownership
