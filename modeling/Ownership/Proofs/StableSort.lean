import Mathlib.Tactic.Lemma
import Ownership.StableSort

/-!
# Stable sorting and other operations on lists

By a total preorder a list is sorted. Sorting commutes with renaming and with leaving elements out,
because it is stable.
-/

namespace Ownership

open List

variable {α β : Type} {le : α → α → Bool} {le' : β → β → Bool} {f : α → β} {l : List α}

lemma map_insertSorted (h : ∀ a b, le' (f a) (f b) = le a b) (a : α) (l : List α) :
    insertSorted le' (f a) (l.map f) = (insertSorted le a l).map f := by
  induction l with
  | nil => rfl
  | cons b l ih =>
    rw [map_cons, insertSorted, insertSorted, h, ih, apply_ite (map f)]
    rfl

theorem map_stableSort (h : ∀ a b, le' (f a) (f b) = le a b) (l : List α) :
    stableSort le' (l.map f) = (stableSort le l).map f := by
  induction l with
  | nil => rfl
  | cons a l ih => rw [map_cons, stableSort, stableSort, ih, map_insertSorted h]

variable (htrans : ∀ a b c, le a b = true → le b c = true → le a c = true)
  (htotal : ∀ a b, le a b = true ∨ le b a = true)

include htrans htotal

lemma pairwise_insertSorted (a : α) (h : l.Pairwise fun a b => le a b = true) :
    (insertSorted le a l).Pairwise fun a b => le a b = true := by
  induction l with
  | nil => exact pairwise_singleton ..
  | cons b l ih =>
    rw [pairwise_cons] at h
    unfold insertSorted
    split
    · rename_i hab
      refine pairwise_cons.mpr ⟨fun c hc => ?_, pairwise_cons.mpr h⟩
      rcases mem_cons.mp hc with rfl | hc
      · exact hab
      · exact htrans _ _ _ hab (h.1 c hc)
    · rename_i hab
      refine pairwise_cons.mpr ⟨fun c hc => ?_, ih h.2⟩
      rcases mem_cons.mp ((insertSorted_perm _ a l).mem_iff.mp hc) with rfl | hc
      · exact (htotal c b).resolve_left hab
      · exact h.1 c hc

theorem pairwise_stableSort (l : List α) : (stableSort le l).Pairwise fun a b => le a b = true := by
  induction l with
  | nil => exact .nil
  | cons a l ih => exact pairwise_insertSorted htrans htotal a ih

omit htotal in
lemma filter_insertSorted {p : α → Bool} {a : α} (ha : p a = true)
    (h : l.Pairwise fun a b => le a b = true) :
    (insertSorted le a l).filter p = insertSorted le a (l.filter p) := by
  induction l with
  | nil => simp [insertSorted, ha]
  | cons b l ih =>
    rw [pairwise_cons] at h
    rw [insertSorted]
    split
    · rename_i hab
      -- What is left of the list still starts with an element that `a` does not exceed.
      have hfirst : ∀ l' : List α, (∀ c ∈ l', le a c = true) → insertSorted le a l' = a :: l' := by
        intro l' hl'
        cases l' with
        | nil => rfl
        | cons c l' => rw [insertSorted, if_pos (hl' c (mem_cons_self ..))]
      rw [filter_cons_of_pos ha, hfirst]
      intro c hc
      rcases mem_cons.mp (mem_filter.mp hc).1 with rfl | hc
      · exact hab
      · exact htrans _ _ _ hab (h.1 c hc)
    · rename_i hab
      cases hb : p b with
      | false =>
        rw [filter_cons_of_neg (by simp [hb]), filter_cons_of_neg (by simp [hb]), ih h.2]
      | true =>
        rw [filter_cons_of_pos hb, filter_cons_of_pos hb, insertSorted,
          if_neg hab, ih h.2]

/-- Elements are left out before or after sorting. -/
theorem filter_stableSort (p : α → Bool) (l : List α) :
    (stableSort le l).filter p = stableSort le (l.filter p) := by
  induction l with
  | nil => rfl
  | cons a l ih =>
    rw [stableSort]
    cases ha : p a with
    | true =>
      rw [filter_insertSorted htrans ha (pairwise_stableSort htrans htotal l), ih,
        filter_cons_of_pos ha]
      rfl
    | false =>
      have hout : ∀ l : List α, (insertSorted le a l).filter p = l.filter p := by
        intro l
        induction l with
        | nil => simp [insertSorted, ha]
        | cons b l ih =>
          rw [insertSorted]
          split
          · rw [filter_cons_of_neg (by simp [ha])]
          · rw [filter_cons, filter_cons, ih]
      rw [hout, ih, filter_cons_of_neg (by simp [ha])]

end Ownership
