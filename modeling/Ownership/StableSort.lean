/-!
# Stable sorting by a key

Insertion sort on lists. Elements with equal keys keep their order, which is the order in which
they were detected.
-/

namespace Ownership

variable {α : Type}

/-- Puts an element before the first one that it does not exceed. -/
def insertSorted (le : α → α → Bool) (a : α) : List α → List α
  | [] => [a]
  | b :: rest => if le a b then a :: b :: rest else b :: insertSorted le a rest

/-- Sorts a list; elements that `le` does not tell apart keep their order. -/
def stableSort (le : α → α → Bool) : List α → List α
  | [] => []
  | a :: rest => insertSorted le a (stableSort le rest)

theorem insertSorted_perm (le : α → α → Bool) (a : α) (l : List α) :
    (insertSorted le a l).Perm (a :: l) := by
  induction l with
  | nil => exact List.Perm.refl _
  | cons b l ih =>
    unfold insertSorted
    split
    · exact List.Perm.refl _
    · exact (ih.cons b).trans (List.Perm.swap a b l)

theorem stableSort_perm (le : α → α → Bool) (l : List α) : (stableSort le l).Perm l := by
  induction l with
  | nil => exact List.Perm.refl _
  | cons a l ih => exact (insertSorted_perm le a _).trans (ih.cons a)

/-- A list that is already sorted is left alone. -/
theorem stableSort_of_pairwise {le : α → α → Bool} {l : List α}
    (h : l.Pairwise fun a b => le a b = true) : stableSort le l = l := by
  induction l with
  | nil => rfl
  | cons a l ih =>
    rw [List.pairwise_cons] at h
    rw [stableSort, ih h.2]
    cases l with
    | nil => rfl
    | cons b l => simp [insertSorted, h.1 b (List.mem_cons_self ..)]

end Ownership
