/-!
# Stable sorting

Insertion sort by a strict comparison.  Elements of which neither is less keep their order.  Nothing
is asked of the comparison: where it is no order, the result is the one that inserting the elements
one by one from the left gives.
-/

namespace Decompiler

/-- Puts an element behind the greater ones at the front of a descending list. -/
def insertDescending {α : Type} (less : α → α → Bool) (x : α) : List α → List α
  | [] => [x]
  | y :: rest => if less x y then y :: insertDescending less x rest else x :: y :: rest

/-- The elements of a list in ascending order. -/
def stableSort {α : Type} (less : α → α → Bool) (list : List α) : List α :=
  (list.foldl (fun sorted x => insertDescending less x sorted) []).reverse

theorem perm_insertDescending {α : Type} (less : α → α → Bool) (x : α) (list : List α) :
    (insertDescending less x list).Perm (x :: list) := by
  induction list with
  | nil => exact .refl _
  | cons y rest ih =>
    rw [insertDescending]
    split
    · exact (ih.cons y).trans (.swap x y rest)
    · exact .refl _

/-- Sorting keeps the elements of a list, each as often as it occurs. -/
theorem perm_stableSort {α : Type} (less : α → α → Bool) (list : List α) :
    (stableSort less list).Perm list := by
  have hfold : ∀ sorted : List α,
      (list.foldl (fun sorted x => insertDescending less x sorted) sorted).Perm (list ++ sorted) := by
    induction list with
    | nil => exact fun sorted => .refl sorted
    | cons x rest ih =>
      intro sorted
      refine (ih _).trans ?_
      exact ((perm_insertDescending less x sorted).append_left rest).trans List.perm_middle
  refine (List.reverse_perm _).trans ?_
  simpa using hfold []

/-- The numbers of a list in ascending order. -/
def ascending (list : List Nat) : List Nat :=
  stableSort (fun a b => decide (a < b)) list

theorem pairwise_insertDescending (x : Nat) (list : List Nat) (h : list.Pairwise (· ≥ ·)) :
    (insertDescending (fun a b => decide (a < b)) x list).Pairwise (· ≥ ·) := by
  induction list with
  | nil => exact List.pairwise_singleton _ x
  | cons y rest ih =>
    have hy : ∀ z ∈ rest, y ≥ z := fun z hz => List.rel_of_pairwise_cons h hz
    rw [insertDescending]
    split
    · rename_i hlt
      have hxy : x < y := of_decide_eq_true hlt
      refine List.pairwise_cons.2 ⟨fun z hz => ?_, ih h.of_cons⟩
      rcases List.mem_cons.1 ((perm_insertDescending _ x rest).mem_iff.1 hz) with rfl | hz
      · exact Nat.le_of_lt hxy
      · exact hy z hz
    · rename_i hlt
      have hyx : y ≤ x := Nat.not_lt.1 fun hxy => hlt (decide_eq_true hxy)
      refine List.pairwise_cons.2 ⟨fun z hz => ?_, h⟩
      rcases List.mem_cons.1 hz with rfl | hz
      · exact hyx
      · exact Nat.le_trans (hy z hz) hyx

/-- The result of sorting is in ascending order. -/
theorem pairwise_ascending (list : List Nat) : (ascending list).Pairwise (· ≤ ·) := by
  have hfold : ∀ sorted : List Nat, sorted.Pairwise (· ≥ ·) →
      (list.foldl (fun sorted x => insertDescending (fun a b => decide (a < b)) x sorted)
        sorted).Pairwise (· ≥ ·) := by
    induction list with
    | nil => exact fun sorted h => h
    | cons x rest ih => exact fun sorted h => ih _ (pairwise_insertDescending x sorted h)
  exact List.pairwise_reverse.2 (hfold [] List.Pairwise.nil)

end Decompiler
