import Mathlib.Data.List.Sort

/-!
# The stable sort, by insertion

`List.mergeSort` recurses on halves and does not unfold on closed lists.  Sorting by
insertion, which is structural, gives the same list for every total preorder, equal
elements in their old order.
-/

namespace Foundation

variable {α : Type}

/-- An element goes behind the elements that it is not below, and before the rest. -/
theorem orderedInsert_append {le : α → α → Bool} {a : α} {before behind : List α}
    (hbefore : ∀ b ∈ before, (!le a b) = true) (hbehind : ∀ b ∈ behind.head?, le a b = true) :
    (before ++ behind).orderedInsert (fun a b => le a b = true) a = before ++ a :: behind := by
  induction before with
  | nil =>
    cases behind with
    | nil => rfl
    | cons b behind => exact List.orderedInsert_cons_of_le _ _ (hbehind b rfl)
  | cons b before ih =>
    have hb : le a b ≠ true := by
      have hhead := hbefore b List.mem_cons_self
      rwa [Bool.not_eq_true', ← Bool.not_eq_true] at hhead
    rw [List.cons_append, List.orderedInsert_cons, if_neg hb,
      ih fun c hc => hbefore c (List.mem_cons_of_mem _ hc), List.cons_append]

/-- A merge sort by a total preorder is the sort by insertion. -/
theorem mergeSort_eq_insertion {le : α → α → Bool}
    (htrans : ∀ a b c, le a b = true → le b c = true → le a c = true)
    (htotal : ∀ a b, (le a b || le b a) = true) (l : List α) :
    l.mergeSort le = l.insertionSort fun a b => le a b = true := by
  induction l with
  | nil => rw [List.mergeSort_nil, List.insertionSort_nil]
  | cons a l ih =>
    obtain ⟨before, behind, hsorted, hrest, hbefore⟩ := List.mergeSort_cons htrans htotal a l
    rw [List.insertionSort_cons, ← ih, hrest, hsorted]
    refine (orderedInsert_append hbefore ?_).symm
    -- What stands behind the element in the sorted list is not below it.
    have hpairwise := List.pairwise_mergeSort htrans htotal (a :: l)
    rw [hsorted, List.pairwise_append, List.pairwise_cons] at hpairwise
    intro b hb
    exact hpairwise.2.1.1 b (List.mem_of_head? hb)

/-- Sorting by a number. -/
theorem mergeSort_by_eq_insertion (key : α → Nat) (l : List α) :
    l.mergeSort (fun a b => decide (key a ≤ key b)) =
      l.insertionSort fun a b => decide (key a ≤ key b) = true := by
  apply mergeSort_eq_insertion
  · intro a b c hab hbc
    rw [decide_eq_true_eq] at hab hbc ⊢
    exact Nat.le_trans hab hbc
  · intro a b
    rw [Bool.or_eq_true, decide_eq_true_eq, decide_eq_true_eq]
    exact Nat.le_total _ _

end Foundation
