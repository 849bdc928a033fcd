import Mathlib.Data.List.Basic
import Mathlib.Data.List.Infix

/-!
# Slices of lists

`slice l o n` is the run of `n` elements of `l` from position `o`; `getRange? l s e` is
the checked half-open range `[s, e)`.
-/

namespace Foundation

variable {α : Type}

/-- The `n` elements of `l` from position `o` (fewer when `l` ends before). -/
def slice (l : List α) (o n : Nat) : List α :=
  (l.drop o).take n

/-- The checked half-open range `[s, e)` of `l`. -/
def getRange? (l : List α) (s e : Nat) : Option (List α) :=
  if s ≤ e ∧ e ≤ l.length then some (slice l s (e - s)) else none

theorem getRange?_eq_some_iff {l r : List α} {s e : Nat} :
    getRange? l s e = some r ↔ (s ≤ e ∧ e ≤ l.length) ∧ slice l s (e - s) = r := by
  unfold getRange?
  split
  · simp_all
  · simp_all only [reduceCtorEq, false_and]

theorem length_slice (l : List α) (o n : Nat) :
    (slice l o n).length = min n (l.length - o) := by
  simp [slice]

theorem length_slice_of_le {l : List α} {o n : Nat} (h : o + n ≤ l.length) :
    (slice l o n).length = n := by
  rw [length_slice]
  omega

@[simp] theorem slice_zero_length (l : List α) : slice l 0 l.length = l := by
  simp [slice]

@[simp] theorem slice_length_zero (l : List α) (o : Nat) : slice l o 0 = [] := by
  simp [slice]

/-- The slice that starts where a prefix ends. -/
theorem slice_append_left (pre mid post : List α) :
    slice (pre ++ (mid ++ post)) pre.length mid.length = mid := by
  simp [slice]

/-- A slice behind the first part. -/
theorem slice_append_of_le {pre post : List α} {o n : Nat} (h : pre.length ≤ o) :
    slice (pre ++ post) o n = slice post (o - pre.length) n := by
  rw [slice, slice, List.drop_append, List.drop_of_length_le h, List.nil_append]

/-- A slice inside the first part. -/
theorem slice_append_of_ge {pre post : List α} {o n : Nat} (h : o + n ≤ pre.length) :
    slice (pre ++ post) o n = slice pre o n := by
  rw [slice, slice, List.drop_append_of_le_length (by omega), List.take_append_of_le_length]
  rw [List.length_drop]
  omega

theorem slice_eq_self {l : List α} {n : Nat} (h : l.length = n) : slice l 0 n = l := by
  rw [← h, slice_zero_length]

/-- The range that a middle part occupies. -/
theorem getRange?_append_left (pre mid post : List α) :
    getRange? (pre ++ (mid ++ post)) pre.length (pre.length + mid.length) = some mid := by
  rw [getRange?_eq_some_iff, Nat.add_sub_cancel_left, slice_append_left]
  refine ⟨⟨Nat.le_add_right _ _, ?_⟩, rfl⟩
  simp only [List.length_append]
  omega

theorem getElem?_slice {l : List α} {o n i : Nat} (h : i < n) :
    (slice l o n)[i]? = l[o + i]? := by
  simp [slice, h]

/-- Consecutive slices concatenate. -/
theorem slice_append_slice (l : List α) (o m n : Nat) :
    slice l o m ++ slice l (o + m) n = slice l o (m + n) := by
  simp only [slice, List.take_add, List.drop_drop]

/-- A slice of a slice. -/
theorem slice_slice {l : List α} {o n p m : Nat} (h : p + m ≤ n) :
    slice (slice l o n) p m = slice l (o + p) m := by
  simp only [slice, List.drop_take, List.take_take, List.drop_drop]
  congr 1
  omega

end Foundation
