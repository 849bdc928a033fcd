import Mathlib.Data.Finset.Card
import Mathlib.Order.Interval.Finset.Nat
import Mathlib.Order.Monotone.Basic
import Qzt.Foundation.PrefixSums
import Qzt.Foundation.Segments

/-!
# The segment of a position

The segments of a list laid end to end cover its positions.  The segment that covers a
position is numbered by the separators before it, so the segments that a range meets are
counted by two prefix counts.
-/

namespace Foundation

section SegmentIndex

variable {α : Type} [DecidableEq α] (sep : α)

/-- The number of the segment that covers a position. -/
def segmentIndex (l : List α) (position : Nat) : Nat :=
  weightIndex ((segments sep l).map List.length) position

variable {sep}

/-- The segment of a position is numbered by the separators before it. -/
theorem segmentIndex_eq_count {l : List α} {position : Nat} (h : position < l.length) :
    segmentIndex sep l position = (l.take position).count sep := by
  induction l generalizing position with
  | nil => exact absurd h (Nat.not_lt_zero _)
  | cons x xs ih =>
    rw [segmentIndex, segments]
    by_cases hx : x = sep
    · -- The separator is a segment of its own.
      rw [if_pos hx, List.map_cons, List.length_singleton]
      cases position with
      | zero => rfl
      | succ position =>
        rw [List.length_cons] at h
        rw [weightIndex, if_pos (Nat.le_add_left _ _), Nat.add_sub_cancel, List.take_succ_cons,
          List.count_cons, hx, beq_self_eq_true, if_pos rfl]
        exact congrArg (· + 1) (ih (by omega))
    · rw [if_neg hx]
      cases position with
      | zero =>
        cases segments sep xs <;> rfl
      | succ position =>
        rw [List.length_cons] at h
        have hrest := @ih position (by omega)
        rw [segmentIndex] at hrest
        rw [List.take_succ_cons, List.count_cons_of_ne hx, ← hrest]
        cases hsegments : segments sep xs with
        | nil =>
          rw [segments_eq_nil_iff] at hsegments
          rw [hsegments] at h
          simp at h
        | cons s ss =>
          -- The element joins the first segment, and every position moves by one.
          simp only [List.map_cons, List.length_cons, weightIndex, Nat.succ_le_succ_iff,
            Nat.add_sub_add_right]

end SegmentIndex

/-! ## Counting the values of a slow function -/

/-- A function that never falls and climbs by at most one takes every value in between. -/
theorem card_image_Ico_of_slow {f : Nat → Nat} (hmono : Monotone f)
    (hslow : ∀ n, f (n + 1) ≤ f n + 1) (start length : Nat) :
    ((Finset.Ico start (start + length + 1)).image f).card = f (start + length) - f start + 1 := by
  induction length with
  | zero => simp
  | succ length ih =>
    have hstart : f start ≤ f (start + length) := hmono (Nat.le_add_right _ _)
    have hstep : f (start + length) ≤ f (start + length + 1) := hmono (Nat.le_succ _)
    have hclimb := hslow (start + length)
    have hinsert : Finset.Ico start (start + length + 1 + 1) =
        insert (start + length + 1) (Finset.Ico start (start + length + 1)) := by
      ext n
      simp only [Finset.mem_Ico, Finset.mem_insert]
      omega
    rw [← Nat.add_assoc, hinsert, Finset.image_insert]
    by_cases hsame : f (start + length + 1) = f (start + length)
    · rw [Finset.insert_eq_of_mem, ih, hsame]
      refine Finset.mem_image.mpr ⟨start + length, ?_, hsame.symm⟩
      rw [Finset.mem_Ico]
      omega
    · rw [Finset.card_insert_of_notMem, ih]
      · omega
      · -- Every earlier value is smaller.
        intro hmem
        obtain ⟨n, hn, heq⟩ := Finset.mem_image.mp hmem
        rw [Finset.mem_Ico] at hn
        have hle : f n ≤ f (start + length) := hmono (by omega)
        omega

end Foundation
