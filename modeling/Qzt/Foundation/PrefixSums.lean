import Mathlib.Algebra.BigOperators.Group.List.Basic
import Mathlib.Algebra.GroupWithZero.Nat
import Mathlib.Data.List.TakeDrop
import Qzt.Foundation.Search

/-!
# Positions in a sequence of weights

Weights laid end to end cover the positions `[0, sum)`.  `weightIndex ws o` is the
number of weights that end at or before `o`: the index of the weight that covers `o`
when `o` is covered.  It is the partition point of the test "ends at or before `o`".
-/

namespace Foundation

/-- The number of weights that end at or before position `o`. -/
def weightIndex : List Nat → Nat → Nat
  | [], _ => 0
  | w :: ws, o => if w ≤ o then weightIndex ws (o - w) + 1 else 0

theorem weightIndex_le (ws : List Nat) (o : Nat) : weightIndex ws o ≤ ws.length := by
  induction ws generalizing o with
  | nil => exact Nat.le_refl _
  | cons w ws ih =>
    rw [weightIndex, List.length_cons]
    split
    · have := ih (o - w)
      omega
    · exact Nat.zero_le _

/-- A weight is counted exactly when it ends at or before the position. -/
theorem lt_weightIndex_iff {ws : List Nat} {o i : Nat} (hi : i < ws.length) :
    i < weightIndex ws o ↔ (ws.take (i + 1)).sum ≤ o := by
  induction ws generalizing o i with
  | nil => simp at hi
  | cons w ws ih =>
    rw [weightIndex, List.take_succ_cons, List.sum_cons]
    by_cases hw : w ≤ o
    · rw [if_pos hw]
      cases i with
      | zero => simp [hw]
      | succ i =>
        rw [List.length_cons] at hi
        rw [Nat.succ_lt_succ_iff, ih (by omega)]
        omega
    · rw [if_neg hw]
      omega

/-- A covered position lies inside the weight at its index. -/
theorem weightIndex_spec {ws : List Nat} {o : Nat} (h : o < ws.sum) :
    weightIndex ws o < ws.length ∧ (ws.take (weightIndex ws o)).sum ≤ o ∧
      o < (ws.take (weightIndex ws o + 1)).sum := by
  induction ws generalizing o with
  | nil => simp at h
  | cons w ws ih =>
    rw [List.sum_cons] at h
    rw [weightIndex]
    by_cases hw : w ≤ o
    · obtain ⟨hlt, hle, hgt⟩ := @ih (o - w) (by omega)
      rw [if_pos hw, List.length_cons, List.take_succ_cons, List.take_succ_cons, List.sum_cons,
        List.sum_cons]
      omega
    · rw [if_neg hw]
      simp
      omega

/-- Only one weight covers a position. -/
theorem eq_weightIndex {ws : List Nat} {o i : Nat} (hi : i < ws.length)
    (hle : (ws.take i).sum ≤ o) (hlt : o < (ws.take (i + 1)).sum) : i = weightIndex ws o := by
  have hge : weightIndex ws o ≤ i := by
    rw [← Nat.not_lt, lt_weightIndex_iff hi]
    omega
  refine Nat.le_antisymm ?_ hge
  cases i with
  | zero => exact Nat.zero_le _
  | succ i => exact (lt_weightIndex_iff (Nat.lt_of_succ_lt hi)).mpr hle

/-- Halving over the ends of the weights finds the index. -/
theorem partitionPoint_weights {ε : Type} {before : Nat → Except ε Bool} {ws : List Nat} {o : Nat}
    (h : ∀ i < ws.length, before i = .ok (decide ((ws.take (i + 1)).sum ≤ o))) :
    partitionPoint before ws.length = .ok (weightIndex ws o) := by
  refine partitionPoint_eq (weightIndex_le ws o) fun i hi => ?_
  rw [h i hi]
  congr 1
  rw [decide_eq_decide]
  exact (lt_weightIndex_iff hi).symm

end Foundation
