import Qzt.Foundation.Results

/-!
# Binary search for a partition point

`partitionPoint before n` searches `[0, n)` for the first position where `before` no
longer holds, by halving.  The test may fail; a failure stops the search.  When the
test succeeds everywhere and holds exactly below some position, the search finds that
position.
-/

namespace Foundation

variable {ε : Type}

/-- The halving loop on `[low, high)`; `fuel` bounds the number of halvings. -/
def partitionLoop (before : Nat → Except ε Bool) : Nat → Nat → Nat → Except ε Nat
  | 0, low, _ => .ok low
  | fuel + 1, low, high =>
    if low < high then do
      let mid := low + (high - low) / 2
      if ← before mid then
        partitionLoop before fuel (mid + 1) high
      else
        partitionLoop before fuel low mid
    else
      .ok low

/-- The first position of `[0, n)` where `before` fails, found by halving. -/
def partitionPoint (before : Nat → Except ε Bool) (n : Nat) : Except ε Nat :=
  partitionLoop before n 0 n

/-- One halving keeps the partition point inside the interval. -/
private theorem partitionLoop_spec {before : Nat → Except ε Bool} {p : Nat} :
    ∀ {fuel low high : Nat}, high - low ≤ fuel → low ≤ p → p ≤ high →
      (∀ i, low ≤ i → i < high → before i = .ok (decide (i < p))) →
      partitionLoop before fuel low high = .ok p := by
  intro fuel
  induction fuel with
  | zero =>
    intro low high hfuel hlow hhigh _
    have hp : low = p := by omega
    simp [partitionLoop, hp]
  | succ fuel ih =>
    intro low high hfuel hlow hhigh hbefore
    by_cases hlt : low < high
    · have hmid := hbefore (low + (high - low) / 2) (by omega) (by omega)
      simp only [partitionLoop, if_pos hlt, hmid, ok_bind]
      by_cases hp : low + (high - low) / 2 < p
      · simp only [hp, decide_true, if_true]
        exact ih (by omega) (by omega) hhigh fun i hi hi' => hbefore i (by omega) hi'
      · simp only [hp, decide_false, Bool.false_eq_true, if_false]
        exact ih (by omega) hlow (by omega) fun i hi hi' => hbefore i hi (by omega)
    · have hp : low = p := by omega
      rw [partitionLoop, if_neg hlt, hp]

/-- The search finds the partition point of a monotone test. -/
theorem partitionPoint_eq {before : Nat → Except ε Bool} {n p : Nat} (hp : p ≤ n)
    (h : ∀ i < n, before i = .ok (decide (i < p))) : partitionPoint before n = .ok p :=
  partitionLoop_spec (Nat.sub_le n 0) (Nat.zero_le p) hp fun i _ hi => h i hi

/-- Two tests that agree on the searched positions give the same result. -/
theorem partitionPoint_congr {before before' : Nat → Except ε Bool} {n : Nat}
    (h : ∀ i < n, before i = before' i) : partitionPoint before n = partitionPoint before' n := by
  have hloop : ∀ fuel low high, high ≤ n →
      partitionLoop before fuel low high = partitionLoop before' fuel low high := by
    intro fuel
    induction fuel with
    | zero => intros; rfl
    | succ fuel ih =>
      intro low high hhigh
      simp only [partitionLoop]
      split
      · rw [h _ (by omega)]
        congr 1
        funext b
        rw [ih _ _ hhigh, ih _ _ (by omega)]
      · rfl
  exact hloop n 0 n (Nat.le_refl n)

end Foundation
