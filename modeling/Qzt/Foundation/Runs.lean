import Mathlib.Data.List.Basic
import Mathlib.Tactic.Common
import Qzt.Foundation.Slices

/-!
# Maximal runs

A run of a predicate in a list is a non-empty range of elements that satisfy it, with
no such element directly before or behind.  `scanRuns` finds all runs in one pass.
-/

namespace Foundation

variable {α : Type}

/-- The runs of `p`, as ranges `[start, stop)`: `position` elements have been read and `current`
is the start of the run that is still open. -/
def scanRuns (p : α → Bool) : Nat → Option Nat → List α → List (Nat × Nat)
  | _, none, [] => []
  | position, some start, [] => [(start, position)]
  | position, none, x :: xs =>
    if p x then scanRuns p (position + 1) (some position) xs else scanRuns p (position + 1) none xs
  | position, some start, x :: xs =>
    if p x then scanRuns p (position + 1) (some start) xs
    else (start, position) :: scanRuns p (position + 1) none xs

/-- The runs of `p` in a list. -/
def runs (p : α → Bool) (l : List α) : List (Nat × Nat) :=
  scanRuns p 0 none l

/-- The range `[start, stop)` of `l` is a maximal run of `p`. -/
structure IsRun (p : α → Bool) (l : List α) (start stop : Nat) : Prop where
  start_lt : start < stop
  stop_le : stop ≤ l.length
  inside : ∀ i x, start ≤ i → i < stop → l[i]? = some x → p x = true
  left : ∀ x, 0 < start → l[start - 1]? = some x → p x = false
  right : ∀ x, l[stop]? = some x → p x = false

section Scan

variable {p : α → Bool}

/-- An open run reaches back to its start and is maximal there. -/
private def Open (p : α → Bool) (before : List α) : Option Nat → Prop
  | none => ∀ x, before.getLast? = some x → p x = false
  | some start => start < before.length ∧
      (∀ i x, start ≤ i → before[i]? = some x → p x = true) ∧
      ∀ x, 0 < start → before[start - 1]? = some x → p x = false

private theorem getElem?_concat {before : List α} {x y : α} {i : Nat}
    (h : (before ++ [x])[i]? = some y) : before[i]? = some y ∨ i = before.length ∧ x = y := by
  rcases Nat.lt_or_ge i before.length with hlt | hge
  · rw [List.getElem?_append_left hlt] at h
    exact .inl h
  · rw [List.getElem?_append_right hge] at h
    cases hj : i - before.length with
    | zero =>
      rw [hj] at h
      exact .inr ⟨by omega, by simpa using h⟩
    | succ j => simp [hj] at h

private theorem Open.concat_true {before : List α} {current : Option Nat} (h : Open p before current)
    {x : α} (hx : p x = true) :
    Open p (before ++ [x]) (some (current.getD before.length)) := by
  cases current with
  | none =>
    refine ⟨by simp, ?_, ?_⟩
    · intro i y hi hy
      rcases getElem?_concat hy with hold | ⟨-, rfl⟩
      · have := (List.getElem?_eq_some_iff.mp hold).1
        simp only [Option.getD_none] at hi
        omega
      · exact hx
    · intro y hpos hy
      simp only [Option.getD_none] at hpos hy
      rw [List.getElem?_append_left (by omega)] at hy
      exact h y (by rw [List.getLast?_eq_getElem?, hy])
  | some start =>
    obtain ⟨hlt, hinside, hleft⟩ := h
    refine ⟨by simp only [Option.getD_some, List.length_append]; omega, ?_, ?_⟩
    · intro i y hi hy
      rcases getElem?_concat hy with hold | ⟨-, rfl⟩
      · exact hinside i y hi hold
      · exact hx
    · intro y hpos hy
      simp only [Option.getD_some] at hpos hy
      rw [List.getElem?_append_left (by omega)] at hy
      exact hleft y hpos hy

private theorem Open.concat_false {before : List α} {x : α} (hx : p x = false) :
    Open p (before ++ [x]) none := by
  intro y hy
  rw [List.getLast?_concat, Option.some.injEq] at hy
  rw [← hy]
  exact hx

/-- The open run ends where the list ends or the predicate fails. -/
private theorem Open.isRun_iff {before : List α} {start : Nat}
    (h : Open p before (some start)) (rest : List α) (hrest : ∀ x, rest.head? = some x → p x = false)
    {s e : Nat} : (s, e) = (start, before.length) ↔
      IsRun p (before ++ rest) s e ∧ start ≤ s ∧ s < before.length := by
  obtain ⟨hlt, hinside, hleft⟩ := h
  have hbefore : ∀ i x, i < before.length → (before ++ rest)[i]? = some x → before[i]? = some x := by
    intro i x hi hx
    rwa [List.getElem?_append_left hi] at hx
  have hedge : ∀ x, (before ++ rest)[before.length]? = some x → p x = false := by
    intro x hx
    rw [List.getElem?_append_right (Nat.le_refl _), Nat.sub_self, ← List.head?_eq_getElem?] at hx
    exact hrest x hx
  constructor
  · intro heq
    obtain ⟨rfl, rfl⟩ := Prod.mk.inj heq
    refine ⟨⟨hlt, by simp, ?_, ?_, hedge⟩, Nat.le_refl _, hlt⟩
    · intro i x hi hi' hx
      exact hinside i x hi (hbefore i x hi' hx)
    · intro x hpos hx
      exact hleft x hpos (hbefore _ x (by omega) hx)
  · rintro ⟨hrun, hstart, hs⟩
    have hget : ∀ i, i < before.length → ∃ x, (before ++ rest)[i]? = some x ∧ before[i]? = some x := by
      intro i hi
      exact ⟨before[i], by rw [List.getElem?_append_left hi]; exact List.getElem?_eq_getElem hi,
        List.getElem?_eq_getElem hi⟩
    -- The run cannot begin later, its left neighbour would be inside the open run.
    have hseq : s = start := by
      by_contra hne
      obtain ⟨x, hx, hx'⟩ := hget (s - 1) (by omega)
      have hfalse := hrun.left x (by omega) hx
      rw [hinside (s - 1) x (by omega) hx'] at hfalse
      cases hfalse
    have hge : before.length ≤ e := by
      by_contra hne
      obtain ⟨x, hx, hx'⟩ := hget e (by omega)
      have hfalse := hrun.right x hx
      rw [hinside e x (by have := hrun.start_lt; omega) hx'] at hfalse
      cases hfalse
    have hle : e ≤ before.length := by
      by_contra hne
      have hlen : before.length < (before ++ rest).length := by
        have := hrun.stop_le
        omega
      have htrue := hrun.inside before.length _ (by omega) (by omega)
        (List.getElem?_eq_getElem hlen)
      rw [hedge _ (List.getElem?_eq_getElem hlen)] at htrue
      cases htrue
    rw [hseq, Nat.le_antisymm hle hge]

/-- The scan finds the runs from the open one on. -/
private theorem mem_scanRuns {before : List α} {current : Option Nat}
    (h : Open p before current) (rest : List α) (s e : Nat) :
    (s, e) ∈ scanRuns p before.length current rest ↔
      IsRun p (before ++ rest) s e ∧ current.getD before.length ≤ s := by
  induction rest generalizing before current with
  | nil =>
    cases current with
    | none =>
      rw [scanRuns, List.append_nil]
      constructor
      · intro hmem
        cases hmem
      · rintro ⟨hrun, hle⟩
        have := hrun.start_lt
        have := hrun.stop_le
        simp only [Option.getD_none] at hle
        omega
    | some start =>
      rw [scanRuns, List.mem_singleton, h.isRun_iff [] (by simp), Option.getD_some]
      constructor
      · rintro ⟨hrun, hle, -⟩
        exact ⟨hrun, hle⟩
      · rintro ⟨hrun, hle⟩
        have := hrun.start_lt
        have := hrun.stop_le
        rw [List.append_nil] at this
        exact ⟨hrun, hle, by omega⟩
  | cons x rest ih =>
    have happend : before ++ x :: rest = before ++ [x] ++ rest := by simp
    have hlength : before.length + 1 = (before ++ [x]).length := by simp
    by_cases hx : p x = true
    · have hscan : scanRuns p before.length current (x :: rest) =
          scanRuns p (before.length + 1) (some (current.getD before.length)) rest := by
        cases current <;> simp [scanRuns, hx]
      rw [hscan, hlength, happend, ih (h.concat_true hx), Option.getD_some]
    · have hfalse : p x = false := by simpa using hx
      have hopen : Open p (before ++ [x]) none := Open.concat_false hfalse
      have hnext := ih hopen
      rw [← hlength, ← happend, Option.getD_none] at hnext
      -- A run that begins at `x` or before it ends before `x`.
      have hbegin : IsRun p (before ++ x :: rest) s e → s ≠ before.length := by
        rintro hrun rfl
        have htrue := hrun.inside before.length x (Nat.le_refl _) hrun.start_lt (by simp)
        rw [hfalse] at htrue
        cases htrue
      cases current with
      | none =>
        rw [scanRuns, if_neg hx, hnext, Option.getD_none]
        constructor
        · rintro ⟨hrun, hle⟩
          exact ⟨hrun, by omega⟩
        · rintro ⟨hrun, hle⟩
          have := hbegin hrun
          exact ⟨hrun, by omega⟩
      | some start =>
        rw [scanRuns, if_neg hx, List.mem_cons, hnext,
          h.isRun_iff (x :: rest) (by simpa using hfalse), Option.getD_some]
        have hlt := h.1
        constructor
        · rintro (⟨hrun, hle, -⟩ | ⟨hrun, hle⟩)
          · exact ⟨hrun, hle⟩
          · exact ⟨hrun, by omega⟩
        · rintro ⟨hrun, hle⟩
          have := hbegin hrun
          rcases Nat.lt_or_ge s before.length with hs | hs
          · exact .inl ⟨hrun, hle, hs⟩
          · exact .inr ⟨hrun, by omega⟩

/-- The scan finds exactly the maximal runs. -/
theorem mem_runs_iff {l : List α} {s e : Nat} : (s, e) ∈ runs p l ↔ IsRun p l s e := by
  have h : Open p [] none := by simp [Open]
  have hmem := mem_scanRuns h l s e
  rw [List.length_nil, List.nil_append] at hmem
  rw [runs, hmem]
  simp

private theorem le_of_mem_scanRuns {position : Nat} {current : Option Nat} {l : List α}
    (hopen : ∀ start, current = some start → start ≤ position) {run : Nat × Nat}
    (h : run ∈ scanRuns p position current l) : current.getD position ≤ run.1 := by
  revert hopen h
  induction l generalizing position current with
  | nil =>
    intro hopen h
    cases current with
    | none => cases h
    | some start =>
      rw [scanRuns, List.mem_singleton] at h
      rw [h, Option.getD_some]
  | cons x l ih =>
    intro hopen h
    cases current with
    | none =>
      rw [scanRuns] at h
      split at h
      · have := ih (by simp) h
        exact this
      · have := ih (by simp) h
        simp only [Option.getD_none] at this ⊢
        omega
    | some start =>
      have hle := hopen start rfl
      rw [scanRuns] at h
      split at h
      · have := ih (by simp; omega) h
        exact this
      · rcases List.mem_cons.mp h with rfl | h
        · exact Nat.le_refl _
        · have := ih (by simp) h
          simp only [Option.getD_none, Option.getD_some] at this ⊢
          omega

private theorem scanRuns_pairwise (position : Nat) (current : Option Nat) (l : List α) :
    (scanRuns p position current l).Pairwise fun a b => a.2 < b.1 := by
  induction l generalizing position current with
  | nil => cases current <;> simp [scanRuns]
  | cons x l ih =>
    cases current with
    | none =>
      rw [scanRuns]
      split
      · exact ih _ _
      · exact ih _ _
    | some start =>
      rw [scanRuns]
      split
      · exact ih _ _
      · refine List.pairwise_cons.mpr ⟨?_, ih _ _⟩
        intro run hrun
        have := le_of_mem_scanRuns (by simp) hrun
        simp only [Option.getD_none] at this
        omega

/-- The runs come in ascending order, with a gap between neighbours. -/
theorem runs_pairwise (p : α → Bool) (l : List α) :
    (runs p l).Pairwise fun a b => a.2 < b.1 :=
  scanRuns_pairwise _ _ _

end Scan

/-! ## Runs inside a range -/

section Ranges

variable {p : α → Bool} {text : List α} {offset length start stop : Nat}

/-- A run of a range is a run of the whole when the neighbours of the range do not extend it. -/
theorem IsRun.of_slice (h : IsRun p (slice text offset length) start stop)
    (hrange : offset + length ≤ text.length)
    (hleft : start = 0 → ∀ x, 0 < offset → text[offset - 1]? = some x → p x = false)
    (hright : stop = length → ∀ x, text[offset + length]? = some x → p x = false) :
    IsRun p text (offset + start) (offset + stop) := by
  have hstop := h.stop_le
  have hstart := h.start_lt
  rw [length_slice_of_le hrange] at hstop
  refine ⟨by omega, by omega, ?_, ?_, ?_⟩
  · intro i x hi hi' hx
    refine h.inside (i - offset) x (by omega) (by omega) ?_
    rw [getElem?_slice (by omega), Nat.add_sub_cancel' (by omega)]
    exact hx
  · intro x hpos hx
    by_cases hzero : start = 0
    · rw [hzero] at hx hpos
      exact hleft hzero x hpos hx
    · refine h.left x (by omega) ?_
      rw [getElem?_slice (by omega), show offset + (start - 1) = offset + start - 1 by omega]
      exact hx
  · intro x hx
    by_cases hend : stop = length
    · rw [hend] at hx
      exact hright hend x hx
    · refine h.right x ?_
      rw [getElem?_slice (by omega)]
      exact hx

/-- A run that lies in a range is a run of the range. -/
theorem IsRun.slice (h : IsRun p text (offset + start) (offset + stop))
    (hrange : offset + length ≤ text.length) (hstop : stop ≤ length) :
    IsRun p (Foundation.slice text offset length) start stop := by
  have hstart := h.start_lt
  refine ⟨by omega, by rw [length_slice_of_le hrange]; exact hstop, ?_, ?_, ?_⟩
  · intro i x hi hi' hx
    rw [getElem?_slice (by omega)] at hx
    exact h.inside (offset + i) x (by omega) (by omega) hx
  · intro x hpos hx
    rw [getElem?_slice (by omega)] at hx
    refine h.left x (by omega) ?_
    rw [show offset + start - 1 = offset + (start - 1) by omega]
    exact hx
  · intro x hx
    rcases Nat.lt_or_ge stop length with hlt | hge
    · rw [getElem?_slice hlt] at hx
      exact h.right x hx
    · rw [List.getElem?_eq_none (by rw [length_slice_of_le hrange]; exact hge)] at hx
      cases hx

end Ranges

end Foundation
