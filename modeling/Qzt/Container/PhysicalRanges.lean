import Mathlib.Algebra.BigOperators.Group.List.Basic
import Qzt.Container.Fixed

/-!
# Disjoint physical ranges

`validate_physical_ranges` sorts the ranges and compares neighbours.  On sorted ranges
two neighbours that do not overlap lie one behind the other, so accepted ranges fit
into the file side by side; and ranges that are pairwise disjoint are accepted.
-/

namespace Qzt

open Foundation

namespace PhysicalRange

instance : Std.Total le where
  total a b := by
    simp only [le]
    omega

instance : IsTrans PhysicalRange le where
  trans a b c hab hbc := by
    simp only [le] at hab hbc ⊢
    omega

/-- The ranges share no byte. -/
def Disjoint (a b : PhysicalRange) : Prop :=
  a.offset + a.size ≤ b.offset ∨ b.offset + b.size ≤ a.offset

theorem Disjoint.symm {a b : PhysicalRange} (h : a.Disjoint b) : b.Disjoint a :=
  Or.symm h

theorem overlaps_of_lt {a b : PhysicalRange} (ha : a.offset + a.size < 2 ^ 64)
    (hb : b.offset + b.size < 2 ^ 64) :
    a.overlaps b =
      .ok (decide (a.offset < b.offset + b.size ∧ b.offset < a.offset + a.size)) := by
  rw [overlaps, endOffset, endOffset, checkedPhysicalEnd_of_lt ha, ok_bind,
    checkedPhysicalEnd_of_lt hb, ok_bind]
  rfl

/-- Ordered ranges that do not overlap lie one behind the other. -/
theorem end_le_of_le {a b : PhysicalRange} (hle : a.le b) {overlap : Bool}
    (h : a.overlaps b = .ok overlap) (hfalse : ¬ overlap = true) : a.offset + a.size ≤ b.offset := by
  simp only [overlaps, endOffset, bind_eq_ok_iff, checkedPhysicalEnd_eq_ok_iff, pure_eq_ok,
    Except.ok.injEq] at h
  obtain ⟨_, ⟨-, rfl⟩, _, ⟨-, rfl⟩, rfl⟩ := h
  rw [decide_eq_true_eq] at hfalse
  simp only [le] at hle
  omega

end PhysicalRange

open PhysicalRange

/-- The ranges of a sorted, accepted list fit side by side between `start` and `stop`. -/
private theorem validateNeighbours_sum_le {start stop : Nat} {ranges : List PhysicalRange}
    (hsorted : ranges.Pairwise PhysicalRange.le) (hstop : ∀ r ∈ ranges, r.offset + r.size ≤ stop)
    (hstart : ∀ r, ranges.head? = some r → start ≤ r.offset) (hle : start ≤ stop)
    (h : validateNeighbours ranges = .ok ⟨⟩) :
    start + (ranges.map PhysicalRange.size).sum ≤ stop := by
  induction ranges generalizing start with
  | nil => simpa using hle
  | cons a ranges ih =>
    have hfirst := hstart a rfl
    have hend := hstop a List.mem_cons_self
    rw [List.pairwise_cons] at hsorted
    rw [List.map_cons, List.sum_cons]
    cases ranges with
    | nil => simp; omega
    | cons b ranges =>
      simp only [validateNeighbours, bind_eq_ok_iff, rejectIf_eq_ok_iff] at h
      obtain ⟨overlap, hoverlap, _, hfalse, hrest⟩ := h
      have hbehind := end_le_of_le (hsorted.1 b List.mem_cons_self) hoverlap hfalse
      have hsum := @ih (a.offset + a.size) hsorted.2
        (fun r hr => hstop r (List.mem_cons_of_mem _ hr))
        (fun r hr => by cases hr; exact hbehind) hend hrest
      omega

/-- Accepted ranges fit into the file side by side. -/
theorem validatePhysicalRanges_sum_le {finalFileSize : Nat} {ranges : List PhysicalRange}
    (h : validatePhysicalRanges finalFileSize ranges = .ok ⟨⟩) :
    (ranges.map PhysicalRange.size).sum ≤ finalFileSize := by
  simp only [validatePhysicalRanges, bind_eq_ok_iff, rejectIf_eq_ok_iff, checkAll_eq_ok_iff] at h
  obtain ⟨_, -, _, hinside, hneighbours⟩ := h
  have hperm := List.perm_insertionSort PhysicalRange.le ranges
  have hstop : ∀ r ∈ ranges.insertionSort PhysicalRange.le, r.offset + r.size ≤ finalFileSize := by
    intro r hr
    have hrange := hinside r (hperm.subset hr)
    simp only [validatePhysicalRange, bind_eq_ok_iff, isInsideFile, endOffset,
      checkedPhysicalEnd_eq_ok_iff, rejectIf_eq_ok_iff, pure_eq_ok, Except.ok.injEq] at hrange
    obtain ⟨_, ⟨_, ⟨-, rfl⟩, rfl⟩, _, hin, -⟩ := hrange
    simpa using hin
  have hsum := validateNeighbours_sum_le (List.pairwise_insertionSort PhysicalRange.le ranges)
    hstop (fun _ _ => Nat.zero_le _) (Nat.zero_le _) hneighbours
  rw [Nat.zero_add, (hperm.map PhysicalRange.size).sum_eq] at hsum
  exact hsum

/-! ## Accepted ranges are disjoint -/

/-- What `validate_physical_range` leaves of a range: it is in the file, behind the header and
before the trailer. -/
structure PhysicalRange.InFile (finalFileSize : Nat) (range : PhysicalRange) : Prop where
  inside : range.offset + range.size ≤ finalFileSize
  header : range.Disjoint ⟨0, headerLen⟩
  trailer : range.Disjoint ⟨finalFileSize - footerTrailerLen, footerTrailerLen⟩

/-- Ranges of which one ends where the other begins, or before, share no byte. -/
theorem PhysicalRange.disjoint_of_overlaps {a b : PhysicalRange} {overlap : Bool}
    (h : a.overlaps b = .ok overlap) (hfalse : ¬ overlap = true) : a.Disjoint b := by
  simp only [overlaps, endOffset, bind_eq_ok_iff, checkedPhysicalEnd_eq_ok_iff, pure_eq_ok,
    Except.ok.injEq] at h
  obtain ⟨_, ⟨-, rfl⟩, _, ⟨-, rfl⟩, rfl⟩ := h
  rw [decide_eq_true_eq] at hfalse
  simp only [PhysicalRange.Disjoint]
  omega

theorem validatePhysicalRange_inFile {finalFileSize : Nat} {range : PhysicalRange}
    (h : validatePhysicalRange finalFileSize range = .ok ⟨⟩) : range.InFile finalFileSize := by
  simp only [validatePhysicalRange, bind_eq_ok_iff, rejectIf_eq_ok_iff] at h
  obtain ⟨inside, hinside, _, htrue, header, hheader, _, hheaderFalse, trailer, htrailer,
    htrailerFalse⟩ := h
  refine ⟨?_, disjoint_of_overlaps hheader hheaderFalse,
    disjoint_of_overlaps htrailer htrailerFalse⟩
  simp only [isInsideFile, endOffset, bind_eq_ok_iff, checkedPhysicalEnd_eq_ok_iff, pure_eq_ok,
    Except.ok.injEq] at hinside
  obtain ⟨_, ⟨-, rfl⟩, rfl⟩ := hinside
  simpa using htrue

/-- On sorted ranges the comparison of neighbours reaches every pair. -/
private theorem validateNeighbours_pairwise {ranges : List PhysicalRange}
    (hsorted : ranges.Pairwise PhysicalRange.le) (h : validateNeighbours ranges = .ok ⟨⟩) :
    ranges.Pairwise fun a b => a.offset + a.size ≤ b.offset := by
  induction ranges with
  | nil => exact .nil
  | cons a ranges ih =>
    rw [List.pairwise_cons] at hsorted
    cases ranges with
    | nil => exact List.pairwise_singleton _ _
    | cons b ranges =>
      simp only [validateNeighbours, bind_eq_ok_iff, rejectIf_eq_ok_iff] at h
      obtain ⟨overlap, hoverlap, _, hfalse, hrest⟩ := h
      have hbehind := end_le_of_le (hsorted.1 b List.mem_cons_self) hoverlap hfalse
      have hothers := ih hsorted.2 hrest
      refine List.pairwise_cons.mpr ⟨?_, hothers⟩
      -- What lies behind the neighbour lies behind the range before it.
      intro c hc
      rcases List.mem_cons.mp hc with rfl | hc
      · exact hbehind
      · have := (List.pairwise_cons.mp hothers).1 c hc
        omega

/-- Accepted ranges are in the file, and no two of them share a byte. -/
theorem validatePhysicalRanges_disjoint {finalFileSize : Nat} {ranges : List PhysicalRange}
    (h : validatePhysicalRanges finalFileSize ranges = .ok ⟨⟩) :
    (∀ range ∈ ranges, range.InFile finalFileSize) ∧
      ranges.Pairwise PhysicalRange.Disjoint := by
  simp only [validatePhysicalRanges, bind_eq_ok_iff, checkAll_eq_ok_iff] at h
  obtain ⟨_, -, _, hinside, hneighbours⟩ := h
  refine ⟨fun range hrange => validatePhysicalRange_inFile (hinside range hrange), ?_⟩
  have hpairs := validateNeighbours_pairwise (List.pairwise_insertionSort PhysicalRange.le ranges)
    hneighbours
  have hdisjoint : (ranges.insertionSort PhysicalRange.le).Pairwise PhysicalRange.Disjoint :=
    hpairs.imp fun hle => Or.inl hle
  exact ((List.perm_insertionSort PhysicalRange.le ranges).pairwise_iff fun h => h.symm).mp hdisjoint

/-! ## Disjoint ranges are accepted -/

private theorem validateNeighbours_of_disjoint {ranges : List PhysicalRange}
    (hlt : ∀ r ∈ ranges, r.offset + r.size < 2 ^ 64)
    (hdisjoint : ranges.Pairwise PhysicalRange.Disjoint) : validateNeighbours ranges = .ok ⟨⟩ := by
  induction ranges with
  | nil => rfl
  | cons a ranges ih =>
    cases ranges with
    | nil => rfl
    | cons b ranges =>
      rw [List.pairwise_cons] at hdisjoint
      have hab := hdisjoint.1 b List.mem_cons_self
      have hfalse : ¬ (decide (a.offset < b.offset + b.size ∧ b.offset < a.offset + a.size)) =
          true := by
        rw [decide_eq_true_eq]
        simp only [PhysicalRange.Disjoint] at hab
        omega
      rw [validateNeighbours, overlaps_of_lt (hlt a (by simp)) (hlt b (by simp)), ok_bind,
        rejectIf_of_not hfalse, ok_bind]
      exact ih (fun r hr => hlt r (List.mem_cons_of_mem _ hr)) hdisjoint.2

/-- A range in the file passes its checks. -/
theorem PhysicalRange.InFile.validate {finalFileSize : Nat} {range : PhysicalRange}
    (hsize : footerTrailerLen ≤ finalFileSize) (hlt : finalFileSize < 2 ^ 64)
    (h : range.InFile finalFileSize) : validatePhysicalRange finalFileSize range = .ok ⟨⟩ := by
  obtain ⟨hinside, hheader, htrailer⟩ := h
  have hend : range.offset + range.size < 2 ^ 64 := by omega
  have htrailerEnd : finalFileSize - footerTrailerLen + footerTrailerLen < 2 ^ 64 := by omega
  have hbefore : ¬ decide (range.offset < 0 + headerLen ∧ 0 < range.offset + range.size) = true := by
    rw [decide_eq_true_eq]
    simp only [PhysicalRange.Disjoint] at hheader
    omega
  have hbehind : ¬ decide (range.offset < finalFileSize - footerTrailerLen + footerTrailerLen ∧
      finalFileSize - footerTrailerLen < range.offset + range.size) = true := by
    rw [decide_eq_true_eq]
    simp only [PhysicalRange.Disjoint] at htrailer
    omega
  have hfits : ¬ decide (range.offset + range.size ≤ finalFileSize) = false := by
    rw [decide_eq_false_iff_not, not_not]
    exact hinside
  rw [validatePhysicalRange, isInsideFile, endOffset, checkedPhysicalEnd_of_lt hend, ok_bind,
    pure_eq_ok, ok_bind, rejectIf_of_not hfits, ok_bind,
    overlaps_of_lt hend (by simp [headerLen]), ok_bind, rejectIf_of_not hbefore, ok_bind,
    overlaps_of_lt hend htrailerEnd, ok_bind]
  exact rejectIf_of_not hbehind

/-- Pairwise disjoint ranges in the file are accepted. -/
theorem validatePhysicalRanges_of_inFile {finalFileSize : Nat} {ranges : List PhysicalRange}
    (hsize : headerLen + footerTrailerLen ≤ finalFileSize) (hlt : finalFileSize < 2 ^ 64)
    (hinside : ∀ r ∈ ranges, r.InFile finalFileSize)
    (hdisjoint : ranges.Pairwise PhysicalRange.Disjoint) :
    validatePhysicalRanges finalFileSize ranges = .ok ⟨⟩ := by
  have hchecks : checkAll (validatePhysicalRange finalFileSize) ranges = .ok ⟨⟩ := by
    rw [checkAll_eq_ok_iff]
    intro r hr
    exact (hinside r hr).validate (by omega) hlt
  have hperm := List.perm_insertionSort PhysicalRange.le ranges
  rw [validatePhysicalRanges, rejectIf_of_not (Nat.not_lt.mpr hsize), ok_bind, hchecks, ok_bind]
  apply validateNeighbours_of_disjoint
  · intro r hr
    have hend := (hinside r (hperm.subset hr)).inside
    omega
  · exact (hperm.pairwise_iff fun h => h.symm).mpr hdisjoint

/-- Pairwise disjoint ranges between the header and the trailer are accepted. -/
theorem validatePhysicalRanges_of_disjoint {finalFileSize : Nat} {ranges : List PhysicalRange}
    (hsize : headerLen + footerTrailerLen ≤ finalFileSize) (hlt : finalFileSize < 2 ^ 64)
    (hinside : ∀ r ∈ ranges, headerLen ≤ r.offset ∧
      r.offset + r.size ≤ finalFileSize - footerTrailerLen)
    (hdisjoint : ranges.Pairwise PhysicalRange.Disjoint) :
    validatePhysicalRanges finalFileSize ranges = .ok ⟨⟩ := by
  refine validatePhysicalRanges_of_inFile hsize hlt (fun r hr => ?_) hdisjoint
  obtain ⟨hstart, hend⟩ := hinside r hr
  refine ⟨by omega, ?_, .inl hend⟩
  apply Or.inr
  rw [Nat.zero_add]
  exact hstart

/-! ## What is accepted -/

/-- The range holds the byte at a position. -/
def PhysicalRange.Holds (range : PhysicalRange) (position : Nat) : Prop :=
  range.offset ≤ position ∧ position < range.offset + range.size

/-- Two ranges share a byte, or one of them is empty and lies strictly inside the other. -/
def PhysicalRange.Overlap (a b : PhysicalRange) : Prop :=
  (∃ position, a.Holds position ∧ b.Holds position) ∨
    (a.size = 0 ∧ b.offset < a.offset ∧ a.offset < b.offset + b.size) ∨
      (b.size = 0 ∧ a.offset < b.offset ∧ b.offset < a.offset + a.size)

theorem PhysicalRange.disjoint_iff_not_overlap {a b : PhysicalRange} :
    a.Disjoint b ↔ ¬ a.Overlap b := by
  unfold PhysicalRange.Disjoint PhysicalRange.Overlap PhysicalRange.Holds
  constructor
  · rintro hapart (⟨position, ha, hb⟩ | hempty | hempty) <;> omega
  · intro hnone
    by_contra hapart
    rw [not_or] at hnone
    -- Where both are not empty, the later of the two starts is a common byte.
    refine hnone.1 ⟨max a.offset b.offset, ⟨Nat.le_max_left _ _, ?_⟩, Nat.le_max_right _ _, ?_⟩ <;>
      omega

/-- Comparing neighbours is sound and complete.  For every size of a file and all ranges, they are
accepted exactly when the file has room for the header and the trailer, and every range ends in
the file and overlaps neither of the two, nor a range at another position of the list. -/
theorem validatePhysicalRanges_iff {finalFileSize : Nat} (hword : finalFileSize < 2 ^ 64)
    (ranges : List PhysicalRange) :
    validatePhysicalRanges finalFileSize ranges = .ok ⟨⟩ ↔
      headerLen + footerTrailerLen ≤ finalFileSize ∧
      (∀ range ∈ ranges, range.offset + range.size < 2 ^ 64 ∧
        range.offset + range.size ≤ finalFileSize ∧ ¬ range.Overlap ⟨0, headerLen⟩ ∧
        ¬ range.Overlap ⟨finalFileSize - footerTrailerLen, footerTrailerLen⟩) ∧
      ∀ (i j : Nat) (a b : PhysicalRange), i ≠ j → ranges[i]? = some a → ranges[j]? = some b →
        ¬ a.Overlap b := by
  constructor
  · intro h
    obtain ⟨hinside, hdisjoint⟩ := validatePhysicalRanges_disjoint h
    obtain ⟨_, hsize, -⟩ := bind_eq_ok_iff.mp h
    rw [rejectIf_eq_ok_iff, Nat.not_lt] at hsize
    refine ⟨hsize, ?_, ?_⟩
    · intro range hrange
      obtain ⟨hend, hheader, htrailer⟩ := hinside range hrange
      exact ⟨by omega, hend, disjoint_iff_not_overlap.mp hheader,
        disjoint_iff_not_overlap.mp htrailer⟩
    · intro i j a b hne ha hb
      rw [← disjoint_iff_not_overlap]
      rw [List.pairwise_iff_getElem] at hdisjoint
      obtain ⟨hi, rfl⟩ := List.getElem?_eq_some_iff.mp ha
      obtain ⟨hj, rfl⟩ := List.getElem?_eq_some_iff.mp hb
      rcases Nat.lt_or_gt_of_ne hne with hlt | hgt
      · exact hdisjoint i j hi hj hlt
      · exact (hdisjoint j i hj hi hgt).symm
  · rintro ⟨hsize, hinside, hpairs⟩
    apply validatePhysicalRanges_of_inFile hsize hword
    · intro range hrange
      obtain ⟨-, hend, hheader, htrailer⟩ := hinside range hrange
      exact ⟨hend, disjoint_iff_not_overlap.mpr hheader, disjoint_iff_not_overlap.mpr htrailer⟩
    · rw [List.pairwise_iff_getElem]
      intro i j hi hj hlt
      apply disjoint_iff_not_overlap.mpr
      exact hpairs i j _ _ (Nat.ne_of_lt hlt) (List.getElem?_eq_getElem hi)
        (List.getElem?_eq_getElem hj)

/-- An empty range is accepted at the start of another, and refused inside it. -/
theorem validatePhysicalRanges_iff_empty :
    validatePhysicalRanges 300 [⟨130, 10⟩, ⟨130, 0⟩] = .ok ⟨⟩ ∧
    validatePhysicalRanges 300 [⟨130, 10⟩, ⟨135, 0⟩] ≠ .ok ⟨⟩ := by
  have hword : 300 < 2 ^ 64 := by decide
  refine ⟨by decide, ?_⟩
  rw [ne_eq, validatePhysicalRanges_iff hword]
  rintro ⟨-, -, hpairs⟩
  refine hpairs 0 1 ⟨130, 10⟩ ⟨135, 0⟩ (by decide) rfl rfl (.inr (.inr ⟨rfl, ?_⟩))
  decide

end Qzt
