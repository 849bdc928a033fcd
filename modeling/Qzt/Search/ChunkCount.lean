import Qzt.Foundation.Spans
import Qzt.Search.Query

/-!
# Counting chunks

The candidates' chunks are counted by a sweep over their spans, sorted by their starts only.
The count is the size of the union of the spans, whatever order an unstable sort leaves equal
starts in.
-/

namespace Qzt

open Foundation

/-- The chunks of a granule. -/
def chunkSpan (granule : SearchGranule) : Nat × Nat :=
  (granule.chunkStart, granule.chunkEnd)

/-- The sweep counts what is behind the covered end. -/
theorem countCovered_eq {spans : List (Nat × Nat)} {total coveredEnd : Nat}
    (hsorted : spans.Pairwise fun a b => a.1 ≤ b.1)
    (hfits : total + (uncovered spans coveredEnd).card < 2 ^ 64) :
    countCovered spans total coveredEnd = .ok (total + (uncovered spans coveredEnd).card) := by
  induction spans generalizing total coveredEnd with
  | nil => rfl
  | cons span spans ih =>
    obtain ⟨start, stop⟩ := span
    obtain ⟨hstarts, hsorted⟩ := List.pairwise_cons.mp hsorted
    rw [countCovered]
    rcases Nat.lt_or_ge (max start coveredEnd) stop with hmore | hinside
    · have hcard := @card_uncovered_cons_of_lt spans (start, stop) coveredEnd hstarts hmore
      dsimp only at hcard
      rw [hcard] at hfits ⊢
      rw [if_pos hmore, checkedAdd_of_lt (by omega), okOr_some, ok_bind,
        ih hsorted (by omega), Nat.add_assoc]
    · have hsame := @uncovered_cons_of_le spans (start, stop) coveredEnd hinside
      rw [hsame] at hfits ⊢
      exact (if_neg (Nat.not_lt.mpr hinside)).trans (ih hsorted hfits)

section Count

variable {α : Type} {granule : α → Result SearchGranule} {items : List α}
  {granules : List SearchGranule}

/-- The spans are taken in order, and only an empty one is an error. -/
theorem collect_spans (hfound : collect granule items = .ok granules) :
    collect (fun item => do
      let found ← granule item
      rejectIf (found.chunkStart ≥ found.chunkEnd) .chunkTableInvalid
      return (found.chunkStart, found.chunkEnd)) items =
      if ∃ found ∈ granules, found.chunkEnd ≤ found.chunkStart then .error .chunkTableInvalid
      else .ok (granules.map chunkSpan) := by
  induction items generalizing granules with
  | nil =>
    cases hfound
    rw [if_neg (by rintro ⟨_, hfound, -⟩; exact List.not_mem_nil hfound)]
    rfl
  | cons item items ih =>
    simp only [collect, bind_eq_ok_iff, pure_eq_ok, Except.ok.injEq] at hfound
    obtain ⟨found, hitem, later, hlater, rfl⟩ := hfound
    rw [collect, hitem, ok_bind, ih hlater]
    by_cases hempty : found.chunkEnd ≤ found.chunkStart
    · rw [rejectIf_of hempty, error_bind, error_bind, if_pos ⟨found, List.mem_cons_self, hempty⟩]
    · rw [rejectIf_of_not hempty, ok_bind, pure_eq_ok, ok_bind]
      by_cases hrest : ∃ found ∈ later, found.chunkEnd ≤ found.chunkStart
      · obtain ⟨other, hother, hbad⟩ := hrest
        rw [if_pos ⟨other, hother, hbad⟩, if_pos ⟨other, List.mem_cons_of_mem _ hother, hbad⟩]
        rfl
      · rw [if_neg hrest, if_neg]
        · rfl
        · rintro ⟨other, hother, hbad⟩
          rcases List.mem_cons.mp hother with rfl | hother
          · exact hempty hbad
          · exact hrest ⟨other, hother, hbad⟩

/-- Any order of the spans with the starts sorted gives the same count. -/
theorem countCovered_of_perm {spans : List (Nat × Nat)}
    (hends : ∀ found ∈ granules, found.chunkEnd < 2 ^ 64)
    (hperm : spans.Perm (granules.map chunkSpan)) (hsorted : spans.Pairwise fun a b => a.1 ≤ b.1) :
    countCovered spans 0 0 = .ok (spanUnion (granules.map chunkSpan)).card := by
  have hunion : uncovered spans 0 = spanUnion (granules.map chunkSpan) := by
    rw [uncovered_zero]
    exact spanUnion_congr fun span => hperm.mem_iff
  have hcard : (spanUnion (granules.map chunkSpan)).card ≤ 2 ^ 64 - 1 := by
    apply card_spanUnion_le
    intro span hspan
    obtain ⟨found, hfound, rfl⟩ := List.mem_map.mp hspan
    exact Nat.le_sub_one_of_lt (hends found hfound)
  have hsweep := @countCovered_eq spans 0 0 hsorted (by rw [hunion]; omega)
  rwa [hunion, Nat.zero_add] at hsweep

/-- The count is the size of the union of the spans, in whatever order equal starts are left; an
empty or reversed span is the only error. -/
theorem countChunkSpans_counts_union (hfound : collect granule items = .ok granules)
    (hends : ∀ found ∈ granules, found.chunkEnd < 2 ^ 64) :
    (countChunkSpans granule items = .error .chunkTableInvalid ↔
      ∃ found ∈ granules, found.chunkEnd ≤ found.chunkStart) ∧
    ((∀ found ∈ granules, found.chunkStart < found.chunkEnd) →
      countChunkSpans granule items = .ok (spanUnion (granules.map chunkSpan)).card ∧
      ∀ spans : List (Nat × Nat), spans.Perm (granules.map chunkSpan) →
        spans.Pairwise (fun a b => a.1 ≤ b.1) →
        countCovered spans 0 0 = countChunkSpans granule items) := by
  have hcount : countChunkSpans granule items =
      if ∃ found ∈ granules, found.chunkEnd ≤ found.chunkStart then .error .chunkTableInvalid
      else .ok (spanUnion (granules.map chunkSpan)).card := by
    rw [countChunkSpans, collect_spans hfound]
    split
    · rfl
    · rw [ok_bind]
      apply countCovered_of_perm hends (List.mergeSort_perm _ _)
      have hpairwise : ((granules.map chunkSpan).mergeSort
          (fun a b => decide (a.1 ≤ b.1))).Pairwise (fun a b => decide (a.1 ≤ b.1)) :=
        List.pairwise_mergeSort
          (by simp only [decide_eq_true_eq]; exact fun _ _ _ => Nat.le_trans)
          (by simp only [Bool.or_eq_true, decide_eq_true_eq]; exact fun a b => Nat.le_total _ _)
          (granules.map chunkSpan)
      exact hpairwise.imp of_decide_eq_true
  rw [hcount]
  constructor
  · split
    · rename_i hempty
      exact iff_of_true rfl hempty
    · rename_i hempty
      exact iff_of_false (by rintro ⟨⟩) hempty
  · intro hspans
    have hnone : ¬ ∃ found ∈ granules, found.chunkEnd ≤ found.chunkStart := by
      rintro ⟨found, hmem, hempty⟩
      exact absurd (hspans found hmem) (Nat.not_lt.mpr hempty)
    rw [if_neg hnone]
    exact ⟨rfl, fun spans hperm hsorted => countCovered_of_perm hends hperm hsorted⟩

end Count

/-- A span inside another one, two with one start, and the widest one. -/
theorem countChunkSpans_counts_union_of_four :
    let granules := [⟨0, 0, 1, 8, 10, none, none⟩, ⟨1, 1, 1, 1, 4, none, none⟩,
      ⟨2, 2, 1, 2, 3, none, none⟩, ⟨3, 3, 1, 1, 2 ^ 64 - 1, none, none⟩]
    countChunks granules = .ok (spanUnion (granules.map chunkSpan)).card := by
  intro granules
  exact ((countChunkSpans_counts_union (collect_of_forall fun found _ => rfl)
    (by decide +kernel)).2 (by decide +kernel)).1

end Qzt
