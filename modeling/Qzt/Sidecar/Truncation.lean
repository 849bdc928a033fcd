import Qzt.Search.Lookup
import Qzt.Search.Truncation
import Qzt.Sidecar.Limits
import Qzt.Sidecar.Search

/-!
# Caps only truncate, in every search

The searches of a sidecar under tighter and looser options.  The decoded sidecar has the
two searches of its index.  What the file-backed one fetches under tighter options it also
fetches under looser ones, and its verification is the same.
-/

namespace Qzt.Sidecar

open Foundation

section Searches

variable {env : Env} {small large : SearchOptions} {details : SkeletonDetails}
  {readRangeCached : RangeRead} {tight loose : SearchReport}

theorem QziSidecar.search_truncates {sidecar : QziSidecar} {reader : QztReader} {query : String}
    (h : small.AtMost large) (htight : sidecar.search env reader query small = .ok tight)
    (hloose : sidecar.search env reader query large = .ok loose) : tight.Truncates loose := by
  unfold QziSidecar.search at htight hloose
  obtain ⟨checksum, -, htight⟩ := bind_eq_ok_iff.mp htight
  obtain ⟨_, -, htight⟩ := bind_eq_ok_iff.mp htight
  obtain ⟨_, -, hloose⟩ := bind_eq_ok_iff.mp hloose
  obtain ⟨_, -, hloose⟩ := bind_eq_ok_iff.mp hloose
  cases hindex : sidecar.index with
  | token index =>
    rw [hindex] at htight hloose
    exact RawTokenIndex.searchImpl_truncates h htight hloose
  | ngram index =>
    rw [hindex] at htight hloose
    exact RawNgramIndex.searchImpl_truncates h htight hloose

namespace QziFileSidecar

variable {sidecar : QziFileSidecar}

theorem admits_fetchPostings {maxIds looser : Nat} (h : maxIds ≤ looser) (termIndex : Nat) :
    Admits (sidecar.fetchPostings termIndex maxIds) (sidecar.fetchPostings termIndex looser) := by
  unfold fetchPostings
  refine admits_bind_right fun term _ => admits_bind_right fun _ _ => ?_
  refine admits_bind_right fun base _ => admits_bind_right fun offset _ => ?_
  refine admits_bind_right fun bytes _ => ?_
  exact admits_bind (decodeDeltas_admits h _ _ _ _) fun postings _ => admits_refl _

theorem admits_fetchPostingLists {remaining looser : Nat} (h : remaining ≤ looser)
    (termIndexes : List Nat) :
    Admits (sidecar.fetchPostingLists termIndexes remaining)
      (sidecar.fetchPostingLists termIndexes looser) := by
  induction termIndexes generalizing remaining looser with
  | nil => exact admits_refl _
  | cons termIndex termIndexes ih =>
    simp only [fetchPostingLists]
    refine admits_bind (admits_rejectIf fun hover => Nat.lt_of_le_of_lt h hover) fun _ _ => ?_
    refine admits_bind (admits_fetchPostings h termIndex) fun postings _ => ?_
    refine admits_bind_right fun length _ => ?_
    -- What remains differs from here on, so the step is taken apart.
    intro lists hrun
    obtain ⟨left, hleft, hafter⟩ := bind_eq_ok_iff.mp hrun
    obtain ⟨rest, hrest, hdone⟩ := bind_eq_ok_iff.mp hafter
    rw [okOr_eq_ok_iff, checkedSub_eq_some_iff] at hleft
    obtain ⟨hle, rfl⟩ := hleft
    have hle' : length ≤ looser := Nat.le_trans hle h
    rw [checkedSub_of_le hle', okOr_some, ok_bind,
      ih (Nat.sub_le_sub_right h length) rest hrest]
    exact hdone

theorem admits_queryPostings (h : small.AtMost large) (postingBytesRead : Nat)
    (termIndexes : List Nat) :
    Admits (sidecar.queryPostings postingBytesRead termIndexes small)
      (sidecar.queryPostings postingBytesRead termIndexes large) := by
  have hbytes := h.maxPostingBytesPerQuery
  have hids := h.maxPostingIdsPerQuery
  refine admits_bind (admits_rejectIf (by omega)) fun _ _ => ?_
  refine admits_bind_right fun declaredIds _ => ?_
  refine admits_bind (admits_rejectIf (by omega)) fun _ _ => ?_
  exact admits_fetchPostingLists (by omega) termIndexes

theorem admits_queryKeys (h : small.AtMost large) (isNgram : Bool) (query : String) :
    Admits (sidecar.queryKeys isNgram query small) (sidecar.queryKeys isNgram query large) := by
  unfold queryKeys
  split
  · exact admits_bind_right fun n _ => admits_ngramKeysForQuery h query n
  · exact admits_uniqueQueryKeys h query

/-- The end of a search, from the intersection on. -/
theorem searchPostings_truncates (h : small.AtMost large) {lists : List (List Nat)}
    {spansFor : SpanMatcher} {tokenBoundaries : Bool}
    (hspans : ∃ all : List UInt8 → Bool → Bool → List TokenSpan, ∀ bytes limit left right,
      spansFor bytes limit left right = (all bytes left right).take limit)
    {metrics : SearchMetrics} {planner : PlannerDecision}
    (htight : sidecar.searchPostings details readRangeCached lists spansFor tokenBoundaries
      metrics planner small = .ok tight)
    (hloose : sidecar.searchPostings details readRangeCached lists spansFor tokenBoundaries
      metrics planner large = .ok loose) : tight.Truncates loose := by
  unfold searchPostings at htight hloose
  obtain ⟨candidates, hcandidates, htight⟩ := bind_eq_ok_iff.mp htight
  rw [admits_intersectPostings h.maxPostingWork lists _ hcandidates, ok_bind] at hloose
  obtain ⟨candidateGranules, hcount, htight⟩ := bind_eq_ok_iff.mp htight
  rw [hcount, ok_bind] at hloose
  have hgranules := h.maxCandidateGranules
  have hresults := h.maxSearchResults
  dsimp only at htight hloose
  split at htight
  · exact earlyExitReport_truncates htight
  · rw [if_neg (show ¬ candidateGranules > large.maxCandidateGranules by omega)] at hloose
    split at htight
    · exact earlyExitReport_truncates htight
    · rename_i hsome
      rw [if_neg (show ¬ large.maxSearchResults = 0 by omega)] at hloose
      -- The records of the candidates are the same under both options.
      obtain ⟨granules, hfetched, htight⟩ := bind_eq_ok_iff.mp htight
      obtain ⟨candidateChunks, hchunks, htight⟩ := bind_eq_ok_iff.mp htight
      rw [hfetched, ok_bind, hchunks, ok_bind] at hloose
      refine verifiedReport_truncates ?_ ?_ ?_ htight hloose
      · exact h
      · exact hspans
      · exact hsome

theorem searchImpl_truncates {query : String} (h : small.AtMost large)
    (htight : sidecar.searchImpl details query small readRangeCached = .ok tight)
    (hloose : sidecar.searchImpl details query large readRangeCached = .ok loose) :
    tight.Truncates loose := by
  unfold searchImpl at htight hloose
  dsimp only at htight hloose
  obtain ⟨queryKeys, hkeys, htight⟩ := bind_eq_ok_iff.mp htight
  obtain ⟨termLookups, hlookups, htight⟩ := bind_eq_ok_iff.mp htight
  rw [admits_queryKeys h _ query _ hkeys, ok_bind, hlookups, ok_bind] at hloose
  split at htight
  · rename_i hempty
    rw [if_pos hempty] at hloose
    exact SearchReport.truncates_of_eq rfl htight hloose
  · rename_i hsome
    rw [if_neg hsome] at hloose
    obtain ⟨found, hfound, htight⟩ := bind_eq_ok_iff.mp htight
    rw [hfound, ok_bind] at hloose
    split at htight
    · rename_i key hmissing
      simp only [hmissing] at hloose
      exact SearchReport.truncates_of_eq rfl htight hloose
    · rename_i hpresent
      simp only [hpresent] at hloose
      obtain ⟨lists, hlists, htight⟩ := bind_eq_ok_iff.mp htight
      rw [admits_queryPostings h _ _ _ hlists, ok_bind] at hloose
      refine searchPostings_truncates h ?_ htight hloose
      by_cases hngram : (sidecar.manifest.indexType == "ngram") = true
      · rw [if_pos hngram]
        exact ⟨fun bytes _ _ => occurrenceSpans bytes (textBytes query),
          fun bytes limit _ _ => substringSpans_eq bytes (textBytes query) limit⟩
      · rw [if_neg hngram]
        exact ⟨_, fun bytes limit left right => verifiedSpans_eq bytes queryKeys limit left right⟩

theorem search_truncates {reader : QztFileReader} {query : String} (h : small.AtMost large)
    (htight : sidecar.search env reader query small = .ok tight)
    (hloose : sidecar.search env reader query large = .ok loose) : tight.Truncates loose := by
  unfold search at htight hloose
  obtain ⟨checksum, -, htight⟩ := bind_eq_ok_iff.mp htight
  obtain ⟨_, -, htight⟩ := bind_eq_ok_iff.mp htight
  obtain ⟨_, -, hloose⟩ := bind_eq_ok_iff.mp hloose
  obtain ⟨_, -, hloose⟩ := bind_eq_ok_iff.mp hloose
  exact searchImpl_truncates h htight hloose

end QziFileSidecar

end Searches

/-- Caps only truncate.  For options of which every one is at most the corresponding looser one,
and two searches that both succeed, the hits of the tighter search are the first hits of the other;
where the tighter report is not capped, the two have the same hits, no reason to stop and the same
reason to be incomplete.  This holds for both indexes behind any reader, and for both kinds of
sidecar.  The matchers, too, return under a limit the first of the spans that they return under any
larger one. -/
theorem searches_truncate {small large : SearchOptions} (h : small.AtMost large) :
    (∀ (index : RawTokenIndex) (details : SkeletonDetails) (query : String)
      (readRangeCached : RangeRead) (tight loose : SearchReport),
      index.searchImpl details query small readRangeCached = .ok tight →
      index.searchImpl details query large readRangeCached = .ok loose →
      tight.Truncates loose) ∧
    (∀ (index : RawNgramIndex) (details : SkeletonDetails) (query : String)
      (readRangeCached : RangeRead) (tight loose : SearchReport),
      index.searchImpl details query small readRangeCached = .ok tight →
      index.searchImpl details query large readRangeCached = .ok loose →
      tight.Truncates loose) ∧
    (∀ (env : Env) (sidecar : QziSidecar) (reader : QztReader) (query : String)
      (tight loose : SearchReport), sidecar.search env reader query small = .ok tight →
      sidecar.search env reader query large = .ok loose → tight.Truncates loose) ∧
    (∀ (env : Env) (sidecar : QziFileSidecar) (reader : QztFileReader) (query : String)
      (tight loose : SearchReport), sidecar.search env reader query small = .ok tight →
      sidecar.search env reader query large = .ok loose → tight.Truncates loose) ∧
    ∀ (bytes query : List UInt8) (queryKeys : List (List UInt8)) (left right : Bool)
      (limit more : Nat), limit ≤ more →
      verifiedSpans bytes queryKeys limit left right =
        (verifiedSpans bytes queryKeys more left right).take limit ∧
      substringSpans bytes query limit = (substringSpans bytes query more).take limit := by
  refine ⟨?_, ?_, ?_, ?_, ?_⟩
  · intro index details query readRangeCached tight loose htight hloose
    exact RawTokenIndex.searchImpl_truncates h htight hloose
  · intro index details query readRangeCached tight loose htight hloose
    exact RawNgramIndex.searchImpl_truncates h htight hloose
  · intro env sidecar reader query tight loose htight hloose
    exact QziSidecar.search_truncates h htight hloose
  · intro env sidecar reader query tight loose htight hloose
    exact QziFileSidecar.search_truncates h htight hloose
  · intro bytes query queryKeys left right limit more hle
    rw [verifiedSpans_eq, verifiedSpans_eq, substringSpans_eq, substringSpans_eq, List.take_take,
      List.take_take, Nat.min_eq_left hle]
    exact ⟨rfl, rfl⟩

/-- Limits that end a search in the middle of a line. -/
def threeHits : SearchOptions := { maxSearchResults := 3 }

theorem threeHits_atMost : threeHits.AtMost {} where
  maxQueryBytes := Nat.le_refl _
  maxQueryTerms := Nat.le_refl _
  maxPostingBytesPerQuery := Nat.le_refl _
  maxPostingIdsPerQuery := Nat.le_refl _
  maxPostingWork := Nat.le_refl _
  maxCandidateGranules := Nat.le_refl _
  maxDecodedBytes := Nat.le_refl _
  maxPhysicalDecodedBytes := Nat.le_refl _
  maxPhysicalDecodedChunks := Nat.le_refl _
  maxSearchResults := by decide

/-- The offsets of the hits of two searches for single scalars, and whether they are capped. -/
def scalarSearches (container : List UInt8) (query : String) (small large : SearchOptions) :
    Result (List Nat × Bool × List Nat × Bool) := do
  let reader ← QztFileReader.openReadAt Reference.env (memorySource container) container.length
  let index ← RawNgramIndex.buildFromFile Reference.env reader { n := 1 }
  let tight ← index.searchFile Reference.env reader query small
  let loose ← index.searchFile Reference.env reader query large
  return (tight.hits.map SearchHit.logicalOffset, tight.capped,
    loose.hits.map SearchHit.logicalOffset, loose.capped)

set_option maxRecDepth 100000 in
/-- Three of five hits, the last of them in the middle of a line. -/
theorem scalarSearches_staleContainer :
    scalarSearches staleContainer "a" threeHits {} =
      .ok ([0, 4, 9], true, [0, 4, 9, 12, 15], false) := by
  simp only [scalarSearches, RawNgramIndex.searchFile, RawNgramIndex.searchImpl, searchCandidates,
    countCandidateChunks, countChunkSpans, mergeSort_rarestFirst, mergeSort_by_eq_insertion]
  decide +kernel

/-- The two searches, as the law has them. -/
theorem searches_truncate_staleContainer : ∃ reader index tight loose,
    QztFileReader.openReadAt Reference.env (memorySource staleContainer) staleContainer.length =
      .ok reader ∧
    RawNgramIndex.buildFromFile Reference.env reader { n := 1 } = .ok index ∧
    index.searchFile Reference.env reader "a" threeHits = .ok tight ∧
    index.searchFile Reference.env reader "a" {} = .ok loose ∧ tight.capped = true ∧
    tight.Truncates loose := by
  have hrun := scalarSearches_staleContainer
  unfold scalarSearches at hrun
  obtain ⟨reader, hreader, hrun⟩ := bind_eq_ok_iff.mp hrun
  obtain ⟨index, hindex, hrun⟩ := bind_eq_ok_iff.mp hrun
  obtain ⟨tight, htight, hrun⟩ := bind_eq_ok_iff.mp hrun
  obtain ⟨loose, hloose, hrun⟩ := bind_eq_ok_iff.mp hrun
  rw [pure_eq_ok, Except.ok.injEq, Prod.mk.injEq, Prod.mk.injEq] at hrun
  refine ⟨reader, index, tight, loose, hreader, hindex, htight, hloose, hrun.2.1, ?_⟩
  exact (searches_truncate threeHits_atMost).2.1 index reader.details "a" _ tight loose htight hloose

end Qzt.Sidecar
