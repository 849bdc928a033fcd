import Mathlib.Algebra.BigOperators.Ring.List
import Qzt.Reader.TextRanges
import Qzt.Sidecar.Fetches
import Qzt.Sidecar.Lossless
import Qzt.Sidecar.Sizes

/-!
# The two searches of a sidecar

The decoded sidecar searches its index; the file-backed one fetches what the query needs.  Stage by
stage, lookup, budgets, candidates and verification, both see the same keys, lists and granules.
-/

namespace Qzt.Sidecar

open Foundation

/-! ## From the lists on -/

theorem exists_forall₂ {α β : Type} {related : α → β → Prop} {as : List α}
    (h : ∀ a ∈ as, ∃ b, related a b) : ∃ bs, List.Forall₂ related as bs := by
  induction as with
  | nil => exact ⟨[], .nil⟩
  | cons a as ih =>
    obtain ⟨⟨b, hb⟩, hrest⟩ := List.forall_mem_cons.mp h
    obtain ⟨bs, hbs⟩ := ih hrest
    exact ⟨b :: bs, .cons hb hbs⟩

/-- The partner of a position. -/
theorem found_at {α β : Type} {related : α → β → Prop} {as : List α} {bs : List β}
    (h : List.Forall₂ related as bs) {position : Nat} {a : α} (ha : as[position]? = some a) :
    ∃ b, bs[position]? = some b ∧ related a b := by
  induction h generalizing position with
  | nil => cases ha
  | cons hpair hrest ih =>
    cases position with
    | zero =>
      cases ha
      exact ⟨_, rfl, hpair⟩
    | succ position => exact ih ha

/-- A list has a skip point for 128 of its ids. -/
theorem skipBytes_le (withSkips : Bool) (list : List Nat) :
    128 * skipBytes withSkips list ≤ 24 * list.length := by
  rw [skipBytes, skipPointCount]
  split
  · split <;> omega
  · omega

/-- The keys of an n-gram query are different. -/
theorem ngramKeysForQuery_nodup {query : String} {n : Nat} {options : SearchOptions}
    {queryKeys : List (List UInt8)} (h : ngramKeysForQuery query n options = .ok queryKeys) :
    queryKeys.Nodup := by
  obtain ⟨_, -, h⟩ := bind_eq_ok_iff.mp h
  obtain ⟨_, -, h⟩ := bind_eq_ok_iff.mp h
  split at h
  · cases h
    exact List.nodup_nil
  · exact (insertQueryKeys_eq_ok List.nodup_nil h).1

section Stages

variable {env : Env} {bytes : List UInt8} {limits : SidecarLimits} {sidecar : QziSidecar}
  {parts : OpenedParts} (h : parts.Follows env bytes limits sidecar)
  (served : FaithfulSource parts.file.bytes)
include h

/-- The granules are numbered, as the reconstruction has checked. -/
theorem OpenedParts.Follows.granuleId {id : Nat} {granule : SearchGranule}
    (hgranule : parts.granules[id]? = some granule) : granule.granuleId = id := by
  obtain ⟨withSkips, encoded, hparts, -⟩ := encodeParts_of_restoreIndex h.index
  obtain ⟨_, -, hparts⟩ := bind_eq_ok_iff.mp hparts
  obtain ⟨_, hvalid, -⟩ := bind_eq_ok_iff.mp hparts
  rw [(validateGranulesLoop_eq_ok hvalid).1 id granule hgranule, Nat.zero_add]

omit h in
/-- The candidates of strictly increasing lists of granules, with the granules. -/
theorem OpenedParts.candidates_found {lists : List (List Nat)} (hne : lists ≠ [])
    (hlists : ∀ list ∈ lists, list.Pairwise (· < ·) ∧ ∀ id ∈ list, id < parts.granules.length)
    {maxWork : Nat} {candidates : List Nat}
    (hcandidates : intersectPostings lists maxWork = .ok candidates) :
    candidates.Pairwise (· < ·) ∧ ∃ found, List.Forall₂ (fun (id : Nat) (granule : SearchGranule) =>
      parts.granules[id]? = some granule) candidates found := by
  obtain ⟨hsorted, hmem⟩ :=
    intersectPostings_eq_ok hne (fun list hlist => (hlists list hlist).1) hcandidates
  refine ⟨hsorted, exists_forall₂ ?_⟩
  intro id hid
  obtain ⟨first, hfirst⟩ := List.exists_mem_of_ne_nil _ hne
  have hlt := (hlists first hfirst).2 id ((hmem id).mp hid first hfirst)
  exact ⟨_, List.getElem?_eq_getElem hlt⟩

theorem OpenedParts.Follows.spans_of_found {candidates : List Nat} {found : List SearchGranule}
    (hfound : List.Forall₂ (fun (id : Nat) (granule : SearchGranule) =>
      parts.granules[id]? = some granule) candidates found) :
    ∀ granule ∈ found, validateGranuleChunkSpan granule parts.details.chunkEntries
        parts.details.summary.originalSize = .ok ⟨⟩ ∧
      granule.chunkStart < granule.chunkEnd ∧ granule.chunkEnd < 2 ^ 64 := by
  intro granule hgranule
  obtain ⟨id, -, hget⟩ := exists_of_forall₂_right hfound hgranule
  have hspan := h.sections.spans granule (List.mem_of_getElem? hget)
  refine ⟨hspan, ?_⟩
  simp only [validateGranuleChunkSpan, bind_eq_ok_iff, usizeToU64_eq_ok_iff, rejectIf_eq_ok_iff,
    not_or] at hspan
  obtain ⟨_, ⟨hcount, rfl⟩, _, hordered, -⟩ := hspan
  omega

/-- From the intersection on both searches verify the same granules. -/
theorem OpenedParts.Follows.searchPostings_answers {lists : List (List Nat)} (hne : lists ≠ [])
    (hlists : ∀ list ∈ lists, list.Pairwise (· < ·) ∧ ∀ id ∈ list, id < parts.granules.length)
    {details : SkeletonDetails} (hsame : SameDetails parts.details details)
    {readRangeCached : RangeRead} {spansFor : SpanMatcher} {tokenBoundaries : Bool}
    {metrics metrics' : SearchMetrics} {planner planner' : PlannerDecision}
    (halike : SearchReport.Alike metrics metrics' planner planner') {options : SearchOptions} :
    (searchCandidates parts.granules sidecar.manifest.complete details lists spansFor
        tokenBoundaries readRangeCached metrics planner options).map SearchReport.answer =
      ((parts.fileSidecar sidecar served.source limits).searchPostings details readRangeCached lists
        spansFor tokenBoundaries metrics' planner' options).map SearchReport.answer := by
  rw [searchCandidates, QziFileSidecar.searchPostings]
  cases hcandidates : intersectPostings lists options.maxPostingWork with
  | error e => rfl
  | ok candidates =>
    obtain ⟨hsorted, found, hfound⟩ := OpenedParts.candidates_found hne hlists hcandidates
    have hspans := h.spans_of_found hfound
    rw [ok_bind, ok_bind]
    cases hcount : usizeToU64 candidates.length with
    | error e => rfl
    | ok candidateGranules =>
      rw [ok_bind, ok_bind]
      -- The count of the decoded sidecar comes before its caps, and does not fail.
      have hchecked : collect (fun granuleId => do
          let granuleIndex ← u64ToUsize granuleId
          let granule ← okOr .containerCorrupt parts.granules[granuleIndex]?
          validateGranuleChunkSpan granule details.chunkEntries details.summary.originalSize
          return granule) candidates = .ok found := by
        rw [collect_eq_ok_iff]
        refine List.forall₂_iff_zip.mpr ⟨hfound.length_eq, ?_⟩
        intro id granule hmem
        have hget := (List.forall₂_iff_zip.mp hfound).2 hmem
        have hlt := (List.getElem?_eq_some_iff.mp hget).1
        have hword := h.sections.granule_records.choose_spec.2.1
        have hspan := (hspans granule (List.of_mem_zip hmem).2).1
        rw [hsame.chunkEntries, hsame.summary] at hspan
        rw [u64ToUsize_of_lt (by omega), ok_bind, hget, okOr_some, ok_bind, hspan]
        rfl
      obtain ⟨count, hmemory⟩ :=
        countChunkSpans_of_collect hchecked fun granule hgranule => (hspans granule hgranule).2
      have hmemoryCount : countCandidateChunks parts.granules candidates details.chunkEntries
          details.summary.originalSize = .ok count := hmemory
      rw [hmemoryCount, ok_bind]
      dsimp only
      split
      · exact congrArg Except.ok (answer_earlyExitReport halike _ _ _)
      · split
        · exact congrArg Except.ok (answer_earlyExitReport halike _ _ _)
        · -- The granules of the candidates are fetched, and are those of the index.
          have hfetched : collect (fun granuleId =>
              (parts.fileSidecar sidecar served.source limits).fetchGranule granuleId
                details.chunkEntries) candidates = .ok found := by
            rw [collect_eq_ok_iff, ← hsame.chunkEntries]
            exact hfound.imp fun id granule hget =>
              h.fetchGranule_eq served hget (h.granuleId hget)
          obtain ⟨chunks, hchunks⟩ := countChunkSpans_of_collect
            (collect_eq_ok_iff.mpr (List.forall₂_same.mpr fun (granule : SearchGranule) _ => rfl))
            fun granule hgranule => (hspans granule hgranule).2
          have hfileCount : countChunks found = .ok chunks := hchunks
          have hgranules : ∀ id ∈ candidates, (do
              let position ← okOr QztError.containerCorrupt
                (QziFileSidecar.candidatePosition candidates id)
              okOr QztError.containerCorrupt found[position]?) = (do
              let granuleIndex ← u64ToUsize id
              okOr QztError.containerCorrupt parts.granules[granuleIndex]?) := by
            intro id hid
            obtain ⟨position, hposition⟩ := List.mem_iff_getElem?.mp hid
            obtain ⟨granule, hgranule, hget⟩ := found_at hfound hposition
            have hlt := (List.getElem?_eq_some_iff.mp hget).1
            have hword := h.sections.granule_records.choose_spec.2.1
            rw [candidatePosition_eq hsorted hposition, okOr_some, ok_bind, hgranule,
              u64ToUsize_of_lt (by omega), ok_bind, hget]
          have hverify := @VerificationPlan.verifyLoop_withGranules
            { entries := details.chunkEntries
              originalSize := details.summary.originalSize
              granuleAt := fun id => do
                let granuleIndex ← u64ToUsize id
                okOr .containerCorrupt parts.granules[granuleIndex]?
              readRangeCached, spansFor, tokenBoundaries, options } _ candidates hgranules {}
          rw [hfetched, ok_bind, hfileCount, ok_bind, VerificationPlan.verifyCandidates,
            VerificationPlan.verifyCandidates]
          dsimp only at hverify
          rw [hverify]
          cases VerificationPlan.verifyLoop
            { entries := details.chunkEntries
              originalSize := details.summary.originalSize
              granuleAt := fun id => do
                let granuleIndex ← u64ToUsize id
                okOr .containerCorrupt parts.granules[granuleIndex]?
              readRangeCached, spansFor, tokenBoundaries, options } candidates {} with
          | error e => rfl
          | ok verification =>
            exact answer_verifiedReport verification _ halike.2.2.2.1 halike.2.2.2.2

/-! ## The dictionary of the index -/

/-- The encoded lists repeat what the sections hold, and have few skip points. -/
structure EncodedAs (parts : OpenedParts) (encoded : EncodedPostingLists) : Prop where
  keys : encoded.terms.map TermDictionaryEntry.key = parts.terms.map TermDictionaryEntry.key
  frequencies : encoded.terms.map TermDictionaryEntry.granuleFrequency =
    parts.terms.map TermDictionaryEntry.granuleFrequency
  sizes : encoded.terms.map TermDictionaryEntry.postingSize =
    parts.terms.map TermDictionaryEntry.postingSize
  postings : encoded.postings = parts.postings.map postingBytes
  skips : 128 * (24 * (encoded.skips.map List.length).sum) ≤ 24 * parts.file.postingBytes.length

theorem OpenedParts.Follows.encodedAs {withSkips : Bool} {encoded : EncodedPostingLists}
    (hparts : encodeParts sidecar.manifest.sourceSizeBytes parts.granules parts.terms parts.postings
      limits.reconstructionLimits withSkips = .ok encoded) : EncodedAs parts encoded := by
  have hstored := h.sections.stored
  obtain ⟨_, -, hparts⟩ := bind_eq_ok_iff.mp hparts
  obtain ⟨_, -, hparts⟩ := bind_eq_ok_iff.mp hparts
  obtain ⟨_, -, hlists⟩ := bind_eq_ok_iff.mp hparts
  have hincreases : ∀ list ∈ parts.postings, IncreasesFrom none list := by
    intro list hlist
    obtain ⟨term, -, hterm⟩ := exists_of_forall₂_right hstored hlist
    exact hterm.increases
  obtain ⟨hwritten, hpostings⟩ := encodePostingLists_writes hstored.length_eq hincreases
    (Nat.sub_lt (Nat.two_pow_pos 64) Nat.one_pos) hlists
  have hfrequencies : parts.terms.map TermDictionaryEntry.granuleFrequency =
      parts.postings.map List.length :=
    List.forall₂_eq_eq_eq ▸ List.forall₂_map_left_iff.mpr
      (List.forall₂_map_right_iff.mpr (hstored.imp fun _ _ hterm => hterm.frequency))
  have hsizes : parts.terms.map TermDictionaryEntry.postingSize =
      parts.postings.map (fun list => (postingBytes list).length) :=
    List.forall₂_eq_eq_eq ▸ List.forall₂_map_left_iff.mpr
      (List.forall₂_map_right_iff.mpr (hstored.imp fun _ _ hterm => hterm.size))
  obtain ⟨_, -, hloop⟩ := bind_eq_ok_iff.mp hlists
  obtain ⟨-, hskips⟩ := skips_of_encodePostingLoop hstored.length_eq hincreases hloop
  refine ⟨hwritten.keys, hwritten.granuleFrequency.trans hfrequencies.symm,
    hwritten.postingSize.trans hsizes.symm, hpostings, ?_⟩
  -- A list has a byte for each id, and a skip point for 128 of them.
  have hextent : (parts.postings.map fun list => (postingBytes list).length).sum =
      parts.file.postingBytes.length := by
    rw [← hsizes]
    exact h.sections.extent
  rw [hskips, ← hextent]
  calc 128 * (parts.postings.map (skipBytes withSkips)).sum
      = (parts.postings.map fun list => 128 * skipBytes withSkips list).sum := by
        rw [List.sum_map_mul_left]
    _ ≤ (parts.postings.map fun list => 24 * (postingBytes list).length).sum := by
        apply List.sum_le_sum
        intro list _
        exact Nat.le_trans (skipBytes_le withSkips list)
          (Nat.mul_le_mul_left 24 (length_le_length_deltaBytes none list))
    _ = 24 * (parts.postings.map fun list => (postingBytes list).length).sum := by
        rw [List.sum_map_mul_left]

theorem OpenedParts.Follows.keys_sorted :
    (parts.terms.map TermDictionaryEntry.key).Pairwise (· < ·) := by
  obtain ⟨withSkips, encoded, hparts, -⟩ := encodeParts_of_restoreIndex h.index
  obtain ⟨_, -, hparts⟩ := bind_eq_ok_iff.mp hparts
  obtain ⟨_, -, hparts⟩ := bind_eq_ok_iff.mp hparts
  obtain ⟨_, hshape, -⟩ := bind_eq_ok_iff.mp hparts
  simp only [validateTermDictionaryShape, bind_eq_ok_iff, rejectIf_eq_ok_iff, ne_eq,
    not_not] at hshape
  obtain ⟨_, -, _, hchain, -⟩ := hshape
  exact hchain.pairwise

/-! ## Budgets -/

/-- The positions of the keys of a query, once each. -/
structure FoundIn (parts : OpenedParts) (indexes : List Nat) : Prop where
  nodup : indexes.Nodup
  inside : ∀ index ∈ indexes, index < parts.terms.length
  nonempty : indexes ≠ []

/-- The budget of the decoded sidecar. -/
theorem OpenedParts.Follows.checkRawPostingBudget_eq (hword : parts.file.bytes.length < 2 ^ 64)
    {indexes : List Nat} (hfound : FoundIn parts indexes) {options : SearchOptions} :
    checkRawPostingBudget indexes parts.postings (parts.postings.map postingBytes) options =
      if (indexes.map (postingSizeAt parts.terms)).sum ≤ options.maxPostingBytesPerQuery ∧
          (indexes.map (granuleFrequencyAt parts.terms)).sum ≤ options.maxPostingIdsPerQuery then
        .ok ⟨⟩
      else .error .resourceLimitExceeded := by
  have hsizes := h.sum_sizes_le hfound.nodup hfound.inside
  have hfrequencies := h.sum_frequencies_le indexes
  have hinside := h.sections.sections_at.2.2.stands.inside
  have hsizesSame : (indexes.map fun index =>
      ((parts.postings.map postingBytes).getD index []).length) =
        indexes.map (postingSizeAt parts.terms) :=
    List.map_congr_left fun index _ => (h.sizeAt index).symm
  have hfrequenciesSame : (indexes.map fun index => (parts.postings.getD index []).length) =
      indexes.map (granuleFrequencyAt parts.terms) :=
    List.map_congr_left fun index _ => (h.frequencyAt index).symm
  have hloop := @postingBudgetLoop_eq parts.postings (parts.postings.map postingBytes) options
    indexes 0 0 (Nat.zero_le _) (Nat.zero_le _) (by rw [hsizesSame]; omega)
    (by rw [hfrequenciesSame]; omega)
  rwa [hsizesSame, hfrequenciesSame, Nat.zero_add, Nat.zero_add] at hloop

/-- From the budgets on. -/
theorem OpenedParts.Follows.queryPostings_answers {indexes order : List Nat}
    (hfound : FoundIn parts indexes) (hperm : order.Perm indexes)
    {details : SkeletonDetails} (hsame : SameDetails parts.details details)
    {readRangeCached : RangeRead} {spansFor : SpanMatcher} {tokenBoundaries : Bool}
    {metrics metrics' : SearchMetrics} {planner planner' : PlannerDecision}
    (halike : SearchReport.Alike metrics metrics' planner planner') {options : SearchOptions}
    (hbytesLimit : options.maxPostingBytesPerQuery ≤ limits.maxPostingBytesPerQuery)
    (hidsLimit : options.maxPostingIdsPerQuery ≤ limits.maxDecodedPostingIds) :
    (do
      checkRawPostingBudget indexes parts.postings (parts.postings.map postingBytes) options
      searchCandidates parts.granules sidecar.manifest.complete details
        (order.map fun index => parts.postings.getD index []) spansFor tokenBoundaries
        readRangeCached metrics planner options).map SearchReport.answer =
      (do
      let postingLists ← (parts.fileSidecar sidecar served.source limits).queryPostings
        (indexes.map (postingSizeAt parts.terms)).sum order options
      (parts.fileSidecar sidecar served.source limits).searchPostings details readRangeCached
        postingLists spansFor tokenBoundaries metrics' planner' options).map SearchReport.answer := by
  have hword := served.len_lt
  rw [served.len_eq] at hword
  have hnodup : order.Nodup := hperm.nodup_iff.mpr hfound.nodup
  have hinside : ∀ index ∈ order, index < parts.terms.length := fun index hindex =>
    hfound.inside index (hperm.mem_iff.mp hindex)
  have hsizes := (hperm.map (postingSizeAt parts.terms)).sum_eq
  have hfrequencies := (hperm.map (granuleFrequencyAt parts.terms)).sum_eq
  have hquery := h.queryPostings_eq served hnodup hinside hbytesLimit hidsLimit
  rw [hsizes, hfrequencies] at hquery
  rw [h.checkRawPostingBudget_eq hword hfound, hquery]
  split
  · rw [ok_bind, ok_bind]
    refine h.searchPostings_answers served ?_ ?_ hsame halike
    · intro hnil
      rw [List.map_eq_nil_iff] at hnil
      exact hfound.nonempty (hnil ▸ hperm).nil_eq.symm
    · intro list hlist
      obtain ⟨index, hindex, rfl⟩ := List.mem_map.mp hlist
      obtain ⟨term, -, hstored⟩ := h.listAt (hinside index hindex)
      exact ⟨hstored.increases.1, hstored.ids⟩
  · rfl

/-! ## Lookups -/

/-- The decoded sidecar and the file-backed one find the same positions. -/
theorem OpenedParts.Follows.lookupKeys_found {encoded : EncodedPostingLists}
    (hencoded : EncodedAs parts encoded) (hword : parts.file.bytes.length < 2 ^ 64)
    {keys : List (List UInt8)} (hnodup : keys.Nodup) (hne : keys ≠ []) :
    ∃ missing indexes bytes,
      lookupKeys parts.terms (postingSizeAt parts.terms) keys {} = .ok ⟨missing, indexes, bytes⟩ ∧
      lookupKeys encoded.terms (postingSizeAt encoded.terms) keys {} =
        .ok ⟨missing, indexes, bytes⟩ ∧
      lookupKeys encoded.terms (fun _ => 0) keys {} = .ok ⟨missing, indexes, 0⟩ ∧
      (missing = none → FoundIn parts indexes ∧
        bytes = (indexes.map (postingSizeAt parts.terms)).sum) := by
  obtain ⟨hindexes, hinside⟩ := foundIndexes_nodup h.keys_sorted hnodup
  have hroom := h.sum_sizes_le hindexes hinside
  have hsection := h.sections.sections_at.2.2.stands.inside
  obtain ⟨missing, indexes, bytes, hlookup, hfree, hall⟩ :=
    @lookupKeys_charges parts.terms (postingSizeAt parts.terms) keys {} rfl
      (by rw [Nat.zero_add]; omega)
  refine ⟨missing, indexes, bytes, hlookup, ?_, ?_, ?_⟩
  · rw [lookupKeys_congr hencoded.keys, postingSizeAt_congr hencoded.sizes]
    exact hlookup
  · rw [lookupKeys_congr hencoded.keys]
    exact hfree
  · intro hnone
    obtain ⟨rfl, rfl, hcount⟩ := hall hnone
    rw [List.nil_append, Nat.zero_add]
    refine ⟨⟨hindexes, hinside, ?_⟩, rfl⟩
    intro hnil
    rw [hnil, List.length_nil] at hcount
    exact hne (List.eq_nil_of_length_eq_zero hcount.symm)

/-! ## The token search -/

/-- A token index that was restored from the parts. -/
structure TokenRestored (parts : OpenedParts) (manifest : SidecarManifest)
    (index : RawTokenIndex) (encoded : EncodedPostingLists) : Prop where
  indexType : manifest.indexType = "token"
  complete : index.complete = manifest.complete
  granules : index.granules = parts.granules
  terms : index.terms = encoded.terms
  postings : index.postings = parts.postings
  encodedPostings : index.encodedPostings = encoded.postings

theorem OpenedParts.Follows.tokenRestored {index : RawTokenIndex}
    (hindex : sidecar.index = .token index) : ∃ encoded, EncodedAs parts encoded ∧
      TokenRestored parts sidecar.manifest index encoded := by
  have hrestore := h.index
  rw [hindex] at hrestore
  unfold restoreIndex at hrestore
  split at hrestore
  case isTrue htype =>
    rw [RawTokenIndex.fromParts_eq] at hrestore
    obtain ⟨restored, hparts, hrestored⟩ := bind_eq_ok_iff.mp hrestore
    obtain ⟨encoded, hencoded, hmade⟩ := bind_eq_ok_iff.mp hparts
    cases hmade
    cases hrestored
    exact ⟨encoded, h.encodedAs hencoded, ⟨htype, rfl, rfl, rfl, rfl, rfl⟩⟩
  case isFalse =>
    split at hrestore
    · obtain ⟨_, -, hrestore⟩ := bind_eq_ok_iff.mp hrestore
      obtain ⟨_, -, hrestored⟩ := bind_eq_ok_iff.mp hrestore
      cases hrestored
    · cases hrestore

theorem OpenedParts.Follows.tokenSearch_answers {index : RawTokenIndex}
    (hindex : sidecar.index = .token index) {details : SkeletonDetails}
    (hsame : SameDetails parts.details details) {readRangeCached : RangeRead} {query : String}
    {options : SearchOptions}
    (hbytesLimit : options.maxPostingBytesPerQuery ≤ limits.maxPostingBytesPerQuery)
    (hidsLimit : options.maxPostingIdsPerQuery ≤ limits.maxDecodedPostingIds) :
    (index.searchImpl details query options readRangeCached).map SearchReport.answer =
      ((parts.fileSidecar sidecar served.source limits).searchImpl details query options
        readRangeCached).map SearchReport.answer := by
  obtain ⟨encoded, hencoded, hrestored⟩ := h.tokenRestored hindex
  have hword := served.len_lt
  rw [served.len_eq] at hword
  have hkind : (sidecar.manifest.indexType == "ngram") = false := by
    rw [hrestored.indexType]
    rfl
  have hmanifest : (parts.fileSidecar sidecar served.source limits).manifest = sidecar.manifest :=
    rfl
  have hterms : (parts.fileSidecar sidecar served.source limits).terms = parts.terms := rfl
  rw [RawTokenIndex.searchImpl, QziFileSidecar.searchImpl, hmanifest, hterms, hkind,
    hrestored.terms, hrestored.complete, hrestored.granules, hrestored.postings,
    hrestored.encodedPostings, hencoded.postings]
  dsimp only
  rw [QziFileSidecar.queryKeys, if_neg Bool.false_ne_true]
  cases hkeys : uniqueQueryKeys query options with
  | error e => rfl
  | ok keys =>
    rw [ok_bind, ok_bind]
    cases usizeToU64 keys.length with
    | error e => rfl
    | ok termLookups =>
      rw [ok_bind, ok_bind]
      by_cases hnone : keys = []
      · rw [if_pos hnone, if_pos hnone]
        exact congrArg Except.ok (answer_earlyExitReport ⟨rfl, rfl, rfl, rfl, rfl⟩ _ _ _)
      · rw [if_neg hnone, if_neg hnone]
        obtain ⟨missing, indexes, bytes, hlookup, hmemory, -, hall⟩ :=
          h.lookupKeys_found hencoded hword (uniqueQueryKeys_eq_ok hkeys).1 hnone
        rw [hlookup, hmemory, ok_bind, ok_bind]
        cases missing with
        | some key =>
          exact congrArg Except.ok (answer_earlyExitReport ⟨rfl, rfl, rfl, rfl, rfl⟩ _ _ _)
        | none =>
          obtain ⟨hfound, rfl⟩ := hall rfl
          -- Both sort the positions by the lengths of their lists.
          have horder : (fun left right : Nat => decide ((parts.postings.getD left []).length ≤
              (parts.postings.getD right []).length)) = fun left right => decide
                (granuleFrequencyAt parts.terms left ≤ granuleFrequencyAt parts.terms right) := by
            funext left right
            rw [h.frequencyAt, h.frequencyAt]
          dsimp only [QziFileSidecar.orderTerms, Bool.not_false]
          rw [horder, keyAt_congr hencoded.keys, if_neg Bool.false_ne_true,
            if_neg Bool.false_ne_true, if_neg Bool.false_ne_true, hterms]
          refine h.queryPostings_answers served hfound (List.mergeSort_perm _ _) hsame ?_
            hbytesLimit hidsLimit
          exact ⟨rfl, rfl, rfl, rfl, rfl⟩

/-! ## The n-gram search -/

/-- An n-gram index that was restored from the parts. -/
structure NgramRestored (parts : OpenedParts) (manifest : SidecarManifest)
    (index : RawNgramIndex) (encoded : EncodedPostingLists) : Prop where
  indexType : manifest.indexType = "ngram"
  ngramN : manifest.ngramN = some index.declaration.n
  complete : index.complete = manifest.complete
  highDfPerMillion : index.plannerConfig.highDfPerMillion = manifest.highDfPerMillion
  granules : index.granules = parts.granules
  terms : index.terms = encoded.terms
  postings : index.postings = parts.postings
  encodedPostings : index.encodedPostings = encoded.postings
  skipData : index.skipData = encoded.skips

theorem OpenedParts.Follows.ngramRestored {index : RawNgramIndex}
    (hindex : sidecar.index = .ngram index) : ∃ encoded, EncodedAs parts encoded ∧
      NgramRestored parts sidecar.manifest index encoded := by
  have hrestore := h.index
  rw [hindex] at hrestore
  unfold restoreIndex at hrestore
  split at hrestore
  case isTrue =>
    obtain ⟨_, -, hrestored⟩ := bind_eq_ok_iff.mp hrestore
    cases hrestored
  case isFalse =>
    split at hrestore
    case isFalse => cases hrestore
    case isTrue htype =>
      obtain ⟨n, hn, hrestore⟩ := bind_eq_ok_iff.mp hrestore
      obtain ⟨restored, hparts, hrestored⟩ := bind_eq_ok_iff.mp hrestore
      have hpositive : n ≠ 0 := by
        rintro rfl
        cases hparts
      rw [RawNgramIndex.fromParts_eq _ _ _ _ _ hpositive] at hparts
      obtain ⟨encoded, hencoded, hmade⟩ := bind_eq_ok_iff.mp hparts
      cases hmade
      cases hrestored
      exact ⟨encoded, h.encodedAs hencoded,
        ⟨htype, okOr_eq_ok_iff.mp hn, rfl, rfl, rfl, rfl, rfl, rfl, rfl⟩⟩

/-- What an n-gram search reports to have read of the lists fits a word. -/
theorem OpenedParts.Follows.reported_ok {index : RawNgramIndex} {encoded : EncodedPostingLists}
    (hencoded : EncodedAs parts encoded)
    (hrestored : NgramRestored parts sidecar.manifest index encoded)
    (hword : parts.file.bytes.length < 2 ^ 64) {indexes : List Nat}
    (hfound : FoundIn parts indexes) :
    ∃ total, sumChecked index.reportedPostingBytesRead indexes 0 = .ok total := by
  have hsizes := h.sum_sizes_le hfound.nodup hfound.inside
  have hsection := h.sections.sections_at.2.2.stands.inside
  have hskips := hencoded.skips
  have hread : ∀ position, ∃ amount, index.reportedPostingBytesRead position = .ok amount ∧
      amount ≤ postingSizeAt parts.terms position := by
    intro position
    have hsize : postingSizeAt index.terms position = postingSizeAt parts.terms position := by
      rw [hrestored.terms, postingSizeAt_congr hencoded.sizes]
    rw [RawNgramIndex.reportedPostingBytesRead, hsize]
    by_cases hnone : index.skipData.getD position [] = []
    · exact ⟨_, if_pos hnone, Nat.le_refl _⟩
    · -- The skip points of one list are some of those of all lists.
      have hlist : (index.skipData.getD position []).length ≤
          (encoded.skips.map List.length).sum := by
        rw [hrestored.skipData]
        rcases Nat.lt_or_ge position encoded.skips.length with hlt | hge
        · rw [List.getD_eq_getElem _ _ hlt]
          exact List.single_le_sum (fun _ _ => Nat.zero_le _) _
            (List.mem_map_of_mem (List.getElem_mem hlt))
        · rw [List.getD_eq_default _ _ hge]
          exact Nat.zero_le _
      have hfits : (index.skipData.getD position []).length * 24 + 16 < 2 ^ 64 := by omega
      rw [if_neg hnone, saturatingMul_of_lt (by omega), usizeToU64_of_lt (by omega), ok_bind, checkedAdd_of_lt hfits,
        okOr_some, ok_bind]
      exact ⟨_, rfl, Nat.min_le_right _ _⟩
  choose amount hamount hle using hread
  have hsum : (indexes.map amount).sum ≤ (indexes.map (postingSizeAt parts.terms)).sum :=
    List.sum_le_sum fun position _ => hle position
  exact ⟨_, sumChecked_of_lt (fun position _ => hamount position) (by rw [Nat.zero_add]; omega)⟩

theorem OpenedParts.Follows.ngramSearch_answers {index : RawNgramIndex}
    (hindex : sidecar.index = .ngram index) {details : SkeletonDetails}
    (hsame : SameDetails parts.details details) {readRangeCached : RangeRead} {query : String}
    {options : SearchOptions}
    (hbytesLimit : options.maxPostingBytesPerQuery ≤ limits.maxPostingBytesPerQuery)
    (hidsLimit : options.maxPostingIdsPerQuery ≤ limits.maxDecodedPostingIds) :
    (index.searchImpl details query options readRangeCached).map SearchReport.answer =
      ((parts.fileSidecar sidecar served.source limits).searchImpl details query options
        readRangeCached).map SearchReport.answer := by
  obtain ⟨encoded, hencoded, hrestored⟩ := h.ngramRestored hindex
  have hword := served.len_lt
  rw [served.len_eq] at hword
  have hkind : (sidecar.manifest.indexType == "ngram") = true := by
    rw [hrestored.indexType]
    rfl
  have hmanifest : (parts.fileSidecar sidecar served.source limits).manifest = sidecar.manifest :=
    rfl
  have hterms : (parts.fileSidecar sidecar served.source limits).terms = parts.terms := rfl
  -- Both orders put rare terms first, by the same frequencies.
  have hhigh : index.isHighDf = (parts.fileSidecar sidecar served.source limits).isHighDf := by
    funext position
    rw [RawNgramIndex.isHighDf, QziFileSidecar.isHighDf, hrestored.highDfPerMillion,
      hrestored.granules, hrestored.terms, granuleFrequencyAt_congr hencoded.frequencies]
    rfl
  rw [RawNgramIndex.searchImpl, QziFileSidecar.searchImpl, hmanifest, hterms, hkind,
    hrestored.terms, hrestored.complete, hrestored.granules, hrestored.postings,
    hrestored.encodedPostings, hencoded.postings]
  dsimp only
  rw [QziFileSidecar.queryKeys, if_pos rfl, hmanifest, hrestored.ngramN, okOr_some, ok_bind]
  cases hkeys : ngramKeysForQuery query index.declaration.n options with
  | error e => rfl
  | ok keys =>
    rw [ok_bind, ok_bind]
    cases usizeToU64 keys.length with
    | error e => rfl
    | ok termLookups =>
      rw [ok_bind, ok_bind]
      by_cases hnone : keys = []
      · rw [if_pos hnone, if_pos hnone]
        exact congrArg Except.ok (answer_earlyExitReport ⟨rfl, rfl, rfl, rfl, rfl⟩ _ _ _)
      · rw [if_neg hnone, if_neg hnone]
        obtain ⟨missing, indexes, bytes, hlookup, -, hmemory, hall⟩ :=
          h.lookupKeys_found hencoded hword (ngramKeysForQuery_nodup hkeys) hnone
        rw [hlookup, hmemory, ok_bind, ok_bind]
        cases missing with
        | some key =>
          exact congrArg Except.ok (answer_earlyExitReport ⟨rfl, rfl, rfl, rfl, rfl⟩ _ _ _)
        | none =>
          obtain ⟨hfound, rfl⟩ := hall rfl
          dsimp only [QziFileSidecar.orderTerms, Bool.not_true]
          rw [hhigh, granuleFrequencyAt_congr hencoded.frequencies, keyAt_congr hencoded.keys,
            if_pos rfl, if_pos rfl, if_pos rfl, hterms]
          -- The decoded sidecar checks its budget on the sorted positions.
          have hperm : (indexes.mergeSort (rarestFirst
              (parts.fileSidecar sidecar served.source limits).isHighDf
              (granuleFrequencyAt parts.terms))).Perm indexes := List.mergeSort_perm _ _
          have hsorted : FoundIn parts (indexes.mergeSort (rarestFirst
              (parts.fileSidecar sidecar served.source limits).isHighDf
              (granuleFrequencyAt parts.terms))) := by
            refine ⟨hperm.nodup_iff.mpr hfound.nodup, ?_, ?_⟩
            · intro position hposition
              exact hfound.inside position (hperm.mem_iff.mp hposition)
            · intro hnil
              exact hfound.nonempty (hnil ▸ hperm).nil_eq.symm
          obtain ⟨total, hreported⟩ := h.reported_ok hencoded hrestored hword hsorted
          rw [hreported, ok_bind, ← (hperm.map (postingSizeAt parts.terms)).sum_eq]
          refine h.queryPostings_answers served hsorted (List.Perm.refl _) hsame ?_ hbytesLimit
            hidsLimit
          exact ⟨rfl, rfl, rfl, rfl, rfl⟩

end Stages

/-! ## The two searches -/

/-- The budgets that a file-backed search keeps: the caller's, within the limits of the sidecar. -/
def SidecarLimits.clip (limits : SidecarLimits) (options : SearchOptions) : SearchOptions :=
  options.withPostingBudgets (min limits.maxPostingBytesPerQuery options.maxPostingBytesPerQuery)
    (min limits.maxDecodedPostingIds options.maxPostingIdsPerQuery)

namespace QziFileSidecar

variable {self : QziFileSidecar} {options : SearchOptions}

theorem queryPostings_clip (postingBytesRead : Nat) (termIndexes : List Nat) :
    self.queryPostings postingBytesRead termIndexes (self.limits.clip options) =
      self.queryPostings postingBytesRead termIndexes options := by
  rw [queryPostings, queryPostings]
  simp only [SidecarLimits.clip, SearchOptions.withPostingBudgets, Nat.min_self_assoc]

theorem searchPostings_withPostingBudgets {details : SkeletonDetails}
    {readRangeCached : RangeRead} {postingLists : List (List Nat)} {spansFor : SpanMatcher}
    {tokenBoundaries : Bool} {metrics : SearchMetrics} {planner : PlannerDecision}
    {bytes ids : Nat} :
    self.searchPostings details readRangeCached postingLists spansFor tokenBoundaries metrics planner
        (options.withPostingBudgets bytes ids) =
      self.searchPostings details readRangeCached postingLists spansFor tokenBoundaries metrics
        planner options := by
  rw [searchPostings, searchPostings]
  apply bind_congr_ok
  intro candidates _
  apply bind_congr_ok
  intro candidateGranules _
  apply if_congr Iff.rfl rfl
  apply if_congr Iff.rfl rfl
  apply bind_congr_ok
  intro granules _
  apply bind_congr_ok
  intro candidateChunks _
  rw [VerificationPlan.verifyCandidates, VerificationPlan.verifyCandidates]
  have hloop := @VerificationPlan.verifyLoop_withPostingBudgets
    { entries := details.chunkEntries
      originalSize := details.summary.originalSize
      granuleAt := fun granuleId => do
        let position ← okOr .containerCorrupt (candidatePosition candidates granuleId)
        okOr .containerCorrupt granules[position]?
      readRangeCached, spansFor, tokenBoundaries, options } bytes ids candidates {}
  dsimp only at hloop
  rw [hloop]

theorem searchImpl_clip {details : SkeletonDetails} {query : String}
    {readRangeCached : RangeRead} :
    self.searchImpl details query (self.limits.clip options) readRangeCached =
      self.searchImpl details query options readRangeCached := by
  have hkeys : ∀ isNgram, self.queryKeys isNgram query (self.limits.clip options) =
      self.queryKeys isNgram query options := by
    intro isNgram
    rw [queryKeys, queryKeys]
    rfl
  rw [searchImpl, searchImpl]
  simp only [hkeys, queryPostings_clip]
  simp only [SidecarLimits.clip, searchPostings_withPostingBudgets]

end QziFileSidecar

/-- Over one container both sidecars give every query the same answer. -/
theorem OpenedParts.Follows.search_answers {env : Env} {bytes : List UInt8}
    {limits : SidecarLimits} {readerLimits : ResourceLimits} {sidecar : QziSidecar}
    {reader : QztReader} {parts : OpenedParts} (h : parts.Follows env bytes limits sidecar)
    (container : FaithfulSource bytes) (served : FaithfulSource parts.file.bytes)
    (hreader : QztReader.openWithLimits env bytes readerLimits = .ok reader) (query : String)
    (options : SearchOptions) :
    ((parts.fileSidecar sidecar served.source limits).search env
        (container.fileReader reader.details) query options).map SearchReport.answer =
      (sidecar.search env reader query (limits.clip options)).map SearchReport.answer := by
  obtain ⟨details, hdetails, hmade⟩ := bind_eq_ok_iff.mp hreader
  obtain rfl := Except.ok.inj hmade
  have hsame := sameDetails_of_open h.details hdetails
  have hsameFooter := hsame.footerPayloadOffset
  obtain ⟨hchecksum, hbinding⟩ := validateReaderBinding_of_open hreader hsame h.footerChecksum
    h.source h.sourceFooter
  have hfileChecksum : (container.fileReader details).footerChecksum env =
      .ok parts.footerChecksum := by
    apply (qztFooterChecksum_iff container).mp
    rw [← hsameFooter]
    exact h.footerChecksum
  have hreads : (container.fileReader details).readRangeCached env =
      QztReader.readRangeCached env { bytes, details } := by
    funext offset length cache
    rw [QztFileReader.readRangeCached, container.decodeEntry_eq]
    rfl
  have hmanifest : (parts.fileSidecar sidecar served.source limits).manifest = sidecar.manifest :=
    rfl
  have hdetailsOf : (container.fileReader details).details = details := rfl
  have hclip := @QziFileSidecar.searchImpl_clip (parts.fileSidecar sidecar served.source limits)
    options details query (QztReader.readRangeCached env { bytes, details })
  rw [QziFileSidecar.search, QziSidecar.search, hchecksum, hfileChecksum, ok_bind, ok_bind,
    hmanifest, hdetailsOf, hbinding, ok_bind, ok_bind, hreads, ← hclip]
  cases hindex : sidecar.index with
  | token index =>
    exact (h.tokenSearch_answers served hindex hsame (Nat.min_le_left _ _)
      (Nat.min_le_left _ _)).symm
  | ngram index =>
    exact (h.ngramSearch_answers served hindex hsame (Nat.min_le_left _ _)
      (Nat.min_le_left _ _)).symm

/-- A sidecar that opens in memory also opens from a file, over the same container, and both give
every query the same answer.  The file-backed one keeps its own limits on posting lists. -/
theorem fileSearch_agrees {env : Env} {bytes sidecarBytes : List UInt8} {limits : SidecarLimits}
    {readerLimits : ResourceLimits} {sidecar : QziSidecar} {reader : QztReader}
    (container : FaithfulSource bytes) (served : FaithfulSource sidecarBytes)
    (hopen : QziSidecar.openWithLimits env bytes sidecarBytes limits = .ok sidecar)
    (hreader : QztReader.openWithLimits env bytes readerLimits = .ok reader) :
    ∃ fileReader fileSidecar,
      QztFileReader.openReadAtWithLimits env container.source container.len readerLimits =
        .ok fileReader ∧
      QziFileSidecar.openReadAtWithLimits env served.source served.len fileReader limits =
        .ok fileSidecar ∧
      ∀ query options,
        (fileSidecar.search env fileReader query options).map SearchReport.answer =
          (sidecar.search env reader query (limits.clip options)).map SearchReport.answer := by
  obtain ⟨parts, rfl, h⟩ := OpenedParts.follows_of_open hopen
  obtain ⟨details, hdetails, hmade⟩ := bind_eq_ok_iff.mp hreader
  have hdetailsOf : reader.details = details := by
    obtain rfl := Except.ok.inj hmade
    rfl
  rw [← hdetailsOf] at hdetails
  obtain ⟨hfile, -⟩ := container.opens hreader
  exact ⟨container.fileReader reader.details, parts.fileSidecar sidecar served.source limits, hfile,
    h.opensAt container (sameDetails_of_open h.details hdetails) served,
    h.search_answers container served hreader⟩

/-- Three lines and their token sidecar. -/
theorem staleContainer_rebuilt : ∃ details sidecarBytes sidecar,
    staleContainer.length < 2 ^ 64 ∧ sidecarBytes.length < 2 ^ 64 ∧
      openSkeletonDetails Reference.env staleContainer = .ok details ∧
      buildSearchSidecarFromFile Reference.env
        { source := memorySource staleContainer, len := staleContainer.length, details } .token =
          .ok sidecarBytes ∧
      QziSidecar.openWithLimits Reference.env staleContainer sidecarBytes .default =
        .ok sidecar := by
  obtain ⟨hlt, hok⟩ := tokenSidecar_staleContainer
  cases hrun : tokenSidecar staleContainer with
  | error e =>
    rw [hrun] at hok
    cases hok
  | ok sidecarBytes =>
    rw [tokenSidecar] at hrun
    obtain ⟨reader, hreader, hbuild⟩ := bind_eq_ok_iff.mp hrun
    have hopen : openSkeletonDetailsReadAt Reference.env (memorySource staleContainer)
        staleContainer.length .default =
          openSkeletonDetailsWithLimits Reference.env staleContainer .default :=
      (servedInMemory staleContainer hlt).openSkeletonDetailsReadAt_eq .default
    rw [QztFileReader.openReadAt, QztFileReader.openReadAtWithLimits, hopen] at hreader
    obtain ⟨details, hdetails, hmade⟩ := bind_eq_ok_iff.mp hreader
    obtain rfl := Except.ok.inj hmade
    obtain ⟨parts, sidecar, rfl, -, hword, hfollows, -⟩ :=
      follows_of_build (servedInMemory staleContainer hlt) hdetails cover_default hbuild
    exact ⟨details, _, sidecar, hlt, hword, hdetails, hbuild, hfollows.opens hword⟩

theorem fileSearch_agrees_staleContainer : ∃ sidecarBytes sidecar reader fileReader fileSidecar,
    QziSidecar.openWithLimits Reference.env staleContainer sidecarBytes .default = .ok sidecar ∧
      QztReader.openWithLimits Reference.env staleContainer .default = .ok reader ∧
      QztFileReader.openReadAtWithLimits Reference.env (memorySource staleContainer)
        staleContainer.length .default = .ok fileReader ∧
      QziFileSidecar.openReadAtWithLimits Reference.env (memorySource sidecarBytes)
        sidecarBytes.length fileReader .default = .ok fileSidecar ∧
      (fileSidecar.search Reference.env fileReader "BETA" {}).map SearchReport.answer =
        (sidecar.search Reference.env reader "BETA" (SidecarLimits.default.clip {})).map
          SearchReport.answer := by
  obtain ⟨details, sidecarBytes, sidecar, hlt, hword, hdetails, -, hsidecar⟩ :=
    staleContainer_rebuilt
  have hreader : QztReader.openWithLimits Reference.env staleContainer .default =
      .ok { bytes := staleContainer, details } := by
    have hdefault : openSkeletonDetailsWithLimits Reference.env staleContainer .default =
        .ok details := hdetails
    rw [QztReader.openWithLimits, hdefault]
    rfl
  obtain ⟨fileReader, fileSidecar, hfile, hopened, hanswers⟩ :=
    fileSearch_agrees (servedInMemory staleContainer hlt) (servedInMemory sidecarBytes hword)
      hsidecar hreader
  exact ⟨sidecarBytes, sidecar, _, fileReader, fileSidecar, hsidecar, hreader, hfile, hopened,
    hanswers "BETA" {}⟩

end Qzt.Sidecar
