import Qzt.Search.Budgets
import Qzt.Search.ConfirmedHits

/-!
# How a search can fail

A search indexes the granules by the ids of the posting lists, looks up the chunks of each
granule and reads them.  Where the ids are those of granules, every granule is a range of the
text with the chunks it needs, and every chunk decodes, none of this goes wrong: a search
ends with a limit or not at all.
-/

namespace Qzt

open Foundation

/-! ## Reads -/

section Reads

variable {entries : List ChunkEntry} {text : List UInt8} {decodeEntry : DecodeEntry}
  {entry : ChunkEntry} {cache : ChunkDecodeCache} {size offset stop length : Nat}

theorem ChunkDecodeCache.failsOnlyWith_decodedEntry
    (hdecodes : ∃ part, decodeEntry entry = .ok part) :
    FailsOnlyWith .resourceLimitExceeded (cache.decodedEntry entry decodeEntry) := by
  obtain ⟨part, hpart⟩ := hdecodes
  unfold decodedEntry
  split
  · -- Only the counters can be full.
    rw [hpart, ok_bind]
    apply failsOnlyWith_bind (failsOnlyWith_okOr _ _)
    intro bytes _
    apply failsOnlyWith_bind (failsOnlyWith_okOr _ _)
    intro chunks _
    exact failsOnlyWith_bind (failsOnlyWith_okOr _ _) fun _ _ => failsOnlyWith_ok _
  · exact failsOnlyWith_ok _

theorem failsOnlyWith_copyRange (hlayout : Layout entries size) {remaining : List ChunkEntry}
    (hsubset : ∀ entry ∈ remaining, entry ∈ entries)
    (hdecodes : ∀ entry ∈ entries, ∃ part, decodeEntry entry = .ok part) {output : List UInt8} :
    FailsOnlyWith .resourceLimitExceeded
      (copyRange offset stop decodeEntry remaining output cache) := by
  induction remaining generalizing output cache with
  | nil => exact failsOnlyWith_ok _
  | cons entry remaining ih =>
    have hentry := hsubset entry List.mem_cons_self
    rw [copyRange, hlayout.logicalEnd_eq hentry, ok_bind]
    split
    · exact failsOnlyWith_ok _
    · apply failsOnlyWith_bind (cache.failsOnlyWith_decodedEntry (hdecodes entry hentry))
      intro next _
      apply failsOnlyWith_bind (failsOnlyWith_u64ToUsize _)
      intro localStart _
      apply failsOnlyWith_bind (failsOnlyWith_u64ToUsize _)
      intro localEnd _
      exact ih fun other hother => hsubset other (List.mem_cons_of_mem _ hother)

/-- Where every chunk decodes, a read inside the text fails only for a full counter. -/
theorem failsOnlyWith_readRangeFromEntriesCached (hlayout : Layout entries size)
    (hagrees : Agrees decodeEntry entries text) (hlength : text.length = size)
    (hdecodes : ∀ entry ∈ entries, ∃ part, decodeEntry entry = .ok part)
    (hcache : cache.Holds entries text) (hrange : offset + length ≤ size) :
    FailsOnlyWith .resourceLimitExceeded
      (readRangeFromEntriesCached entries size offset length cache decodeEntry) := by
  have hsize := hlayout.size_lt
  rw [readRangeFromEntriesCached, checkedLogicalEnd_of_lt (by omega), ok_bind,
    rejectIf_of_not (by omega), ok_bind]
  split
  · exact failsOnlyWith_ok _
  · obtain ⟨index, chunkOffset, hcontiguous, htotal, hle, hfirst⟩ :=
      copyRange_from_index hlayout (show offset < size by omega)
    have hsubset : ∀ entry ∈ entries.drop (weightIndex (chunkSizes entries) offset),
        entry ∈ entries := fun entry hentry => List.mem_of_mem_drop hentry
    rw [hlayout.chunkIndex_eq, ok_bind]
    apply failsOnlyWith_bind (failsOnlyWith_copyRange hlayout hsubset hdecodes)
    intro copied hcopy
    apply failsOnlyWith_bind (failsOnlyWith_usizeToU64 _)
    intro count hcount
    obtain ⟨-, rfl⟩ := usizeToU64_eq_ok_iff.mp hcount
    -- What was copied is the range, so its length is the one that was asked for.
    obtain ⟨hout, -⟩ := copyRange_sound hlayout hagrees hrange hsubset hcontiguous htotal hfirst
      hcache hcopy
    rw [List.nil_append, Nat.max_eq_left hle, Nat.add_sub_cancel_left] at hout
    have hlen : copied.1.length = length := by
      rw [hout, length_slice_of_le (by omega)]
    rw [rejectIf_of_not (not_not_intro hlen), ok_bind]
    exact failsOnlyWith_ok _

theorem failsOnlyWith_searchLimitLoop {maxBytes maxChunks : Nat} {span : List ChunkEntry}
    {cached : Option Nat} {bytes chunks : Nat} : FailsOnlyWith .resourceLimitExceeded
      (ChunkDecodeCache.searchLimitLoop maxBytes maxChunks span cached bytes chunks) := by
  induction span generalizing cached bytes chunks with
  | nil => exact failsOnlyWith_ok _
  | cons entry span ih =>
    rw [ChunkDecodeCache.searchLimitLoop]
    split
    · apply failsOnlyWith_bind (failsOnlyWith_okOr _ _)
      intro nextBytes _
      split
      · exact failsOnlyWith_ok _
      · apply failsOnlyWith_bind (failsOnlyWith_okOr _ _)
        intro nextChunks _
        split
        · exact failsOnlyWith_ok _
        · exact ih
    · exact ih

end Reads

/-! ## Spans of a matcher -/

/-- A token span starts inside the bytes. -/
theorem start_lt_of_mem_tokenSpans {bytes : List UInt8} {queryKeys : List (List UInt8)}
    {leftContinues rightContinues : Bool} {span : TokenSpan}
    (h : span ∈ tokenSpans bytes queryKeys leftContinues rightContinues) :
    span.start < bytes.length := by
  obtain ⟨index, line, start, hline, hstart, hspan⟩ := mem_spansFrom h
  obtain ⟨-, ⟨key, first, stop⟩, hentry, rfl⟩ := mem_lineSpans hspan
  obtain ⟨hrun, -, -⟩ := mem_runMatches_iff.mp hentry
  have hfirst : first < stop := hrun.start_lt
  have hstop : stop ≤ line.length := hrun.stop_le
  rw [← lines] at hline hstart
  obtain ⟨-, hinside, -⟩ := slice_line hline
  have hplace : (matchSpan queryKeys start (key, first, stop)).start = start + first := rfl
  rw [hplace]
  omega

/-- An occurrence starts inside the bytes. -/
theorem start_lt_of_mem_occurrenceSpans {bytes query : List UInt8} {span : TokenSpan}
    (h : span ∈ occurrenceSpans bytes query) : span.start < bytes.length := by
  have hne : query ≠ [] := by
    intro hnil
    rw [occurrenceSpans, if_pos (.inl hnil)] at h
    exact List.not_mem_nil h
  obtain ⟨hslice, -⟩ := (mem_occurrenceSpans hne).mp h
  have hle := le_of_slice_eq hne hslice
  have hpos := List.length_pos_of_ne_nil hne
  omega

/-! ## Verification -/

namespace VerificationPlan

/-- The plan reads a text whose chunks all decode. -/
structure Decodes (plan : VerificationPlan) (text : List UInt8)
    (all : List UInt8 → Bool → Bool → List TokenSpan) : Prop where
  layout : Layout plan.entries plan.originalSize
  serves : plan.Serves text all
  fails : ∀ {offset length : Nat} {cache : ChunkDecodeCache}, cache.Holds plan.entries text →
    offset + length ≤ plan.originalSize →
      FailsOnlyWith .resourceLimitExceeded (plan.readRangeCached offset length cache)
  inside : ∀ {bytes : List UInt8} {left right : Bool} {span : TokenSpan},
    span ∈ all bytes left right → span.start < bytes.length

variable {plan : VerificationPlan} {text : List UInt8}
  {all : List UInt8 → Bool → Bool → List TokenSpan}

theorem failsOnlyWith_spanLimit {cache : ChunkDecodeCache} {span : Nat × Nat}
    {found : List ChunkEntry} (h : getRange? plan.entries span.1 span.2 = some found) :
    FailsOnlyWith .resourceLimitExceeded (plan.spanLimit cache span) := by
  apply failsOnlyWith_bind (failsOnlyWith_u64ToUsize _)
  intro start hstart
  obtain ⟨-, rfl⟩ := u64ToUsize_eq_ok_iff.mp hstart
  apply failsOnlyWith_bind (failsOnlyWith_u64ToUsize _)
  intro stop hstop
  obtain ⟨-, rfl⟩ := u64ToUsize_eq_ok_iff.mp hstop
  rw [h, okOr_some, ok_bind]
  exact failsOnlyWith_searchLimitLoop

theorem failsOnlyWith_pushHits {granule : SearchGranule} {spans : List TokenSpan}
    (hspans : ∀ span ∈ spans, granule.logicalOffset + span.start < 2 ^ 64)
    {state : CandidateVerification} :
    FailsOnlyWith .resourceLimitExceeded (plan.pushHits granule spans state) := by
  induction spans generalizing state with
  | nil => exact failsOnlyWith_ok _
  | cons span spans ih =>
    obtain ⟨hspan, hspans⟩ := List.forall_mem_cons.mp hspans
    rw [pushHits]
    apply failsOnlyWith_bind (failsOnlyWith_usizeToU64 _)
    intro spanOffset hoffset
    obtain ⟨-, rfl⟩ := usizeToU64_eq_ok_iff.mp hoffset
    apply failsOnlyWith_bind (failsOnlyWith_usizeToU64 _)
    intro spanLen _
    rw [checkedAdd_of_lt hspan, okOr_some, ok_bind]
    apply failsOnlyWith_bind (failsOnlyWith_usizeToU64 _)
    intro count _
    split
    · exact failsOnlyWith_ok _
    · exact ih hspans

theorem Decodes.failsOnlyWith_probeRight (hplan : plan.Decodes text all) {granuleEnd : Nat}
    (hend : granuleEnd < plan.originalSize) {state : CandidateVerification}
    (hcache : state.cache.Holds plan.entries text) :
    FailsOnlyWith .resourceLimitExceeded (plan.probeRight granuleEnd state) := by
  have hsize := hplan.layout.size_lt
  have hspan := chunkSpanForRange_eq hplan.layout (Nat.lt_succ_self granuleEnd) hend
  have htouched := chunkSpanForRange_touched hplan.layout (Nat.lt_succ_self granuleEnd) hend hspan
  rw [probeRight]
  apply failsOnlyWith_bind (failsOnlyWith_okOr _ _)
  intro nextDecoded _
  split
  · exact failsOnlyWith_ok _
  · rw [checkedAdd_of_lt (by omega), okOr_some, ok_bind, hspan, ok_bind]
    apply failsOnlyWith_bind (failsOnlyWith_spanLimit htouched)
    intro limit _
    split
    · exact failsOnlyWith_ok _
    · exact failsOnlyWith_bind (hplan.fails hcache hend) fun _ _ => failsOnlyWith_ok _

theorem Decodes.failsOnlyWith_matchGranule (hplan : plan.Decodes text all)
    {granule : SearchGranule} (hsize : granule.logicalOffset + granule.byteLength ≤
      plan.originalSize) {state : CandidateVerification}
    (hcache : state.cache.Holds plan.entries text) :
    FailsOnlyWith .resourceLimitExceeded
      (plan.matchGranule granule (granule.logicalOffset + granule.byteLength)
        (plan.readStart granule) (slice text (plan.readStart granule)
          (granule.logicalOffset + granule.byteLength - plan.readStart granule)) state) := by
  have hword := hplan.layout.size_lt
  have htext := hplan.serves.length
  rw [matchGranule]
  apply failsOnlyWith_bind (failsOnlyWith_u64ToUsize _)
  intro start hstart
  obtain ⟨-, rfl⟩ := u64ToUsize_eq_ok_iff.mp hstart
  rw [slice_readStart (by omega) (readStart_le granule), okOr_some, ok_bind]
  apply failsOnlyWith_bind
  · unfold continuesRight
    split
    · rename_i hcondition
      exact hplan.failsOnlyWith_probeRight hcondition.2.2 hcache
    · exact failsOnlyWith_ok _
  · intro result _
    dsimp only
    split
    · exact failsOnlyWith_ok _
    · apply failsOnlyWith_bind (failsOnlyWith_usizeToU64 _)
      intro count _
      apply failsOnlyWith_pushHits
      intro span hspan
      rw [hplan.serves.spans] at hspan
      have hinside := hplan.inside (List.mem_of_mem_take hspan)
      rw [granuleText, length_slice_of_le (by omega)] at hinside
      omega

/-- A candidate whose granule was validated fails only for a limit. -/
theorem Decodes.failsOnlyWith_verifyCandidate (hplan : plan.Decodes text all) {granuleId : Nat}
    {granule : SearchGranule} (hgranule : plan.granuleAt granuleId = .ok granule)
    (hvalid : validateGranuleChunkSpan granule plan.entries plan.originalSize = .ok ⟨⟩)
    {state : CandidateVerification} (hcache : state.cache.Holds plan.entries text) :
    FailsOnlyWith .resourceLimitExceeded (plan.verifyCandidate granuleId state) := by
  obtain ⟨hpos, hsize, hspan⟩ := validateGranuleChunkSpan_eq_ok hvalid
  have hword := hplan.layout.size_lt
  have hle : plan.readStart granule ≤ granule.logicalOffset := readStart_le granule
  -- Both ways to find the chunks of the read succeed, and they are chunks of the table.
  have hread : ∃ span, plan.readSpan granule (granule.logicalOffset + granule.byteLength) =
      .ok span ∧ ∃ found, getRange? plan.entries span.1 span.2 = some found := by
    unfold readSpan
    split
    · have hwider := chunkSpanForRange_eq hplan.layout
        (show plan.readStart granule < granule.logicalOffset + granule.byteLength by omega) hsize
      exact ⟨_, hwider, _, chunkSpanForRange_touched hplan.layout (by omega) hsize hwider⟩
    · exact ⟨_, rfl, _, chunkSpanForRange_touched hplan.layout (by omega) hsize hspan⟩
  obtain ⟨span, hspanEq, found, hfound⟩ := hread
  rw [verifyCandidate, hgranule, ok_bind, checkedAdd_of_lt (by omega), okOr_some, ok_bind,
    checkedSub_of_le (by omega), okOr_some, ok_bind]
  apply failsOnlyWith_bind (failsOnlyWith_okOr _ _)
  intro nextDecoded _
  split
  · exact failsOnlyWith_ok _
  · rw [hspanEq, ok_bind]
    apply failsOnlyWith_bind (failsOnlyWith_spanLimit hfound)
    intro limit _
    split
    · exact failsOnlyWith_ok _
    · apply failsOnlyWith_bind (hplan.fails hcache (by omega))
      intro result hresult
      obtain ⟨-, hdecoded, hholds⟩ := hplan.serves.reads hcache hresult
      dsimp only
      rw [hdecoded]
      exact hplan.failsOnlyWith_matchGranule hsize hholds

/-- The loop of `verify_candidates`. -/
theorem Decodes.failsOnlyWith_verifyLoop (hplan : plan.Decodes text all) {candidates : List Nat}
    (hcandidates : ∀ granuleId ∈ candidates, ∃ granule, plan.granuleAt granuleId = .ok granule ∧
      validateGranuleChunkSpan granule plan.entries plan.originalSize = .ok ⟨⟩)
    {state : CandidateVerification} (hroom : state.hits.length < plan.options.maxSearchResults)
    (hcache : state.cache.Holds plan.entries text) :
    FailsOnlyWith .resourceLimitExceeded (plan.verifyLoop candidates state) := by
  induction candidates generalizing state with
  | nil => exact failsOnlyWith_ok _
  | cons granuleId candidates ih =>
    obtain ⟨⟨granule, hgranule, hvalid⟩, hcandidates⟩ := List.forall_mem_cons.mp hcandidates
    rw [verifyLoop]
    apply failsOnlyWith_bind (hplan.failsOnlyWith_verifyCandidate hgranule hvalid hcache)
    intro next hnext
    obtain ⟨_, -, hadds, -⟩ := verifyCandidate_adds hplan.serves hroom hcache hnext
    split
    · exact failsOnlyWith_ok _
    · rename_i hgoes
      rw [Option.isSome_iff_ne_none, not_not] at hgoes
      exact ih hcandidates (hadds.every hgoes).2 hadds.cache

end VerificationPlan

/-! ## Queries -/

section Queries

variable {query : String} {options : SearchOptions}

theorem failsOnlyWith_insertQueryKeys {maxQueryTerms : Nat} {rest keys : List (List UInt8)} :
    FailsOnlyWith .resourceLimitExceeded (insertQueryKeys maxQueryTerms rest keys) := by
  induction rest generalizing keys with
  | nil => exact failsOnlyWith_ok _
  | cons key rest ih =>
    rw [insertQueryKeys]
    split
    · apply failsOnlyWith_bind (failsOnlyWith_usizeToU64 _)
      intro count _
      exact failsOnlyWith_bind (failsOnlyWith_rejectIf _) fun _ _ => ih
    · exact ih

theorem failsOnlyWith_validateQueryBytes :
    FailsOnlyWith .resourceLimitExceeded (validateQueryBytes query options) :=
  failsOnlyWith_bind (failsOnlyWith_usizeToU64 _) fun _ _ => failsOnlyWith_rejectIf _

theorem failsOnlyWith_uniqueQueryKeys :
    FailsOnlyWith .resourceLimitExceeded (uniqueQueryKeys query options) :=
  failsOnlyWith_bind failsOnlyWith_validateQueryBytes fun _ _ => failsOnlyWith_insertQueryKeys

theorem failsOnlyWith_ngramKeysForQuery {n : Nat} :
    FailsOnlyWith .resourceLimitExceeded (ngramKeysForQuery query n options) := by
  apply failsOnlyWith_bind failsOnlyWith_validateQueryBytes
  intro _ _
  apply failsOnlyWith_bind (failsOnlyWith_rejectIf _)
  intro _ _
  split
  · exact failsOnlyWith_ok _
  · exact failsOnlyWith_insertQueryKeys

theorem failsOnlyWith_lookupKeys {terms : List TermDictionaryEntry} {amount : Nat → Nat}
    {keys : List (List UInt8)} {found : KeyLookup} :
    FailsOnlyWith .resourceLimitExceeded (lookupKeys terms amount keys found) := by
  induction keys generalizing found with
  | nil => exact failsOnlyWith_ok _
  | cons key keys ih =>
    rw [lookupKeys]
    split
    · exact failsOnlyWith_ok _
    · exact failsOnlyWith_bind (failsOnlyWith_okOr _ _) fun _ _ => ih

theorem failsOnlyWith_sumChecked {α : Type} {amount : α → Result Nat} {items : List α}
    (hamount : ∀ item, FailsOnlyWith .resourceLimitExceeded (amount item)) {total : Nat} :
    FailsOnlyWith .resourceLimitExceeded (sumChecked amount items total) := by
  induction items generalizing total with
  | nil => exact failsOnlyWith_ok _
  | cons item items ih =>
    apply failsOnlyWith_bind (hamount item)
    intro added _
    exact failsOnlyWith_bind (failsOnlyWith_okOr _ _) fun _ _ => ih

theorem failsOnlyWith_checkRawPostingBudget {indexes : List Nat} {postings : List (List Nat)}
    {encoded : List (List UInt8)} : FailsOnlyWith .resourceLimitExceeded
      (checkRawPostingBudget indexes postings encoded options) := by
  have hloop : ∀ bytes ids, FailsOnlyWith .resourceLimitExceeded
      (postingBudgetLoop postings encoded options indexes bytes ids) := by
    induction indexes with
    | nil => exact fun _ _ => failsOnlyWith_ok _
    | cons index indexes ih =>
      intro bytes ids
      apply failsOnlyWith_bind (failsOnlyWith_usizeToU64 _)
      intro size _
      apply failsOnlyWith_bind (failsOnlyWith_okOr _ _)
      intro nextBytes _
      apply failsOnlyWith_bind (failsOnlyWith_usizeToU64 _)
      intro count _
      apply failsOnlyWith_bind (failsOnlyWith_okOr _ _)
      intro nextIds _
      exact failsOnlyWith_bind (failsOnlyWith_rejectIf _) fun _ _ => ih _ _
  exact hloop 0 0

theorem RawNgramIndex.failsOnlyWith_reportedPostingBytesRead (self : RawNgramIndex)
    (termIndex : Nat) :
    FailsOnlyWith .resourceLimitExceeded (self.reportedPostingBytesRead termIndex) := by
  rw [reportedPostingBytesRead]
  split
  · exact failsOnlyWith_ok _
  · apply failsOnlyWith_bind (failsOnlyWith_usizeToU64 _)
    intro bytes _
    exact failsOnlyWith_bind (failsOnlyWith_okOr _ _) fun _ _ => failsOnlyWith_ok _

end Queries

/-! ## Whole searches -/

/-- What a search relies on: the posting lists are in order and name granules, and every granule
is a range of the text with the chunks it needs. -/
structure Searchable (entries : List ChunkEntry) (originalSize : Nat)
    (granules : List SearchGranule) (postings : List (List Nat)) : Prop where
  increasing : ∀ list ∈ postings, list.Pairwise (· < ·)
  ids : ∀ list ∈ postings, ∀ id ∈ list, id < granules.length
  count : granules.length < 2 ^ 64
  spans : ∀ granule ∈ granules,
    validateGranuleChunkSpan granule entries originalSize = .ok ⟨⟩

section Searches

variable {details : SkeletonDetails} {granules : List SearchGranule} {postings : List (List Nat)}
  {readRangeCached : RangeRead} {options : SearchOptions} {text : List UInt8}

/-- A granule that is looked up by a valid id. -/
theorem Searchable.granule (h : Searchable details.chunkEntries details.summary.originalSize
    granules postings) {id : Nat} (hid : id < granules.length) :
    granules[id]? = some granules[id] ∧ validateGranuleChunkSpan granules[id]
      details.chunkEntries details.summary.originalSize = .ok ⟨⟩ :=
  ⟨List.getElem?_eq_getElem hid, h.spans _ (List.getElem_mem hid)⟩

theorem failsOnlyWith_countCovered {spans : List (Nat × Nat)} {total coveredEnd : Nat} :
    FailsOnlyWith .resourceLimitExceeded (countCovered spans total coveredEnd) := by
  induction spans generalizing total coveredEnd with
  | nil => exact failsOnlyWith_ok _
  | cons span spans ih =>
    obtain ⟨start, stop⟩ := span
    rw [countCovered]
    split
    · exact failsOnlyWith_bind (failsOnlyWith_okOr _ _) fun _ _ => ih
    · exact ih

/-- The chunks of candidates with validated granules are counted. -/
theorem Searchable.failsOnlyWith_countCandidateChunks
    (h : Searchable details.chunkEntries details.summary.originalSize granules postings)
    {candidates : List Nat} (hcandidates : ∀ id ∈ candidates, id < granules.length) :
    FailsOnlyWith .resourceLimitExceeded (countCandidateChunks granules candidates
      details.chunkEntries details.summary.originalSize) := by
  have hcount := h.count
  rw [countCandidateChunks, countChunkSpans]
  have hcollect := @collect_of_forall QztError _ _ (fun item => do
      let found ← (do
        let granuleIndex ← u64ToUsize item
        let granule ← okOr .containerCorrupt granules[granuleIndex]?
        validateGranuleChunkSpan granule details.chunkEntries details.summary.originalSize
        return granule : Result SearchGranule)
      rejectIf (found.chunkStart ≥ found.chunkEnd) .chunkTableInvalid
      return (found.chunkStart, found.chunkEnd))
    (fun id => ((granules[id]?.map fun granule => (granule.chunkStart, granule.chunkEnd)).getD
      (0, 0))) candidates ?_
  · rw [hcollect, ok_bind]
    exact failsOnlyWith_countCovered
  · intro id hid
    have hlt := hcandidates id hid
    obtain ⟨hget, hvalid⟩ := h.granule hlt
    have hordered := hvalid
    rw [validateGranuleChunkSpan] at hordered
    obtain ⟨_, -, hordered⟩ := bind_eq_ok_iff.mp hordered
    obtain ⟨_, hspan, -⟩ := bind_eq_ok_iff.mp hordered
    rw [rejectIf_eq_ok_iff, not_or] at hspan
    rw [u64ToUsize_of_lt (by omega), ok_bind, hget, okOr_some, ok_bind, hvalid, ok_bind,
      pure_eq_ok, ok_bind, rejectIf_of_not hspan.1, ok_bind]
    rfl

/-- The end of the two searches in memory. -/
theorem Searchable.failsOnlyWith_searchCandidates
    (h : Searchable details.chunkEntries details.summary.originalSize granules postings)
    {complete : Bool} {lists : List (List Nat)} (hlists : ∀ list ∈ lists, list = [] ∨ list ∈ postings)
    {spansFor : SpanMatcher} {tokenBoundaries : Bool} {metrics : SearchMetrics}
    {planner : PlannerDecision} {all : List UInt8 → Bool → Bool → List TokenSpan}
    (hplan : (memoryPlan granules details spansFor tokenBoundaries readRangeCached
      options).Decodes text all) :
    FailsOnlyWith .resourceLimitExceeded (searchCandidates granules complete details lists spansFor
      tokenBoundaries readRangeCached metrics planner options) := by
  rw [searchCandidates]
  apply failsOnlyWith_bind failsOnlyWith_intersectPostings
  intro candidates hcandidates
  -- A candidate is in every list, and there is none where there are no lists.
  have hids : ∀ id ∈ candidates, id < granules.length := by
    intro id hid
    cases lists with
    | nil =>
      obtain rfl := Except.ok.inj hcandidates
      exact absurd hid List.not_mem_nil
    | cons list lists =>
      have hincreasing : ∀ other ∈ list :: lists, other.Pairwise (· < ·) := by
        intro other hother
        rcases hlists other hother with rfl | hmem
        · exact List.Pairwise.nil
        · exact h.increasing other hmem
      obtain ⟨-, hmem⟩ := intersectPostings_eq_ok (List.cons_ne_nil _ _) hincreasing hcandidates
      have hfirst := (hmem id).mp hid list List.mem_cons_self
      rcases hlists list List.mem_cons_self with rfl | hlist
      · exact absurd hfirst List.not_mem_nil
      · exact h.ids list hlist id hfirst
  apply failsOnlyWith_bind (failsOnlyWith_usizeToU64 _)
  intro candidateGranules _
  apply failsOnlyWith_bind (h.failsOnlyWith_countCandidateChunks hids)
  intro candidateChunks _
  dsimp only
  split
  · exact failsOnlyWith_ok _
  · split
    · exact failsOnlyWith_ok _
    · rename_i hresults
      apply failsOnlyWith_bind
      · refine hplan.failsOnlyWith_verifyLoop (fun id hid => ?_) (Nat.pos_of_ne_zero hresults)
          (ChunkDecodeCache.holds_new _ _)
        have hlt := hids id hid
        have hcount := h.count
        obtain ⟨hget, hvalid⟩ := h.granule hlt
        refine ⟨granules[id], ?_, hvalid⟩
        change (u64ToUsize id >>= fun granuleIndex =>
          okOr QztError.containerCorrupt granules[granuleIndex]?) = _
        rw [u64ToUsize_of_lt (by omega), ok_bind, hget, okOr_some]
      · intro verification _
        exact failsOnlyWith_bind (failsOnlyWith_usizeToU64 _) fun _ _ => failsOnlyWith_ok _

/-- The lists that a search selects are posting lists; an index behind the last one has none. -/
theorem eq_nil_or_mem_of_getD {indexes : List Nat} :
    ∀ list ∈ indexes.map fun index => postings.getD index [], list = [] ∨ list ∈ postings := by
  intro list hlist
  obtain ⟨index, -, rfl⟩ := List.mem_map.mp hlist
  rcases Nat.lt_or_ge index postings.length with hlt | hge
  · rw [List.getD_eq_getElem _ _ hlt]
    exact .inr (List.getElem_mem hlt)
  · exact .inl (List.getD_eq_default _ _ hge)

/-- The chunks of the text that the reads of a search are for all decode. -/
structure DecodesText (details : SkeletonDetails) (text : List UInt8)
    (readRangeCached : RangeRead) : Prop where
  size : text.length = details.summary.originalSize
  reads : ∃ decode, CutsInto details.chunkEntries decode text ∧
    ReadsChunksOf details decode readRangeCached ∧
    ∀ entry ∈ details.chunkEntries, ∃ part, decode entry = .ok part

theorem DecodesText.plan (h : DecodesText details text readRangeCached)
    {spansFor : SpanMatcher} {tokenBoundaries : Bool}
    {all : List UInt8 → Bool → Bool → List TokenSpan}
    (hspans : ∀ bytes limit left right, spansFor bytes limit left right =
      (all bytes left right).take limit)
    (hinside : ∀ {bytes : List UInt8} {left right : Bool} {span : TokenSpan},
      span ∈ all bytes left right → span.start < bytes.length) :
    (memoryPlan granules details spansFor tokenBoundaries readRangeCached options).Decodes text
      all := by
  obtain ⟨decode, hcuts, hreads, hdecodes⟩ := h.reads
  have hagrees := originalText_agrees hcuts.layout hcuts.length
  have hlayout := hcuts.layout
  rw [hcuts.text] at hagrees
  rw [h.size] at hlayout
  refine ⟨hlayout, memoryPlan_serves hcuts h.size hreads hspans, ?_, hinside⟩
  intro offset length cache hcache hrange
  have hread : (memoryPlan granules details spansFor tokenBoundaries readRangeCached
    options).readRangeCached offset length cache = _ := hreads offset length cache
  rw [hread]
  exact failsOnlyWith_readRangeFromEntriesCached hlayout hagrees h.size hdecodes hcache hrange

/-- A token search over such an index fails only for a limit. -/
theorem RawTokenIndex.failsOnlyWith_searchImpl {index : RawTokenIndex} {query : String}
    (hindex : Searchable details.chunkEntries details.summary.originalSize index.granules
      index.postings) (htext : DecodesText details text readRangeCached) :
    FailsOnlyWith .resourceLimitExceeded
      (index.searchImpl details query options readRangeCached) := by
  rw [searchImpl]
  apply failsOnlyWith_bind failsOnlyWith_uniqueQueryKeys
  intro queryKeys _
  apply failsOnlyWith_bind (failsOnlyWith_usizeToU64 _)
  intro termLookups _
  dsimp only
  split
  · exact failsOnlyWith_ok _
  · apply failsOnlyWith_bind failsOnlyWith_lookupKeys
    intro found _
    split
    · exact failsOnlyWith_ok _
    · apply failsOnlyWith_bind failsOnlyWith_checkRawPostingBudget
      intro _ _
      exact hindex.failsOnlyWith_searchCandidates eq_nil_or_mem_of_getD
        (htext.plan (fun bytes limit left right => verifiedSpans_eq bytes queryKeys limit left right)
          start_lt_of_mem_tokenSpans)

/-- An n-gram search over such an index fails only for a limit. -/
theorem RawNgramIndex.failsOnlyWith_searchImpl {index : RawNgramIndex} {query : String}
    (hindex : Searchable details.chunkEntries details.summary.originalSize index.granules
      index.postings) (htext : DecodesText details text readRangeCached) :
    FailsOnlyWith .resourceLimitExceeded
      (index.searchImpl details query options readRangeCached) := by
  rw [searchImpl]
  apply failsOnlyWith_bind failsOnlyWith_ngramKeysForQuery
  intro queryKeys _
  apply failsOnlyWith_bind (failsOnlyWith_usizeToU64 _)
  intro termLookups _
  dsimp only
  split
  · exact failsOnlyWith_ok _
  · apply failsOnlyWith_bind failsOnlyWith_lookupKeys
    intro found _
    split
    · exact failsOnlyWith_ok _
    · apply failsOnlyWith_bind
        (failsOnlyWith_sumChecked index.failsOnlyWith_reportedPostingBytesRead)
      intro postingBytesRead _
      apply failsOnlyWith_bind failsOnlyWith_checkRawPostingBudget
      intro _ _
      have hspans : ∀ (bytes : List UInt8) (limit : Nat) (left right : Bool),
          substringSpans bytes (textBytes query) limit =
            ((fun bytes (_ _ : Bool) => occurrenceSpans bytes (textBytes query)) bytes left
              right).take limit :=
        fun bytes limit _ _ => substringSpans_eq bytes (textBytes query) limit
      exact hindex.failsOnlyWith_searchCandidates eq_nil_or_mem_of_getD
        (htext.plan hspans start_lt_of_mem_occurrenceSpans)

end Searches

end Qzt
