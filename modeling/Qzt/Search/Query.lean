import Qzt.Search.Matching

/-!
# Search (`search.rs`)

A search intersects the posting lists of its keys, reads the candidate granules of the
container and keeps the spans that the original bytes confirm.
-/

namespace Qzt

open Foundation

/-! ## Reports -/

/-- `SearchHit`. -/
structure SearchHit where
  logicalOffset : Nat
  byteLength : Nat
  chunkStart : Nat
  chunkEnd : Nat
  source : String := "verified_original_bytes"
  deriving DecidableEq, Repr

/-- `PlannerDecision`. -/
structure PlannerDecision where
  requiredKeys : List (List UInt8)
  selectedKeys : List (List UInt8) := []
  missingKeys : List (List UInt8) := []
  highDfKeys : List (List UInt8) := []
  usedSkipData : Bool := false
  deriving DecidableEq, Repr

/-- `SearchMetrics`. -/
structure SearchMetrics where
  query : String
  indexKind : String
  postingGranularity : String := "line"
  indexSizeBytes : Nat
  sourceSizeBytes : Nat
  termLookups : Nat := 0
  postingBytesRead : Nat := 0
  candidateGranules : Nat := 0
  candidateChunks : Nat := 0
  decodedBytes : Nat := 0
  physicalDecodedBytes : Nat := 0
  physicalDecodedChunks : Nat := 0
  verifiedMatches : Nat := 0
  deriving DecidableEq, Repr

/-- `SearchReport`. -/
structure SearchReport where
  hits : List SearchHit
  metrics : SearchMetrics
  capped : Bool
  stopReason : Option String
  indexCompleteDeclared : Bool
  indexCoverageVerified : Bool
  planner : PlannerDecision
  incompleteReason : Option String
  deriving DecidableEq, Repr

/-- `early_exit_report`. -/
def earlyExitReport (metrics : SearchMetrics) (planner : PlannerDecision)
    (stopReason incompleteReason : Option String) (indexCompleteDeclared : Bool) : SearchReport where
  hits := []
  metrics := metrics
  capped := stopReason.isSome
  stopReason := stopReason
  indexCompleteDeclared := indexCompleteDeclared
  indexCoverageVerified := false
  planner := planner
  incompleteReason := incompleteReason

/-! ## Sizes -/

/-- `serialized_granule_bytes`. -/
def serializedGranuleBytes (granules : List SearchGranule) : Nat :=
  let recordLen := if compactLineGranulesSupported 0 granules then 20 else 56
  saturatingAdd 8 (saturatingMul granules.length recordLen)

/-- `index_size_bytes`. -/
def indexSizeBytes (granules : List SearchGranule) (terms : List TermDictionaryEntry)
    (encodedPostings : List (List UInt8)) : Nat :=
  let termBytes := saturatingAdd 8 (terms.map fun term =>
    saturatingAdd (saturatingAdd (saturatingAdd term.key.length (varuintLen term.key.length))
      (varuintLen term.granuleFrequency)) (varuintLen term.postingSize)).sum
  let postingBytes := (encodedPostings.map List.length).sum
  saturatingAdd (saturatingAdd (serializedGranuleBytes granules) termBytes) postingBytes

/-- The second loop of `count_chunk_spans`, over the sorted spans. -/
def countCovered : List (Nat × Nat) → Nat → Nat → Result Nat
  | [], total, _ => .ok total
  | (start, stop) :: spans, total, coveredEnd =>
    let uncoveredStart := max start coveredEnd
    if stop > uncoveredStart then do
      let total ← okOr .resourceLimitExceeded (checkedAdd total (stop - uncoveredStart))
      countCovered spans total stop
    else
      countCovered spans total coveredEnd

/-- `count_chunk_spans`, with the access to the granules. -/
def countChunkSpans {α : Type} (granule : α → Result SearchGranule) (items : List α) :
    Result Nat := do
  let spans ← collect (fun item => do
    let found ← granule item
    rejectIf (found.chunkStart ≥ found.chunkEnd) .chunkTableInvalid
    return (found.chunkStart, found.chunkEnd)) items
  countCovered (spans.mergeSort fun a b => decide (a.1 ≤ b.1)) 0 0

/-- `count_candidate_chunks`. -/
def countCandidateChunks (granules : List SearchGranule) (candidates : List Nat)
    (entries : List ChunkEntry) (originalSize : Nat) : Result Nat :=
  countChunkSpans (fun granuleId => do
    let granuleIndex ← u64ToUsize granuleId
    let granule ← okOr .containerCorrupt granules[granuleIndex]?
    validateGranuleChunkSpan granule entries originalSize
    return granule) candidates

/-- `count_chunks`. -/
def countChunks (granules : List SearchGranule) : Result Nat :=
  countChunkSpans .ok granules

/-! ## Verification of candidates -/

/-- `RangeReadFn`. -/
abbrev RangeRead := Nat → Nat → ChunkDecodeCache → Result (List UInt8 × ChunkDecodeCache)

/-- `SpanMatcher`. -/
abbrev SpanMatcher := List UInt8 → Nat → Bool → Bool → List TokenSpan

/-- The state of the loop of `verify_candidates`, from which the `CandidateVerification` is read. -/
structure CandidateVerification where
  hits : List SearchHit := []
  stopReason : Option String := none
  decodedBytes : Nat := 0
  cache : ChunkDecodeCache := .new
  deriving DecidableEq, Repr

/-- What the loop of `verify_candidates` uses and does not change. -/
structure VerificationPlan where
  entries : List ChunkEntry
  originalSize : Nat
  granuleAt : Nat → Result SearchGranule
  readRangeCached : RangeRead
  spansFor : SpanMatcher
  tokenBoundaries : Bool
  options : SearchOptions

namespace VerificationPlan

variable (plan : VerificationPlan)

/-- The limits on a chunk span, given what the cache holds. -/
def spanLimit (cache : ChunkDecodeCache) (span : Nat × Nat) : Result (Option String) :=
  cache.searchLimitForSpan plan.entries span.1 span.2 plan.options.maxPhysicalDecodedBytes
    plan.options.maxPhysicalDecodedChunks

/-- The probe of the byte behind a granule that ends in a token byte: whether it continues the
token. -/
def probeRight (granuleEnd : Nat) (state : CandidateVerification) :
    Result (Bool × CandidateVerification) := do
  let nextDecoded ← okOr .resourceLimitExceeded (checkedAdd state.decodedBytes 1)
  if nextDecoded > plan.options.maxDecodedBytes then
    return (false, { state with stopReason := some "max_decoded_bytes" })
  else
    let stop ← okOr .logicalRangeOutOfBounds (checkedAdd granuleEnd 1)
    let span ← chunkSpanForRange plan.entries granuleEnd stop
    match ← plan.spanLimit state.cache span with
    | some reason => return (false, { state with stopReason := some reason })
    | none =>
      let (byte, cache) ← plan.readRangeCached granuleEnd 1 state.cache
      return (byte.head?.any isTokenByte, { state with decodedBytes := nextDecoded, cache })

/-- The probe, where token boundaries matter and the granule may cut a token. -/
def continuesRight (original : List UInt8) (granuleEnd : Nat) (state : CandidateVerification) :
    Result (Bool × CandidateVerification) :=
  if plan.tokenBoundaries = true ∧ original.getLast?.any isTokenByte = true ∧
      granuleEnd < plan.originalSize then
    plan.probeRight granuleEnd state
  else
    .ok (false, state)

/-- The span loop: one hit for each span, up to the limit on results. -/
def pushHits (granule : SearchGranule) :
    List TokenSpan → CandidateVerification → Result CandidateVerification
  | [], state => .ok state
  | span :: spans, state => do
    let spanOffset ← usizeToU64 span.start
    let spanLen ← usizeToU64 (span.stop - span.start)
    let logicalOffset ← okOr .logicalRangeOutOfBounds
      (checkedAdd granule.logicalOffset spanOffset)
    let hits := state.hits ++ [{ logicalOffset, byteLength := spanLen,
                                 chunkStart := granule.chunkStart, chunkEnd := granule.chunkEnd }]
    if (← usizeToU64 hits.length) ≥ plan.options.maxSearchResults then
      return { state with hits, stopReason := some "max_search_results" }
    else
      pushHits granule spans { state with hits }

/-- The granule is decoded: `decoded` starts at `readStart`. -/
def matchGranule (granule : SearchGranule) (granuleEnd readStart : Nat) (decoded : List UInt8)
    (state : CandidateVerification) : Result CandidateVerification := do
  let start ← u64ToUsize (granule.logicalOffset - readStart)
  let original ← okOr .containerCorrupt (getRange? decoded start decoded.length)
  let leftContinues := decide (start > 0) && decoded[start - 1]?.any isTokenByte
  let (rightContinues, state) ← plan.continuesRight original granuleEnd state
  if state.stopReason.isSome then return state
  else
    let remaining := plan.options.maxSearchResults - (← usizeToU64 state.hits.length)
    plan.pushHits granule (plan.spansFor original remaining leftContinues rightContinues) state

/-- Where the read of a granule starts: at the byte before it, where token boundaries matter. -/
def readStart (granule : SearchGranule) : Nat :=
  if plan.tokenBoundaries then granule.logicalOffset - 1 else granule.logicalOffset

/-- The chunks that the read of a granule needs. -/
def readSpan (granule : SearchGranule) (granuleEnd : Nat) : Result (Nat × Nat) :=
  if plan.tokenBoundaries then chunkSpanForRange plan.entries (plan.readStart granule) granuleEnd
  else .ok (granule.chunkStart, granule.chunkEnd)

/-- One round of the loop of `verify_candidates`. -/
def verifyCandidate (granuleId : Nat) (state : CandidateVerification) :
    Result CandidateVerification := do
  let granule ← plan.granuleAt granuleId
  let granuleEnd ← okOr .logicalRangeOutOfBounds
    (checkedAdd granule.logicalOffset granule.byteLength)
  let readLength ← okOr .logicalRangeOutOfBounds (checkedSub granuleEnd (plan.readStart granule))
  let nextDecoded ← okOr .resourceLimitExceeded (checkedAdd state.decodedBytes readLength)
  if nextDecoded > plan.options.maxDecodedBytes then
    return { state with stopReason := some "max_decoded_bytes" }
  else
    let span ← plan.readSpan granule granuleEnd
    match ← plan.spanLimit state.cache span with
    | some reason => return { state with stopReason := some reason }
    | none =>
      let (decoded, cache) ← plan.readRangeCached (plan.readStart granule) readLength state.cache
      plan.matchGranule granule granuleEnd (plan.readStart granule) decoded
        { state with decodedBytes := nextDecoded, cache }

/-- The loop of `verify_candidates`. -/
def verifyLoop : List Nat → CandidateVerification → Result CandidateVerification
  | [], state => .ok state
  | granuleId :: candidates, state => do
    let state ← plan.verifyCandidate granuleId state
    if state.stopReason.isSome then return state
    else verifyLoop candidates state

/-- `verify_candidates`. -/
def verifyCandidates (candidates : List Nat) : Result CandidateVerification :=
  plan.verifyLoop candidates {}

end VerificationPlan

/-- The report that ends a search. -/
def verifiedReport (verification : CandidateVerification) (metrics : SearchMetrics)
    (planner : PlannerDecision) (complete : Bool) : Result SearchReport := do
  let verifiedMatches ← usizeToU64 verification.hits.length
  return { hits := verification.hits
           metrics := { metrics with decodedBytes := verification.decodedBytes
                                     physicalDecodedBytes := verification.cache.physicalDecodedBytes
                                     physicalDecodedChunks := verification.cache.decodedChunks
                                     verifiedMatches }
           capped := verification.stopReason.isSome
           stopReason := verification.stopReason
           indexCompleteDeclared := complete
           indexCoverageVerified := false
           planner
           incompleteReason := none }

/-! ## Search in an index -/

/-- What the lookup of the query keys found. -/
structure KeyLookup where
  missing : Option (List UInt8) := none
  indexes : List Nat := []
  postingBytesRead : Nat := 0
  deriving DecidableEq, Repr

/-- The lookup loop over the query keys.  It ends at the first missing key, and charges `amount`
for every key before. -/
def lookupKeys (terms : List TermDictionaryEntry) (amount : Nat → Nat) :
    List (List UInt8) → KeyLookup → Result KeyLookup
  | [], found => .ok found
  | key :: keys, found =>
    match termIndexForKey terms key with
    | none => .ok { found with missing := some key }
    | some index => do
      let postingBytesRead ← okOr .resourceLimitExceeded
        (checkedAdd found.postingBytesRead (amount index))
      lookupKeys terms amount keys { found with indexes := found.indexes ++ [index], postingBytesRead }

/-- The reason that an index without a required key gives. -/
def missingKeyReason (complete : Bool) : Option String :=
  if complete then none else some "missing_required_key_in_incomplete_index"

/-- Amounts that are added with a check. -/
def sumChecked {α : Type} (amount : α → Result Nat) : List α → Nat → Result Nat
  | [], total => .ok total
  | item :: items, total => do
    let total ← okOr .resourceLimitExceeded (checkedAdd total (← amount item))
    sumChecked amount items total

/-- The key of the term at a position. -/
def keyAt (terms : List TermDictionaryEntry) (index : Nat) : List UInt8 :=
  (terms[index]?.map TermDictionaryEntry.key).getD []

/-- The granule frequency of the term at a position. -/
def granuleFrequencyAt (terms : List TermDictionaryEntry) (index : Nat) : Nat :=
  (terms[index]?.map TermDictionaryEntry.granuleFrequency).getD 0

/-- The posting size of the term at a position. -/
def postingSizeAt (terms : List TermDictionaryEntry) (index : Nat) : Nat :=
  (terms[index]?.map TermDictionaryEntry.postingSize).getD 0

/-- The end of the two searches in memory, from the intersection on.  `lists` are the posting
lists of the selected terms. -/
def searchCandidates (granules : List SearchGranule) (complete : Bool) (details : SkeletonDetails)
    (lists : List (List Nat)) (spansFor : SpanMatcher) (tokenBoundaries : Bool)
    (readRangeCached : RangeRead) (metrics : SearchMetrics) (planner : PlannerDecision)
    (options : SearchOptions) : Result SearchReport := do
  let candidates ← intersectPostings lists options.maxPostingWork
  let candidateGranules ← usizeToU64 candidates.length
  let candidateChunks ← countCandidateChunks granules candidates details.chunkEntries
    details.summary.originalSize
  let metrics := { metrics with candidateGranules, candidateChunks }
  if candidateGranules > options.maxCandidateGranules then
    return earlyExitReport metrics planner (some "max_candidate_granules") none complete
  else if options.maxSearchResults = 0 then
    return earlyExitReport metrics planner (some "max_search_results") none complete
  else
    let verification ← VerificationPlan.verifyCandidates
      { entries := details.chunkEntries
        originalSize := details.summary.originalSize
        granuleAt := fun granuleId => do
          let granuleIndex ← u64ToUsize granuleId
          okOr .containerCorrupt granules[granuleIndex]?
        readRangeCached, spansFor, tokenBoundaries, options } candidates
    verifiedReport verification metrics planner complete

/-- `RawTokenIndex::search_impl`. -/
def RawTokenIndex.searchImpl (self : RawTokenIndex) (details : SkeletonDetails) (query : String)
    (options : SearchOptions) (readRangeCached : RangeRead) : Result SearchReport := do
  let queryKeys ← uniqueQueryKeys query options
  let planner : PlannerDecision := { requiredKeys := queryKeys }
  let termLookups ← usizeToU64 queryKeys.length
  let metrics : SearchMetrics :=
    { query, indexKind := "token", sourceSizeBytes := self.sourceSizeBytes, termLookups
      indexSizeBytes := indexSizeBytes self.granules self.terms self.encodedPostings }
  if queryKeys = [] then
    return earlyExitReport metrics planner none (some "query_has_no_indexable_tokens") self.complete
  else
    let found ← lookupKeys self.terms (postingSizeAt self.terms) queryKeys {}
    let metrics := { metrics with postingBytesRead := found.postingBytesRead }
    match found.missing with
    | some key =>
      return earlyExitReport metrics { planner with missingKeys := [key] } none
        (missingKeyReason self.complete) self.complete
    | none =>
      checkRawPostingBudget found.indexes self.postings self.encodedPostings options
      let indexes := found.indexes.mergeSort fun left right =>
        decide ((self.postings.getD left []).length ≤ (self.postings.getD right []).length)
      searchCandidates self.granules self.complete details
        (indexes.map fun index => self.postings.getD index [])
        (fun decoded limit left right => verifiedSpans decoded queryKeys limit left right) true
        readRangeCached metrics { planner with selectedKeys := indexes.map (keyAt self.terms) }
        options

/-- `is_high_df`; the product of a `u64` with a million is a `u128`. -/
def isHighDf (granuleCount highDfPerMillion granuleFrequency : Nat) : Bool :=
  decide (granuleFrequency * 1000000 / max granuleCount 1 ≥ highDfPerMillion)

/-- The order in which an n-gram search intersects: rare terms first, `false` before `true`. -/
def rarestFirst (high : Nat → Bool) (frequency : Nat → Nat) (left right : Nat) : Bool :=
  match high left, high right with
  | false, true => true
  | true, false => false
  | _, _ => decide (frequency left ≤ frequency right)

/-- `RawNgramIndex::is_high_df`. -/
def RawNgramIndex.isHighDf (self : RawNgramIndex) (termIndex : Nat) : Bool :=
  Qzt.isHighDf self.granules.length self.plannerConfig.highDfPerMillion
    (granuleFrequencyAt self.terms termIndex)

/-- `RawNgramIndex::reported_posting_bytes_read`. -/
def RawNgramIndex.reportedPostingBytesRead (self : RawNgramIndex) (termIndex : Nat) :
    Result Nat := do
  let skips := self.skipData.getD termIndex []
  if skips = [] then return postingSizeAt self.terms termIndex
  else
    let skipProbeBytes ← okOr .resourceLimitExceeded
      (checkedAdd (← usizeToU64 (saturatingMul skips.length 24)) 16)
    return min skipProbeBytes (postingSizeAt self.terms termIndex)

/-- `RawNgramIndex::search_impl`. -/
def RawNgramIndex.searchImpl (self : RawNgramIndex) (details : SkeletonDetails) (query : String)
    (options : SearchOptions) (readRangeCached : RangeRead) : Result SearchReport := do
  let queryKeys ← ngramKeysForQuery query self.declaration.n options
  let planner : PlannerDecision := { requiredKeys := queryKeys }
  let termLookups ← usizeToU64 queryKeys.length
  let metrics : SearchMetrics :=
    { query, indexKind := "ngram", sourceSizeBytes := self.sourceSizeBytes, termLookups
      indexSizeBytes := indexSizeBytes self.granules self.terms self.encodedPostings }
  if queryKeys = [] then
    return earlyExitReport metrics planner none (some "query_shorter_than_ngram_n") self.complete
  else
    let found ← lookupKeys self.terms (fun _ => 0) queryKeys {}
    match found.missing with
    | some key =>
      return earlyExitReport metrics { planner with missingKeys := [key] } none
        (missingKeyReason self.complete) self.complete
    | none =>
      let indexes := found.indexes.mergeSort
        (rarestFirst self.isHighDf (granuleFrequencyAt self.terms))
      let planner := { planner with
        highDfKeys := (indexes.filter self.isHighDf).map (keyAt self.terms)
        usedSkipData := indexes.any fun index => self.skipData.getD index [] ≠ []
        selectedKeys := indexes.map (keyAt self.terms) }
      let postingBytesRead ← sumChecked self.reportedPostingBytesRead indexes 0
      checkRawPostingBudget indexes self.postings self.encodedPostings options
      searchCandidates self.granules self.complete details
        (indexes.map fun index => self.postings.getD index [])
        (fun decoded limit _ _ => substringSpans decoded (textBytes query) limit) false
        readRangeCached { metrics with postingBytesRead } planner options

/-! ## Searches of the two readers -/

/-- `RawTokenIndex::search`. -/
def RawTokenIndex.search (env : Env) (self : RawTokenIndex) (reader : QztReader) (query : String)
    (options : SearchOptions) : Result SearchReport :=
  self.searchImpl reader.details query options (reader.readRangeCached env)

/-- `RawTokenIndex::search_file`. -/
def RawTokenIndex.searchFile (env : Env) (self : RawTokenIndex) (reader : QztFileReader)
    (query : String) (options : SearchOptions) : Result SearchReport :=
  self.searchImpl reader.details query options (reader.readRangeCached env)

/-- `RawNgramIndex::search`. -/
def RawNgramIndex.search (env : Env) (self : RawNgramIndex) (reader : QztReader) (query : String)
    (options : SearchOptions) : Result SearchReport :=
  self.searchImpl reader.details query options (reader.readRangeCached env)

/-- `RawNgramIndex::search_file`. -/
def RawNgramIndex.searchFile (env : Env) (self : RawNgramIndex) (reader : QztFileReader)
    (query : String) (options : SearchOptions) : Result SearchReport :=
  self.searchImpl reader.details query options (reader.readRangeCached env)

end Qzt
