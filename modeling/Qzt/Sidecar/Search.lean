import Qzt.Search.Query
import Qzt.Sidecar.Open

/-!
# Searches in a sidecar (`sidecar.rs`)

The decoded sidecar hands its queries to the index it restored.  The file-backed one
fetches the posting lists of the query terms, and the granule records of the candidates,
from its source.
-/

namespace Qzt.Sidecar

open Foundation

/-- `QziSidecar::search`. -/
def QziSidecar.search (env : Env) (self : QziSidecar) (reader : QztReader) (query : String)
    (options : SearchOptions) : Result SearchReport := do
  validateReaderBinding self.manifest reader.details (← reader.footerChecksum env)
  match self.index with
  | .token index => index.search env reader query options
  | .ngram index => index.search env reader query options

/-! ## The file-backed sidecar -/

namespace QziFileSidecar

variable (self : QziFileSidecar)

/-- `QziFileSidecar::is_high_df`. -/
def isHighDf (termIndex : Nat) : Bool :=
  Qzt.isHighDf self.granuleCount self.manifest.highDfPerMillion
    (granuleFrequencyAt self.terms termIndex)

/-- `QziFileSidecar::fetch_postings`. -/
def fetchPostings (termIndex maxIds : Nat) : Result (List Nat) := do
  let term ← okOr .containerCorrupt self.terms[termIndex]?
  rejectIf (term.postingSize > self.limits.maxPostingListSize) .resourceLimitExceeded
  let base ← okOr .resourceLimitExceeded
    (checkedAdd self.sectionBase self.manifest.postings.offset)
  let offset ← okOr .resourceLimitExceeded (checkedAdd base term.postingOffset)
  let bytes ← readVec self.source offset term.postingSize
  let postings ← decodeDeltaVarintU64WithLimit bytes maxIds
  rejectIf ((← usizeToU64 postings.length) ≠ term.granuleFrequency) .containerCorrupt
  rejectIf (∃ granuleId ∈ postings, granuleId ≥ self.granuleCount) .containerCorrupt
  return postings

/-- `QziFileSidecar::fetch_granule`. -/
def fetchGranule (granuleId : Nat) (entries : List ChunkEntry) : Result SearchGranule := do
  rejectIf (granuleId ≥ self.granuleCount) .containerCorrupt
  let encoding := self.manifest.granuleEncoding
  let relative ← okOr .resourceLimitExceeded (checkedMul granuleId encoding.recordLen)
  let relative ← okOr .resourceLimitExceeded (checkedAdd relative 8)
  let relative ← okOr .resourceLimitExceeded (checkedAdd relative self.manifest.granules.offset)
  let recordOffset ← okOr .resourceLimitExceeded (checkedAdd relative self.sectionBase)
  let bytes ← readVec self.source recordOffset encoding.recordLen
  let granule ← decodeGranuleRecord bytes granuleId encoding
  rejectIf (granule.granuleId ≠ granuleId) .containerCorrupt
  validateGranuleChunkSpan granule entries self.manifest.sourceSizeBytes
  return granule

/-- The loop that fetches the posting lists of the terms; `remainingIds` may still be decoded. -/
def fetchPostingLists : List Nat → Nat → Result (List (List Nat))
  | [], _ => .ok []
  | termIndex :: termIndexes, remainingIds => do
    rejectIf (granuleFrequencyAt self.terms termIndex > remainingIds) .resourceLimitExceeded
    let postings ← self.fetchPostings termIndex remainingIds
    let remainingIds ← okOr .resourceLimitExceeded
      (checkedSub remainingIds (← usizeToU64 postings.length))
    let postingLists ← fetchPostingLists termIndexes remainingIds
    return postings :: postingLists

/-- The order in which the posting lists are intersected. -/
def orderTerms (isNgram : Bool) (termIndexes : List Nat) : List Nat :=
  if isNgram then
    termIndexes.mergeSort (rarestFirst self.isHighDf (granuleFrequencyAt self.terms))
  else
    termIndexes.mergeSort fun left right =>
      decide (granuleFrequencyAt self.terms left ≤ granuleFrequencyAt self.terms right)

/-- The posting lists of a query, within the limits of the sidecar and of the options. -/
def queryPostings (postingBytesRead : Nat) (termIndexes : List Nat) (options : SearchOptions) :
    Result (List (List Nat)) := do
  rejectIf (postingBytesRead >
    min self.limits.maxPostingBytesPerQuery options.maxPostingBytesPerQuery) .resourceLimitExceeded
  let remainingIds := min self.limits.maxDecodedPostingIds options.maxPostingIdsPerQuery
  let declaredIds ← sumChecked (fun index => .ok (granuleFrequencyAt self.terms index)) termIndexes 0
  rejectIf (declaredIds > remainingIds) .resourceLimitExceeded
  self.fetchPostingLists termIndexes remainingIds

/-- `binary_search` over the candidates. -/
def candidatePosition (candidates : List Nat) (granuleId : Nat) : Option Nat :=
  match partitionPoint (fun index : Nat =>
      (.ok (decide (∃ value ∈ candidates[index]?, value < granuleId)) : Result Bool))
      candidates.length with
  | .ok index => if candidates[index]? = some granuleId then some index else none
  | .error _ => none

/-- The end of a search, from the intersection on. -/
def searchPostings (details : SkeletonDetails) (readRangeCached : RangeRead)
    (postingLists : List (List Nat)) (spansFor : SpanMatcher) (tokenBoundaries : Bool)
    (metrics : SearchMetrics) (planner : PlannerDecision) (options : SearchOptions) :
    Result SearchReport := do
  let candidates ← intersectPostings postingLists options.maxPostingWork
  let candidateGranules ← usizeToU64 candidates.length
  let metrics := { metrics with candidateGranules }
  if candidateGranules > options.maxCandidateGranules then
    return earlyExitReport metrics planner (some "max_candidate_granules") none
      self.manifest.complete
  else if options.maxSearchResults = 0 then
    return earlyExitReport metrics planner (some "max_search_results") none self.manifest.complete
  else
    let granules ← collect (fun granuleId => self.fetchGranule granuleId details.chunkEntries)
      candidates
    let candidateChunks ← countChunks granules
    let verification ← VerificationPlan.verifyCandidates
      { entries := details.chunkEntries
        originalSize := details.summary.originalSize
        granuleAt := fun granuleId => do
          let position ← okOr .containerCorrupt (candidatePosition candidates granuleId)
          okOr .containerCorrupt granules[position]?
        readRangeCached, spansFor, tokenBoundaries, options } candidates
    verifiedReport verification { metrics with candidateChunks } planner self.manifest.complete

/-- The keys of a query. -/
def queryKeys (isNgram : Bool) (query : String) (options : SearchOptions) :
    Result (List (List UInt8)) :=
  if isNgram then do
    let n ← okOr .containerCorrupt self.manifest.ngramN
    ngramKeysForQuery query n options
  else
    uniqueQueryKeys query options

/-- A search, once the sidecar is known to belong to the reader. -/
def searchImpl (details : SkeletonDetails) (query : String) (options : SearchOptions)
    (readRangeCached : RangeRead) : Result SearchReport := do
  let isNgram := self.manifest.indexType == "ngram"
  let queryKeys ← self.queryKeys isNgram query options
  let planner : PlannerDecision := { requiredKeys := queryKeys }
  let termLookups ← usizeToU64 queryKeys.length
  let metrics : SearchMetrics :=
    { query, indexKind := if isNgram then "ngram" else "token"
      indexSizeBytes := self.manifest.indexSizeBytes
      sourceSizeBytes := self.manifest.sourceSizeBytes, termLookups }
  if queryKeys = [] then
    return earlyExitReport metrics planner none
      (some (if isNgram then "query_shorter_than_ngram_n" else "query_has_no_indexable_tokens"))
      self.manifest.complete
  else
    let found ← lookupKeys self.terms (postingSizeAt self.terms) queryKeys {}
    let metrics := { metrics with postingBytesRead := found.postingBytesRead }
    match found.missing with
    | some key =>
      return earlyExitReport metrics { planner with missingKeys := [key] } none
        (missingKeyReason self.manifest.complete) self.manifest.complete
    | none =>
      let termIndexes := self.orderTerms isNgram found.indexes
      let planner := { planner with
        highDfKeys :=
          if isNgram then (termIndexes.filter self.isHighDf).map (keyAt self.terms) else []
        selectedKeys := termIndexes.map (keyAt self.terms) }
      let postingLists ← self.queryPostings found.postingBytesRead termIndexes options
      self.searchPostings details readRangeCached postingLists
        (if isNgram then fun decoded limit _ _ => substringSpans decoded (textBytes query) limit
         else fun decoded limit left right => verifiedSpans decoded queryKeys limit left right)
        (!isNgram) metrics planner options

/-- `QziFileSidecar::search`. -/
def search (env : Env) (reader : QztFileReader) (query : String) (options : SearchOptions) :
    Result SearchReport := do
  validateReaderBinding self.manifest reader.details (← reader.footerChecksum env)
  self.searchImpl reader.details query options (reader.readRangeCached env)

end QziFileSidecar

end Qzt.Sidecar
