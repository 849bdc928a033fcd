import Mathlib.Data.List.Sort
import Qzt.Foundation.Search
import Qzt.Search.Build

/-!
# Queries and matches (`search.rs`)

The keys of a query, the intersection of posting lists, and the two matchers that find
the spans of a query in the bytes of a granule.
-/

namespace Qzt

open Foundation

/-- `SearchOptions`. -/
structure SearchOptions where
  maxQueryBytes : Nat := 4 * 1024
  maxQueryTerms : Nat := 256
  maxPostingBytesPerQuery : Nat := 128 * 1024 * 1024
  maxPostingIdsPerQuery : Nat := 10000000
  maxPostingWork : Nat := 20000000
  maxCandidateGranules : Nat := 10000
  maxDecodedBytes : Nat := 256 * 1024 * 1024
  maxPhysicalDecodedBytes : Nat := 256 * 1024 * 1024
  maxPhysicalDecodedChunks : Nat := 10000
  maxSearchResults : Nat := 10000
  deriving DecidableEq, Repr

/-! ## Keys of a query -/

/-- `validate_query_bytes`. -/
def validateQueryBytes (query : String) (options : SearchOptions) : Result Unit := do
  rejectIf ((← usizeToU64 (textBytes query).length) > options.maxQueryBytes) .resourceLimitExceeded

/-- The loop that fills the `BTreeSet` of keys, a sorted list here. -/
def insertQueryKeys (maxQueryTerms : Nat) :
    List (List UInt8) → List (List UInt8) → Result (List (List UInt8))
  | [], keys => .ok keys
  | key :: rest, keys =>
    if key ∉ keys then do
      rejectIf ((← usizeToU64 keys.length) ≥ maxQueryTerms) .resourceLimitExceeded
      insertQueryKeys maxQueryTerms rest (keys.orderedInsert (· ≤ ·) key)
    else
      insertQueryKeys maxQueryTerms rest keys

/-- `unique_query_keys`. -/
def uniqueQueryKeys (query : String) (options : SearchOptions) : Result (List (List UInt8)) := do
  validateQueryBytes query options
  insertQueryKeys options.maxQueryTerms
    ((tokens (textBytes query)).map fun token => token.map toAsciiLowercase) []

/-- `ngram_keys_for_query`. -/
def ngramKeysForQuery (query : String) (n : Nat) (options : SearchOptions) :
    Result (List (List UInt8)) := do
  validateQueryBytes query options
  rejectIf (n = 0) .resourceLimitExceeded
  if query.toList.length < n then return []
  else insertQueryKeys options.maxQueryTerms (ngrams n query) []

/-- `term_index_for_key`. -/
def termIndexForKey (terms : List TermDictionaryEntry) (key : List UInt8) : Option Nat :=
  match partitionPoint (fun index : Nat =>
      (.ok (decide (∃ term ∈ terms[index]?, term.key < key)) : Result Bool)) terms.length with
  | .ok index => if ∃ term ∈ terms[index]?, term.key = key then some index else none
  | .error _ => none

/-! ## Posting lists of a query -/

/-- `charge_posting_work`. -/
def chargePostingWork (work maxWork : Nat) : Result Nat := do
  let work ← okOr .resourceLimitExceeded (checkedAdd work 1)
  rejectIf (work > maxWork) .resourceLimitExceeded
  return work

/-- The loop of `intersect_two_sorted`.  Every round moves a cursor, so `fuel` is the number of
values left in both lists. -/
def intersectRounds (maxWork : Nat) :
    Nat → List Nat → List Nat → Nat → Result (List Nat × Nat)
  | 0, _, _, work => .ok ([], work)
  | _ + 1, [], _, work => .ok ([], work)
  | _ + 1, _ :: _, [], work => .ok ([], work)
  | fuel + 1, left :: lefts, right :: rights, work => do
    let work ← chargePostingWork work maxWork
    if left < right then intersectRounds maxWork fuel lefts (right :: rights) work
    else if right < left then intersectRounds maxWork fuel (left :: lefts) rights work
    else
      let work ← chargePostingWork work maxWork
      let (output, work) ← intersectRounds maxWork fuel lefts rights work
      return (left :: output, work)

/-- `intersect_two_sorted`: the common values and the work done. -/
def intersectTwoSorted (maxWork : Nat) (left right : List Nat) (work : Nat) :
    Result (List Nat × Nat) :=
  intersectRounds maxWork (left.length + right.length) left right work

/-- The loop of `intersect_postings`. -/
def intersectLoop (maxWork : Nat) : List (List Nat) → List Nat → Nat → Result (List Nat)
  | [], current, _ => .ok current
  | postingList :: postingLists, current, work => do
    let (current, work) ← intersectTwoSorted maxWork current postingList work
    if current = [] then return current
    else intersectLoop maxWork postingLists current work

/-- `intersect_postings`. -/
def intersectPostings (postingLists : List (List Nat)) (maxWork : Nat) : Result (List Nat) :=
  match postingLists with
  | [] => .ok []
  | first :: rest => do
    let work ← usizeToU64 first.length
    rejectIf (work > maxWork) .resourceLimitExceeded
    intersectLoop maxWork rest first work

/-- The loop of `check_raw_posting_budget`. -/
def postingBudgetLoop (postings : List (List Nat)) (encoded : List (List UInt8))
    (options : SearchOptions) : List Nat → Nat → Nat → Result Unit
  | [], _, _ => .ok ⟨⟩
  | index :: indexes, bytes, ids => do
    let bytes ← okOr .resourceLimitExceeded
      (checkedAdd bytes (← usizeToU64 (encoded.getD index []).length))
    let ids ← okOr .resourceLimitExceeded
      (checkedAdd ids (← usizeToU64 (postings.getD index []).length))
    rejectIf (bytes > options.maxPostingBytesPerQuery ∨ ids > options.maxPostingIdsPerQuery)
      .resourceLimitExceeded
    postingBudgetLoop postings encoded options indexes bytes ids

/-- `check_raw_posting_budget`. -/
def checkRawPostingBudget (indexes : List Nat) (postings : List (List Nat))
    (encoded : List (List UInt8)) (options : SearchOptions) : Result Unit :=
  postingBudgetLoop postings encoded options indexes 0 0

/-! ## Matchers -/

/-- `TokenSpan`. -/
structure TokenSpan where
  key : List UInt8
  start : Nat
  stop : Nat
  deriving DecidableEq, Repr

/-- `LineMatchScratch`; a match is the position of its key with its start and end. -/
structure LineMatchScratch where
  seen : List Nat
  generation : Nat
  matched : List (Nat × Nat × Nat)
  deriving DecidableEq, Repr

/-- `eq_ignore_ascii_case`. -/
def eqIgnoreAsciiCase (left right : List UInt8) : Bool :=
  left.map toAsciiLowercase == right.map toAsciiLowercase

/-- A run that is not clipped by the edges of the granule. -/
def unclipped (bytes : List UInt8) (leftContinues rightContinues : Bool) (run : Nat × Nat) : Bool :=
  !((run.1 == 0 && leftContinues) || (run.2 == bytes.length && rightContinues))

/-- The loop of `verified_line_spans` over the token runs of the line; `seenCount` keys have been
seen. -/
def lineSpanLoop (bytes : List UInt8) (queryKeys : List (List UInt8)) (limit : Nat)
    (leftContinues rightContinues : Bool) :
    List (Nat × Nat) → Nat → LineMatchScratch → Nat × LineMatchScratch
  | [], seenCount, scratch => (seenCount, scratch)
  | run :: rest, seenCount, scratch =>
    if unclipped bytes leftContinues rightContinues run then
      let (seenCount, scratch) :=
        match queryKeys.findIdx? (eqIgnoreAsciiCase (slice bytes run.1 (run.2 - run.1))) with
        | none => (seenCount, scratch)
        | some index =>
          let (seenCount, seen) :=
            if scratch.seen[index]? ≠ some scratch.generation then
              (seenCount + 1, scratch.seen.set index scratch.generation)
            else (seenCount, scratch.seen)
          let found :=
            if scratch.matched.length < limit then scratch.matched ++ [(index, run.1, run.2)]
            else scratch.matched
          (seenCount, { scratch with seen, matched := found })
      if scratch.matched.length = limit ∧ seenCount = queryKeys.length then (seenCount, scratch)
      else lineSpanLoop bytes queryKeys limit leftContinues rightContinues rest seenCount scratch
    else
      lineSpanLoop bytes queryKeys limit leftContinues rightContinues rest seenCount scratch

/-- `verified_line_spans`. -/
def verifiedLineSpans (bytes : List UInt8) (queryKeys : List (List UInt8)) (limit : Nat)
    (leftContinues rightContinues : Bool) (scratch : LineMatchScratch) : Bool × LineMatchScratch :=
  let (seenCount, scratch) := lineSpanLoop bytes queryKeys limit leftContinues rightContinues
    (runs isTokenByte bytes) 0 scratch
  (seenCount == queryKeys.length, scratch)

/-- The scratch at the start of a line: a new generation and no matches. -/
def LineMatchScratch.nextLine (scratch : LineMatchScratch) : LineMatchScratch :=
  let generation := (scratch.generation + 1) % 2 ^ 64
  if generation = 0 then
    { seen := scratch.seen.map fun _ => 0, generation := 1, matched := [] }
  else
    { scratch with generation, matched := [] }

/-- The line loop of `verified_spans`; `lineStart` is the offset of the next line. -/
def verifiedSpansLoop (length : Nat) (queryKeys : List (List UInt8)) (limit : Nat)
    (leftContinues rightContinues : Bool) :
    List (List UInt8) → Nat → List TokenSpan → LineMatchScratch → List TokenSpan
  | [], _, spans, _ => spans
  | line :: lines, lineStart, spans, scratch =>
    let lineEnd := lineStart + line.length
    let remaining := limit - spans.length
    if remaining = 0 then spans
    else
      let (completeLine, scratch) := verifiedLineSpans line queryKeys remaining
        (lineStart == 0 && leftContinues) (lineEnd == length && rightContinues) scratch.nextLine
      let spans :=
        if completeLine then
          spans ++ scratch.matched.map fun found =>
            { key := queryKeys.getD found.1 [], start := lineStart + found.2.1,
              stop := lineStart + found.2.2 }
        else spans
      if spans.length = limit then spans
      else
        verifiedSpansLoop length queryKeys limit leftContinues rightContinues lines lineEnd spans
          scratch

/-- `verified_spans`. -/
def verifiedSpans (bytes : List UInt8) (queryKeys : List (List UInt8)) (limit : Nat)
    (leftContinues rightContinues : Bool) : List TokenSpan :=
  verifiedSpansLoop bytes.length queryKeys limit leftContinues rightContinues (segments lf bytes) 0
    [] { seen := queryKeys.map fun _ => 0, generation := 0, matched := [] }

/-- The places where a query occurs, in ascending order. -/
def occurrences (bytes query : List UInt8) : List Nat :=
  (List.range (bytes.length - query.length + 1)).filter fun start =>
    slice bytes start query.length == query

/-- `substring_spans`: the loop ends at the limit. -/
def substringSpans (bytes query : List UInt8) (limit : Nat) : List TokenSpan :=
  if limit = 0 ∨ query = [] ∨ query.length > bytes.length then []
  else
    ((occurrences bytes query).take limit).map fun start =>
      { key := query, start, stop := start + query.length }

end Qzt
