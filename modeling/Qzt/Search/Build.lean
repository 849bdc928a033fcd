import Qzt.Foundation.OrderedMap
import Qzt.Foundation.Runs
import Qzt.Foundation.Segments
import Qzt.Search.Index

/-!
# Building a line index (`search.rs`)

One pass over the decoded chunks.  The trailing incomplete line of a chunk is carried
into the next.  The `BTreeMap` from keys to posting lists is the sorted list of its
pairs.
-/

namespace Qzt

open Foundation

/-! ## Keys of a line -/

/-- `is_token_byte`. -/
def isTokenByte (byte : UInt8) : Bool :=
  (0x30 ≤ byte && byte ≤ 0x39) || (0x41 ≤ byte && byte ≤ 0x5a) || (0x61 ≤ byte && byte ≤ 0x7a) ||
    byte == 0x5f || byte == 0x2d

/-- `u8::to_ascii_lowercase`. -/
def toAsciiLowercase (byte : UInt8) : UInt8 :=
  if 0x41 ≤ byte && byte ≤ 0x5a then byte + 0x20 else byte

/-- The token bytes between two separators: the runs that the cursor loops cut out. -/
def tokens (bytes : List UInt8) : List (List UInt8) :=
  (runs isTokenByte bytes).map fun run => slice bytes run.1 (run.2 - run.1)

/-- `char_indices`: the byte offsets of the scalars, the text standing at `offset`. -/
def charIndices : Nat → List Char → List Nat
  | _, [] => []
  | offset, c :: cs => offset :: charIndices (offset + c.utf8Size) cs

/-- The windows of `n` scalars. -/
def ngrams (n : Nat) (text : String) : List (List UInt8) :=
  let bytes := textBytes text
  let starts := charIndices 0 text.toList
  let ends := (starts ++ [bytes.length]).drop n
  (starts.zip ends).map fun window => slice bytes window.1 (window.2 - window.1)

/-- `BuildKeys`. -/
inductive BuildKeys where
  | token
  | ngram (n : Nat)
  deriving DecidableEq, Repr

/-- Whether keys are folded to lower case. -/
def BuildKeys.fold : BuildKeys → Bool
  | .token => true
  | .ngram _ => false

/-- The keys of a line, in the order in which they are added. -/
def lineKeys (mode : BuildKeys) (lineBytes : List UInt8) : Result (List (List UInt8)) :=
  match mode with
  | .token => .ok (tokens lineBytes)
  | .ngram n => do
    let text ← okOr .invalidUtf8 (fromUtf8 lineBytes)
    return ngrams n text

/-! ## The posting map -/

/-- `BTreeMap<Vec<u8>, Vec<u64>>`. -/
abbrev PostingMap := List (List UInt8 × List Nat)

/-- `BuildMeter`. -/
structure BuildMeter where
  limits : IndexBuildLimits
  mode : BuildKeys
  keys : Nat := 0
  keyBytes : Nat := 0
  postings : Nat := 0
  deriving DecidableEq, Repr

/-- The key as it is stored. -/
def foldKey (fold : Bool) (key : List UInt8) : List UInt8 :=
  if fold then key.map toAsciiLowercase else key

/-- `BuildMeter::add_key`. -/
def BuildMeter.addKey (meter : BuildMeter) (map : PostingMap) (key : List UInt8) (fold : Bool)
    (granule : Nat) : Result (BuildMeter × PostingMap) := do
  rejectIf ((← usizeToU64 key.length) > meter.limits.maxKeyBytes) .resourceLimitExceeded
  let key := foldKey fold key
  match map.lookup key with
  | some list =>
    if list.getLast? ≠ some granule then do
      let postings ← chargeBuild meter.postings 1 meter.limits.maxPostingIds
      return ({ meter with postings }, upsert key (fun list => list.getD [] ++ [granule]) map)
    else
      return (meter, map)
  | none => do
    let keys ← chargeBuild meter.keys 1 meter.limits.maxDistinctKeys
    let keyBytes ← chargeBuild meter.keyBytes (← usizeToU64 key.length) meter.limits.maxKeyBytes
    let postings ← chargeBuild meter.postings 1 meter.limits.maxPostingIds
    return ({ meter with keys, keyBytes, postings }, upsert key (fun _ => [granule]) map)

/-- The key loops of `emit_line_granule`. -/
def addKeys (granule : Nat) :
    List (List UInt8) → BuildMeter → PostingMap → Result (BuildMeter × PostingMap)
  | [], meter, map => .ok (meter, map)
  | key :: keys, meter, map => do
    let (meter, map) ← meter.addKey map key meter.mode.fold granule
    addKeys granule keys meter map

/-! ## Granules -/

/-- `chunk_span_for_range`. -/
def chunkSpanForRange (entries : List ChunkEntry) (start stop : Nat) : Result (Nat × Nat) := do
  let firstIndex ← chunkIndexForLogicalOffset entries start
  let lastIndex ← chunkIndexForLogicalOffset entries (stop - 1)
  let first ← okOr .chunkTableInvalid entries[firstIndex]?
  let last ← okOr .chunkTableInvalid entries[lastIndex]?
  let lastExclusive ← okOr .chunkTableInvalid (checkedAdd last.chunkId 1)
  return (first.chunkId, lastExclusive)

/-- `validate_granule_chunk_span`. -/
def validateGranuleChunkSpan (granule : SearchGranule) (entries : List ChunkEntry)
    (originalSize : Nat) : Result Unit := do
  let chunkCount ← usizeToU64 entries.length
  rejectIf (granule.chunkStart ≥ granule.chunkEnd ∨ granule.chunkEnd > chunkCount)
    .chunkTableInvalid
  let stop ← okOr .logicalRangeOutOfBounds (checkedAdd granule.logicalOffset granule.byteLength)
  rejectIf (granule.byteLength = 0 ∨ stop > originalSize) .logicalRangeOutOfBounds
  let span ← chunkSpanForRange entries granule.logicalOffset stop
  rejectIf (span ≠ (granule.chunkStart, granule.chunkEnd)) .chunkTableInvalid

/-- The state of the build between two lines. -/
structure LineIndexBuild where
  granules : List SearchGranule
  postingsByKey : PostingMap
  meter : BuildMeter
  carry : List UInt8
  lineStart : Nat
  deriving DecidableEq, Repr

/-- `emit_line_granule`. -/
def emitLineGranule (entries : List ChunkEntry) (lineStart lineEnd : Nat) (lineBytes : List UInt8)
    (state : LineIndexBuild) : Result LineIndexBuild := do
  let granuleId ← usizeToU64 state.granules.length
  rejectIf (granuleId ≥ state.meter.limits.maxGranules) .resourceLimitExceeded
  let byteLength ← okOr .logicalRangeOutOfBounds (checkedSub lineEnd lineStart)
  let (chunkStart, chunkEnd) ← chunkSpanForRange entries lineStart lineEnd
  let granule : SearchGranule :=
    { granuleId, logicalOffset := lineStart, byteLength, chunkStart, chunkEnd,
      firstLine := some granuleId, lineCount := some 1 }
  let keys ← lineKeys state.meter.mode lineBytes
  let (meter, postingsByKey) ← addKeys granuleId keys state.meter state.postingsByKey
  return { state with granules := state.granules ++ [granule], postingsByKey, meter }

/-- The size check on a line of which `carry` and `segment` are the parts. -/
def checkLineSize (maxLineBytes : Nat) (carry segment : List UInt8) : Result Unit := do
  let carrySize ← usizeToU64 carry.length
  let lineSize ← okOr .resourceLimitExceeded (checkedAdd carrySize (← usizeToU64 segment.length))
  rejectIf (lineSize > maxLineBytes) .resourceLimitExceeded

/-- The byte loop over one decoded chunk, cut into the segments that end at LF: `consumed` bytes
have been read, and a last segment without LF is carried over. -/
def buildSegments (entries : List ChunkEntry) (maxLineBytes : Nat) (entry : ChunkEntry) :
    Nat → List (List UInt8) → LineIndexBuild → Result LineIndexBuild
  | _, [], state => .ok state
  | consumed, segment :: segments, state =>
    if segment.getLast? = some lf then do
      let lineEnd ← checkedLogicalEnd entry.logicalOffset
        (← usizeToU64 (consumed + segment.length))
      checkLineSize maxLineBytes state.carry segment
      let state ← emitLineGranule entries state.lineStart lineEnd (state.carry ++ segment) state
      buildSegments entries maxLineBytes entry (consumed + segment.length) segments
        { state with carry := [], lineStart := lineEnd }
    else do
      checkLineSize maxLineBytes state.carry segment
      buildSegments entries maxLineBytes entry (consumed + segment.length) segments
        { state with carry := state.carry ++ segment }

/-- The chunk loop. -/
def buildChunks (entries : List ChunkEntry) (maxLineBytes : Nat) (decode : DecodeEntry) :
    List ChunkEntry → LineIndexBuild → Result LineIndexBuild
  | [], state => .ok state
  | entry :: rest, state => do
    let decoded ← decode entry
    rejectIf ((fromUtf8 decoded).isNone = true) .invalidUtf8
    let state ← buildSegments entries maxLineBytes entry 0 (segments lf decoded) state
    buildChunks entries maxLineBytes decode rest state

/-- The dictionary entry of a key before its postings are encoded. -/
def blankTerm (env : Env) (key : List UInt8) : TermDictionaryEntry where
  key := key
  keyHash := keyHash env key
  documentFrequency := 0
  granuleFrequency := 0
  postingOffset := 0
  postingSize := 0
  skipOffset := 0
  skipSize := 0
  flags := 0

/-- `LineIndexParts`. -/
abbrev LineIndexParts := List SearchGranule × List TermDictionaryEntry × List (List Nat)

/-- `build_line_index_streaming`. -/
def buildLineIndexStreaming (env : Env) (entries : List ChunkEntry) (originalSize maxLineBytes : Nat)
    (limits : IndexBuildLimits) (decode : DecodeEntry) (keys : BuildKeys) :
    Result LineIndexParts := do
  let state ← buildChunks entries maxLineBytes decode entries
    { granules := [], postingsByKey := [], meter := { limits, mode := keys }, carry := [],
      lineStart := 0 }
  let state ←
    if state.carry ≠ [] then
      emitLineGranule entries state.lineStart originalSize state.carry state
    else pure state
  return (state.granules, state.postingsByKey.map fun pair => blankTerm env pair.1,
    state.postingsByKey.map Prod.snd)

/-! ## The builders -/

/-- `RawTokenIndex::build_from_file`. -/
def RawTokenIndex.buildFromFile (env : Env) (reader : QztFileReader)
    (options : TokenIndexBuildOptions) : Result RawTokenIndex := do
  rejectIf (options.source = .normalizedUtf8)
    (.unsupportedIndexMode "normalized_utf8 token index")
  let details := reader.details
  let (granules, terms, postings) ← match options.postingGranularity with
    | .line =>
      buildLineIndexStreaming env details.chunkEntries details.summary.originalSize
        options.maxLineBytes options.limits (reader.decodeEntry env) .token
  RawTokenIndex.fromParts details.summary.containerId details.summary.originalSize granules terms
    postings options.limits

/-- `RawNgramIndex::build_from_file`. -/
def RawNgramIndex.buildFromFile (env : Env) (reader : QztFileReader)
    (options : NgramIndexBuildOptions) : Result RawNgramIndex := do
  rejectIf (options.source = .normalizedUtf8)
    (.unsupportedIndexMode "normalized_utf8 ngram index")
  rejectIf (options.n = 0) .resourceLimitExceeded
  let details := reader.details
  let (granules, terms, postings) ← match options.postingGranularity with
    | .line =>
      buildLineIndexStreaming env details.chunkEntries details.summary.originalSize
        options.maxLineBytes options.limits (reader.decodeEntry env) (.ngram options.n)
  RawNgramIndex.fromParts details.summary.containerId details.summary.originalSize granules terms
    postings options

end Qzt
