import Qzt.Container.Skeleton

/-!
# Reading through the chunk table (`reader.rs`)

The part of the reader that both readers share: restoring byte ranges and lines, and
deep verification.  Each function takes the decoder of one chunk entry.  Slices of a
decoded chunk are always in range, because a decoder returns exactly
`uncompressed_size` bytes.
-/

namespace Qzt

open Foundation

/-! ## Decoding one entry -/

/-- The dictionary bytes an entry refers to. -/
def dictionaryFor (dictionaries : List DictionaryEntry) (dictionaryId : Nat) :
    Result (List UInt8) :=
  if dictionaryId = 0 then .ok []
  else okOr .missingDictionary
    ((dictionaries.find? fun dictionary => dictionary.dictionaryId == dictionaryId).map
      DictionaryEntry.bytes)

/-- `decode_compressed_entry`. -/
def decodeCompressedEntry (env : Env) (entry : ChunkEntry) (compressed : List UInt8)
    (dictionaries : List DictionaryEntry) : Result (List UInt8) := do
  rejectIf ((Checksum.blake3 env compressed).value ≠ entry.compressedChecksumBlake3)
    .compressedChunkChecksumMismatch
  let dictionary ← dictionaryFor dictionaries entry.dictionaryId
  let decoded ← decodeChunk env compressed dictionary entry.uncompressedSize
  rejectIf ((← usizeToU64 decoded.length) ≠ entry.uncompressedSize) .chunkSizeMismatch
  rejectIf ((Checksum.blake3 env decoded).value ≠ entry.uncompressedChecksumBlake3)
    .uncompressedChunkChecksumMismatch
  return decoded

/-- The `decode_entry` closure of the shared functions. -/
abbrev DecodeEntry := ChunkEntry → Result (List UInt8)

/-! ## The decode cache -/

/-- `ChunkDecodeCache`. -/
structure ChunkDecodeCache where
  chunkId : Option Nat := none
  decoded : List UInt8 := []
  physicalDecodedBytes : Nat := 0
  decodedChunks : Nat := 0
  compressedBytes : Nat := 0
  deriving DecidableEq, Repr

namespace ChunkDecodeCache

/-- `ChunkDecodeCache::new`. -/
def new : ChunkDecodeCache := {}

/-- The loop of `search_limit_for_span`. -/
def searchLimitLoop (maxBytes maxChunks : Nat) :
    List ChunkEntry → Option Nat → Nat → Nat → Result (Option String)
  | [], _, _, _ => .ok none
  | entry :: span, cached, bytes, chunks =>
    if cached ≠ some entry.chunkId then do
      let bytes ← okOr .resourceLimitExceeded (checkedAdd bytes entry.uncompressedSize)
      if bytes > maxBytes then
        return some "max_physical_decoded_bytes"
      else
        let chunks ← okOr .resourceLimitExceeded (checkedAdd chunks 1)
        if chunks > maxChunks then
          return some "max_physical_decoded_chunks"
        else
          searchLimitLoop maxBytes maxChunks span (some entry.chunkId) bytes chunks
    else
      searchLimitLoop maxBytes maxChunks span cached bytes chunks

/-- `search_limit_for_span`. -/
def searchLimitForSpan (self : ChunkDecodeCache) (entries : List ChunkEntry)
    (chunkStart chunkEnd maxBytes maxChunks : Nat) : Result (Option String) := do
  let start ← u64ToUsize chunkStart
  let stop ← u64ToUsize chunkEnd
  let span ← okOr .chunkTableInvalid (getRange? entries start stop)
  searchLimitLoop maxBytes maxChunks span self.chunkId self.physicalDecodedBytes self.decodedChunks

/-- `decoded_entry`: the cache after it holds the decoded entry. -/
def decodedEntry (self : ChunkDecodeCache) (entry : ChunkEntry) (decodeEntry : DecodeEntry) :
    Result ChunkDecodeCache :=
  if self.chunkId ≠ some entry.chunkId then do
    let decoded ← decodeEntry entry
    let physicalDecodedBytes ← okOr .resourceLimitExceeded
      (checkedAdd self.physicalDecodedBytes entry.uncompressedSize)
    let decodedChunks ← okOr .resourceLimitExceeded (checkedAdd self.decodedChunks 1)
    let compressedBytes ← okOr .resourceLimitExceeded
      (checkedAdd self.compressedBytes entry.compressedSize)
    return { chunkId := some entry.chunkId, decoded, physicalDecodedBytes, decodedChunks,
             compressedBytes }
  else
    .ok self

end ChunkDecodeCache

/-! ## Byte ranges -/

/-- `RangeReadMetrics`. -/
structure RangeReadMetrics where
  decodedChunks : Nat
  decodedBytes : Nat
  compressedBytes : Nat
  deriving DecidableEq, Repr

/-- `RangeReadReport`. -/
structure RangeReadReport where
  bytes : List UInt8
  metrics : RangeReadMetrics
  deriving DecidableEq, Repr

/-- The loop of `read_range_from_entries_cached` over the entries from `index` on. -/
def copyRange (offset stop : Nat) (decodeEntry : DecodeEntry) :
    List ChunkEntry → List UInt8 → ChunkDecodeCache → Result (List UInt8 × ChunkDecodeCache)
  | [], output, cache => .ok (output, cache)
  | entry :: entries, output, cache => do
    let chunkEnd ← entry.logicalEnd
    if entry.logicalOffset ≥ stop then
      return (output, cache)
    else
      let cache ← cache.decodedEntry entry decodeEntry
      let copyStart := max offset entry.logicalOffset
      let copyEnd := min stop chunkEnd
      let localStart ← u64ToUsize (copyStart - entry.logicalOffset)
      let localEnd ← u64ToUsize (copyEnd - entry.logicalOffset)
      copyRange offset stop decodeEntry entries
        (output ++ slice cache.decoded localStart (localEnd - localStart)) cache

/-- `read_range_from_entries_cached`. -/
def readRangeFromEntriesCached (entries : List ChunkEntry) (originalSize offset length : Nat)
    (cache : ChunkDecodeCache) (decodeEntry : DecodeEntry) :
    Result (List UInt8 × ChunkDecodeCache) := do
  let stop ← checkedLogicalEnd offset length
  rejectIf (stop > originalSize) .logicalRangeOutOfBounds
  if length = 0 then
    return ([], cache)
  else
    let index ← chunkIndexForLogicalOffset entries offset
    let (output, cache) ← copyRange offset stop decodeEntry (entries.drop index) [] cache
    rejectIf ((← usizeToU64 output.length) ≠ length) .containerCorrupt
    return (output, cache)

/-- `read_range_with_metrics_from_entries`. -/
def readRangeWithMetricsFromEntries (entries : List ChunkEntry) (originalSize offset length : Nat)
    (decodeEntry : DecodeEntry) : Result RangeReadReport := do
  let (bytes, cache) ←
    readRangeFromEntriesCached entries originalSize offset length .new decodeEntry
  let metrics : RangeReadMetrics :=
    { decodedChunks := cache.decodedChunks, decodedBytes := cache.physicalDecodedBytes,
      compressedBytes := cache.compressedBytes }
  return { bytes, metrics }

/-- `read_range_from_entries`. -/
def readRangeFromEntries (entries : List ChunkEntry) (originalSize offset length : Nat)
    (decodeEntry : DecodeEntry) : Result (List UInt8) := do
  let report ← readRangeWithMetricsFromEntries entries originalSize offset length decodeEntry
  return report.bytes

/-! ## Lines -/

/-- `local_line_starts`. -/
def localLineStarts (decoded : List UInt8) (flags : Nat) : List Nat :=
  (if startsFreshLine flags ∧ decoded ≠ [] then [0] else []) ++
    ((List.range decoded.length).filter fun index =>
      decoded[index]? == some lf && decide (index + 1 < decoded.length)).map (· + 1)

/-- The bytes up to and including the first LF, and whether there is one. -/
def untilLf : List UInt8 → List UInt8 × Bool
  | [] => ([], false)
  | byte :: rest =>
    if byte = lf then ([byte], true)
    else
      let (line, found) := untilLf rest
      (byte :: line, found)

/-- `append_until_lf`. -/
def appendUntilLf (decoded : List UInt8) (start : Nat) (output : List UInt8) :
    List UInt8 × Bool :=
  let (line, found) := untilLf (decoded.drop start)
  (output ++ line, found)

/-- `line_start_chunk_index`. -/
def lineStartChunkIndex (entries : List ChunkEntry) (lineZeroBased : Nat) : Result Nat := do
  let low ← partitionByEnd entries lineZeroBased ChunkEntry.lineEnd
  let entry ← okOr .lineOutOfRange entries[low]?
  let lineEnd ← entry.lineEnd
  if entry.firstLine ≤ lineZeroBased ∧ lineZeroBased < lineEnd then .ok low
  else .error .lineOutOfRange

/-- The continuation loop of `read_line_from_entries`. -/
def continueLine (decodeEntry : DecodeEntry) : List ChunkEntry → List UInt8 → Result (List UInt8)
  | [], output => .ok output
  | entry :: entries, output => do
    let decoded ← decodeEntry entry
    let (output, foundEnd) := appendUntilLf decoded 0 output
    if foundEnd then return output
    else continueLine decodeEntry entries output

/-- Where a line starts inside its chunk: from the dense index, else by scanning the chunk. -/
def localLineStart (details : SkeletonDetails) (startIndex localIndex : Nat)
    (startDecoded : List UInt8) (flags : Nat) : Result Nat :=
  match details.denseLineIndex with
  | some dense => do u64ToUsize (← dense.lineStartOffset startIndex localIndex)
  | none => okOr .lineOutOfRange (localLineStarts startDecoded flags)[localIndex]?

/-- `read_line_from_entries`. -/
def readLineFromEntries (details : SkeletonDetails) (lineZeroBased : Nat)
    (decodeEntry : DecodeEntry) : Result (List UInt8) := do
  rejectIf (lineZeroBased ≥ details.summary.lineCount) .lineOutOfRange
  let startIndex ← lineStartChunkIndex details.chunkEntries lineZeroBased
  let startEntry ← okOr .lineOutOfRange details.chunkEntries[startIndex]?
  let startDecoded ← decodeEntry startEntry
  let localIndex := lineZeroBased - startEntry.firstLine
  let localStart ← localLineStart details startIndex localIndex startDecoded startEntry.flags
  let (output, foundEnd) := appendUntilLf startDecoded localStart []
  if foundEnd then
    return output
  else
    continueLine decodeEntry (details.chunkEntries.drop (startIndex + 1)) output

/-! ## Documents -/

/-- `find_document`. -/
def findDocument (details : SkeletonDetails) (docId : String) : Result DocumentEntry := do
  let documentIndex ← okOr .missingRequiredBlock details.documentIndex
  let index ← okOr .documentNotFound (details.documentLookup.lookup docId)
  okOr .documentNotFound documentIndex.documents[index]?

/-- `verify_expected_checksum`. -/
def verifyExpectedChecksum (env : Env) (bytes : List UInt8) (expected : Checksum) :
    Result Unit := do
  rejectIf (expected.algorithm ≠ checksumAlgorithmBlake3) .containerCorrupt
  rejectIf (Checksum.blake3 env bytes ≠ expected) .verifiedChecksumMismatch

/-- `document_chunk_range`. -/
def documentChunkRange (chunkEntries : List ChunkEntry) (offset length : Nat) :
    Result (Nat × Nat) :=
  if length = 0 then .ok (0, 0)
  else do
    let stop ← checkedLogicalEnd offset length
    let firstIndex ← chunkIndexForLogicalOffset chunkEntries offset
    let lastIndex ← chunkIndexForLogicalOffset chunkEntries (stop - 1)
    let first ← okOr .chunkTableInvalid chunkEntries[firstIndex]?
    let last ← okOr .chunkTableInvalid chunkEntries[lastIndex]?
    let lastExclusive ← okOr .chunkTableInvalid (checkedAdd last.chunkId 1)
    return (first.chunkId, lastExclusive)

end Qzt
