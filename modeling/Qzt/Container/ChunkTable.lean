import Qzt.Foundation.Search
import Qzt.Container.Fixed

/-!
# The chunk table (`chunk_table.rs`)

Fixed 128-byte entries, their structural validation, and the binary searches over byte
and line prefix sums.
-/

namespace Qzt

open Foundation

/-- `STARTS_WITH_LINE_CONTINUATION`, the only flag bit. -/
def startsWithLineContinuation : Nat := 1

/-- `flags & STARTS_WITH_LINE_CONTINUATION == 0`. -/
def startsFreshLine (flags : Nat) : Bool :=
  flags % 2 == 0

/-- `ChunkEntry`. -/
structure ChunkEntry where
  chunkId : Nat
  physicalOffset : Nat
  compressedSize : Nat
  logicalOffset : Nat
  uncompressedSize : Nat
  firstLine : Nat
  lineCount : Nat
  dictionaryId : Nat
  flags : Nat
  compressedChecksumBlake3 : Digest
  uncompressedChecksumBlake3 : Digest
  deriving DecidableEq

/-- `ChunkEntry::encode`. -/
def ChunkEntry.encode (self : ChunkEntry) : List UInt8 :=
  leBytes 8 self.chunkId ++ (leBytes 8 self.physicalOffset ++ (leBytes 8 self.compressedSize ++
    (leBytes 8 self.logicalOffset ++ (leBytes 8 self.uncompressedSize ++
      (leBytes 8 self.firstLine ++ (leBytes 8 self.lineCount ++ (leBytes 4 self.dictionaryId ++
        (leBytes 4 self.flags ++ (self.compressedChecksumBlake3.toList ++
          self.uncompressedChecksumBlake3.toList)))))))))

/-- `ChunkEntry::decode`. -/
def ChunkEntry.decode (bytes : List UInt8) : Result ChunkEntry := do
  rejectIf (bytes.length ≠ chunkEntryLen) .chunkTableInvalid
  let chunkId ← readLe 8 (slice bytes 0 8)
  let physicalOffset ← readLe 8 (slice bytes 8 8)
  let compressedSize ← readLe 8 (slice bytes 16 8)
  let logicalOffset ← readLe 8 (slice bytes 24 8)
  let uncompressedSize ← readLe 8 (slice bytes 32 8)
  let firstLine ← readLe 8 (slice bytes 40 8)
  let lineCount ← readLe 8 (slice bytes 48 8)
  let dictionaryId ← readLe 4 (slice bytes 56 4)
  let flags ← readLe 4 (slice bytes 60 4)
  let compressedChecksumBlake3 ← okOr .chunkTableInvalid (tryIntoArray 32 (slice bytes 64 32))
  let uncompressedChecksumBlake3 ← okOr .chunkTableInvalid (tryIntoArray 32 (slice bytes 96 32))
  return { chunkId, physicalOffset, compressedSize, logicalOffset, uncompressedSize, firstLine,
           lineCount, dictionaryId, flags, compressedChecksumBlake3, uncompressedChecksumBlake3 }

/-! ## Searching -/

/-- `partition_by_end`.  `entries[mid]` is in bounds at every probe. -/
def partitionByEnd (entries : List ChunkEntry) (target : Nat)
    (endOf : ChunkEntry → Result Nat) : Result Nat :=
  partitionPoint
    (fun mid => do
      let entry ← okOr .chunkTableInvalid entries[mid]?
      return decide ((← endOf entry) ≤ target))
    entries.length

/-- The exclusive logical end of an entry. -/
def ChunkEntry.logicalEnd (entry : ChunkEntry) : Result Nat :=
  checkedLogicalEnd entry.logicalOffset entry.uncompressedSize

/-- The exclusive end of the lines that start in an entry. -/
def ChunkEntry.lineEnd (entry : ChunkEntry) : Result Nat :=
  checkedLogicalEnd entry.firstLine entry.lineCount

/-- `chunk_index_for_logical_offset`. -/
def chunkIndexForLogicalOffset (entries : List ChunkEntry) (offset : Nat) : Result Nat :=
  partitionByEnd entries offset ChunkEntry.logicalEnd

/-! ## Validation -/

/-- `bytes.chunks_exact(n)`. -/
def chunksExact (n : Nat) (bytes : List UInt8) : List (List UInt8) :=
  (List.range (bytes.length / n)).map fun i => slice bytes (i * n) n

/-- The running totals of the validation loop. -/
structure ChunkTotals where
  expectedLogicalOffset : Nat := 0
  expectedFirstLine : Nat := 0
  totalUncompressedSize : Nat := 0
  totalLineCount : Nat := 0
  deriving DecidableEq, Repr

/-- One iteration of the validation loop. -/
def validateChunkEntry (index : Nat) (entry : ChunkEntry) (totals : ChunkTotals) :
    Result ChunkTotals := do
  rejectIf (entry.chunkId ≠ (← usizeToU64 index)) .chunkTableInvalid
  rejectIf (entry.logicalOffset ≠ totals.expectedLogicalOffset) .chunkTableInvalid
  rejectIf (entry.firstLine ≠ totals.expectedFirstLine) .chunkTableInvalid
  rejectIf (entry.compressedSize = 0 ∨ entry.uncompressedSize = 0) .chunkSizeMismatch
  rejectIf (entry.lineCount > entry.uncompressedSize) .chunkTableInvalid
  rejectIf (entry.flags / 2 ≠ 0) .invalidFlags
  let expectedLogicalOffset ← okOr .logicalRangeOutOfBounds
    (checkedAdd totals.expectedLogicalOffset entry.uncompressedSize)
  let expectedFirstLine ← okOr .logicalRangeOutOfBounds
    (checkedAdd totals.expectedFirstLine entry.lineCount)
  let totalUncompressedSize ← okOr .logicalRangeOutOfBounds
    (checkedAdd totals.totalUncompressedSize entry.uncompressedSize)
  let totalLineCount ← okOr .logicalRangeOutOfBounds
    (checkedAdd totals.totalLineCount entry.lineCount)
  return { expectedLogicalOffset, expectedFirstLine, totalUncompressedSize, totalLineCount }

/-- The validation loop over `entries.iter().enumerate()`. -/
def validateChunkEntries : Nat → List ChunkEntry → ChunkTotals → Result ChunkTotals
  | _, [], totals => .ok totals
  | index, entry :: entries, totals => do
    let totals ← validateChunkEntry index entry totals
    validateChunkEntries (index + 1) entries totals

/-- `validate_chunk_table_block`. -/
def validateChunkTableBlock (bytes : List UInt8) (chunkCount originalSize lineCount : Nat) :
    Result (List ChunkEntry) := do
  rejectIf (bytes.length % chunkEntryLen ≠ 0) .chunkTableInvalid
  let actualCount ← usizeToU64 (bytes.length / chunkEntryLen)
  rejectIf (actualCount ≠ chunkCount) .chunkCountMismatch
  if originalSize = 0 then
    rejectIf (chunkCount ≠ 0 ∨ lineCount ≠ 0 ∨ bytes ≠ []) .chunkCountMismatch
    return []
  else
    rejectIf (chunkCount = 0) .chunkCountMismatch
    rejectIf (lineCount > originalSize) .chunkTableInvalid
    let entries ← collect ChunkEntry.decode (chunksExact chunkEntryLen bytes)
    let totals ← validateChunkEntries 0 entries {}
    rejectIf (totals.totalUncompressedSize ≠ originalSize ∨ totals.totalLineCount ≠ lineCount)
      .chunkSizeMismatch
    return entries

end Qzt
