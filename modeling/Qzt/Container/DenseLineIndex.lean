import Qzt.Foundation.Leb128
import Qzt.Container.Chunker

/-!
# The dense line index (`dense_line_index.rs`)

Line start offsets inside each chunk, stored as delta varints.  Cursors into a byte
slice are modelled by the unread rest of the slice.
-/

namespace Qzt

open Foundation

/-- `DenseLineEntry`. -/
structure DenseLineEntry where
  chunkId : Nat
  lineStartOffsets : List Nat
  deriving DecidableEq, Repr

/-- `DenseLineIndex`. -/
structure DenseLineIndex where
  entries : List DenseLineEntry
  deriving DecidableEq, Repr

/-- `line_start_offsets`. -/
def lineStartOffsets (decoded : List UInt8) (flags : Nat) : Result (List Nat) := do
  let first := if startsFreshLine flags ∧ decoded ≠ [] then [0] else []
  let later ← collect (fun index => usizeToU64 (index + 1))
    ((List.range decoded.length).filter fun index =>
      decoded[index]? == some lf && decide (index + 1 < decoded.length))
  return first ++ later

/-! ## Varints -/

namespace Dense

/-- `write_varuint`. -/
def writeVaruint (value : Nat) : List UInt8 :=
  leb128 value

/-- `varuint_len`. -/
def varuintLen (value : Nat) : Nat :=
  leb128Length value

/-- The loop of `read_varuint`.  The groups occupy disjoint bits, so `|=` is addition. -/
def readVaruintLoop : List UInt8 → Nat → Nat → Nat → Result (Nat × List UInt8)
  | [], _, _, _ => .error .unexpectedEof
  | byte :: rest, value, shift, length => do
    let payload := byte.toNat % 128
    rejectIf (shift = 63 ∧ payload > 1) .chunkTableInvalid
    let value := value + payload * 2 ^ shift
    if byte.toNat < 128 then
      rejectIf (length + 1 > 1 ∧ byte = 0) .chunkTableInvalid
      return (value, rest)
    else if shift + 7 > 63 then
      .error .chunkTableInvalid
    else
      readVaruintLoop rest value (shift + 7) (length + 1)

/-- `read_varuint`: the value and the rest of the input. -/
def readVaruint (bytes : List UInt8) : Result (Nat × List UInt8) :=
  readVaruintLoop bytes 0 0 0

end Dense

/-- `allocation_bytes::<T>`, with `size_of::<T>()` explicit. -/
def allocationBytes (sizeOfElement count : Nat) : Result Nat := do
  let bytes ← okOr .resourceLimitExceeded (checkedMul count sizeOfElement)
  usizeToU64 bytes

/-- `size_of::<DenseLineEntry>()`. -/
def sizeOfDenseLineEntry : Nat := 32

/-- `size_of::<u64>()`. -/
def sizeOfU64 : Nat := 8

namespace DenseLineIndex

/-- The loop of `requested_allocation_for_chunks`. -/
def requestedAllocationLoop : List ChunkEntry → Nat → Result Nat
  | [], requested => .ok requested
  | entry :: entries, requested => do
    let lineCount ← u64ToUsize entry.lineCount
    let bytes ← allocationBytes sizeOfU64 lineCount
    let requested ← okOr .resourceLimitExceeded (checkedAdd requested bytes)
    requestedAllocationLoop entries requested

/-- `requested_allocation_for_chunks`. -/
def requestedAllocationForChunks (chunkEntries : List ChunkEntry) : Result Nat := do
  let requested ← allocationBytes sizeOfDenseLineEntry chunkEntries.length
  requestedAllocationLoop chunkEntries requested

/-- The stored delta of `offset` after `previous`; the first offset is stored as it is. -/
def offsetDelta (previous : Option Nat) (offset : Nat) : Result Nat :=
  match previous with
  | none => .ok offset
  | some previous => okOr .chunkTableInvalid (checkedSub offset previous)

/-- The deltas the offset loop of `encode` writes. -/
def offsetDeltas : Option Nat → List Nat → Result (List Nat)
  | _, [] => .ok []
  | previous, offset :: offsets => do
    let delta ← offsetDelta previous offset
    return delta :: (← offsetDeltas (some offset) offsets)

/-- The offset loop of `encoded_size`. -/
def offsetsSize : Option Nat → List Nat → Nat → Result Nat
  | _, [], size => .ok size
  | previous, offset :: offsets, size => do
    let delta ← offsetDelta previous offset
    let size ← okOr .resourceLimitExceeded (checkedAdd size (Dense.varuintLen delta))
    offsetsSize (some offset) offsets size

/-- The entry loop of `encoded_size`. -/
def entriesSize : List DenseLineEntry → Nat → Result Nat
  | [], size => .ok size
  | entry :: entries, size => do
    let offsetCount ← usizeToU64 entry.lineStartOffsets.length
    let size ← okOr .resourceLimitExceeded (checkedAdd size (Dense.varuintLen entry.chunkId))
    let size ← okOr .resourceLimitExceeded (checkedAdd size (Dense.varuintLen offsetCount))
    let size ← offsetsSize none entry.lineStartOffsets size
    entriesSize entries size

/-- `encoded_size`. -/
def encodedSize (self : DenseLineIndex) : Result Nat := do
  entriesSize self.entries (Dense.varuintLen (← usizeToU64 self.entries.length))

/-- One entry of `from_original_bytes`. -/
def entryFromOriginalBytes (input : List UInt8) (entry : ChunkEntry) : Result DenseLineEntry := do
  let stop ← okOr .containerCorrupt (checkedAdd entry.logicalOffset entry.uncompressedSize)
  let decoded ← okOr .containerCorrupt (getRange? input entry.logicalOffset stop)
  let offsets ← lineStartOffsets decoded entry.flags
  rejectIf (offsets.length ≠ entry.lineCount) .chunkTableInvalid
  return { chunkId := entry.chunkId, lineStartOffsets := offsets }

/-- `from_original_bytes`. -/
def fromOriginalBytes (input : List UInt8) (chunkEntries : List ChunkEntry) :
    Result DenseLineIndex := do
  let entries ← collect (entryFromOriginalBytes input) chunkEntries
  return { entries }

/-- One entry of `encode`. -/
def encodeEntry (entry : DenseLineEntry) : Result (List UInt8) := do
  let count ← usizeToU64 entry.lineStartOffsets.length
  let deltas ← offsetDeltas none entry.lineStartOffsets
  return Dense.writeVaruint entry.chunkId ++
    (Dense.writeVaruint count ++ deltas.flatMap Dense.writeVaruint)

/-- `encode`. -/
def encode (self : DenseLineIndex) : Result (List UInt8) := do
  let count ← usizeToU64 self.entries.length
  let entries ← collect encodeEntry self.entries
  return Dense.writeVaruint count ++ entries.flatten

/-- The offset that follows `previous` at distance `delta`. -/
def nextOffset (previous : Option Nat) (delta : Nat) : Result Nat :=
  match previous with
  | none => .ok delta
  | some previous => do
    let offset ← okOr .chunkTableInvalid (checkedAdd previous delta)
    rejectIf (offset ≤ previous) .chunkTableInvalid
    return offset

/-- The offset loop of `decode_for_chunks_with_limit`, `count` offsets being left to read. -/
def decodeOffsets (uncompressedSize : Nat) :
    Nat → Option Nat → List UInt8 → Result (List Nat × List UInt8)
  | 0, _, rest => .ok ([], rest)
  | count + 1, previous, rest => do
    let (delta, rest) ← Dense.readVaruint rest
    let offset ← nextOffset previous delta
    rejectIf (offset ≥ uncompressedSize) .chunkTableInvalid
    let (offsets, rest) ← decodeOffsets uncompressedSize count (some offset) rest
    return (offset :: offsets, rest)

/-- The entry loop of `decode_for_chunks_with_limit`. -/
def decodeEntries (maxAllocation : Nat) :
    List ChunkEntry → Nat → List UInt8 → Result (List DenseLineEntry × List UInt8)
  | [], _, rest => .ok ([], rest)
  | expected :: chunkEntries, requested, rest => do
    let (chunkId, rest) ← Dense.readVaruint rest
    rejectIf (chunkId ≠ expected.chunkId) .chunkTableInvalid
    let (offsetCount, rest) ← Dense.readVaruint rest
    rejectIf (offsetCount ≠ expected.lineCount) .chunkTableInvalid
    rejectIf (offsetCount > expected.uncompressedSize) .chunkTableInvalid
    -- Each offset consumes at least one encoded byte.
    rejectIf (offsetCount > (← usizeToU64 rest.length)) .unexpectedEof
    let offsetCount ← u64ToUsize offsetCount
    let bytes ← allocationBytes sizeOfU64 offsetCount
    let requested ← okOr .resourceLimitExceeded (checkedAdd requested bytes)
    rejectIf (requested > maxAllocation) .resourceLimitExceeded
    let (offsets, rest) ← decodeOffsets expected.uncompressedSize offsetCount none rest
    let (entries, rest) ← decodeEntries maxAllocation chunkEntries requested rest
    return ({ chunkId, lineStartOffsets := offsets } :: entries, rest)

/-- `decode_for_chunks_with_limit`. -/
def decodeForChunksWithLimit (bytes : List UInt8) (chunkEntries : List ChunkEntry)
    (maxAllocation : Nat) : Result DenseLineIndex := do
  let (entryCount, rest) ← Dense.readVaruint bytes
  rejectIf (entryCount ≠ (← usizeToU64 chunkEntries.length)) .chunkTableInvalid
  -- Every entry needs at least a chunk ID and an offset count.
  rejectIf (entryCount > (← usizeToU64 (rest.length / 2))) .unexpectedEof
  let requested ← allocationBytes sizeOfDenseLineEntry chunkEntries.length
  rejectIf (requested > maxAllocation) .resourceLimitExceeded
  let (entries, rest) ← decodeEntries maxAllocation chunkEntries requested rest
  rejectIf (rest ≠ []) .chunkTableInvalid
  return { entries }

/-- `line_start_offset`. -/
def lineStartOffset (self : DenseLineIndex) (chunkIndex localLineIndex : Nat) : Result Nat :=
  okOr .lineOutOfRange do
    let entry ← self.entries[chunkIndex]?
    entry.lineStartOffsets[localLineIndex]?

/-- `verify_chunk`. -/
def verifyChunk (self : DenseLineIndex) (chunkIndex : Nat) (decoded : List UInt8) (flags : Nat) :
    Result Unit := do
  let expected ← lineStartOffsets decoded flags
  let actual ← okOr .chunkTableInvalid self.entries[chunkIndex]?
  rejectIf (actual.lineStartOffsets ≠ expected) .chunkTableInvalid

end DenseLineIndex

end Qzt
