import Qzt.Cbor.Value

/-!
# Format constants and resource limits (`format.rs`, `limits.rs`)
-/

namespace Qzt

open Foundation

/-- `MAGIC`: `b"QZT\0TXT1"`. -/
def magic : List UInt8 := [0x51, 0x5a, 0x54, 0x00, 0x54, 0x58, 0x54, 0x31]

/-- `TRAILER_MAGIC`: `b"QZTTAIL1"`. -/
def trailerMagic : List UInt8 := [0x51, 0x5a, 0x54, 0x54, 0x41, 0x49, 0x4c, 0x31]

/-- `MAJOR_VERSION`. -/
def majorVersion : Nat := 0

/-- `MINOR_VERSION`. -/
def minorVersion : Nat := 1

/-- `HEADER_LEN`. -/
def headerLen : Nat := 128

/-- `FOOTER_TRAILER_LEN`. -/
def footerTrailerLen : Nat := 64

/-- `CHUNK_ENTRY_LEN`. -/
def chunkEntryLen : Nat := 128

/-- `ResourceLimits`.  `max_preview_bytes` is read by the command line only and is left out. -/
structure ResourceLimits where
  maxCompressedChunkSize : Nat
  maxUncompressedChunkSize : Nat
  maxDictionarySize : Nat
  maxIndexBlockSize : Nat
  maxDenseLineIndexAllocation : Nat
  maxCborAllocation : Nat
  maxCborItems : Nat
  deriving DecidableEq, Repr

namespace ResourceLimits

/-- `ResourceLimits::default`. -/
def default : ResourceLimits where
  maxCompressedChunkSize := 72 * 1024 * 1024
  maxUncompressedChunkSize := 64 * 1024 * 1024
  maxDictionarySize := 16 * 1024 * 1024
  maxIndexBlockSize := 64 * 1024 * 1024
  maxDenseLineIndexAllocation := 256 * 1024 * 1024
  maxCborAllocation := 16 * 1024 * 1024
  maxCborItems := 1000000

variable (limits : ResourceLimits)

/-- `enforce_index_block_size`. -/
def enforceIndexBlockSize (size : Nat) : Result Unit :=
  rejectIf (size > limits.maxIndexBlockSize) .resourceLimitExceeded

/-- `enforce_chunk_table_entries`. -/
def enforceChunkTableEntries (count : Nat) : Result Unit := do
  let bytes ← okOr .resourceLimitExceeded (checkedMul count chunkEntryLen)
  limits.enforceIndexBlockSize bytes

/-- `enforce_chunk_sizes`. -/
def enforceChunkSizes (compressed uncompressed : Nat) : Result Unit :=
  rejectIf (compressed > limits.maxCompressedChunkSize ∨
    uncompressed > limits.maxUncompressedChunkSize) .resourceLimitExceeded

/-- `enforce_dense_allocation`. -/
def enforceDenseAllocation (bytes : Nat) : Result Unit :=
  rejectIf (bytes > limits.maxDenseLineIndexAllocation) .resourceLimitExceeded

/-- `cbor_limits`. -/
def cborLimits : CborLimits where
  maxAllocation := limits.maxCborAllocation
  maxItems := limits.maxCborItems

@[simp] theorem enforceIndexBlockSize_eq_ok_iff {size : Nat} {u : Unit} :
    limits.enforceIndexBlockSize size = .ok u ↔ size ≤ limits.maxIndexBlockSize := by
  simp [enforceIndexBlockSize]

@[simp] theorem enforceChunkTableEntries_eq_ok_iff {count : Nat} {u : Unit} :
    limits.enforceChunkTableEntries count = .ok u ↔
      count * chunkEntryLen < 2 ^ 64 ∧ count * chunkEntryLen ≤ limits.maxIndexBlockSize := by
  simp [enforceChunkTableEntries, bind_eq_ok_iff]

@[simp] theorem enforceChunkSizes_eq_ok_iff {compressed uncompressed : Nat} {u : Unit} :
    limits.enforceChunkSizes compressed uncompressed = .ok u ↔
      compressed ≤ limits.maxCompressedChunkSize ∧
        uncompressed ≤ limits.maxUncompressedChunkSize := by
  simp [enforceChunkSizes]

@[simp] theorem enforceDenseAllocation_eq_ok_iff {bytes : Nat} {u : Unit} :
    limits.enforceDenseAllocation bytes = .ok u ↔ bytes ≤ limits.maxDenseLineIndexAllocation := by
  simp [enforceDenseAllocation]

end ResourceLimits

end Qzt
