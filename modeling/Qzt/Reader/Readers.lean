import Qzt.Container.SkeletonReadAt
import Qzt.Reader.DeepVerify

/-!
# The two readers (`reader.rs`, `io.rs`)

`QztReader` holds the whole container; `QztFileReader` reads a positioned source.  The
two differ in how they fetch compressed bytes and in how normal verification and the
footer checksum hash them: slices on one side, 64 KiB pieces on the other.
-/

namespace Qzt

open Foundation

/-! ## Reader over memory -/

/-- `QztReader`. -/
structure QztReader where
  bytes : List UInt8
  details : SkeletonDetails
  deriving DecidableEq

namespace QztReader

variable (env : Env)

/-- `QztReader::open_with_limits`. -/
def openWithLimits (bytes : List UInt8) (limits : ResourceLimits) : Result QztReader := do
  let details ← openSkeletonDetailsWithLimits env bytes limits
  return { bytes, details }

/-- `QztReader::open`. -/
def «open» (bytes : List UInt8) : Result QztReader := do
  let details ← openSkeletonDetails env bytes
  return { bytes, details }

variable (self : QztReader)

/-- `QztReader::slice_physical`. -/
def slicePhysical (range : PhysicalRange) : Result (List UInt8) := do
  let stop ← checkedPhysicalEnd range.offset range.size
  rejectIf (stop > self.bytes.length) .physicalRangeOutOfBounds
  okOr .physicalRangeOutOfBounds (getRange? self.bytes range.offset stop)

/-- `QztReader::decode_entry`. -/
def decodeEntry : DecodeEntry := fun entry => do
  let compressed ← self.slicePhysical ⟨entry.physicalOffset, entry.compressedSize⟩
  decodeCompressedEntry env entry compressed self.details.dictionaries

/-- `QztReader::export_all`. -/
def exportAll : Result (List UInt8) := do
  let decoded ← collect (self.decodeEntry env) self.details.chunkEntries
  return decoded.flatten

/-- `QztReader::read_range`. -/
def readRange (offset length : Nat) : Result (List UInt8) :=
  readRangeFromEntries self.details.chunkEntries self.details.summary.originalSize offset length
    (self.decodeEntry env)

/-- `QztReader::read_range_with_metrics`. -/
def readRangeWithMetrics (offset length : Nat) : Result RangeReadReport :=
  readRangeWithMetricsFromEntries self.details.chunkEntries self.details.summary.originalSize
    offset length (self.decodeEntry env)

/-- `QztReader::read_text_range`. -/
def readTextRange (offset length : Nat) : Result String := do
  let bytes ← self.readRange env offset length
  okOr .invalidUtf8Boundary (fromUtf8 bytes)

/-- `QztReader::read_range_verified`. -/
def readRangeVerified (offset length : Nat) (expected : Checksum) : Result (List UInt8) := do
  let bytes ← self.readRange env offset length
  verifyExpectedChecksum env bytes expected
  return bytes

/-- `QztReader::read_document`. -/
def readDocument (docId : String) : Result (List UInt8) := do
  let document ← findDocument self.details docId
  self.readRange env document.logicalOffset document.byteLength

/-- `QztReader::read_document_verified`. -/
def readDocumentVerified (docId : String) (expected : Checksum) : Result (List UInt8) := do
  let bytes ← self.readDocument env docId
  verifyExpectedChecksum env bytes expected
  return bytes

/-- `QztReader::read_line_raw`. -/
def readLineRaw (lineZeroBased : Nat) : Result (List UInt8) :=
  readLineFromEntries self.details lineZeroBased (self.decodeEntry env)

/-- `QztReader::read_line_text`. -/
def readLineText (lineZeroBased : Nat) : Result String := do
  let bytes ← self.readLineRaw env lineZeroBased
  okOr .invalidUtf8 (fromUtf8 bytes)

/-- The chunk check of `QztReader::verify_normal`. -/
def verifyNormalEntry (entry : ChunkEntry) : Result Unit := do
  let compressed ← self.slicePhysical ⟨entry.physicalOffset, entry.compressedSize⟩
  rejectIf ((Checksum.blake3 env compressed).value ≠ entry.compressedChecksumBlake3)
    .compressedChunkChecksumMismatch

/-- The prefix check of `QztReader::verify_normal`. -/
def verifyPrefix : Result Unit :=
  match self.details.footerPayload.containerChecksum with
  | some expected => do
    let prefixBytes ← okOr .physicalRangeOutOfBounds
      (getRange? self.bytes 0 self.details.footerPayloadOffset)
    rejectIf (Checksum.blake3 env prefixBytes ≠ expected) .containerCorrupt
  | none => .ok ⟨⟩

/-- `QztReader::verify_normal`. -/
def verifyNormal : Result VerifyReport := do
  checkAll (self.verifyNormalEntry env) self.details.chunkEntries
  self.verifyPrefix env
  return reportForLevel self.details .normal 0

/-- `QztReader::verify_deep`. -/
def verifyDeep : Result VerifyReport := do
  let _ ← self.verifyNormal env
  verifyDeepEntries env self.details (self.decodeEntry env)

/-- `QztReader::verify`. -/
def verify (level : VerifyLevel) : Result VerifyReport :=
  match level with
  | .quick => .ok (reportForLevel self.details level 0)
  | .normal => self.verifyNormal env
  | .deep => self.verifyDeep env

/-- `QztReader::read_range_cached`. -/
def readRangeCached (offset length : Nat) (cache : ChunkDecodeCache) :
    Result (List UInt8 × ChunkDecodeCache) :=
  readRangeFromEntriesCached self.details.chunkEntries self.details.summary.originalSize offset
    length cache (self.decodeEntry env)

/-- `QztReader::footer_checksum`. -/
def footerChecksum : Result Checksum := do
  let stop ← okOr .invalidFooterTrailer (checkedSub self.bytes.length footerTrailerLen)
  let start ← u64ToUsize self.details.footerPayloadOffset
  let footer ← okOr .invalidFooterPayload (getRange? self.bytes start stop)
  return Checksum.blake3 env footer

end QztReader

/-! ## Reader over a positioned source -/

/-- The buffer size of `hash_read_at_range`. -/
def hashBufferSize : Nat := 64 * 1024

/-- The loop of `hash_read_at_range`; `fuel := remaining` pieces are always enough. -/
def hashReadAtLoop (env : Env) (source : ReadAt) :
    Nat → Nat → Nat → env.blake3.Hasher → Except IoErrorKind env.blake3.Hasher
  | 0, _, _, hasher => .ok hasher
  | fuel + 1, position, remaining, hasher =>
    if remaining > 0 then do
      let readLen := min remaining hashBufferSize
      let buffer ← source.readExactAt position readLen
      let hasher := env.blake3.update hasher buffer
      let position ← okOr .invalidInput (checkedAdd position readLen)
      hashReadAtLoop env source fuel position (remaining - readLen) hasher
    else
      .ok hasher

/-- `hash_read_at_range`. -/
def hashReadAtRange (env : Env) (source : ReadAt) (offset size : Nat) :
    Except IoErrorKind env.blake3.Hasher :=
  hashReadAtLoop env source size offset size env.blake3.new

/-- `QztFileReader`. -/
structure QztFileReader where
  source : ReadAt
  len : Nat
  details : SkeletonDetails

namespace QztFileReader

variable (env : Env)

/-- `QztFileReader::open_read_at_with_limits`. -/
def openReadAtWithLimits (source : ReadAt) (len : Nat) (limits : ResourceLimits) :
    Result QztFileReader := do
  let details ← openSkeletonDetailsReadAt env source len limits
  return { source, len, details }

/-- `QztFileReader::open_read_at`. -/
def openReadAt (source : ReadAt) (len : Nat) : Result QztFileReader :=
  openReadAtWithLimits env source len .default

variable (self : QztFileReader)

/-- `QztFileReader::read_physical`. -/
def readPhysical (range : PhysicalRange) : Result (List UInt8) := do
  let stop ← checkedPhysicalEnd range.offset range.size
  rejectIf (stop > self.len) .physicalRangeOutOfBounds
  let len ← u64ToUsize range.size
  readExactAtQzt self.source range.offset len

/-- `QztFileReader::decode_entry`. -/
def decodeEntry : DecodeEntry := fun entry => do
  let compressed ← self.readPhysical ⟨entry.physicalOffset, entry.compressedSize⟩
  decodeCompressedEntry env entry compressed self.details.dictionaries

/-- `QztFileReader::export_all`. -/
def exportAll : Result (List UInt8) := do
  let decoded ← collect (self.decodeEntry env) self.details.chunkEntries
  return decoded.flatten

/-- `QztFileReader::read_range`. -/
def readRange (offset length : Nat) : Result (List UInt8) :=
  readRangeFromEntries self.details.chunkEntries self.details.summary.originalSize offset length
    (self.decodeEntry env)

/-- `QztFileReader::read_range_with_metrics`. -/
def readRangeWithMetrics (offset length : Nat) : Result RangeReadReport :=
  readRangeWithMetricsFromEntries self.details.chunkEntries self.details.summary.originalSize
    offset length (self.decodeEntry env)

/-- `QztFileReader::read_text_range`. -/
def readTextRange (offset length : Nat) : Result String := do
  let bytes ← self.readRange env offset length
  okOr .invalidUtf8Boundary (fromUtf8 bytes)

/-- `QztFileReader::read_range_verified`. -/
def readRangeVerified (offset length : Nat) (expected : Checksum) : Result (List UInt8) := do
  let bytes ← self.readRange env offset length
  verifyExpectedChecksum env bytes expected
  return bytes

/-- `QztFileReader::read_document`. -/
def readDocument (docId : String) : Result (List UInt8) := do
  let document ← findDocument self.details docId
  self.readRange env document.logicalOffset document.byteLength

/-- `QztFileReader::read_document_verified`. -/
def readDocumentVerified (docId : String) (expected : Checksum) : Result (List UInt8) := do
  let bytes ← self.readDocument env docId
  verifyExpectedChecksum env bytes expected
  return bytes

/-- `QztFileReader::read_line_raw`. -/
def readLineRaw (lineZeroBased : Nat) : Result (List UInt8) :=
  readLineFromEntries self.details lineZeroBased (self.decodeEntry env)

/-- `QztFileReader::read_line_text`. -/
def readLineText (lineZeroBased : Nat) : Result String := do
  let bytes ← self.readLineRaw env lineZeroBased
  okOr .invalidUtf8 (fromUtf8 bytes)

/-- `QztFileReader::hash_physical_range`. -/
def hashPhysicalRange (start stop : Nat) : Result Checksum := do
  rejectIf (stop > self.len ∨ start > stop) .physicalRangeOutOfBounds
  match hashReadAtRange env self.source start (stop - start) with
  | .ok hasher => .ok (Checksum.fromHasher env hasher)
  | .error kind => .error (readAtError kind)

/-- `QztFileReader::hash_physical_prefix`. -/
def hashPhysicalPrefix (stop : Nat) : Result Checksum :=
  self.hashPhysicalRange env 0 stop

/-- The chunk check of `QztFileReader::verify_normal`. -/
def verifyNormalEntry (entry : ChunkEntry) : Result Unit := do
  let stop ← checkedPhysicalEnd entry.physicalOffset entry.compressedSize
  let actual ← self.hashPhysicalRange env entry.physicalOffset stop
  rejectIf (actual.value ≠ entry.compressedChecksumBlake3) .compressedChunkChecksumMismatch

/-- The prefix check of `QztFileReader::verify_normal`. -/
def verifyPrefix : Result Unit :=
  match self.details.footerPayload.containerChecksum with
  | some expected => do
    let actual ← self.hashPhysicalPrefix env self.details.footerPayloadOffset
    rejectIf (actual ≠ expected) .containerCorrupt
  | none => .ok ⟨⟩

/-- `QztFileReader::verify_normal`. -/
def verifyNormal : Result VerifyReport := do
  checkAll (self.verifyNormalEntry env) self.details.chunkEntries
  self.verifyPrefix env
  return reportForLevel self.details .normal 0

/-- `QztFileReader::verify_deep`. -/
def verifyDeep : Result VerifyReport := do
  let _ ← self.verifyNormal env
  verifyDeepEntries env self.details (self.decodeEntry env)

/-- `QztFileReader::verify`. -/
def verify (level : VerifyLevel) : Result VerifyReport :=
  match level with
  | .quick => .ok (reportForLevel self.details level 0)
  | .normal => self.verifyNormal env
  | .deep => self.verifyDeep env

/-- `QztFileReader::read_range_cached`. -/
def readRangeCached (offset length : Nat) (cache : ChunkDecodeCache) :
    Result (List UInt8 × ChunkDecodeCache) :=
  readRangeFromEntriesCached self.details.chunkEntries self.details.summary.originalSize offset
    length cache (self.decodeEntry env)

/-- `QztFileReader::footer_checksum`. -/
def footerChecksum : Result Checksum := do
  let stop ← okOr .invalidFooterTrailer (checkedSub self.len footerTrailerLen)
  self.hashPhysicalRange env self.details.footerPayloadOffset stop

end QztFileReader

end Qzt
