import Qzt.Foundation.Slices
import Qzt.Format.Limits

/-!
# Fixed-layout structures (`fixed.rs`)

The 128-byte header, the 64-byte footer trailer, and the check that the physical
ranges of a container stay inside the file and do not overlap.
-/

namespace Qzt

open Foundation

/-- A little-endian word from an exact `n`-byte slice (`read_u16_le`, `read_u32_le`,
`read_u64_le`). -/
def readLe (n : Nat) (bytes : List UInt8) : Result Nat := do
  rejectIf (bytes.length ≠ n) .unexpectedEof
  return leNat bytes

/-- `Header`. -/
structure Header where
  metadataOffset : Nat
  metadataSize : Nat
  indexHintOffset : Nat
  containerId : ContainerId
  deriving DecidableEq

/-- `FooterTrailer`. -/
structure FooterTrailer where
  footerPayloadOffset : Nat
  footerPayloadSize : Nat
  footerPayloadChecksumBlake3 : Digest
  deriving DecidableEq

/-- `decode_fixed_prologue`. -/
def decodeFixedPrologue (bytes expectedMagic : List UInt8) (expectedLength : Nat)
    (lengthError magicError : QztError) : Result Unit := do
  rejectIf (slice bytes 0 8 ≠ expectedMagic) magicError
  let major ← readLe 2 (slice bytes 8 2)
  let minor ← readLe 2 (slice bytes 10 2)
  rejectIf (major ≠ majorVersion ∨ minor ≠ minorVersion) .unsupportedVersion
  let headerLength ← readLe 4 (slice bytes 12 4)
  rejectIf (headerLength ≠ expectedLength) lengthError

/-- `encode_fixed_prologue`. -/
def encodeFixedPrologue (magic : List UInt8) (len : Nat) : List UInt8 :=
  magic ++ (leBytes 2 majorVersion ++ (leBytes 2 minorVersion ++ leBytes 4 len))

/-- `Header::decode`. -/
def Header.decode (bytes : List UInt8) : Result Header := do
  rejectIf (bytes.length ≠ headerLen) .invalidHeader
  decodeFixedPrologue bytes magic headerLen .invalidHeader .invalidMagic
  let headerFlags ← readLe 8 (slice bytes 16 8)
  rejectIf (headerFlags ≠ 0) .invalidFlags
  rejectIf ((slice bytes 64 64).any (· != 0) = true) .invalidHeader
  let metadataOffset ← readLe 8 (slice bytes 24 8)
  let metadataSize ← readLe 8 (slice bytes 32 8)
  let indexHintOffset ← readLe 8 (slice bytes 40 8)
  let containerId ← okOr .invalidHeader (tryIntoArray 16 (slice bytes 48 16))
  return { metadataOffset, metadataSize, indexHintOffset, containerId }

/-- `Header::encode`. -/
def Header.encode (self : Header) : List UInt8 :=
  encodeFixedPrologue magic headerLen ++ (List.replicate 8 0 ++ (leBytes 8 self.metadataOffset ++
    (leBytes 8 self.metadataSize ++ (leBytes 8 self.indexHintOffset ++
      (self.containerId.toList ++ List.replicate 64 0)))))

/-- `FooterTrailer::decode`. -/
def FooterTrailer.decode (bytes : List UInt8) : Result FooterTrailer := do
  rejectIf (bytes.length ≠ footerTrailerLen) .invalidFooterTrailer
  decodeFixedPrologue bytes trailerMagic footerTrailerLen .invalidFooterTrailer
    .invalidFooterTrailer
  let footerPayloadOffset ← readLe 8 (slice bytes 16 8)
  let footerPayloadSize ← readLe 8 (slice bytes 24 8)
  let footerPayloadChecksumBlake3 ←
    okOr .invalidFooterTrailer (tryIntoArray 32 (slice bytes 32 32))
  return { footerPayloadOffset, footerPayloadSize, footerPayloadChecksumBlake3 }

/-- `FooterTrailer::encode`. -/
def FooterTrailer.encode (self : FooterTrailer) : List UInt8 :=
  encodeFixedPrologue trailerMagic footerTrailerLen ++ (leBytes 8 self.footerPayloadOffset ++
    (leBytes 8 self.footerPayloadSize ++ self.footerPayloadChecksumBlake3.toList))

/-! ## Physical ranges -/

/-- `PhysicalRange`: the half-open byte range `[offset, offset + size)`. -/
structure PhysicalRange where
  offset : Nat
  size : Nat
  deriving DecidableEq, Repr

namespace PhysicalRange

/-- `PhysicalRange::end`. -/
def endOffset (self : PhysicalRange) : Result Nat :=
  checkedPhysicalEnd self.offset self.size

/-- `is_inside_file`. -/
def isInsideFile (self : PhysicalRange) (finalFileSize : Nat) : Result Bool := do
  return decide ((← self.endOffset) ≤ finalFileSize)

/-- `overlaps`. -/
def overlaps (self other : PhysicalRange) : Result Bool := do
  let selfEnd ← self.endOffset
  let otherEnd ← other.endOffset
  return decide (self.offset < otherEnd ∧ other.offset < selfEnd)

/-- The key order `sort_by_key(|range| (range.offset, range.size))`. -/
def le (a b : PhysicalRange) : Prop :=
  a.offset < b.offset ∨ a.offset = b.offset ∧ a.size ≤ b.size

instance : DecidableRel le := fun a b =>
  inferInstanceAs (Decidable (a.offset < b.offset ∨ a.offset = b.offset ∧ a.size ≤ b.size))

end PhysicalRange

/-- The first loop of `validate_physical_ranges`: one range against file, header and trailer. -/
def validatePhysicalRange (finalFileSize : Nat) (range : PhysicalRange) : Result Unit := do
  rejectIf ((← range.isInsideFile finalFileSize) = false) .physicalRangeOutOfBounds
  rejectIf ((← range.overlaps ⟨0, headerLen⟩) = true) .rangeOverlap
  rejectIf ((← range.overlaps ⟨finalFileSize - footerTrailerLen, footerTrailerLen⟩) = true)
    .rangeOverlap

/-- The second loop: neighbours in the sorted order. -/
def validateNeighbours : List PhysicalRange → Result Unit
  | a :: b :: rest => do
    rejectIf ((← a.overlaps b) = true) .rangeOverlap
    validateNeighbours (b :: rest)
  | _ => .ok ⟨⟩

/-- `validate_physical_ranges`. -/
def validatePhysicalRanges (finalFileSize : Nat) (ranges : List PhysicalRange) : Result Unit := do
  rejectIf (finalFileSize < headerLen + footerTrailerLen) .invalidFooterTrailer
  checkAll (validatePhysicalRange finalFileSize) ranges
  validateNeighbours (ranges.insertionSort PhysicalRange.le)

end Qzt
