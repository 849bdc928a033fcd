import Mathlib.Algebra.Ring.Nat
import Qzt.Foundation.Results

/-!
# Errors and machine words

`QztError` lists the error codes of `error.rs`.  The display texts are left out: no
modelled function reads them.

## Numbers

`usize` and `u64` values are natural numbers; every place where the source converts
or adds with a check keeps that check, against `2 ^ 64` (the crate's 64-bit targets).
-/

namespace Qzt

open Foundation

/-- The kinds of `std::io::Error` the crate tells apart or can raise itself. -/
inductive IoErrorKind where
  | unexpectedEof
  | invalidInput
  | other (code : Nat)
  deriving DecidableEq, Repr

/-- `QztError`, the error codes of every QZT operation. -/
inductive QztError where
  | invalidMagic
  | unsupportedVersion
  | invalidHeader
  | invalidFooterTrailer
  | invalidFooterPayload
  | nonCanonicalCbor
  | duplicateCborKey
  | footerChecksumMismatch
  | finalFileSizeMismatch
  | containerIdMismatch
  | metadataChecksumMismatch
  | metadataInvalid
  | duplicateDocumentId
  | versionMismatch
  | newlineModeMismatch
  | indexRootChecksumMismatch
  | missingRequiredBlock
  | unknownRequiredBlock
  | documentNotFound
  | invalidFlags
  | chunkTableChecksumMismatch
  | chunkTableInvalid
  | chunkCountMismatch
  | chunkSizeMismatch
  | physicalRangeOutOfBounds
  | logicalRangeOutOfBounds
  | invalidUtf8
  | invalidUtf8Boundary
  | lineOutOfRange
  | missingDictionary
  | dictionaryChecksumMismatch
  | compressedChunkChecksumMismatch
  | uncompressedChunkChecksumMismatch
  | zstdEncodeError
  | zstdDecodeError
  | containerCorrupt
  | resourceLimitExceeded
  | rangeOverlap
  | unexpectedEof
  | nonEmptyWriterSink
  | writerAlreadyFinished
  | verifiedChecksumMismatch
  | benchmarkMetricsMismatch
  | io (kind : IoErrorKind)
  | unsupportedIndexMode (mode : String)
  deriving DecidableEq, Repr

/-- `Result<T>`. -/
abbrev Result (α : Type) := Except QztError α

instance {α : Type} [DecidableEq α] : DecidableEq (Result α) := fun x y =>
  match x, y with
  | .ok a, .ok b => decidable_of_iff (a = b) (by simp)
  | .error a, .error b => decidable_of_iff (a = b) (by simp)
  | .ok _, .error _ => .isFalse (by simp)
  | .error _, .ok _ => .isFalse (by simp)

/-! ## Checked arithmetic (`primitives.rs`) -/

/-- `u64::checked_add`. -/
def checkedAdd (a b : Nat) : Option Nat :=
  if a + b < 2 ^ 64 then some (a + b) else none

/-- `u64::checked_sub`. -/
def checkedSub (a b : Nat) : Option Nat :=
  if b ≤ a then some (a - b) else none

/-- `u64::checked_mul`. -/
def checkedMul (a b : Nat) : Option Nat :=
  if a * b < 2 ^ 64 then some (a * b) else none

/-- `u64::saturating_add`. -/
def saturatingAdd (a b : Nat) : Nat :=
  min (a + b) (2 ^ 64 - 1)

/-- `u64::saturating_mul`. -/
def saturatingMul (a b : Nat) : Nat :=
  min (a * b) (2 ^ 64 - 1)

@[simp] theorem checkedAdd_eq_some_iff {a b c : Nat} :
    checkedAdd a b = some c ↔ a + b < 2 ^ 64 ∧ a + b = c := by
  unfold checkedAdd
  split <;> simp <;> omega

@[simp] theorem checkedSub_eq_some_iff {a b c : Nat} :
    checkedSub a b = some c ↔ b ≤ a ∧ a - b = c := by
  unfold checkedSub
  split <;> simp <;> omega

@[simp] theorem checkedMul_eq_some_iff {a b c : Nat} :
    checkedMul a b = some c ↔ a * b < 2 ^ 64 ∧ a * b = c := by
  unfold checkedMul
  split <;> simp <;> omega

/-- `usize_to_u64`. -/
def usizeToU64 (value : Nat) : Result Nat :=
  if value < 2 ^ 64 then .ok value else .error .resourceLimitExceeded

/-- `u64_to_usize`. -/
def u64ToUsize (value : Nat) : Result Nat :=
  if value < 2 ^ 64 then .ok value else .error .resourceLimitExceeded

/-- `checked_logical_end`. -/
def checkedLogicalEnd (offset size : Nat) : Result Nat :=
  okOr .logicalRangeOutOfBounds (checkedAdd offset size)

/-- `checked_physical_end`. -/
def checkedPhysicalEnd (offset size : Nat) : Result Nat :=
  okOr .physicalRangeOutOfBounds (checkedAdd offset size)

@[simp] theorem usizeToU64_eq_ok_iff {a b : Nat} :
    usizeToU64 a = .ok b ↔ a < 2 ^ 64 ∧ a = b := by
  unfold usizeToU64
  split <;> simp <;> omega

@[simp] theorem u64ToUsize_eq_ok_iff {a b : Nat} :
    u64ToUsize a = .ok b ↔ a < 2 ^ 64 ∧ a = b := by
  unfold u64ToUsize
  split <;> simp <;> omega

@[simp] theorem checkedLogicalEnd_eq_ok_iff {a b c : Nat} :
    checkedLogicalEnd a b = .ok c ↔ a + b < 2 ^ 64 ∧ a + b = c := by
  simp [checkedLogicalEnd]

theorem checkedAdd_of_lt {a b : Nat} (h : a + b < 2 ^ 64) : checkedAdd a b = some (a + b) :=
  checkedAdd_eq_some_iff.mpr ⟨h, rfl⟩

theorem checkedAdd_of_ge {a b : Nat} (h : 2 ^ 64 ≤ a + b) : checkedAdd a b = none :=
  if_neg (Nat.not_lt.mpr h)

theorem checkedSub_of_le {a b : Nat} (h : b ≤ a) : checkedSub a b = some (a - b) :=
  if_pos h

theorem checkedMul_of_lt {a b : Nat} (h : a * b < 2 ^ 64) : checkedMul a b = some (a * b) :=
  if_pos h

theorem usizeToU64_of_lt {a : Nat} (h : a < 2 ^ 64) : usizeToU64 a = .ok a :=
  if_pos h

theorem u64ToUsize_of_lt {a : Nat} (h : a < 2 ^ 64) : u64ToUsize a = .ok a :=
  if_pos h

theorem failsOnlyWith_usizeToU64 (value : Nat) :
    FailsOnlyWith .resourceLimitExceeded (usizeToU64 value) := by
  unfold usizeToU64
  split
  · exact failsOnlyWith_ok _
  · exact failsOnlyWith_error _

theorem failsOnlyWith_u64ToUsize (value : Nat) :
    FailsOnlyWith .resourceLimitExceeded (u64ToUsize value) :=
  failsOnlyWith_usizeToU64 value

theorem checkedLogicalEnd_of_lt {a b : Nat} (h : a + b < 2 ^ 64) :
    checkedLogicalEnd a b = .ok (a + b) := by
  rw [checkedLogicalEnd, checkedAdd_of_lt h, okOr_some]

theorem checkedPhysicalEnd_of_lt {a b : Nat} (h : a + b < 2 ^ 64) :
    checkedPhysicalEnd a b = .ok (a + b) := by
  rw [checkedPhysicalEnd, checkedAdd_of_lt h, okOr_some]

theorem checkedPhysicalEnd_of_ge {a b : Nat} (h : 2 ^ 64 ≤ a + b) :
    checkedPhysicalEnd a b = .error .physicalRangeOutOfBounds := by
  rw [checkedPhysicalEnd, checkedAdd_of_ge h, okOr_none]

@[simp] theorem checkedPhysicalEnd_eq_ok_iff {a b c : Nat} :
    checkedPhysicalEnd a b = .ok c ↔ a + b < 2 ^ 64 ∧ a + b = c := by
  simp [checkedPhysicalEnd]

end Qzt
