import Mathlib.Data.Vector.Basic
import Qzt.Foundation.Utf8
import Qzt.Format.Errors

/-!
# Bytes, text and the third-party crates

The byte-level vocabulary of the crate (`[u8; N]`, `&str`) and the two dependencies it
calls: BLAKE3 and zstd.  The dependencies are parameters.  `Blake3` carries the one
fact the streaming code relies on, that hashing fragments in order is hashing their
concatenation; nothing is assumed of zstd here.
-/

namespace Qzt

open Foundation

/-! ## Arrays and text -/

/-- `[u8; 32]`. -/
abbrev Digest := List.Vector UInt8 32

/-- `[u8; 16]`. -/
abbrev ContainerId := List.Vector UInt8 16

/-- `<[u8; N]>::try_from(&[u8])`. -/
def tryIntoArray (n : Nat) (bytes : List UInt8) : Option (List.Vector UInt8 n) :=
  if h : bytes.length = n then some ⟨bytes, h⟩ else none

@[simp] theorem tryIntoArray_toList {n : Nat} (v : List.Vector UInt8 n) :
    tryIntoArray n v.toList = some v := by
  have h : v.toList.length = n := v.2
  simp only [tryIntoArray, dif_pos h]
  rfl

theorem tryIntoArray_eq_some_iff {n : Nat} {bytes : List UInt8} {v : List.Vector UInt8 n} :
    tryIntoArray n bytes = some v ↔ bytes = v.toList := by
  constructor
  · intro h
    unfold tryIntoArray at h
    split at h
    · cases h
      rfl
    · cases h
  · rintro rfl
    exact tryIntoArray_toList v

/-- `str::as_bytes`. -/
def textBytes (s : String) : List UInt8 :=
  s.toByteArray.data.toList

/-- `str::from_utf8`. -/
def fromUtf8 (bytes : List UInt8) : Option String :=
  (Utf8.decode bytes).map String.ofList

theorem textBytes_ofList (cs : List Char) : textBytes (String.ofList cs) = Utf8.encode cs := by
  simp [textBytes, Utf8.encode, List.utf8Encode]

theorem length_textBytes_replicate (n : Nat) :
    (textBytes (String.ofList (List.replicate n 'a'))).length = n := by
  rw [textBytes_ofList]
  induction n with
  | zero => rfl
  | succ n ih =>
    rw [List.replicate_succ, Utf8.encode_cons, List.length_append, ih]
    exact Nat.add_comm 1 n

theorem textBytes_eq (s : String) : textBytes s = Utf8.encode s.toList := by
  rw [← textBytes_ofList, String.ofList_toList]

/-- Text survives the trip through its bytes. -/
@[simp] theorem fromUtf8_textBytes (s : String) : fromUtf8 (textBytes s) = some s := by
  simp [fromUtf8, textBytes_eq]

theorem textBytes_injective {s t : String} (h : textBytes s = textBytes t) : s = t := by
  have hst : fromUtf8 (textBytes s) = fromUtf8 (textBytes t) := by rw [h]
  simpa using hst

theorem fromUtf8_eq_some_iff {bytes : List UInt8} {s : String} :
    fromUtf8 bytes = some s ↔ bytes = textBytes s := by
  constructor
  · intro h
    simp only [fromUtf8, Option.map_eq_some_iff, Utf8.decode_eq_some_iff] at h
    obtain ⟨cs, rfl, rfl⟩ := h
    rw [textBytes_ofList]
  · rintro rfl
    exact fromUtf8_textBytes s

theorem isSome_fromUtf8_iff (bytes : List UInt8) :
    (fromUtf8 bytes).isSome = true ↔ Utf8.Valid bytes := by
  simp [fromUtf8, Utf8.valid_iff_isSome_decode]

/-! ## BLAKE3 -/

/-- The `blake3` crate: one-shot and incremental hashing. -/
structure Blake3 where
  Hasher : Type
  new : Hasher
  update : Hasher → List UInt8 → Hasher
  finalize : Hasher → Digest
  hash : List UInt8 → Digest
  /-- Hashing fragments in order hashes their concatenation. -/
  finalize_foldl_update : ∀ parts : List (List UInt8),
    finalize (parts.foldl update new) = hash parts.flatten

namespace Blake3

variable (blake3 : Blake3)

/-- The hasher has been fed exactly `bytes`, in some fragmentation. -/
def Absorbed (hasher : blake3.Hasher) (bytes : List UInt8) : Prop :=
  ∃ parts : List (List UInt8), hasher = parts.foldl blake3.update blake3.new ∧ parts.flatten = bytes

theorem absorbed_new : blake3.Absorbed blake3.new [] :=
  ⟨[], rfl, rfl⟩

variable {blake3}

theorem Absorbed.update {hasher : blake3.Hasher} {bytes : List UInt8}
    (h : blake3.Absorbed hasher bytes) (more : List UInt8) :
    blake3.Absorbed (blake3.update hasher more) (bytes ++ more) := by
  obtain ⟨parts, rfl, rfl⟩ := h
  exact ⟨parts ++ [more], by simp, by simp⟩

theorem Absorbed.finalize {hasher : blake3.Hasher} {bytes : List UInt8}
    (h : blake3.Absorbed hasher bytes) : blake3.finalize hasher = blake3.hash bytes := by
  obtain ⟨parts, rfl, rfl⟩ := h
  exact blake3.finalize_foldl_update parts

end Blake3

/-! ## zstd -/

/-- The `zstd` crate as the crate uses it: `encode_all`, `Decoder::with_dictionary`, and reading a
decoder to its end through `take(limit)`. -/
structure Zstd where
  Decoder : Type
  encodeAll : List UInt8 → Int32 → Option (List UInt8)
  withDictionary : List UInt8 → List UInt8 → Option Decoder
  readToEnd : Decoder → Nat → Option (List UInt8)

/-- The third-party code a QZT program runs against. -/
structure Env where
  blake3 : Blake3
  zstd : Zstd

/-! ## Chunk codec (`codec.rs`) -/

/-- `encode_chunk`. -/
def encodeChunk (env : Env) (input : List UInt8) (level : Int32) : Result (List UInt8) :=
  okOr .zstdEncodeError (env.zstd.encodeAll input level)

/-- `decode_chunk`. -/
def decodeChunk (env : Env) (compressed dictionary : List UInt8) (expectedSize : Nat) :
    Result (List UInt8) := do
  let decoder ← okOr .zstdDecodeError (env.zstd.withDictionary compressed dictionary)
  let _capacity ← u64ToUsize expectedSize
  -- One extra byte detects overflow without consuming unbounded output.
  let readLimit ← okOr .resourceLimitExceeded (checkedAdd expectedSize 1)
  let decoded ← okOr .zstdDecodeError (env.zstd.readToEnd decoder readLimit)
  rejectIf ((← usizeToU64 decoded.length) > expectedSize) .resourceLimitExceeded
  return decoded

theorem decodeChunk_of_readToEnd {env : Env} {compressed dictionary bytes : List UInt8}
    {expectedSize : Nat} {decoder : env.zstd.Decoder}
    (hdecoder : env.zstd.withDictionary compressed dictionary = some decoder)
    (hread : env.zstd.readToEnd decoder (expectedSize + 1) = some bytes)
    (hsize : bytes.length ≤ expectedSize) (hlt : expectedSize + 1 < 2 ^ 64) :
    decodeChunk env compressed dictionary expectedSize = .ok bytes := by
  rw [decodeChunk, hdecoder, okOr_some, ok_bind, u64ToUsize_of_lt (by omega), ok_bind,
    checkedAdd_of_lt hlt, okOr_some, ok_bind, hread, okOr_some, ok_bind,
    usizeToU64_of_lt (by omega), ok_bind, rejectIf_of_not (by omega), ok_bind]
  rfl

/-- Decoding a frame of the encoder gives back its input. -/
def Env.RoundTrips (env : Env) : Prop :=
  ∀ (bytes : List UInt8) (level : Int32) (frame : List UInt8), bytes.length + 1 < 2 ^ 64 →
    encodeChunk env bytes level = .ok frame → decodeChunk env frame [] bytes.length = .ok bytes

end Qzt
