import Qzt.Container.ChunkTable

/-!
# Round trips of the fixed layouts

Header, footer trailer and chunk entries are read back from their encodings whenever
every word fits its field.
-/

namespace Qzt

open Foundation

theorem readLe_eq_ok_iff {n v : Nat} {bytes : List UInt8} :
    readLe n bytes = .ok v ↔ bytes.length = n ∧ leNat bytes = v := by
  simp [readLe, bind_eq_ok_iff]

theorem readLe_leBytes {n v : Nat} (h : v < 256 ^ n) : readLe n (leBytes n v) = .ok v := by
  rw [readLe, rejectIf_of_not (by simp), ok_bind, pure_eq_ok, leNat_leBytes h]

/-! ## Prologues -/

/-- The prologue a structure starts with is accepted. -/
theorem decodeFixedPrologue_append {magic : List UInt8} (hmagic : magic.length = 8) {len : Nat}
    (hlen : len < 2 ^ 32) (rest : List UInt8) (lengthError magicError : QztError) :
    decodeFixedPrologue (encodeFixedPrologue magic len ++ rest) magic len lengthError magicError =
      .ok ⟨⟩ := by
  have hcut : slice (encodeFixedPrologue magic len ++ rest) 0 8 = magic ∧
      slice (encodeFixedPrologue magic len ++ rest) 8 2 = leBytes 2 majorVersion ∧
      slice (encodeFixedPrologue magic len ++ rest) 10 2 = leBytes 2 minorVersion ∧
      slice (encodeFixedPrologue magic len ++ rest) 12 4 = leBytes 4 len := by
    simp [encodeFixedPrologue, slice_append_of_le, slice_append_of_ge, slice_eq_self, hmagic]
  obtain ⟨h0, h8, h10, h12⟩ := hcut
  rw [decodeFixedPrologue, h0, h8, h10, h12, rejectIf_of_not (by simp), ok_bind,
    readLe_leBytes (by decide), ok_bind, readLe_leBytes (by decide), ok_bind,
    rejectIf_of_not (by simp), ok_bind, readLe_leBytes (by simpa using hlen), ok_bind,
    rejectIf_of_not (by simp)]

/-! ## Header -/

theorem Header.length_encode (self : Header) : self.encode.length = headerLen := by
  simp [Header.encode, encodeFixedPrologue, magic, headerLen]

/-- Every word of the header fits its field. -/
structure Header.Fits (header : Header) : Prop where
  metadataOffset_lt : header.metadataOffset < 2 ^ 64
  metadataSize_lt : header.metadataSize < 2 ^ 64
  indexHintOffset_lt : header.indexHintOffset < 2 ^ 64

theorem Header.decode_encode {header : Header} (h : header.Fits) :
    Header.decode header.encode = .ok header := by
  have hprologue : (encodeFixedPrologue magic headerLen).length = 16 := rfl
  have hcut : slice header.encode 16 8 = List.replicate 8 0 ∧
      slice header.encode 24 8 = leBytes 8 header.metadataOffset ∧
      slice header.encode 32 8 = leBytes 8 header.metadataSize ∧
      slice header.encode 40 8 = leBytes 8 header.indexHintOffset ∧
      slice header.encode 48 16 = header.containerId.toList ∧
      slice header.encode 64 64 = List.replicate 64 0 := by
    simp [-List.reduceReplicate, Header.encode, slice_append_of_le, slice_append_of_ge,
      slice_eq_self, hprologue]
  obtain ⟨h16, h24, h32, h40, h48, h64⟩ := hcut
  rw [Header.decode, rejectIf_of_not (by simp [Header.length_encode]), ok_bind, h16, h24, h32, h40,
    h48, h64, Header.encode,
    decodeFixedPrologue_append (by decide) (by decide), ok_bind,
    show (List.replicate 8 0 : List UInt8) = leBytes 8 0 by decide, readLe_leBytes (by decide),
    ok_bind, rejectIf_of_not (by simp), ok_bind, rejectIf_of_not (by decide), ok_bind,
    readLe_leBytes h.metadataOffset_lt, ok_bind, readLe_leBytes h.metadataSize_lt, ok_bind,
    readLe_leBytes h.indexHintOffset_lt, ok_bind, tryIntoArray_toList, okOr_some, ok_bind]
  rfl

/-! ## Footer trailer -/

theorem FooterTrailer.length_encode (self : FooterTrailer) :
    self.encode.length = footerTrailerLen := by
  simp [FooterTrailer.encode, encodeFixedPrologue, trailerMagic, footerTrailerLen]

/-- Every word of the trailer fits its field. -/
structure FooterTrailer.Fits (trailer : FooterTrailer) : Prop where
  footerPayloadOffset_lt : trailer.footerPayloadOffset < 2 ^ 64
  footerPayloadSize_lt : trailer.footerPayloadSize < 2 ^ 64

theorem FooterTrailer.decode_encode {trailer : FooterTrailer} (h : trailer.Fits) :
    FooterTrailer.decode trailer.encode = .ok trailer := by
  have hprologue : (encodeFixedPrologue trailerMagic footerTrailerLen).length = 16 := rfl
  have hcut : slice trailer.encode 16 8 = leBytes 8 trailer.footerPayloadOffset ∧
      slice trailer.encode 24 8 = leBytes 8 trailer.footerPayloadSize ∧
      slice trailer.encode 32 32 = trailer.footerPayloadChecksumBlake3.toList := by
    simp [FooterTrailer.encode, slice_append_of_le, slice_append_of_ge, slice_eq_self, hprologue]
  obtain ⟨h16, h24, h32⟩ := hcut
  rw [FooterTrailer.decode, rejectIf_of_not (by simp [FooterTrailer.length_encode]), ok_bind, h16,
    h24, h32, FooterTrailer.encode, decodeFixedPrologue_append (by decide) (by decide), ok_bind,
    readLe_leBytes h.footerPayloadOffset_lt, ok_bind, readLe_leBytes h.footerPayloadSize_lt,
    ok_bind, tryIntoArray_toList, okOr_some, ok_bind]
  rfl

/-! ## Chunk entries -/

theorem ChunkEntry.length_encode (self : ChunkEntry) : self.encode.length = chunkEntryLen := by
  simp [ChunkEntry.encode, chunkEntryLen]

/-- Every word of the entry fits its field. -/
structure ChunkEntry.Fits (entry : ChunkEntry) : Prop where
  chunkId_lt : entry.chunkId < 2 ^ 64
  physicalOffset_lt : entry.physicalOffset < 2 ^ 64
  compressedSize_lt : entry.compressedSize < 2 ^ 64
  logicalOffset_lt : entry.logicalOffset < 2 ^ 64
  uncompressedSize_lt : entry.uncompressedSize < 2 ^ 64
  firstLine_lt : entry.firstLine < 2 ^ 64
  lineCount_lt : entry.lineCount < 2 ^ 64
  dictionaryId_lt : entry.dictionaryId < 2 ^ 32
  flags_lt : entry.flags < 2 ^ 32

theorem ChunkEntry.decode_encode {entry : ChunkEntry} (h : entry.Fits) :
    ChunkEntry.decode entry.encode = .ok entry := by
  have hcut : slice entry.encode 0 8 = leBytes 8 entry.chunkId ∧
      slice entry.encode 8 8 = leBytes 8 entry.physicalOffset ∧
      slice entry.encode 16 8 = leBytes 8 entry.compressedSize ∧
      slice entry.encode 24 8 = leBytes 8 entry.logicalOffset ∧
      slice entry.encode 32 8 = leBytes 8 entry.uncompressedSize ∧
      slice entry.encode 40 8 = leBytes 8 entry.firstLine ∧
      slice entry.encode 48 8 = leBytes 8 entry.lineCount ∧
      slice entry.encode 56 4 = leBytes 4 entry.dictionaryId ∧
      slice entry.encode 60 4 = leBytes 4 entry.flags ∧
      slice entry.encode 64 32 = entry.compressedChecksumBlake3.toList ∧
      slice entry.encode 96 32 = entry.uncompressedChecksumBlake3.toList := by
    simp [ChunkEntry.encode, slice_append_of_le, slice_append_of_ge, slice_eq_self]
  obtain ⟨h0, h8, h16, h24, h32, h40, h48, h56, h60, h64, h96⟩ := hcut
  rw [ChunkEntry.decode, rejectIf_of_not (by simp [ChunkEntry.length_encode]), ok_bind, h0, h8,
    h16, h24, h32, h40, h48, h56, h60, h64, h96, readLe_leBytes h.chunkId_lt, ok_bind,
    readLe_leBytes h.physicalOffset_lt, ok_bind, readLe_leBytes h.compressedSize_lt, ok_bind,
    readLe_leBytes h.logicalOffset_lt, ok_bind, readLe_leBytes h.uncompressedSize_lt, ok_bind,
    readLe_leBytes h.firstLine_lt, ok_bind, readLe_leBytes h.lineCount_lt, ok_bind,
    readLe_leBytes h.dictionaryId_lt, ok_bind, readLe_leBytes h.flags_lt, ok_bind,
    tryIntoArray_toList, okOr_some, ok_bind, tryIntoArray_toList, okOr_some, ok_bind]
  rfl

/-- A word that was read is written back. -/
theorem leBytes_of_readLe {n v : Nat} {bytes : List UInt8} (h : readLe n bytes = .ok v) :
    leBytes n v = bytes := by
  obtain ⟨hlength, rfl⟩ := readLe_eq_ok_iff.mp h
  rw [← hlength, leBytes_leNat]

/-- An entry that was read is written back. -/
theorem ChunkEntry.encode_of_decode {bytes : List UInt8} {entry : ChunkEntry}
    (h : ChunkEntry.decode bytes = .ok entry) : entry.encode = bytes := by
  simp only [ChunkEntry.decode, bind_eq_ok_iff, rejectIf_eq_ok_iff, ne_eq, not_not, okOr_eq_ok_iff,
    tryIntoArray_eq_some_iff, pure_eq_ok, Except.ok.injEq] at h
  obtain ⟨_, hlength, chunkId, hid, physicalOffset, hphysical, compressedSize, hcompressed,
    logicalOffset, hlogical, uncompressedSize, huncompressed, firstLine, hfirst, lineCount, hcount,
    dictionaryId, hdictionary, flags, hflags, compressed, hdigest, uncompressed, hdigest',
    rfl⟩ := h
  rw [ChunkEntry.encode]
  dsimp only
  rw [leBytes_of_readLe hid, leBytes_of_readLe hphysical, leBytes_of_readLe hcompressed,
    leBytes_of_readLe hlogical, leBytes_of_readLe huncompressed, leBytes_of_readLe hfirst,
    leBytes_of_readLe hcount, leBytes_of_readLe hdictionary, leBytes_of_readLe hflags, ← hdigest,
    ← hdigest']
  -- The fields lie end to end over the whole record.
  iterate 10 rw [slice_append_slice]
  exact slice_eq_self hlength

/-- The exact chunks of a byte string of whole records are the byte string. -/
theorem flatten_chunksExact {n : Nat} {bytes : List UInt8} (h : bytes.length % n = 0) :
    (chunksExact n bytes).flatten = bytes := by
  have hprefixes : ∀ count, ((List.range count).map fun i => slice bytes (i * n) n).flatten =
      slice bytes 0 (count * n) := by
    intro count
    induction count with
    | zero => rw [Nat.zero_mul, slice_length_zero]; rfl
    | succ count ih =>
      rw [List.range_succ, List.map_append, List.flatten_append, ih, List.map_singleton,
        List.flatten_singleton, Nat.succ_mul, ← slice_append_slice, Nat.zero_add]
  rw [chunksExact, hprefixes]
  exact slice_eq_self (Nat.div_mul_cancel (Nat.dvd_of_mod_eq_zero h)).symm

/-- Records that were read are written back. -/
theorem flatMap_encode_of_collect {records : List (List UInt8)} {entries : List ChunkEntry}
    (h : collect ChunkEntry.decode records = .ok entries) :
    entries.flatMap ChunkEntry.encode = records.flatten := by
  rw [collect_eq_ok_iff] at h
  induction h with
  | nil => rfl
  | cons hdecode _ ih =>
    rw [List.flatMap_cons, List.flatten_cons, ih, ChunkEntry.encode_of_decode hdecode]

end Qzt
