import Qzt.Container.DenseLaws

/-!
# A dense line index has one encoding

The decoder takes no other bytes than the encoder writes: a varint must be in its
shortest form, and the block must end with its last offset.  What it returns belongs to
the chunk table it was decoded under.
-/

namespace Qzt

open Foundation

/-! ## Varints -/

namespace Dense

/-- The groups that are left of a varint are the canonical form of their value; behind another
group it is not zero. -/
theorem readVaruintLoop_canonical {bytes rest : List UInt8} {value shift length result : Nat}
    (h : readVaruintLoop bytes value shift length = .ok (result, rest)) :
    ∃ v, bytes = leb128 v ++ rest ∧ result = value + v * 2 ^ shift ∧ (length = 0 ∨ 0 < v) := by
  induction bytes generalizing value shift length with
  | nil => cases h
  | cons byte bytes ih =>
    simp only [readVaruintLoop, bind_eq_ok_iff, rejectIf_eq_ok_iff] at h
    obtain ⟨_, -, h⟩ := h
    by_cases hlast : byte.toNat < 128
    · -- The last group: a zero would be a group too many.
      rw [if_pos hlast] at h
      simp only [bind_eq_ok_iff, rejectIf_eq_ok_iff, pure_eq_ok, Except.ok.injEq,
        Prod.mk.injEq] at h
      obtain ⟨_, hzero, rfl, rfl⟩ := h
      refine ⟨byte.toNat, ?_, ?_, ?_⟩
      · rw [leb128_of_lt hlast, UInt8.ofNat_toNat]
        rfl
      · rw [Nat.mod_eq_of_lt hlast]
      · rcases Nat.eq_zero_or_pos length with hfirst | hlater
        · exact Or.inl hfirst
        · refine Or.inr (Nat.pos_of_ne_zero fun hbyte => hzero ⟨by omega, ?_⟩)
          exact UInt8.toNat_inj.mp hbyte
    · rw [if_neg hlast] at h
      by_cases hwide : shift + 7 > 63
      · rw [if_pos hwide] at h
        cases h
      · rw [if_neg hwide] at h
        obtain ⟨v, rfl, rfl, hmore⟩ := ih h
        have hpos : 0 < v := by
          rcases hmore with hmore | hmore
          · exact absurd hmore (Nat.succ_ne_zero _)
          · exact hmore
        have hbyte : byte.toNat < 256 := UInt8.toNat_lt byte
        have hlow : byte.toNat % 128 + 128 = byte.toNat := by omega
        refine ⟨byte.toNat % 128 + v * 128, ?_, ?_, Or.inr (by omega)⟩
        · have hge : 128 ≤ byte.toNat % 128 + v * 128 := by omega
          rw [leb128_of_le hge, show (byte.toNat % 128 + v * 128) % 128 + 128 = byte.toNat by
            omega, show (byte.toNat % 128 + v * 128) / 128 = v by omega, UInt8.ofNat_toNat]
          rfl
        · rw [Nat.pow_add]
          ring

/-- What is read as a varint was written as one. -/
theorem readVaruint_canonical {bytes rest : List UInt8} {value : Nat}
    (h : readVaruint bytes = .ok (value, rest)) : bytes = writeVaruint value ++ rest := by
  obtain ⟨v, hbytes, rfl, -⟩ := readVaruintLoop_canonical h
  rw [hbytes, writeVaruint]
  simp

end Dense

namespace DenseLineIndex

/-! ## Offsets -/

theorem decodeOffsets_canonical {size count : Nat} {previous : Option Nat}
    {bytes rest : List UInt8} {offsets : List Nat}
    (h : decodeOffsets size count previous bytes = .ok (offsets, rest)) :
    offsets.length = count ∧ OffsetsFrom size previous offsets ∧
      ∃ deltas, offsetDeltas previous offsets = .ok deltas ∧
        bytes = deltas.flatMap Dense.writeVaruint ++ rest := by
  induction count generalizing previous bytes offsets with
  | zero =>
    cases h
    refine ⟨rfl, ⟨?_, by simp⟩, [], rfl, rfl⟩
    cases previous <;> simp
  | succ count ih =>
    simp only [decodeOffsets, bind_eq_ok_iff, rejectIf_eq_ok_iff, pure_eq_ok, Except.ok.injEq,
      Prod.mk.injEq, Prod.exists] at h
    obtain ⟨delta, bytes', hread, offset, hnext, _, hlt, others, rest', hothers, rfl, rfl⟩ := h
    obtain ⟨hlen, hfrom, deltas, hdeltas, hbytes⟩ := ih hothers
    have hdelta : offsetDelta previous offset = .ok delta ∧
        ∀ p, previous = some p → p < offset := by
      cases previous with
      | none =>
        cases hnext
        refine ⟨rfl, ?_⟩
        intro p hp
        cases hp
      | some p =>
        simp only [nextOffset, bind_eq_ok_iff, okOr_eq_ok_iff, checkedAdd_eq_some_iff,
          rejectIf_eq_ok_iff, pure_eq_ok, Except.ok.injEq] at hnext
        obtain ⟨_, ⟨-, rfl⟩, _, hgt, rfl⟩ := hnext
        refine ⟨?_, fun q hq => by cases hq; omega⟩
        rw [offsetDelta, checkedSub_eq_some_iff.mpr ⟨Nat.le_add_right _ _, rfl⟩, okOr_some,
          Nat.add_sub_cancel_left]
    refine ⟨by rw [List.length_cons, hlen], ⟨?_, ?_⟩, delta :: deltas, ?_, ?_⟩
    · -- The new offset lies between the previous one and the rest.
      obtain ⟨hsorted, -⟩ := hfrom
      cases previous with
      | none => exact hsorted
      | some p =>
        have hp := hdelta.2 p rfl
        simp only [Option.toList_some, List.singleton_append] at hsorted ⊢
        refine List.pairwise_cons.mpr ⟨?_, hsorted⟩
        intro later hlater
        rcases List.mem_cons.mp hlater with rfl | hlater
        · exact hp
        · exact Nat.lt_trans hp ((List.pairwise_cons.mp hsorted).1 later hlater)
    · rw [List.forall_mem_cons]
      exact ⟨Nat.lt_of_not_le hlt, hfrom.2⟩
    · rw [offsetDeltas, hdelta.1, ok_bind, hdeltas, ok_bind]
      rfl
    · rw [Dense.readVaruint_canonical hread, hbytes, List.flatMap_cons, List.append_assoc]

/-! ## Entries -/

/-- A dense entry read for a chunk: its identifier, and as many line starts as the chunk has lines,
in order and inside the chunk. -/
structure ReadFor (chunk : ChunkEntry) (entry : DenseLineEntry) : Prop where
  chunkId : entry.chunkId = chunk.chunkId
  count : entry.lineStartOffsets.length = chunk.lineCount
  increasing : entry.lineStartOffsets.Pairwise (· < ·)
  bounded : ∀ offset ∈ entry.lineStartOffsets, offset < chunk.uncompressedSize

theorem decodeEntries_canonical {maxAllocation requested : Nat} {chunks : List ChunkEntry}
    {bytes rest : List UInt8} {entries : List DenseLineEntry}
    (h : decodeEntries maxAllocation chunks requested bytes = .ok (entries, rest)) :
    List.Forall₂ ReadFor chunks entries ∧
      ∃ encoded, collect encodeEntry entries = .ok encoded ∧ bytes = encoded.flatten ++ rest := by
  induction chunks generalizing requested bytes entries with
  | nil =>
    cases h
    exact ⟨.nil, [], rfl, rfl⟩
  | cons chunk chunks ih =>
    simp only [decodeEntries, bind_eq_ok_iff, rejectIf_eq_ok_iff, u64ToUsize_eq_ok_iff, pure_eq_ok,
      Except.ok.injEq, Prod.mk.injEq, Prod.exists, ne_eq, not_not] at h
    obtain ⟨chunkId, afterId, hreadId, _, hid, count, afterCount, hreadCount, _, hcount, _, -, _, -,
      _, -, _, ⟨hword, rfl⟩, _, -, _, -, _, -, offsets, afterOffsets, hoffsets, others, rest',
      hothers, rfl, rfl⟩ := h
    obtain ⟨hlen, hfrom, deltas, hdeltas, hoffsetBytes⟩ := decodeOffsets_canonical hoffsets
    obtain ⟨hreads, encoded, hencoded, hotherBytes⟩ := ih hothers
    refine ⟨.cons ⟨hid, hlen.trans hcount, hfrom.1, hfrom.2⟩ hreads,
      (Dense.writeVaruint chunkId ++
        (Dense.writeVaruint count ++ deltas.flatMap Dense.writeVaruint)) :: encoded, ?_, ?_⟩
    · rw [collect, encodeEntry]
      simp only
      rw [hlen, usizeToU64_of_lt hword, ok_bind, hdeltas, ok_bind, hencoded]
      rfl
    · rw [Dense.readVaruint_canonical hreadId, Dense.readVaruint_canonical hreadCount,
        hoffsetBytes, hotherBytes]
      simp only [List.flatten_cons, List.append_assoc]

/-- Whatever decodes is the encoding of what it decodes to. -/
theorem encode_decode {bytes : List UInt8} {chunks : List ChunkEntry} {maxAllocation : Nat}
    {index : DenseLineIndex}
    (h : decodeForChunksWithLimit bytes chunks maxAllocation = .ok index) :
    List.Forall₂ ReadFor chunks index.entries ∧ index.encode = .ok bytes := by
  simp only [decodeForChunksWithLimit, bind_eq_ok_iff, rejectIf_eq_ok_iff, usizeToU64_eq_ok_iff,
    pure_eq_ok, Except.ok.injEq, Prod.exists, ne_eq, not_not] at h
  obtain ⟨count, afterCount, hreadCount, _, ⟨hword, rfl⟩, _, hcount, _, -, _, -, _, -, _, -, entries,
    rest, hentries, _, hrest, rfl⟩ := h
  obtain ⟨hreads, encoded, hencoded, hbytes⟩ := decodeEntries_canonical hentries
  refine ⟨hreads, ?_⟩
  rw [encode, ← hreads.length_eq, usizeToU64_of_lt hword, ok_bind, hencoded, ok_bind, pure_eq_ok,
    Dense.readVaruint_canonical hreadCount, hbytes, hrest, hcount, List.append_nil]

end DenseLineIndex

end Qzt
