import Qzt.Container.DenseLineIndex

/-!
# The dense line index is read back

The delta varints of a dense index decode to the index they were written from, under the
chunk table it belongs to; and `encoded_size` is the length of the encoding.
-/

namespace Qzt

open Foundation

/-! ## Varints -/

namespace Dense

/-- Reading from the middle of a varint, `value` being what the earlier groups gave. -/
private theorem readVaruintLoop_leb128 (v : Nat) :
    ∀ {value shift length : Nat} {rest : List UInt8}, v * 2 ^ shift < 2 ^ 64 → shift ≤ 63 →
      (length = 0 ∨ 0 < v) →
      readVaruintLoop (leb128 v ++ rest) value shift length = .ok (value + v * 2 ^ shift, rest) := by
  induction v using Nat.strongRecOn with
  | _ v ih =>
    intro value shift length rest hlt hshift hlength
    rcases Nat.lt_or_ge v 128 with hsmall | hlarge
    · -- The last group.
      have hlast : ¬ (shift = 63 ∧ v % 128 > 1) := by
        rintro ⟨rfl, hpayload⟩
        omega
      rw [leb128_of_lt hsmall, List.singleton_append, readVaruintLoop, toNat_ofNat_last hsmall]
      simp only
      rw [rejectIf_of_not hlast, ok_bind, if_pos hsmall, rejectIf_of_not, ok_bind,
        Nat.mod_eq_of_lt hsmall]
      · rfl
      · rintro ⟨hmore, hzero⟩
        have hvalue := congrArg UInt8.toNat hzero
        rw [toNat_ofNat_last hsmall] at hvalue
        have : (0 : UInt8).toNat = 0 := rfl
        omega
    · -- A group with the continuation bit: enough shift is left for the rest.
      have hroom : shift + 7 < 64 := by
        have hpow : 2 ^ (shift + 7) < 2 ^ 64 := by
          calc 2 ^ (shift + 7) = 128 * 2 ^ shift := by rw [Nat.pow_add, Nat.mul_comm]
            _ ≤ v * 2 ^ shift := Nat.mul_le_mul_right _ hlarge
            _ < 2 ^ 64 := hlt
        exact (Nat.pow_lt_pow_iff_right (by decide)).mp hpow
      have hsplit : v * 2 ^ shift = (v % 128) * 2 ^ shift + (v / 128) * 2 ^ (shift + 7) := by
        conv_lhs => rw [← Nat.mod_add_div v 128]
        rw [Nat.pow_add]
        ring
      have hnext : v / 128 * 2 ^ (shift + 7) < 2 ^ 64 := by omega
      rw [leb128_of_le hlarge, List.cons_append, readVaruintLoop, toNat_ofNat_group]
      simp only
      rw [rejectIf_of_not (by omega), ok_bind, if_neg (by omega), if_neg (by omega),
        ih (v / 128) (by omega) hnext (by omega) (Or.inr (by omega)),
        show (v % 128 + 128) % 128 = v % 128 by omega, hsplit]
      congr 2
      omega

/-- A written varint is read back. -/
theorem readVaruint_writeVaruint {v : Nat} (h : v < 2 ^ 64) (rest : List UInt8) :
    readVaruint (writeVaruint v ++ rest) = .ok (v, rest) := by
  rw [readVaruint, writeVaruint, readVaruintLoop_leb128 v (by simpa using h) (by omega) (Or.inl rfl)]
  simp

end Dense

/-! ## Offsets -/

namespace DenseLineIndex

/-- Offsets after `previous` increase and stay below `size`. -/
def OffsetsFrom (size : Nat) (previous : Option Nat) (offsets : List Nat) : Prop :=
  (previous.toList ++ offsets).Pairwise (· < ·) ∧ ∀ offset ∈ offsets, offset < size

section Offsets

variable {size : Nat} {previous : Option Nat} {offsets : List Nat}

private theorem OffsetsFrom.cons {offset : Nat} (h : OffsetsFrom size previous (offset :: offsets)) :
    OffsetsFrom size (some offset) offsets ∧ offset < size ∧ ∀ p, previous = some p → p < offset := by
  obtain ⟨hsorted, hbound⟩ := h
  rw [List.forall_mem_cons] at hbound
  rw [List.pairwise_append] at hsorted
  refine ⟨⟨hsorted.2.1, hbound.2⟩, hbound.1, ?_⟩
  rintro p rfl
  exact hsorted.2.2 p (by simp) offset List.mem_cons_self

/-- Written offsets are read back. -/
theorem decodeOffsets_offsetDeltas (hsize : size ≤ 2 ^ 64) (h : OffsetsFrom size previous offsets)
    {deltas : List Nat} (hdeltas : offsetDeltas previous offsets = .ok deltas) (rest : List UInt8) :
    decodeOffsets size offsets.length previous (deltas.flatMap Dense.writeVaruint ++ rest) =
      .ok (offsets, rest) := by
  induction offsets generalizing previous deltas with
  | nil =>
    cases hdeltas
    rfl
  | cons offset offsets ih =>
    obtain ⟨hnext, hlt, hprevious⟩ := h.cons
    simp only [offsetDeltas, bind_eq_ok_iff, pure_eq_ok, Except.ok.injEq] at hdeltas
    obtain ⟨delta, hdelta, others, hothers, rfl⟩ := hdeltas
    have hback : nextOffset previous delta = .ok offset ∧ delta ≤ offset := by
      cases previous with
      | none =>
        cases hdelta
        exact ⟨rfl, Nat.le_refl _⟩
      | some p =>
        simp only [offsetDelta, okOr_eq_ok_iff, checkedSub_eq_some_iff] at hdelta
        obtain ⟨hle, rfl⟩ := hdelta
        have hp := hprevious p rfl
        refine ⟨?_, Nat.sub_le _ _⟩
        rw [nextOffset, checkedAdd_of_lt (by omega), okOr_some, ok_bind, rejectIf_of_not (by omega),
          ok_bind, Nat.add_sub_cancel' hle]
        rfl
    rw [List.length_cons, decodeOffsets, List.flatMap_cons, List.append_assoc,
      Dense.readVaruint_writeVaruint (by omega), ok_bind]
    simp only
    rw [hback.1, ok_bind, rejectIf_of_not (by omega), ok_bind, ih hnext hothers, ok_bind]
    rfl

/-- Adding a part that overflows and adding it with more behind it fail alike. -/
private theorem okOr_checkedAdd_bind {start part rest : Nat} {next : Nat → Result Nat}
    (hnext : start + part < 2 ^ 64 → next (start + part) = usizeToU64 (start + part + rest)) :
    (okOr .resourceLimitExceeded (checkedAdd start part) >>= next : Result Nat) =
      usizeToU64 (start + part + rest) := by
  by_cases hsum : start + part < 2 ^ 64
  · rw [checkedAdd_of_lt hsum, okOr_some, ok_bind, hnext hsum]
  · rw [checkedAdd_of_ge (Nat.le_of_not_lt hsum), okOr_none, error_bind, usizeToU64,
      if_neg (by omega)]

theorem length_offsetDeltas {deltas : List Nat} (h : offsetDeltas previous offsets = .ok deltas) :
    offsets.length ≤ (deltas.flatMap Dense.writeVaruint).length := by
  induction offsets generalizing previous deltas with
  | nil => exact Nat.zero_le _
  | cons offset offsets ih =>
    simp only [offsetDeltas, bind_eq_ok_iff, pure_eq_ok, Except.ok.injEq] at h
    obtain ⟨delta, -, others, hothers, rfl⟩ := h
    have hpos := length_leb128_pos delta
    have hrest := ih hothers
    rw [List.length_cons, List.flatMap_cons, List.length_append, Dense.writeVaruint]
    omega

/-- The size loop adds up the length of the deltas. -/
theorem offsetsSize_eq {deltas : List Nat} (h : offsetDeltas previous offsets = .ok deltas)
    {start : Nat} (hstart : start < 2 ^ 64) : offsetsSize previous offsets start =
      usizeToU64 (start + (deltas.flatMap Dense.writeVaruint).length) := by
  induction offsets generalizing previous deltas start with
  | nil =>
    cases h
    rw [offsetsSize, List.flatMap_nil, List.length_nil, Nat.add_zero, usizeToU64_of_lt hstart]
  | cons offset offsets ih =>
    simp only [offsetDeltas, bind_eq_ok_iff, pure_eq_ok, Except.ok.injEq] at h
    obtain ⟨delta, hdelta, others, hothers, rfl⟩ := h
    rw [offsetsSize, hdelta, ok_bind, List.flatMap_cons, List.length_append, ← Nat.add_assoc]
    exact okOr_checkedAdd_bind fun hsum => ih hothers hsum

/-- Increasing offsets have deltas, which take no more bytes than there are positions. -/
theorem offsetDeltas_of_offsetsFrom (h : OffsetsFrom size previous offsets)
    (hprevious : ∀ p, previous = some p → p < size) :
    ∃ deltas, offsetDeltas previous offsets = .ok deltas ∧
      (deltas.flatMap Dense.writeVaruint).length + previous.elim 0 (· + 1) ≤ size := by
  induction offsets generalizing previous with
  | nil =>
    refine ⟨[], rfl, ?_⟩
    cases previous with
    | none => exact Nat.zero_le _
    | some p =>
      have hp := hprevious p rfl
      simp only [List.flatMap_nil, List.length_nil, Option.elim_some]
      omega
  | cons offset offsets ih =>
    obtain ⟨hnext, hlt, hgreater⟩ := h.cons
    obtain ⟨others, hothers, hlen⟩ := ih hnext fun p hp => by cases hp; exact hlt
    rw [Option.elim_some] at hlen
    cases previous with
    | none =>
      refine ⟨offset :: others, by rw [offsetDeltas, offsetDelta, ok_bind, hothers]; rfl, ?_⟩
      have hfirst : (Dense.writeVaruint offset).length ≤ offset + 1 := by
        rcases Nat.eq_zero_or_pos offset with rfl | hpos
        · exact Nat.le_refl 1
        · exact Nat.le_succ_of_le (length_leb128_le hpos)
      rw [List.flatMap_cons, List.length_append, Option.elim_none]
      omega
    | some p =>
      have hp := hgreater p rfl
      refine ⟨(offset - p) :: others, ?_, ?_⟩
      · rw [offsetDeltas, offsetDelta,
          checkedSub_eq_some_iff.mpr ⟨Nat.le_of_lt hp, rfl⟩, okOr_some, ok_bind, hothers]
        rfl
      · have hdelta : (Dense.writeVaruint (offset - p)).length ≤ offset - p :=
          length_leb128_le (by omega)
        rw [List.flatMap_cons, List.length_append, Option.elim_some]
        omega

end Offsets

/-! ## Entries -/

/-- A dense entry that belongs to a chunk. -/
structure Belongs (chunk : ChunkEntry) (entry : DenseLineEntry) : Prop where
  chunkId : entry.chunkId = chunk.chunkId
  chunkId_lt : chunk.chunkId < 2 ^ 64
  count : entry.lineStartOffsets.length = chunk.lineCount
  count_le : chunk.lineCount ≤ chunk.uncompressedSize
  size_lt : chunk.uncompressedSize < 2 ^ 64
  offsets : OffsetsFrom chunk.uncompressedSize none entry.lineStartOffsets

theorem requestedAllocationLoop_le {chunks : List ChunkEntry} {start total : Nat}
    (h : requestedAllocationLoop chunks start = .ok total) : start ≤ total := by
  induction chunks generalizing start with
  | nil =>
    cases h
    exact Nat.le_refl _
  | cons chunk chunks ih =>
    simp only [requestedAllocationLoop, bind_eq_ok_iff, okOr_eq_ok_iff,
      checkedAdd_eq_some_iff] at h
    obtain ⟨_, -, _, -, _, ⟨-, rfl⟩, hrest⟩ := h
    have := ih hrest
    omega

theorem failsOnlyWith_requestedAllocationLoop (chunks : List ChunkEntry) (start : Nat) :
    FailsOnlyWith .resourceLimitExceeded (requestedAllocationLoop chunks start) := by
  induction chunks generalizing start with
  | nil => exact failsOnlyWith_ok _
  | cons chunk chunks ih =>
    refine failsOnlyWith_bind ?_ fun lineCount _ => failsOnlyWith_bind ?_ fun bytes _ =>
      failsOnlyWith_bind (failsOnlyWith_okOr _ _) fun requested _ => ih requested
    · exact failsOnlyWith_u64ToUsize _
    · exact failsOnlyWith_bind (failsOnlyWith_okOr _ _) fun _ _ => failsOnlyWith_usizeToU64 _

/-- A table that has asked for too much already fails with the budget error, whatever it asks for
next. -/
theorem requestedAllocationLoop_exceeded {α : Type} {chunks : List ChunkEntry}
    {start maxAllocation : Nat} (h : maxAllocation < start) (result : α) :
    (do
      let total ← requestedAllocationLoop chunks start
      rejectIf (total > maxAllocation) .resourceLimitExceeded
      return result : Result α) = .error .resourceLimitExceeded := by
  cases hloop : requestedAllocationLoop chunks start with
  | error e => rw [failsOnlyWith_requestedAllocationLoop chunks start e hloop, error_bind]
  | ok total =>
    have hle := requestedAllocationLoop_le hloop
    rw [ok_bind, rejectIf_of (by omega), error_bind]

/-- Written entries are read back when the table stays within the budget. -/
theorem decodeEntries_encodeEntry {chunks : List ChunkEntry} {entries : List DenseLineEntry}
    (h : List.Forall₂ Belongs chunks entries) {encoded : List (List UInt8)}
    (hencode : collect encodeEntry entries = .ok encoded) {start maxAllocation : Nat}
    (hstart : start ≤ maxAllocation) (hlen : encoded.flatten.length < 2 ^ 64) :
    decodeEntries maxAllocation chunks start encoded.flatten = (do
      let total ← requestedAllocationLoop chunks start
      rejectIf (total > maxAllocation) .resourceLimitExceeded
      return (entries, [])) := by
  induction h generalizing encoded start with
  | nil =>
    cases hencode
    rw [requestedAllocationLoop, ok_bind, rejectIf_of_not (by omega)]
    rfl
  | @cons chunk entry chunks entries hbelongs _ ih =>
    simp only [collect, encodeEntry, bind_eq_ok_iff, usizeToU64_eq_ok_iff, pure_eq_ok,
      Except.ok.injEq] at hencode
    obtain ⟨_, ⟨_, ⟨hcountLt, rfl⟩, deltas, hdeltas, rfl⟩, others, hothers, rfl⟩ := hencode
    have hdeltasLen := length_offsetDeltas hdeltas
    rw [List.flatten_cons, List.append_assoc, List.append_assoc] at hlen ⊢
    simp only [List.length_append] at hlen
    have hcount := hbelongs.count
    have hcountLe := hbelongs.count_le
    have hsizeLt := hbelongs.size_lt
    have hid : entry.chunkId < 2 ^ 64 := by
      rw [hbelongs.chunkId]
      exact hbelongs.chunkId_lt
    rw [decodeEntries, Dense.readVaruint_writeVaruint hid, ok_bind]
    simp only
    rw [rejectIf_of_not (by simp [hbelongs.chunkId]), ok_bind,
      Dense.readVaruint_writeVaruint hcountLt, ok_bind]
    simp only
    rw [rejectIf_of_not (by omega), ok_bind, rejectIf_of_not (by omega), ok_bind,
      usizeToU64_of_lt (by rw [List.length_append]; omega), ok_bind,
      rejectIf_of_not (by rw [List.length_append]; omega), ok_bind, u64ToUsize_of_lt hcountLt,
      ok_bind, requestedAllocationLoop, ← hcount, u64ToUsize_of_lt hcountLt, ok_bind]
    -- Both sides ask for the offsets of this chunk.
    cases hbytes : allocationBytes sizeOfU64 entry.lineStartOffsets.length with
    | error e => rfl
    | ok bytes =>
      rw [ok_bind, ok_bind]
      cases hsum : checkedAdd start bytes with
      | none => rfl
      | some requested =>
        rw [okOr_some, ok_bind, ok_bind]
        by_cases hover : requested > maxAllocation
        · rw [rejectIf_of hover, error_bind, requestedAllocationLoop_exceeded hover]
        · rw [rejectIf_of_not hover, ok_bind,
            decodeOffsets_offsetDeltas (by omega) hbelongs.offsets hdeltas, ok_bind]
          simp only
          rw [ih hothers (by omega) (by omega)]
          cases requestedAllocationLoop chunks requested with
          | error e => rfl
          | ok total =>
            rw [ok_bind, ok_bind]
            by_cases htotal : total > maxAllocation
            · rw [rejectIf_of htotal]
              rfl
            · rw [rejectIf_of_not htotal]
              rfl

theorem length_encodeEntries {entries : List DenseLineEntry} {encoded : List (List UInt8)}
    (h : collect encodeEntry entries = .ok encoded) : 2 * entries.length ≤ encoded.flatten.length := by
  induction entries generalizing encoded with
  | nil => exact Nat.zero_le _
  | cons entry entries ih =>
    simp only [collect, encodeEntry, bind_eq_ok_iff, pure_eq_ok, Except.ok.injEq] at h
    obtain ⟨_, ⟨count, -, deltas, -, rfl⟩, others, hothers, rfl⟩ := h
    have hid := length_leb128_pos entry.chunkId
    have hcount := length_leb128_pos count
    have hrest := ih hothers
    simp only [List.length_cons, List.flatten_cons, List.length_append, Dense.writeVaruint]
    omega

/-- A written dense index is read back under its chunk table, unless the table asks for more than
the budget. -/
theorem decode_encode {index : DenseLineIndex} {chunks : List ChunkEntry} {bytes : List UInt8}
    (h : List.Forall₂ Belongs chunks index.entries) (hencode : index.encode = .ok bytes)
    (hlen : bytes.length < 2 ^ 64) (maxAllocation : Nat) :
    decodeForChunksWithLimit bytes chunks maxAllocation = (do
      let requested ← requestedAllocationForChunks chunks
      rejectIf (requested > maxAllocation) .resourceLimitExceeded
      return index) := by
  simp only [encode, bind_eq_ok_iff, usizeToU64_eq_ok_iff, pure_eq_ok, Except.ok.injEq] at hencode
  obtain ⟨_, ⟨hcountLt, rfl⟩, encoded, hencoded, rfl⟩ := hencode
  have hentries := length_encodeEntries hencoded
  have hcount := h.length_eq
  rw [List.length_append] at hlen
  rw [decodeForChunksWithLimit, Dense.readVaruint_writeVaruint hcountLt, ok_bind]
  simp only
  rw [usizeToU64_of_lt (by omega), ok_bind, rejectIf_of_not (by omega), ok_bind,
    usizeToU64_of_lt (by omega), ok_bind, rejectIf_of_not (by omega), ok_bind,
    requestedAllocationForChunks]
  cases hstart : allocationBytes sizeOfDenseLineEntry chunks.length with
  | error e => rfl
  | ok start =>
    rw [ok_bind, ok_bind]
    by_cases hover : start > maxAllocation
    · rw [rejectIf_of hover, error_bind, requestedAllocationLoop_exceeded hover]
    · rw [rejectIf_of_not hover, ok_bind,
        decodeEntries_encodeEntry h hencoded (by omega) (by omega)]
      cases requestedAllocationLoop chunks start with
      | error e => rfl
      | ok total =>
        rw [ok_bind, ok_bind]
        by_cases htotal : total > maxAllocation
        · rw [rejectIf_of htotal]
          rfl
        · rw [rejectIf_of_not htotal]
          rfl

/-! ## The size of the encoding -/

/-- Entries that belong to their chunks are encoded, in little more than a byte a position. -/
theorem encodeEntries_of_belongs {chunks : List ChunkEntry} {entries : List DenseLineEntry}
    (h : List.Forall₂ Belongs chunks entries) :
    ∃ encoded, collect encodeEntry entries = .ok encoded ∧
      encoded.flatten.length ≤ 20 * entries.length + (chunks.map ChunkEntry.uncompressedSize).sum := by
  induction h with
  | nil => exact ⟨[], rfl, Nat.le_refl _⟩
  | @cons chunk entry chunks entries hbelongs _ ih =>
    obtain ⟨others, hothers, hlen⟩ := ih
    obtain ⟨deltas, hdeltas, hdeltasLen⟩ :=
      offsetDeltas_of_offsetsFrom hbelongs.offsets fun p hp => nomatch hp
    have hcount := hbelongs.count
    have hcountLe := hbelongs.count_le
    have hsize := hbelongs.size_lt
    have hword : entry.lineStartOffsets.length < 2 ^ 64 := by omega
    have hidLen := @length_leb128_le_of_lt entry.chunkId 9
      (by rw [hbelongs.chunkId]; exact Nat.lt_trans hbelongs.chunkId_lt (by decide))
    have hcountLen := @length_leb128_le_of_lt entry.lineStartOffsets.length 9
      (Nat.lt_trans hword (by decide))
    refine ⟨(Dense.writeVaruint entry.chunkId ++
      (Dense.writeVaruint entry.lineStartOffsets.length ++
        deltas.flatMap Dense.writeVaruint)) :: others, ?_, ?_⟩
    · rw [collect, encodeEntry, usizeToU64_of_lt hword, ok_bind, hdeltas, ok_bind, pure_eq_ok,
        ok_bind, hothers, ok_bind]
      rfl
    · rw [Option.elim_none] at hdeltasLen
      simp only [List.flatten_cons, List.length_append, List.length_cons, List.map_cons,
        List.sum_cons, Dense.writeVaruint] at hdeltasLen ⊢
      omega

theorem encode_of_belongs {chunks : List ChunkEntry} {index : DenseLineIndex}
    (h : List.Forall₂ Belongs chunks index.entries) (hcount : index.entries.length < 2 ^ 64) :
    ∃ bytes, index.encode = .ok bytes ∧ bytes.length ≤
      10 + 20 * index.entries.length + (chunks.map ChunkEntry.uncompressedSize).sum := by
  obtain ⟨encoded, hencoded, hlen⟩ := encodeEntries_of_belongs h
  have hhead := @length_leb128_le_of_lt index.entries.length 9 (Nat.lt_trans hcount (by decide))
  refine ⟨_, by rw [encode, usizeToU64_of_lt hcount, ok_bind, hencoded, ok_bind]; rfl, ?_⟩
  rw [List.length_append, Dense.writeVaruint]
  omega

theorem entriesSize_eq {entries : List DenseLineEntry} {encoded : List (List UInt8)}
    (h : collect encodeEntry entries = .ok encoded) {start : Nat} (hstart : start < 2 ^ 64) :
    entriesSize entries start = usizeToU64 (start + encoded.flatten.length) := by
  induction entries generalizing encoded start with
  | nil =>
    cases h
    rw [entriesSize, List.flatten_nil, List.length_nil, Nat.add_zero, usizeToU64_of_lt hstart]
  | cons entry entries ih =>
    simp only [collect, encodeEntry, bind_eq_ok_iff, usizeToU64_eq_ok_iff, pure_eq_ok,
      Except.ok.injEq] at h
    obtain ⟨_, ⟨_, ⟨hcount, rfl⟩, deltas, hdeltas, rfl⟩, others, hothers, rfl⟩ := h
    have hlen : start + (((Dense.writeVaruint entry.chunkId ++
        (Dense.writeVaruint entry.lineStartOffsets.length ++
          deltas.flatMap Dense.writeVaruint)) :: others).flatten).length =
        start + Dense.varuintLen entry.chunkId +
          (Dense.varuintLen entry.lineStartOffsets.length +
            ((deltas.flatMap Dense.writeVaruint).length + others.flatten.length)) := by
      simp only [List.flatten_cons, List.length_append, Dense.varuintLen, leb128Length,
        Dense.writeVaruint]
      omega
    rw [hlen, entriesSize, usizeToU64_of_lt hcount, ok_bind]
    refine okOr_checkedAdd_bind fun _ => ?_
    rw [← Nat.add_assoc]
    refine okOr_checkedAdd_bind fun hcounts => ?_
    rw [offsetsSize_eq hdeltas hcounts, ← Nat.add_assoc]
    -- The deltas, then the entries behind them.
    by_cases hoffsets : start + Dense.varuintLen entry.chunkId +
        Dense.varuintLen entry.lineStartOffsets.length +
          (deltas.flatMap Dense.writeVaruint).length < 2 ^ 64
    · rw [usizeToU64_of_lt hoffsets, ok_bind, ih hothers hoffsets]
    · rw [usizeToU64, if_neg hoffsets, error_bind, usizeToU64, if_neg (by omega)]

/-- The predicted size is the length of the encoding. -/
theorem encodedSize_eq {index : DenseLineIndex} {bytes : List UInt8}
    (h : index.encode = .ok bytes) : index.encodedSize = usizeToU64 bytes.length := by
  simp only [encode, bind_eq_ok_iff, usizeToU64_eq_ok_iff, pure_eq_ok, Except.ok.injEq] at h
  obtain ⟨_, ⟨hcount, rfl⟩, encoded, hencoded, rfl⟩ := h
  have hhead := @length_leb128_le_of_lt index.entries.length 9 (by omega)
  have hstart : Dense.varuintLen index.entries.length < 2 ^ 64 :=
    Nat.lt_of_le_of_lt hhead (by decide)
  rw [encodedSize, usizeToU64_of_lt hcount, ok_bind, entriesSize_eq hencoded hstart,
    List.length_append]
  rfl

end DenseLineIndex

end Qzt
