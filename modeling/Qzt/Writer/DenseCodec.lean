import Qzt.Container.DenseCanonical
import Qzt.Writer.PlannedTables
import Qzt.Writer.Reopening

/-!
# The dense line index codec is exact

Under a planned chunk table the index of the text is built, measured, encoded and read
back, or refused by the allocation budget alone; and whatever is read back under any chunk
table is encoded to the same bytes.
-/

namespace Qzt

open Foundation

/-- The entry of a chunk is built from the text around it. -/
theorem entryFromOriginalBytes_of_describesPart {done : List (List UInt8)} {entry : ChunkEntry}
    {part rest : List UInt8} (h : DescribesPart done entry part)
    (hlen : (done.flatten ++ (part ++ rest)).length < 2 ^ 64) :
    DenseLineIndex.entryFromOriginalBytes (done.flatten ++ (part ++ rest)) entry =
      .ok ⟨entry.chunkId, partLineStarts done.flatten part⟩ := by
  have hrange := getRange?_append_left done.flatten part rest
  simp only [List.length_append] at hlen
  have hstarts : lineStartOffsets part entry.flags = .ok (partLineStarts done.flatten part) := by
    rw [lineStartOffsets_eq (by omega), h.flags, localLineStarts_continuationFlag]
  rw [DenseLineIndex.entryFromOriginalBytes, h.logicalOffset, h.uncompressedSize,
    checkedAdd_of_lt (by omega), okOr_some, ok_bind, hrange, okOr_some, ok_bind, hstarts, ok_bind,
    rejectIf_of_not (not_not_intro h.lineCount.symm), ok_bind, pure_eq_ok]

/-- The index of a described text is built. -/
theorem fromOriginalBytes_of_describes {entries : List ChunkEntry} {parts : List (List UInt8)}
    (h : Describes [] entries parts) (hlen : parts.flatten.length < 2 ^ 64) :
    ∃ index, DenseLineIndex.fromOriginalBytes parts.flatten entries = .ok index := by
  -- The text before the chunk is generalised, so that the induction can move over it.
  have hgen : ∀ {done parts : List (List UInt8)} {entries : List ChunkEntry},
      Describes done entries parts → (done.flatten ++ parts.flatten).length < 2 ^ 64 →
        ∃ denses, collect (DenseLineIndex.entryFromOriginalBytes
          (done.flatten ++ parts.flatten)) entries = .ok denses := by
    intro done parts entries hdescribes hword
    induction hdescribes with
    | nil => exact ⟨[], rfl⟩
    | @cons done entry entries part parts hpart _ ih =>
      rw [List.flatten_append, List.flatten_singleton, List.append_assoc] at ih
      rw [List.flatten_cons] at hword ⊢
      obtain ⟨denses, hdenses⟩ := ih hword
      refine ⟨⟨entry.chunkId, partLineStarts done.flatten part⟩ :: denses, ?_⟩
      rw [collect, entryFromOriginalBytes_of_describesPart hpart hword, ok_bind, hdenses]
      rfl
  obtain ⟨denses, hdenses⟩ := hgen h hlen
  rw [List.flatten_nil, List.nil_append] at hdenses
  exact ⟨⟨denses⟩, by rw [DenseLineIndex.fromOriginalBytes, hdenses]; rfl⟩

/-- The budget of a decoder, as a test. -/
theorem decodeForChunksWithLimit_encode {index : DenseLineIndex} {chunks : List ChunkEntry}
    {bytes : List UInt8} (h : List.Forall₂ DenseLineIndex.Belongs chunks index.entries)
    (hencode : index.encode = .ok bytes) (hlen : bytes.length < 2 ^ 64) (maxAllocation : Nat) :
    ((∃ requested, DenseLineIndex.requestedAllocationForChunks chunks = .ok requested ∧
        requested ≤ maxAllocation) →
      DenseLineIndex.decodeForChunksWithLimit bytes chunks maxAllocation = .ok index) ∧
    ((¬ ∃ requested, DenseLineIndex.requestedAllocationForChunks chunks = .ok requested ∧
        requested ≤ maxAllocation) →
      DenseLineIndex.decodeForChunksWithLimit bytes chunks maxAllocation =
        .error .resourceLimitExceeded) := by
  rw [DenseLineIndex.decode_encode h hencode hlen]
  have honly : FailsOnlyWith .resourceLimitExceeded
      (DenseLineIndex.requestedAllocationForChunks chunks) := by
    refine failsOnlyWith_bind ?_ fun start _ =>
      DenseLineIndex.failsOnlyWith_requestedAllocationLoop chunks start
    exact failsOnlyWith_bind (failsOnlyWith_okOr _ _) fun _ _ => failsOnlyWith_usizeToU64 _
  constructor
  · rintro ⟨requested, hrequested, hle⟩
    rw [hrequested, ok_bind, rejectIf_of_not (Nat.not_lt.mpr hle)]
    rfl
  · intro hnot
    cases hrequested : DenseLineIndex.requestedAllocationForChunks chunks with
    | error e => rw [honly e hrequested, error_bind]
    | ok requested =>
      have hover : requested > maxAllocation := by
        by_contra hle
        exact hnot ⟨requested, hrequested, Nat.le_of_not_lt hle⟩
      rw [ok_bind, rejectIf_of hover, error_bind]

end Qzt
