import Qzt.Container.PhysicalRanges
import Qzt.Container.Skeleton
import Qzt.Reader.RangeReads
import Qzt.Writer.Assembly

/-!
# The reader accepts the chunk table and the layout of the writer

The chunk table of a split is read back and passes the structural validation, and
ranges that lie one behind the other pass the overlap check.
-/

namespace Qzt

open Foundation

/-! ## The encoded table -/

theorem length_flatMap_encode (entries : List ChunkEntry) :
    (entries.flatMap ChunkEntry.encode).length = entries.length * chunkEntryLen := by
  induction entries with
  | nil => rfl
  | cons entry entries ih =>
    rw [List.flatMap_cons, List.length_append, ih, ChunkEntry.length_encode, List.length_cons,
      Nat.add_mul, Nat.one_mul, Nat.add_comm]

/-- The entries of a table are its exact chunks. -/
theorem chunksExact_flatMap_encode (entries : List ChunkEntry) :
    chunksExact chunkEntryLen (entries.flatMap ChunkEntry.encode) =
      entries.map ChunkEntry.encode := by
  have hlen := length_flatMap_encode entries
  unfold chunksExact
  rw [hlen, Nat.mul_div_cancel _ (by decide)]
  apply List.ext_getElem
  · rw [List.length_map, List.length_range, List.length_map]
  · intro i hi hi'
    rw [List.length_map] at hi'
    rw [List.getElem_map, List.getElem_map, List.getElem_range]
    have hpre := length_flatMap_encode (entries.take i)
    rw [List.length_take, Nat.min_eq_left (Nat.le_of_lt hi')] at hpre
    have hsplit : entries.flatMap ChunkEntry.encode =
        (entries.take i).flatMap ChunkEntry.encode ++ (entries[i].encode ++
          (entries.drop (i + 1)).flatMap ChunkEntry.encode) := by
      conv_lhs => rw [← List.take_append_drop i entries, List.drop_eq_getElem_cons hi']
      rw [List.flatMap_append, List.flatMap_cons]
    rw [hsplit, ← hpre, ← ChunkEntry.length_encode entries[i], slice_append_left]

/-! ## The entries of a split -/

/-- The conditions under which the writer's table is accepted. -/
structure WriterParts (env : Env) (level : Int32) (parts : List (List UInt8)) : Prop where
  count : parts.length ≤ maxChunkCount
  compress : ∀ part ∈ parts, Compresses env level part
  ne_nil : ∀ part ∈ parts, part ≠ []
  sizes : ∀ part ∈ parts, part.length ≤ ResourceLimits.default.maxUncompressedChunkSize

namespace WriterParts

variable {env : Env} {level : Int32} {parts : List (List UInt8)}

theorem length_lt (h : WriterParts env level parts) : parts.flatten.length < 2 ^ 46 :=
  (fitsParts_of_forall h.sizes).length_lt h.count

theorem describes (h : WriterParts env level parts) :
    Describes [] (chunkTableOf env level parts) parts :=
  chunkTableOf_describes h.ne_nil

/-- The entry at a position of the table. -/
theorem entry_eq {index : Nat} {entry : ChunkEntry}
    (hentry : (chunkTableOf env level parts)[index]? = some entry) :
    ∃ part, parts[index]? = some part ∧ entry = chunkEntryOf env level (parts.take index) part := by
  have hgen : ∀ (done rest : List (List UInt8)) (i : Nat),
      (mapWithHistory (chunkEntryOf env level) done rest)[i]? = some entry →
        ∃ part, rest[i]? = some part ∧
          entry = chunkEntryOf env level (done ++ rest.take i) part := by
    intro done rest
    induction rest generalizing done with
    | nil =>
      intro i h
      simp [mapWithHistory] at h
    | cons part rest ih =>
      intro i h
      cases i with
      | zero =>
        simp only [mapWithHistory, List.getElem?_cons_zero, Option.some.injEq] at h
        exact ⟨part, rfl, by simp [← h]⟩
      | succ i =>
        rw [mapWithHistory, List.getElem?_cons_succ] at h
        obtain ⟨other, hother, rfl⟩ := ih (done ++ [part]) i h
        exact ⟨other, hother, by simp⟩
  obtain ⟨part, hpart, rfl⟩ := hgen [] parts index hentry
  exact ⟨part, hpart, by rw [List.nil_append]⟩

/-- Every field of an entry fits its word. -/
theorem entry_fits (h : WriterParts env level parts) {entry : ChunkEntry}
    (hentry : entry ∈ chunkTableOf env level parts) : entry.Fits := by
  obtain ⟨index, hget⟩ := List.mem_iff_getElem?.mp hentry
  obtain ⟨part, hpart, rfl⟩ := entry_eq hget
  have hmem := List.mem_of_getElem? hpart
  have hcount := h.count
  have hindex : index < parts.length := (List.getElem?_eq_some_iff.mp hpart).1
  have htake : ∀ p ∈ parts.take index, p ∈ parts := fun p hp => List.mem_of_mem_take hp
  have htakeCount : (parts.take index).length ≤ maxChunkCount := by
    rw [List.length_take]
    omega
  have hframes := length_chunkFrames_lt htakeCount fun p hp => h.compress p (htake p hp)
  have hlength := (fitsParts_of_forall fun p hp => h.sizes p (htake p hp)).length_lt htakeCount
  have hlines := countLines_le (parts.take index).flatten
  have hstarts := length_partLineStarts_le (parts.take index).flatten part
  have hframe : (chunkFrame env level part).length ≤ 72 * 1024 * 1024 := (h.compress part hmem).frame_le
  have hsize : part.length ≤ 64 * 1024 * 1024 := h.sizes part hmem
  rw [maxChunkCount] at htakeCount
  refine ⟨?_, ?_, ?_, ?_, ?_, ?_, ?_, ?_, ?_⟩
  · simp only [chunkEntryOf]; omega
  · simp only [chunkEntryOf, headerLen]; omega
  · simp only [chunkEntryOf]; omega
  · simp only [chunkEntryOf]; omega
  · simp only [chunkEntryOf]; omega
  · simp only [chunkEntryOf]; omega
  · simp only [chunkEntryOf]; omega
  · simp only [chunkEntryOf]; omega
  · simp only [chunkEntryOf, continuationFlag, startsWithLineContinuation]
    split <;> decide

theorem decode_table (h : WriterParts env level parts) :
    collect ChunkEntry.decode (chunksExact chunkEntryLen
      ((chunkTableOf env level parts).flatMap ChunkEntry.encode)) =
      .ok (chunkTableOf env level parts) := by
  rw [chunksExact_flatMap_encode, collect_eq_ok_iff, List.forall₂_map_left_iff]
  exact List.forall₂_same.mpr fun entry hentry => ChunkEntry.decode_encode (h.entry_fits hentry)

end WriterParts

/-- The validation loop accepts a table that describes its parts. -/
theorem validateChunkEntries_of_describes {done : List (List UInt8)} {entries : List ChunkEntry}
    {parts : List (List UInt8)} (h : Describes done entries parts)
    (hcompressed : ∀ entry ∈ entries, entry.compressedSize ≠ 0)
    (hlen : (done ++ parts).flatten.length < 2 ^ 46)
    (hcount : (done ++ parts).length ≤ maxChunkCount) :
    validateChunkEntries done.length entries
        ⟨done.flatten.length, countLines done.flatten, done.flatten.length,
          countLines done.flatten⟩ =
      .ok ⟨(done ++ parts).flatten.length, countLines (done ++ parts).flatten,
        (done ++ parts).flatten.length, countLines (done ++ parts).flatten⟩ := by
  induction h with
  | nil => simp [validateChunkEntries]
  | @cons done entry entries part parts hpart _ ih =>
    rw [List.forall_mem_cons] at hcompressed
    have happend : done ++ [part] ++ parts = done ++ part :: parts := by simp
    have hflatten : (done ++ [part]).flatten = done.flatten ++ part := by simp
    have htail := ih hcompressed.2 (by rw [happend]; exact hlen) (by rw [happend]; exact hcount)
    rw [happend, hflatten, List.length_append, List.length_append, List.length_singleton,
      countLines_append] at htail
    have hlength : done.flatten.length + part.length < 2 ^ 46 := by
      rw [List.flatten_append, List.flatten_cons, List.length_append, List.length_append] at hlen
      omega
    have hdone : done.length < 2 ^ 64 := by
      rw [List.length_append, maxChunkCount] at hcount
      omega
    have hlines := countLines_le done.flatten
    have hstarts := length_partLineStarts_le done.flatten part
    have hpos := List.length_pos_of_ne_nil hpart.part_ne_nil
    have hflags : ¬ (entry.flags / 2 ≠ 0) := by
      rw [hpart.flags, continuationFlag, startsWithLineContinuation]
      split <;> decide
    have hsizes : ¬ (entry.compressedSize = 0 ∨ entry.uncompressedSize = 0) := by
      rw [hpart.uncompressedSize]
      exact fun hbad => hbad.elim hcompressed.1 (by omega)
    rw [validateChunkEntries, validateChunkEntry, usizeToU64_of_lt hdone, ok_bind,
      rejectIf_of_not (by simp [hpart.chunkId]), ok_bind,
      rejectIf_of_not (by simp [hpart.logicalOffset]), ok_bind,
      rejectIf_of_not (by simp [hpart.firstLine]), ok_bind, rejectIf_of_not hsizes, ok_bind,
      rejectIf_of_not (by rw [hpart.lineCount, hpart.uncompressedSize]; omega), ok_bind,
      rejectIf_of_not hflags, ok_bind, hpart.uncompressedSize, hpart.lineCount]
    simp only
    rw [checkedAdd_of_lt (by omega), okOr_some, ok_bind, checkedAdd_of_lt (by omega), okOr_some,
      ok_bind, ok_bind, ok_bind, pure_eq_ok, ok_bind]
    exact htail

/-- The writer's table passes validation. -/
theorem WriterParts.validateChunkTableBlock {env : Env} {level : Int32}
    {parts : List (List UInt8)} (h : WriterParts env level parts) :
    validateChunkTableBlock ((chunkTableOf env level parts).flatMap ChunkEntry.encode)
        (chunkTableOf env level parts).length parts.flatten.length (countLines parts.flatten) =
      .ok (chunkTableOf env level parts) := by
  have hlen := h.length_lt
  have hcount := h.count
  have htable : (chunkTableOf env level parts).length = parts.length := by simp [chunkTableOf]
  have hlines := countLines_le parts.flatten
  rw [maxChunkCount] at hcount
  rw [Qzt.validateChunkTableBlock, length_flatMap_encode,
    rejectIf_of_not (by simp [chunkEntryLen]), ok_bind, Nat.mul_div_cancel _ (by decide),
    usizeToU64_of_lt (by omega), ok_bind, rejectIf_of_not (by simp), ok_bind]
  by_cases hzero : parts.flatten.length = 0
  · -- No byte means no part, since parts are not empty.
    have hnil : parts = [] := by
      cases parts with
      | nil => rfl
      | cons part parts =>
        rw [List.flatten_cons, List.length_append] at hzero
        exact absurd (List.eq_nil_of_length_eq_zero (by omega)) (h.ne_nil part List.mem_cons_self)
    subst hnil
    rfl
  · have hpos : 0 < parts.length := by
      cases parts with
      | nil => simp at hzero
      | cons part parts => simp
    have hcompressed : ∀ entry ∈ chunkTableOf env level parts, entry.compressedSize ≠ 0 := by
      intro entry hentry
      obtain ⟨index, hget⟩ := List.mem_iff_getElem?.mp hentry
      obtain ⟨part, hpart, rfl⟩ := entry_eq hget
      have hne := (h.compress part (List.mem_of_getElem? hpart)).frame_ne_nil
      exact fun hsize => hne (List.eq_nil_of_length_eq_zero hsize)
    have hloop := validateChunkEntries_of_describes h.describes hcompressed
      (by simpa using hlen) (by simpa [maxChunkCount] using hcount)
    simp only [List.nil_append, List.length_nil, List.flatten_nil, countLines_nil] at hloop
    rw [if_neg hzero, rejectIf_of_not (by omega), ok_bind, rejectIf_of_not (by omega), ok_bind,
      h.decode_table, ok_bind, hloop, ok_bind, rejectIf_of_not (by simp), ok_bind]
    rfl

/-! ## Ranges one behind the other -/

/-- The ranges follow each other without gaps from `start` on. -/
def Consecutive : Nat → List PhysicalRange → Prop
  | _, [] => True
  | start, range :: ranges => range.offset = start ∧ Consecutive (start + range.size) ranges

namespace Consecutive

variable {start : Nat} {ranges more : List PhysicalRange}

theorem append (h : Consecutive start ranges)
    (hmore : Consecutive (start + (ranges.map PhysicalRange.size).sum) more) :
    Consecutive start (ranges ++ more) := by
  induction ranges generalizing start with
  | nil => simpa using hmore
  | cons range ranges ih =>
    rw [List.map_cons, List.sum_cons, ← Nat.add_assoc] at hmore
    exact ⟨h.1, ih h.2 hmore⟩

theorem bounds (h : Consecutive start ranges) : ∀ range ∈ ranges, start ≤ range.offset ∧
    range.offset + range.size ≤ start + (ranges.map PhysicalRange.size).sum := by
  induction ranges generalizing start with
  | nil => simp
  | cons range ranges ih =>
    intro other hother
    rw [List.map_cons, List.sum_cons]
    rcases List.mem_cons.mp hother with rfl | hother
    · have := h.1
      omega
    · have := ih h.2 other hother
      omega

theorem disjoint (h : Consecutive start ranges) : ranges.Pairwise PhysicalRange.Disjoint := by
  induction ranges generalizing start with
  | nil => exact .nil
  | cons range ranges ih =>
    refine .cons ?_ (ih h.2)
    intro other hother
    have hbound := h.2.bounds other hother
    have hstart := h.1
    exact .inl (by omega)

end Consecutive

end Qzt
