import Qzt.Container.FixedLaws
import Qzt.Container.Opened
import Qzt.Reader.LineReads

/-!
# An accepted chunk table

A chunk table that passes `validate_chunk_table_block` says what its bytes say, lays the
original and its lines end to end, and both binary searches over it find the one chunk
that holds a byte or begins a line.
-/

namespace Qzt

open Foundation

/-! ## The lines of a table -/

/-- The validation loop passes chunks whose lines follow one another. -/
theorem validateChunkEntries_lines {index : Nat} {entries : List ChunkEntry}
    {totals totals' : ChunkTotals} (hsame : totals.expectedFirstLine = totals.totalLineCount)
    (hlt : totals.totalLineCount < 2 ^ 64)
    (h : validateChunkEntries index entries totals = .ok totals') :
    (∀ {n : Nat} {entry : ChunkEntry}, entries[n]? = some entry →
      entry.firstLine = totals.totalLineCount + ((chunkLineCounts entries).take n).sum) ∧
    totals'.totalLineCount = totals.totalLineCount + (chunkLineCounts entries).sum ∧
    totals'.totalLineCount < 2 ^ 64 := by
  induction entries generalizing index totals with
  | nil =>
    cases h
    refine ⟨?_, rfl, hlt⟩
    intro n entry hentry
    cases hentry
  | cons head entries ih =>
    simp only [validateChunkEntries, validateChunkEntry, bind_eq_ok_iff, usizeToU64_eq_ok_iff,
      rejectIf_eq_ok_iff, okOr_eq_ok_iff, checkedAdd_eq_some_iff, pure_eq_ok, Except.ok.injEq,
      ne_eq, not_not, not_or] at h
    obtain ⟨next, ⟨_, ⟨-, rfl⟩, _, -, _, -, _, hfirst, _, -, _, -, _, -, _, ⟨-, rfl⟩, _,
      ⟨-, rfl⟩, _, ⟨-, rfl⟩, _, ⟨hsum, rfl⟩, rfl⟩, hrest⟩ := h
    obtain ⟨hlines, htotal, hlt'⟩ := ih (congrArg (· + head.lineCount) hsame) hsum hrest
    dsimp only at hlines htotal
    refine ⟨?_, ?_, hlt'⟩
    · intro n entry hentry
      cases n with
      | zero =>
        obtain rfl := Option.some.inj hentry
        rw [List.take_zero, List.sum_nil, Nat.add_zero, hfirst, hsame]
      | succ n =>
        rw [hlines hentry, chunkLineCounts_cons, List.take_succ_cons, List.sum_cons, Nat.add_assoc]
    · rw [htotal, chunkLineCounts_cons, List.sum_cons, Nat.add_assoc]

section Table

variable {bytes : List UInt8} {chunkCount originalSize lineCount : Nat} {entries : List ChunkEntry}
  (h : validateChunkTableBlock bytes chunkCount originalSize lineCount = .ok entries)
include h

/-- An accepted chunk table lays out the lines. -/
theorem validateChunkTableBlock_lineLayout : LineLayout entries lineCount := by
  simp only [validateChunkTableBlock, bind_eq_ok_iff, rejectIf_eq_ok_iff] at h
  obtain ⟨_, -, _, -, _, -, h⟩ := h
  split at h
  · simp only [bind_eq_ok_iff, rejectIf_eq_ok_iff, pure_eq_ok, Except.ok.injEq, not_or, ne_eq,
      not_not] at h
    obtain ⟨_, ⟨-, hzero, -⟩, rfl⟩ := h
    refine ⟨?_, hzero.symm, by omega⟩
    intro index entry hentry
    cases hentry
  · simp only [bind_eq_ok_iff, rejectIf_eq_ok_iff, pure_eq_ok, Except.ok.injEq, not_or, ne_eq,
      not_not] at h
    obtain ⟨_, -, _, -, decoded, -, totals, hvalid, _, ⟨-, hcount⟩, rfl⟩ := h
    obtain ⟨hlines, htotal, hlt⟩ := validateChunkEntries_lines rfl (by decide) hvalid
    rw [hcount, show ({} : ChunkTotals).totalLineCount = 0 from rfl, Nat.zero_add] at htotal
    refine ⟨?_, htotal.symm, hcount ▸ hlt⟩
    intro index entry hentry
    rw [hlines hentry, Nat.zero_add]

/-- An accepted chunk table is written back as the bytes it was read from. -/
theorem validateChunkTableBlock_encode :
    entries.flatMap ChunkEntry.encode = bytes ∧ entries.length = chunkCount := by
  simp only [validateChunkTableBlock, bind_eq_ok_iff, rejectIf_eq_ok_iff, usizeToU64_eq_ok_iff,
    ne_eq, not_not] at h
  obtain ⟨_, hwhole, _, ⟨-, rfl⟩, _, hactual, h⟩ := h
  split at h
  · simp only [bind_eq_ok_iff, rejectIf_eq_ok_iff, pure_eq_ok, Except.ok.injEq, not_or, not_not] at h
    obtain ⟨_, ⟨hzero, -, rfl⟩, rfl⟩ := h
    exact ⟨rfl, hzero.symm⟩
  · simp only [bind_eq_ok_iff, rejectIf_eq_ok_iff, pure_eq_ok, Except.ok.injEq] at h
    obtain ⟨_, -, _, -, decoded, hdecoded, totals, -, _, -, rfl⟩ := h
    refine ⟨?_, ?_⟩
    · rw [flatMap_encode_of_collect hdecoded, flatten_chunksExact hwhole]
    · have hlength := (collect_eq_ok_iff.mp hdecoded).length_eq
      rw [chunksExact, List.length_map, List.length_range, hactual] at hlength
      exact hlength.symm

end Table

/-- `index` is the position of the one entry with a property. -/
def IsOnlyEntry (entries : List ChunkEntry) (holds : ChunkEntry → Prop) (index : Nat) : Prop :=
  (∃ entry, entries[index]? = some entry ∧ holds entry) ∧
    ∀ (other : Nat) (entry : ChunkEntry), entries[other]? = some entry → holds entry → other = index

/-- The search over chunk ends finds the one chunk that holds a byte. -/
theorem Layout.isOnlyEntry {entries : List ChunkEntry} {size offset : Nat}
    (h : Layout entries size) (hoffset : offset < size) :
    IsOnlyEntry entries (fun entry => entry.logicalOffset ≤ offset ∧
      offset < entry.logicalOffset + entry.uncompressedSize)
      (weightIndex (chunkSizes entries) offset) := by
  rw [← h.total] at hoffset
  obtain ⟨hlt, hle, hgt⟩ := weightIndex_spec hoffset
  refine ⟨?_, ?_⟩
  · rw [length_chunkSizes] at hlt
    have hget := List.getElem?_eq_getElem hlt
    obtain ⟨-, hstart, -, hend⟩ := h.contiguous.getElem? hget
    exact ⟨_, hget, by omega, by omega⟩
  · intro other entry hentry hinside
    obtain ⟨-, hstart, -, hend⟩ := h.contiguous.getElem? hentry
    apply eq_weightIndex
    · rw [length_chunkSizes]
      exact (List.getElem?_eq_some_iff.mp hentry).1
    · omega
    · omega

/-- An accepted chunk table is a faithful partition.  Over all bytes and counts, its entries are
numbered, lie end to end over the original with at least one byte each, and count the lines before
them; they are written back as the bytes.  The search for a byte of the original finds the one
chunk that holds it, and the search for a line the one chunk in which it begins. -/
theorem validateChunkTableBlock_faithful {bytes : List UInt8}
    {chunkCount originalSize lineCount : Nat} {entries : List ChunkEntry}
    (h : validateChunkTableBlock bytes chunkCount originalSize lineCount = .ok entries) :
    entries.length = chunkCount ∧
    (∀ (index : Nat) (entry : ChunkEntry), entries[index]? = some entry →
      entry.chunkId = index ∧
      entry.logicalOffset = ((entries.take index).map ChunkEntry.uncompressedSize).sum ∧
      0 < entry.uncompressedSize ∧
      entry.firstLine = ((entries.take index).map ChunkEntry.lineCount).sum) ∧
    (entries.map ChunkEntry.uncompressedSize).sum = originalSize ∧
    (entries.map ChunkEntry.lineCount).sum = lineCount ∧
    entries.flatMap ChunkEntry.encode = bytes ∧
    (∀ offset < originalSize, ∃ index, chunkIndexForLogicalOffset entries offset = .ok index ∧
      IsOnlyEntry entries (fun entry => entry.logicalOffset ≤ offset ∧
        offset < entry.logicalOffset + entry.uncompressedSize) index) ∧
    ∀ line < lineCount, ∃ index, lineStartChunkIndex entries line = .ok index ∧
      IsOnlyEntry entries (fun entry => entry.firstLine ≤ line ∧
        line < entry.firstLine + entry.lineCount) index := by
  have hlayout := validateChunkTableBlock_layout h
  have hlines := validateChunkTableBlock_lineLayout h
  obtain ⟨hbytes, hcount⟩ := validateChunkTableBlock_encode h
  refine ⟨hcount, ?_, hlayout.total, hlines.total, hbytes, ?_, ?_⟩
  · intro index entry hentry
    obtain ⟨hid, hoffset, hpos, -⟩ := hlayout.contiguous.getElem? hentry
    rw [Nat.zero_add] at hid hoffset
    refine ⟨hid, ?_, hpos, ?_⟩
    · rw [hoffset, chunkSizes, List.map_take]
    · rw [hlines.firstLine hentry, chunkLineCounts, List.map_take]
  · intro offset hoffset
    exact ⟨_, hlayout.chunkIndex_eq offset, hlayout.isOnlyEntry hoffset⟩
  · intro line hline
    obtain ⟨index, entry, hindex, hentry, hinside⟩ := hlines.lineStartChunkIndex_eq hline
    refine ⟨index, hindex, ⟨entry, hentry, hinside⟩, ?_⟩
    intro other found hfound hholds
    exact hlines.eq_of_line hfound hentry hholds hinside

/-- Two chunks of one line: no line starts in the second. -/
def continuedTable : List ChunkEntry :=
  [(0, 3, 1, 0), (3, 2, 0, 1)].mapIdx fun index (offset, size, count, flags) =>
    { chunkId := index, physicalOffset := 128 + offset, compressedSize := size
      logicalOffset := offset, uncompressedSize := size, firstLine := index, lineCount := count
      dictionaryId := 0, flags, compressedChecksumBlake3 := List.Vector.replicate 32 0
      uncompressedChecksumBlake3 := List.Vector.replicate 32 0 }

set_option maxRecDepth 100000 in
theorem validate_continuedTable : validateChunkTableBlock
    (continuedTable.flatMap ChunkEntry.encode) 2 5 1 = .ok continuedTable := by
  decide +kernel

/-- The last byte is in the second chunk, and the only line begins in the first. -/
theorem validateChunkTableBlock_faithful_continued :
    chunkIndexForLogicalOffset continuedTable 4 = .ok 1 ∧
    lineStartChunkIndex continuedTable 0 = .ok 0 := by
  obtain ⟨-, -, -, -, -, hoffsets, hlines⟩ :=
    validateChunkTableBlock_faithful validate_continuedTable
  obtain ⟨index, hindex, -, honly⟩ := hoffsets 4 (by decide)
  obtain ⟨index', hindex', -, honly'⟩ := hlines 0 (by decide)
  have hone : 1 = index := honly 1 _ rfl (by decide)
  have hzero : 0 = index' := honly' 0 _ rfl (by decide)
  rw [hindex, hindex', ← hone, ← hzero]
  exact ⟨rfl, rfl⟩

end Qzt
