import Qzt.Reader.RangeReads
import Qzt.Text.Chunks

/-!
# Line reads return the lines

A table that describes the parts of a text (`Describes`) lays its lines end to end over
the chunks, so the search over line ends finds the chunk where a line begins.  From
there the read collects bytes up to the next LF, through as many chunks as it takes.
-/

namespace Qzt

open Foundation

/-- Every entry decodes to its part. -/
abbrev DecodesTo (decodeEntry : DecodeEntry) (entries : List ChunkEntry)
    (parts : List (List UInt8)) : Prop :=
  List.Forall₂ (fun entry part => decodeEntry entry = .ok part) entries parts

theorem DecodesTo.getElem? {decodeEntry : DecodeEntry} {entries : List ChunkEntry}
    {parts : List (List UInt8)} (h : DecodesTo decodeEntry entries parts) {index : Nat}
    {entry : ChunkEntry} {part : List UInt8} (hentry : entries[index]? = some entry)
    (hpart : parts[index]? = some part) : decodeEntry entry = .ok part := by
  obtain ⟨hi, rfl⟩ := List.getElem?_eq_some_iff.mp hentry
  obtain ⟨hj, rfl⟩ := List.getElem?_eq_some_iff.mp hpart
  exact h.get hi hj

/-! ## Up to the next LF -/

theorem untilLf_eq (bytes : List UInt8) :
    untilLf bytes = (firstSegment lf bytes, decide (lf ∈ bytes)) := by
  induction bytes with
  | nil => rfl
  | cons byte rest ih =>
    rw [untilLf, firstSegment]
    by_cases hbyte : byte = lf
    · rw [if_pos hbyte, if_pos hbyte]
      simp [hbyte]
    · rw [if_neg hbyte, if_neg hbyte, ih]
      simp [Ne.symm hbyte]

theorem appendUntilLf_eq (decoded : List UInt8) (start : Nat) (output : List UInt8) :
    appendUntilLf decoded start output =
      (output ++ firstSegment lf (decoded.drop start), decide (lf ∈ decoded.drop start)) := by
  rw [appendUntilLf, untilLf_eq]

theorem firstSegment_eq_self {bytes : List UInt8} (h : lf ∉ bytes) :
    firstSegment lf bytes = bytes := by
  simpa using firstSegment_append_of_not_mem h []

/-- The continuation loop collects the rest of the line. -/
theorem continueLine_eq {decodeEntry : DecodeEntry} {entries : List ChunkEntry}
    {parts : List (List UInt8)} (hdecodes : DecodesTo decodeEntry entries parts)
    (output : List UInt8) :
    continueLine decodeEntry entries output = .ok (output ++ firstSegment lf parts.flatten) := by
  induction hdecodes generalizing output with
  | nil => simp [continueLine]
  | @cons entry part entries parts hpart _ ih =>
    rw [continueLine, hpart, ok_bind, appendUntilLf_eq, List.drop_zero, List.flatten_cons]
    by_cases hlf : lf ∈ part
    · rw [firstSegment_append_of_mem hlf]
      simp [hlf]
    · rw [firstSegment_append_of_not_mem hlf]
      simp [hlf, ih, firstSegment_eq_self hlf]

/-! ## The chunk where a line begins -/

/-- The numbers of lines that begin in the chunks. -/
def chunkLineCounts (entries : List ChunkEntry) : List Nat :=
  entries.map ChunkEntry.lineCount

@[simp] theorem chunkLineCounts_cons (entry : ChunkEntry) (entries : List ChunkEntry) :
    chunkLineCounts (entry :: entries) = entry.lineCount :: chunkLineCounts entries := rfl

section LineStarts

variable {done : List (List UInt8)} {entries : List ChunkEntry} {parts : List (List UInt8)}

/-- The line counts add up to the number of lines. -/
theorem Describes.sum_chunkLineCounts (h : Describes done entries parts) :
    countLines (done ++ parts).flatten = countLines done.flatten + (chunkLineCounts entries).sum := by
  induction h with
  | nil => simp [chunkLineCounts]
  | @cons done entry entries part parts hpart _ ih =>
    rw [List.append_assoc, List.singleton_append] at ih
    rw [ih, chunkLineCounts_cons, List.sum_cons, hpart.lineCount, List.flatten_append,
      List.flatten_singleton, countLines_append]
    omega

theorem Describes.take (h : Describes done entries parts) (index : Nat) :
    Describes done (entries.take index) (parts.take index) := by
  induction h generalizing index with
  | nil => simpa using Describes.nil
  | cons hpart hparts ih =>
    cases index with
    | zero => simpa using Describes.nil
    | succ index => simpa using Describes.cons hpart (ih index)

/-- The lines that begin before a chunk. -/
theorem Describes.sum_take_chunkLineCounts (h : Describes [] entries parts) (index : Nat) :
    ((chunkLineCounts entries).take index).sum = countLines (parts.take index).flatten := by
  have hsum := (h.take index).sum_chunkLineCounts
  rw [List.nil_append, List.flatten_nil, countLines_nil, Nat.zero_add] at hsum
  rw [hsum, chunkLineCounts, chunkLineCounts, List.map_take]

/-- A chunk table of a text of `count` lines: a chunk has the lines behind those of the chunks
before it. -/
structure LineLayout (entries : List ChunkEntry) (count : Nat) : Prop where
  firstLine : ∀ {index : Nat} {entry : ChunkEntry}, entries[index]? = some entry →
    entry.firstLine = ((chunkLineCounts entries).take index).sum
  total : (chunkLineCounts entries).sum = count
  count_lt : count < 2 ^ 64

namespace LineLayout

variable {count : Nat}

theorem lineEnd_eq (h : LineLayout entries count) {index : Nat} {entry : ChunkEntry}
    (hentry : entries[index]? = some entry) :
    entry.firstLine + entry.lineCount = ((chunkLineCounts entries).take (index + 1)).sum ∧
      entry.lineEnd = .ok ((chunkLineCounts entries).take (index + 1)).sum := by
  have hnext : entry.firstLine + entry.lineCount =
      ((chunkLineCounts entries).take (index + 1)).sum := by
    have hcount : (chunkLineCounts entries)[index]? = some entry.lineCount := by
      rw [chunkLineCounts, List.getElem?_map, hentry, Option.map_some]
    rw [List.take_add_one, hcount, List.sum_append, h.firstLine hentry, Option.toList_some,
      List.sum_singleton]
  have hbound := sum_take_le (chunkLineCounts entries) (index + 1)
  have hlt := h.count_lt
  rw [h.total] at hbound
  refine ⟨hnext, ?_⟩
  rw [← hnext]
  exact checkedLogicalEnd_of_lt (by omega)

/-- The search over line ends finds the chunk where a line begins. -/
theorem lineStartChunkIndex_eq (h : LineLayout entries count) {line : Nat} (hline : line < count) :
    ∃ index entry, lineStartChunkIndex entries line = .ok index ∧ entries[index]? = some entry ∧
      entry.firstLine ≤ line ∧ line < entry.firstLine + entry.lineCount := by
  rw [← h.total] at hline
  obtain ⟨hlt, hle, hgt⟩ := weightIndex_spec hline
  have hindex : partitionByEnd entries line ChunkEntry.lineEnd =
      .ok (weightIndex (chunkLineCounts entries) line) := by
    rw [partitionByEnd, ← List.length_map ChunkEntry.lineCount, ← chunkLineCounts]
    refine partitionPoint_weights fun i hi => ?_
    rw [chunkLineCounts, List.length_map] at hi
    have hget := List.getElem?_eq_getElem hi
    rw [hget, okOr_some, ok_bind, (h.lineEnd_eq hget).2, ok_bind]
    rfl
  generalize weightIndex (chunkLineCounts entries) line = index at *
  rw [chunkLineCounts, List.length_map] at hlt
  have hget := List.getElem?_eq_getElem hlt
  have hfirst := h.firstLine hget
  obtain ⟨hsum, hend⟩ := h.lineEnd_eq hget
  refine ⟨index, entries[index], ?_, hget, by omega, by omega⟩
  rw [lineStartChunkIndex, hindex, ok_bind, hget, okOr_some, ok_bind, hend, ok_bind,
    if_pos ⟨by omega, hgt⟩]

/-- A line begins in one chunk only. -/
theorem eq_of_line (h : LineLayout entries count) {line i j : Nat} {a b : ChunkEntry}
    (ha : entries[i]? = some a) (hb : entries[j]? = some b)
    (hline : a.firstLine ≤ line ∧ line < a.firstLine + a.lineCount)
    (hline' : b.firstLine ≤ line ∧ line < b.firstLine + b.lineCount) : i = j := by
  have hindex : ∀ {n : Nat} {entry : ChunkEntry}, entries[n]? = some entry →
      entry.firstLine ≤ line ∧ line < entry.firstLine + entry.lineCount →
        n = weightIndex (chunkLineCounts entries) line := by
    intro n entry hentry hinside
    apply eq_weightIndex
    · rw [chunkLineCounts, List.length_map]
      exact (List.getElem?_eq_some_iff.mp hentry).1
    · rw [← h.firstLine hentry]
      exact hinside.1
    · rw [← (h.lineEnd_eq hentry).1]
      exact hinside.2
  exact (hindex ha hline).trans (hindex hb hline').symm

end LineLayout

/-- A table that describes the parts of a text has its lines. -/
theorem Describes.lineLayout (h : Describes [] entries parts)
    (hlen : parts.flatten.length < 2 ^ 64) :
    LineLayout entries (countLines parts.flatten) where
  firstLine := by
    intro index entry hentry
    obtain ⟨part, -, hdescribes⟩ := h.getElem? hentry
    rw [List.nil_append] at hdescribes
    rw [h.sum_take_chunkLineCounts, hdescribes.firstLine]
  total := by
    have htotal := h.sum_chunkLineCounts
    rw [List.nil_append, List.flatten_nil, countLines_nil, Nat.zero_add] at htotal
    exact htotal.symm
  count_lt := Nat.lt_of_le_of_lt (countLines_le _) hlen

/-! ## A line of the text -/

/-- The line that begins at a local start of a part. -/
theorem lines_getElem?_of_local {before part rest : List UInt8} {localIndex start : Nat}
    (h : (partLineStarts before part)[localIndex]? = some start) :
    (lines (before ++ (part ++ rest)))[countLines before + localIndex]? =
      some (firstSegment lf (part.drop start ++ rest)) := by
  have hbound := segmentStarts_bounds (List.mem_of_getElem? h)
  have hstart : (segmentStarts lf true 0 (before ++ (part ++ rest)))[countLines before +
      localIndex]? = some (start + before.length) := by
    rw [segmentStarts_append, List.getElem?_append_right (by rw [countLines]; omega), countLines,
      Nat.add_sub_cancel_left, segmentStarts_append, List.getElem?_append_left]
    · rw [segmentStarts_shift, List.getElem?_map]
      rw [partLineStarts, endsLine] at h
      rw [h]
      rfl
    · have hlt := (List.getElem?_eq_some_iff.mp h).1
      rw [partLineStarts, endsLine] at hlt
      rw [length_segmentStarts_eq _ _ 0]
      exact hlt
  rw [lines, segments_eq_map, List.getElem?_map, hstart, Option.map_some, Nat.add_comm start,
    ← List.drop_drop, List.drop_left, List.drop_append_of_le_length (by omega)]

end LineStarts

/-! ## Line reads -/

/-- The dense index, where there is one, stores the line starts of the part at `index`. -/
def DenseMatchesAt (details : SkeletonDetails) (index : Nat) (entry : ChunkEntry)
    (part : List UInt8) : Prop :=
  ∀ dense, details.denseLineIndex = some dense → ∃ stored, dense.entries[index]? = some stored ∧
    stored.lineStartOffsets = localLineStarts part entry.flags

/-- The dense index, where there is one, stores the line starts of the parts, of which the first
is chunk `first`. -/
def DenseMatches (details : SkeletonDetails) (first : Nat) (entries : List ChunkEntry)
    (parts : List (List UInt8)) : Prop :=
  ∀ (index : Nat) entry part, entries[index]? = some entry → parts[index]? = some part →
    DenseMatchesAt details (first + index) entry part

/-- A line read returns the line. -/
theorem readLineFromEntries_eq {details : SkeletonDetails} {decodeEntry : DecodeEntry}
    {parts : List (List UInt8)} (h : Describes [] details.chunkEntries parts)
    (hdecodes : DecodesTo decodeEntry details.chunkEntries parts)
    (hdense : DenseMatches details 0 details.chunkEntries parts) (hlen : parts.flatten.length < 2 ^ 64)
    (hcount : details.summary.lineCount = countLines parts.flatten) {line : Nat}
    (hline : line < details.summary.lineCount) :
    ∃ bytes, readLineFromEntries details line decodeEntry = .ok bytes ∧
      (lines parts.flatten)[line]? = some bytes := by
  obtain ⟨index, entry, hindex, hentry, hge, hlt⟩ :=
    (h.lineLayout hlen).lineStartChunkIndex_eq (by omega : line < countLines parts.flatten)
  obtain ⟨part, hpart, hdescribes⟩ := h.getElem? hentry
  rw [List.nil_append] at hdescribes
  -- The text is the parts before the chunk, the chunk and the parts behind it.
  have hsplit : parts.flatten =
      (parts.take index).flatten ++ (part ++ (parts.drop (index + 1)).flatten) := by
    obtain ⟨hi, rfl⟩ := List.getElem?_eq_some_iff.mp hpart
    conv_lhs => rw [← List.take_append_drop index parts, List.drop_eq_getElem_cons hi]
    rw [List.flatten_append, List.flatten_cons]
  have hstarts : localLineStarts part entry.flags =
      partLineStarts (parts.take index).flatten part := by
    rw [hdescribes.flags, localLineStarts_continuationFlag]
  have hlocal : line - entry.firstLine < (partLineStarts (parts.take index).flatten part).length := by
    rw [← hdescribes.lineCount]
    omega
  obtain ⟨start, hstart⟩ : ∃ start,
      (partLineStarts (parts.take index).flatten part)[line - entry.firstLine]? = some start :=
    ⟨_, List.getElem?_eq_getElem hlocal⟩
  have hpartLen : part.length ≤ parts.flatten.length := by
    rw [hsplit, List.length_append, List.length_append]
    omega
  have hlocalStart : localLineStart details index (line - entry.firstLine) part entry.flags =
      .ok start := by
    have hbound := segmentStarts_bounds (List.mem_of_getElem? hstart)
    rw [localLineStart]
    split
    · rename_i dense hsome
      obtain ⟨stored, hstored, hoffsets⟩ := hdense index entry part hentry hpart dense hsome
      rw [Nat.zero_add] at hstored
      rw [DenseLineIndex.lineStartOffset, hstored]
      simp only [Option.bind_eq_bind, Option.bind_some]
      rw [hoffsets, hstarts, hstart, okOr_some, ok_bind, u64ToUsize_of_lt (by omega)]
    · rw [hstarts, hstart, okOr_some]
  have hrest := continueLine_eq (List.forall₂_drop (index + 1) hdecodes) (firstSegment lf (part.drop start))
  have htext : (lines parts.flatten)[line]? =
      some (firstSegment lf (part.drop start ++ (parts.drop (index + 1)).flatten)) := by
    have hget := @lines_getElem?_of_local _ _ (parts.drop (index + 1)).flatten _ _ hstart
    rw [← hsplit, ← hdescribes.firstLine, Nat.add_sub_cancel' hge] at hget
    exact hget
  refine ⟨_, ?_, htext⟩
  rw [readLineFromEntries, rejectIf_of_not (by omega), ok_bind, hindex, ok_bind, hentry,
    okOr_some, ok_bind, hdecodes.getElem? hentry hpart, ok_bind]
  simp only
  rw [hlocalStart, ok_bind, appendUntilLf_eq, List.nil_append]
  by_cases hlf : lf ∈ part.drop start
  · -- The chunk holds the end of the line.
    rw [firstSegment_append_of_mem hlf]
    simp [hlf]
  · rw [firstSegment_append_of_not_mem hlf]
    simp only [hlf, decide_false, Bool.false_eq_true, if_false]
    rw [hrest, firstSegment_eq_self hlf]

end Qzt
