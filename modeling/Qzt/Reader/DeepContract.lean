import Qzt.Container.Opened
import Qzt.Reader.DeepPass
import Qzt.Reader.Readers

/-!
# Deep verification suffices for every read

A container that opens and passes deep verification serves one text: exports, ranges,
lines and documents all come from it, and the line facts in the metadata and the chunk
table are facts of it.
-/

namespace Qzt

open Foundation

/-! ## Chunks decode to their size -/

theorem decodeCompressedEntry_length {env : Env} {entry : ChunkEntry} {compressed : List UInt8}
    {dictionaries : List DictionaryEntry} {decoded : List UInt8}
    (h : decodeCompressedEntry env entry compressed dictionaries = .ok decoded) :
    decoded.length = entry.uncompressedSize := by
  simp only [decodeCompressedEntry, bind_eq_ok_iff, usizeToU64_eq_ok_iff, rejectIf_eq_ok_iff,
    pure_eq_ok, Except.ok.injEq, ne_eq, not_not] at h
  obtain ⟨_, -, _, -, _, -, _, ⟨-, rfl⟩, _, hsize, _, -, rfl⟩ := h
  exact hsize

theorem QztReader.decodeEntry_length {env : Env} {reader : QztReader} {entry : ChunkEntry}
    {decoded : List UInt8} (h : reader.decodeEntry env entry = .ok decoded) :
    decoded.length = entry.uncompressedSize := by
  simp only [QztReader.decodeEntry, bind_eq_ok_iff] at h
  obtain ⟨_, -, hdecoded⟩ := h
  exact decodeCompressedEntry_length hdecoded

/-! ## The text of a table -/

section Text

variable {entries : List ChunkEntry} {parts : List (List UInt8)} {decodeEntry : DecodeEntry}

/-- The text before the entry at `index`, and the part at it. -/
theorem DescribesPart.of_getElem? (h : Describes [] entries parts) {index : Nat}
    {entry : ChunkEntry} (hentry : entries[index]? = some entry) :
    ∃ part, parts[index]? = some part ∧ DescribesPart (parts.take index) entry part ∧
      parts.flatten.take entry.logicalOffset = (parts.take index).flatten ∧
      slice parts.flatten entry.logicalOffset entry.uncompressedSize = part := by
  obtain ⟨part, hpart, hdescribes⟩ := h.getElem? hentry
  rw [List.nil_append] at hdescribes
  obtain ⟨hi, rfl⟩ := List.getElem?_eq_some_iff.mp hpart
  have hsplit : parts.flatten =
      (parts.take index).flatten ++ (parts[index] ++ (parts.drop (index + 1)).flatten) := by
    conv_lhs => rw [← List.take_append_drop index parts, List.drop_eq_getElem_cons hi]
    rw [List.flatten_append, List.flatten_cons]
  refine ⟨_, hpart, hdescribes, ?_, ?_⟩
  · rw [hsplit, hdescribes.logicalOffset, List.take_left]
  · rw [hsplit, hdescribes.logicalOffset, hdescribes.uncompressedSize, slice_append_left]

theorem Describes.agrees (h : Describes [] entries parts)
    (hdecodes : DecodesTo decodeEntry entries parts) : Agrees decodeEntry entries parts.flatten := by
  intro entry hentry part hdecode
  obtain ⟨index, hget⟩ := List.mem_iff_getElem?.mp hentry
  obtain ⟨part', hpart', -, -, hslice⟩ := DescribesPart.of_getElem? h hget
  have hdecode' := hdecodes.getElem? hget hpart'
  rw [hdecode, Except.ok.injEq] at hdecode'
  rw [hslice, hdecode']

theorem DecodesTo.decodes (h : DecodesTo decodeEntry entries parts) :
    ∀ entry ∈ entries, ∃ part, decodeEntry entry = .ok part := by
  intro entry hentry
  obtain ⟨index, hget⟩ := List.mem_iff_getElem?.mp hentry
  obtain ⟨hi, rfl⟩ := List.getElem?_eq_some_iff.mp hget
  have hj : index < parts.length := by rwa [← h.length_eq]
  exact ⟨parts[index], h.get hi hj⟩

/-- The line facts of an entry, as facts of the whole text. -/
theorem Describes.lineFacts (h : Describes [] entries parts) {index : Nat} {entry : ChunkEntry}
    (hentry : entries[index]? = some entry) :
    entry.firstLine = (lines (parts.flatten.take entry.logicalOffset)).length ∧
      entry.firstLine + entry.lineCount =
        (lines (parts.flatten.take (entry.logicalOffset + entry.uncompressedSize))).length ∧
      entry.flags = if entry.logicalOffset > 0 ∧
          parts.flatten[entry.logicalOffset - 1]? ≠ some lf
        then startsWithLineContinuation else 0 := by
  obtain ⟨part, hpart, hdescribes, htake, hslice⟩ := DescribesPart.of_getElem? h hentry
  have hnext : parts.flatten.take (entry.logicalOffset + entry.uncompressedSize) =
      (parts.take index).flatten ++ part := by
    rw [List.take_add, htake]
    exact congrArg ((parts.take index).flatten ++ ·) hslice
  refine ⟨?_, ?_, ?_⟩
  · rw [htake, length_lines, hdescribes.firstLine]
  · rw [hnext, length_lines, countLines_append, hdescribes.firstLine, hdescribes.lineCount]
  · have hflag := planner_flags_eq (parts.take index).flatten (parts.drop index).flatten
    rw [← List.flatten_append, List.take_append_drop] at hflag
    rw [hdescribes.flags, hdescribes.logicalOffset, hflag]

end Text

/-! ## The contract -/

/-- A reader serves the text `text` through every read. -/
structure ServesText (env : Env) (reader : QztReader) (text : List UInt8) : Prop where
  exportAll : reader.exportAll env = .ok text
  valid : Utf8.Valid text
  length : text.length = reader.details.summary.originalSize
  readRange : ∀ offset length, offset + length ≤ text.length →
    reader.readRange env offset length = .ok (slice text offset length)
  lineCount : (lines text).length = reader.details.summary.lineCount
  lines_flatten : (lines text).flatten = text
  readLine : ∀ (index : Nat) line, (lines text)[index]? = some line →
    reader.readLineRaw env index = .ok line
  noLine : ∀ index, reader.details.summary.lineCount ≤ index →
    reader.readLineRaw env index = .error .lineOutOfRange
  documents : ∀ documentIndex, reader.details.documentIndex = some documentIndex →
    ∀ document ∈ documentIndex.documents,
      document.logicalOffset + document.byteLength ≤ text.length ∧
      reader.readDocumentVerified env document.docId document.checksum =
        .ok (slice text document.logicalOffset document.byteLength)
  newlineMode : reader.details.metadata.newlineMode = (LineInfo.fromBytes text).newlineMode.asStr
  chunks : ∀ entry ∈ reader.details.chunkEntries,
    entry.firstLine = (lines (text.take entry.logicalOffset)).length ∧
    entry.firstLine + entry.lineCount =
      (lines (text.take (entry.logicalOffset + entry.uncompressedSize))).length ∧
    entry.flags = if entry.logicalOffset > 0 ∧ text[entry.logicalOffset - 1]? ≠ some lf
      then startsWithLineContinuation else 0

section Contract

variable {env : Env} {reader : QztReader} {parts : List (List UInt8)}

/-- A fresh decode cache has room for every chunk of an opened container. -/
theorem Opened.room {bytes : List UInt8} {details : SkeletonDetails} (h : Opened bytes details)
    (hcount : details.chunkEntries.length ≤ details.summary.originalSize) :
    ChunkDecodeCache.new.Room details.chunkEntries := by
  have hsize := h.layout.size_lt
  have hlength := h.length_lt
  have hcompressed := h.compressed
  have hzero : ChunkDecodeCache.new.physicalDecodedBytes = 0 ∧
      ChunkDecodeCache.new.decodedChunks = 0 ∧ ChunkDecodeCache.new.compressedBytes = 0 :=
    ⟨rfl, rfl, rfl⟩
  refine ⟨?_, ?_, ?_⟩
  · rw [hzero.1, h.layout.total]
    omega
  · omega
  · omega

/-- There are at most as many chunks as bytes. -/
theorem Contiguous.length_le {index offset : Nat} {entries : List ChunkEntry}
    (h : Contiguous index offset entries) : entries.length ≤ (chunkSizes entries).sum := by
  induction entries generalizing index offset with
  | nil => exact Nat.le_refl _
  | cons entry entries ih =>
    obtain ⟨-, -, hpos, hrest⟩ := h
    have := ih hrest
    rw [List.length_cons, chunkSizes_cons, List.sum_cons]
    omega

/-- A document of an opened and verified container is found and verified. -/
theorem readDocumentVerified_eq (hopened : Opened reader.bytes reader.details)
    (hverified : DeepVerified env reader.details (reader.decodeEntry env) parts)
    (hread : ∀ offset length, offset + length ≤ parts.flatten.length →
      reader.readRange env offset length = .ok (slice parts.flatten offset length))
    {documentIndex : DocumentIndex}
    (hindex : reader.details.documentIndex = some documentIndex) {document : DocumentEntry}
    (hmem : document ∈ documentIndex.documents) :
    document.logicalOffset + document.byteLength ≤ parts.flatten.length ∧
      reader.readDocumentVerified env document.docId document.checksum =
        .ok (slice parts.flatten document.logicalOffset document.byteLength) := by
  have hmatches := hverified.documents documentIndex hindex document hmem
  have hrange : document.logicalOffset + document.byteLength ≤ parts.flatten.length := by
    rw [hverified.size]
    exact hmatches.range
  obtain ⟨index, hget⟩ := List.mem_iff_getElem?.mp hmem
  have hlookup := lookup_buildDocumentLookup (hopened.nodup documentIndex hindex) hget
  have hfind : findDocument reader.details document.docId = .ok document := by
    rw [findDocument, hindex, okOr_some, ok_bind, hopened.documentLookup, hindex, hlookup,
      okOr_some, ok_bind, hget, okOr_some]
  refine ⟨hrange, ?_⟩
  rw [QztReader.readDocumentVerified, QztReader.readDocument, hfind, ok_bind, hread _ _ hrange,
    ok_bind, verifyExpectedChecksum, hmatches.checksum, rejectIf_of_not (by simp [Checksum.blake3]),
    ok_bind, rejectIf_of_not (by simp)]
  rfl

/-- An opened and verified container serves the text of its parts. -/
theorem Opened.servesText (hopened : Opened reader.bytes reader.details)
    (hverified : DeepVerified env reader.details (reader.decodeEntry env) parts) :
    ServesText env reader parts.flatten := by
  have hlayout := hopened.layout
  have hsize := hverified.size
  have hsizeLt := hlayout.size_lt
  have hcount : (lines parts.flatten).length = reader.details.summary.lineCount := by
    rw [length_lines, hverified.lineCount, hopened.lineCount]
  have hroom : ChunkDecodeCache.new.Room reader.details.chunkEntries := by
    refine hopened.room ?_
    rw [← hlayout.total]
    exact hlayout.contiguous.length_le
  have hread : ∀ offset length, offset + length ≤ parts.flatten.length →
      reader.readRange env offset length = .ok (slice parts.flatten offset length) := by
    intro offset length hrange
    exact readRangeFromEntries_succeeds hlayout (hverified.describes.agrees hverified.decodes)
      hsize hverified.decodes.decodes hroom (by omega)
  refine ⟨?_, ?_, hsize, hread, hcount, flatten_segments _, ?_, ?_, ?_, ?_, ?_⟩
  · rw [QztReader.exportAll, collect_eq_ok_iff.mpr hverified.decodes]
    rfl
  · exact Utf8.valid_flatten hverified.valid
  · intro index line hline
    have hlt : index < reader.details.summary.lineCount := by
      rw [← hcount]
      exact (List.getElem?_eq_some_iff.mp hline).1
    have hlines : reader.details.summary.lineCount = countLines parts.flatten := by
      rw [← hcount, length_lines]
    obtain ⟨bytes, hok, hbytes⟩ := readLineFromEntries_eq hverified.describes hverified.decodes
      hverified.dense (by omega) hlines hlt
    rw [hline, Option.some.injEq] at hbytes
    rw [hbytes]
    exact hok
  · intro index hge
    rw [QztReader.readLineRaw, readLineFromEntries, rejectIf_of hge, error_bind]
  · intro documentIndex hindex document hmem
    exact readDocumentVerified_eq hopened hverified hread hindex hmem
  · rw [lineInfo_newlineMode, hverified.newlineMode]
  · intro entry hentry
    obtain ⟨index, hget⟩ := List.mem_iff_getElem?.mp hentry
    exact hverified.describes.lineFacts hget

end Contract

/-- The text of an opened container that passes deep verification. -/
theorem servesText_of_verify {env : Env} {bytes : List UInt8} {limits : ResourceLimits}
    {reader : QztReader} {report : VerifyReport}
    (hopen : QztReader.openWithLimits env bytes limits = .ok reader)
    (hverify : reader.verify env .deep = .ok report) : ∃ text, ServesText env reader text := by
  rw [QztReader.openWithLimits] at hopen
  obtain ⟨details, hdetails, heq⟩ := bind_eq_ok_iff.mp hopen
  cases heq
  have hopened : Opened bytes details := openSkeletonDetailsWithLimits_opened hdetails
  rw [QztReader.verify, QztReader.verifyDeep] at hverify
  obtain ⟨_, -, hdeep⟩ := bind_eq_ok_iff.mp hverify
  obtain ⟨parts, hverified⟩ := verifyDeepEntries_sound hopened.layout
    (fun entry part h => QztReader.decodeEntry_length h) hdeep
  exact ⟨parts.flatten, Opened.servesText hopened hverified⟩

/-- Deep verification suffices for every read. -/
theorem verifyDeep_servesText {env : Env} {bytes : List UInt8} {limits : ResourceLimits}
    {reader : QztReader} {report : VerifyReport}
    (hopen : QztReader.openWithLimits env bytes limits = .ok reader)
    (hverify : reader.verify env .deep = .ok report) :
    ∃ text, ServesText env reader text :=
  servesText_of_verify hopen hverify

end Qzt
