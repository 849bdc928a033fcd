import Qzt.Foundation.SegmentIndex
import Qzt.Format.Reference
import Qzt.Reader.CachedReads
import Qzt.Writer.Documents
import Qzt.Writer.PlannedTables

/-!
# The coordinates of generated documents

The line and chunk coordinates that `build_document_index` computes are the definitional
ones: the lines and the chunks that the bytes of the span belong to.  Deep verification
accepts them under the planned table they were computed for.
-/

namespace Qzt

open Foundation

/-! ## Lines -/

/-- The lines that the bytes of a range belong to, by number. -/
def linesMeeting (input : List UInt8) (start stop : Nat) : Finset Nat :=
  (Finset.Ico start stop).image (segmentIndex lf input)

section Lines

variable {input : List UInt8}

theorem newlinesBefore_succ (position : Nat) : newlinesBefore input (position + 1) =
    newlinesBefore input position + if input[position]? = some lf then 1 else 0 := by
  rw [newlinesBefore, newlinesBefore, List.take_add_one, List.count_append]
  cases input[position]? with
  | none => rfl
  | some byte =>
    rw [Option.toList_some, List.count_singleton]
    by_cases hbyte : byte = lf <;> simp [hbyte]

/-- The lines of a range, counted by the LF bytes at its ends. -/
theorem card_linesMeeting {start length : Nat} (h : start + length < input.length) :
    (linesMeeting input start (start + length + 1)).card =
      newlinesBefore input (start + length) - newlinesBefore input start + 1 := by
  have hcongr : linesMeeting input start (start + length + 1) =
      (Finset.Ico start (start + length + 1)).image (newlinesBefore input) := by
    refine Finset.image_congr ?_
    intro position hposition
    rw [Finset.mem_coe, Finset.mem_Ico] at hposition
    exact segmentIndex_eq_count (by omega)
  rw [hcongr]
  apply card_image_Ico_of_slow
  · exact fun a b hab => newlinesBefore_mono hab
  · intro position
    rw [newlinesBefore_succ]
    split <;> omega

/-- The line count of a document is the number of lines it meets. -/
theorem documentLineCount_eq {start stop : Nat} (hle : start ≤ stop) (hstop : stop ≤ input.length)
    (hword : input.length < 2 ^ 64) :
    documentLineCount (slice input start (stop - start))
        (newlinesBefore input stop - newlinesBefore input start) =
      .ok (linesMeeting input start stop).card := by
  rcases Nat.eq_or_lt_of_le hle with rfl | hlt
  · rw [Nat.sub_self, slice_length_zero, documentLineCount, if_pos rfl, linesMeeting,
      Finset.Ico_self, Finset.image_empty, Finset.card_empty]
  · obtain ⟨length, rfl⟩ : ∃ length, stop = start + length + 1 := ⟨stop - start - 1, by omega⟩
    have hslice : (slice input start (start + length + 1 - start)).length = length + 1 := by
      rw [length_slice_of_le (by omega)]
      omega
    have hne : slice input start (start + length + 1 - start) ≠ [] := by
      apply List.ne_nil_of_length_pos
      omega
    have hlast : (slice input start (start + length + 1 - start)).getLast? =
        input[start + length]? := by
      rw [List.getLast?_eq_getElem?, hslice, Nat.add_sub_cancel, getElem?_slice (by omega)]
    have hmono := @newlinesBefore_mono input start (start + length) (Nat.le_add_right _ _)
    have hbound : newlinesBefore input (start + length) ≤ start + length :=
      Nat.le_trans List.count_le_length (List.length_take_le _ _)
    rw [card_linesMeeting hstop, documentLineCount, if_neg hne, hlast, newlinesBefore_succ]
    by_cases hlf : input[start + length]? = some lf
    · -- The LF at the end belongs to a line that was counted.
      rw [if_pos hlf, if_pos hlf]
      congr 1
      omega
    · rw [if_neg hlf, if_neg hlf, Nat.add_zero, checkedAdd_of_lt (by omega), okOr_some]

end Lines

/-! ## Chunks -/

/-- The bytes of a chunk meet a range. -/
def ChunkEntry.Meets (entry : ChunkEntry) (start stop : Nat) : Prop :=
  entry.logicalOffset < stop ∧ start < entry.logicalOffset + entry.uncompressedSize

/-- A chunk range of a document: `(0, 0)` when it is empty, and else exactly the chunks that its
bytes meet. -/
structure CoversRange (entries : List ChunkEntry) (start length : Nat) (range : Nat × Nat) :
    Prop where
  ofEmpty : length = 0 → range = (0, 0)
  exact : 0 < length → ∀ id, (range.1 ≤ id ∧ id < range.2 ↔
    ∃ entry ∈ entries, entry.chunkId = id ∧ entry.Meets start (start + length))

/-- The chunks between the two found by the searches are those that the range meets. -/
theorem Layout.meets_iff {entries : List ChunkEntry} {size start length id : Nat}
    (h : Layout entries size) (hpos : 0 < length) (hlen : start + length ≤ size) :
    (weightIndex (chunkSizes entries) start ≤ id ∧
        id < weightIndex (chunkSizes entries) (start + length - 1) + 1) ↔
      ∃ entry ∈ entries, entry.chunkId = id ∧ entry.Meets start (start + length) := by
  constructor
  · rintro ⟨hfirst, hlast⟩
    obtain ⟨hlt, hle, -⟩ := @weightIndex_spec (chunkSizes entries) (start + length - 1)
      (by rw [h.total]; omega)
    have hid : id < entries.length := by
      rw [length_chunkSizes] at hlt
      omega
    have hget := List.getElem?_eq_getElem hid
    obtain ⟨hchunkId, hoffset, -, hend⟩ := h.contiguous.getElem? hget
    refine ⟨entries[id], List.getElem_mem hid, by rw [hchunkId, Nat.zero_add], ?_, ?_⟩
    · -- The chunk starts before the last byte of the range.
      rcases Nat.eq_or_lt_of_le (Nat.le_of_lt_succ hlast) with rfl | hbefore
      · omega
      · have hended := (lt_weightIndex_iff (by rw [length_chunkSizes]; exact hid)).mp hbefore
        omega
    · have hopen : ¬ ((chunkSizes entries).take (id + 1)).sum ≤ start := by
        rw [← lt_weightIndex_iff (by rw [length_chunkSizes]; exact hid)]
        omega
      omega
  · rintro ⟨entry, hentry, rfl, hbefore, hafter⟩
    obtain ⟨n, hn⟩ := List.mem_iff_getElem?.mp hentry
    have hlt := (List.getElem?_eq_some_iff.mp hn).1
    obtain ⟨hchunkId, hoffset, -, hend⟩ := h.contiguous.getElem? hn
    rw [hchunkId, Nat.zero_add]
    constructor
    · rw [← Nat.not_lt, lt_weightIndex_iff (by rw [length_chunkSizes]; exact hlt)]
      omega
    · cases n with
      | zero => exact Nat.succ_pos _
      | succ n =>
        rw [Nat.succ_lt_succ_iff, lt_weightIndex_iff (by rw [length_chunkSizes]; omega)]
        omega

/-- The searches of the writer and of the reader find the chunks of a range. -/
theorem documentChunkRange_covers {entries : List ChunkEntry} {size : Nat}
    (h : Layout entries size) {start length : Nat} (hlen : start + length ≤ size) :
    ∃ range, writerDocumentChunkRange entries start length = .ok range ∧
      CoversRange entries start length range := by
  rcases Nat.eq_zero_or_pos length with rfl | hpos
  · exact ⟨(0, 0), rfl, fun _ => rfl, fun hlt => absurd hlt (Nat.lt_irrefl 0)⟩
  · have hword := h.size_lt
    have htotal := h.total
    have hcount := length_le_sum_chunkSizes fun entry hentry => h.size_pos hentry
    have hfirstLt := (@weightIndex_spec (chunkSizes entries) start (by omega)).1
    have hlastLt := (@weightIndex_spec (chunkSizes entries) (start + length - 1) (by omega)).1
    rw [length_chunkSizes] at hfirstLt hlastLt
    have hfirst := List.getElem?_eq_getElem hfirstLt
    have hlast := List.getElem?_eq_getElem hlastLt
    have hfirstId := (h.contiguous.getElem? hfirst).1
    have hlastId := (h.contiguous.getElem? hlast).1
    rw [Nat.zero_add] at hfirstId hlastId
    refine ⟨(weightIndex (chunkSizes entries) start,
      weightIndex (chunkSizes entries) (start + length - 1) + 1), ?_, fun hzero => by omega,
      fun _ id => h.meets_iff hpos hlen⟩
    rw [writerDocumentChunkRange, if_neg (by omega), checkedLogicalEnd_of_lt (by omega), ok_bind,
      documentChunkIndex_eq, h.chunkIndex_eq, ok_bind, hfirst, okOr_some, ok_bind,
      checkedSub_eq_some_iff.mpr ⟨by omega, rfl⟩, okOr_some, ok_bind, documentChunkIndex_eq,
      h.chunkIndex_eq, ok_bind, hlast, okOr_some, ok_bind, hlastId,
      checkedAdd_of_lt (by omega), okOr_some, ok_bind, hfirstId]
    rfl

/-! ## The documents that are built -/

/-- Where a span stops. -/
def DocumentSpan.stop (span : DocumentSpan) : Nat :=
  span.logicalOffset + span.byteLength

/-- The document of a span, by definition. -/
structure DefinedBy (env : Env) (input : List UInt8) (entries : List ChunkEntry)
    (span : DocumentSpan) (document : DocumentEntry) : Prop where
  docId : document.docId = span.docId
  docIdHash : document.docIdHash = digestPrefix16 (env.blake3.hash (textBytes span.docId))
  logicalOffset : document.logicalOffset = span.logicalOffset
  byteLength : document.byteLength = span.byteLength
  firstLine : document.firstLine = newlinesBefore input span.logicalOffset
  lineCount : document.lineCount = (linesMeeting input span.logicalOffset span.stop).card
  chunks : CoversRange entries span.logicalOffset span.byteLength
    (document.chunkStart, document.chunkEnd)
  checksum : document.checksum =
    Checksum.blake3 env (slice input span.logicalOffset span.byteLength)
  writerRange : writerDocumentChunkRange entries span.logicalOffset span.byteLength =
    .ok (document.chunkStart, document.chunkEnd)
  readerRange : documentChunkRange entries span.logicalOffset span.byteLength =
    .ok (document.chunkStart, document.chunkEnd)

section Build

variable {env : Env} {input : List UInt8} {entries : List ChunkEntry}

theorem buildDocument_of_inside (hlayout : Layout entries input.length) {span : DocumentSpan}
    (hinside : span.stop ≤ input.length) :
    ∃ document, buildDocument env input entries span (span.logicalOffset, span.stop)
        (newlinesBefore input span.logicalOffset, newlinesBefore input span.stop) = .ok document ∧
      DefinedBy env input entries span document := by
  have hle : span.logicalOffset ≤ span.stop := Nat.le_add_right _ _
  have hlength : span.stop - span.logicalOffset = span.byteLength := Nat.add_sub_cancel_left _ _
  obtain ⟨range, hrange, hcovers⟩ := documentChunkRange_covers hlayout hinside
  have hlines := documentLineCount_eq hle hinside hlayout.size_lt
  refine ⟨DocumentEntry.new env span.docId span.logicalOffset span.byteLength
      (newlinesBefore input span.logicalOffset)
      (linesMeeting input span.logicalOffset span.stop).card range.1 range.2
      (Checksum.blake3 env (slice input span.logicalOffset span.byteLength)), ?_, ?_⟩
  · rw [buildDocument]
    simp only
    rw [getRange?_eq_some_iff.mpr ⟨⟨hle, hinside⟩, rfl⟩, okOr_some, ok_bind,
      checkedSub_eq_some_iff.mpr ⟨newlinesBefore_mono hle, rfl⟩, okOr_some, ok_bind, hlines,
      ok_bind, hrange, ok_bind, hlength]
    rfl
  · exact ⟨rfl, rfl, rfl, rfl, rfl, rfl, hcovers, rfl, hrange,
      writerDocumentChunkRange_eq_ok hrange⟩

theorem buildDocuments_of_inside (hlayout : Layout entries input.length)
    {spans : List DocumentSpan} (hinside : ∀ span ∈ spans, span.stop ≤ input.length) :
    ∃ documents, buildDocuments env input entries spans
        (spans.map fun span => (span.logicalOffset, span.stop))
        (spans.map fun span =>
          (newlinesBefore input span.logicalOffset, newlinesBefore input span.stop)) =
          .ok documents ∧
      List.Forall₂ (DefinedBy env input entries) spans documents := by
  induction spans with
  | nil => exact ⟨[], rfl, .nil⟩
  | cons span spans ih =>
    rw [List.forall_mem_cons] at hinside
    obtain ⟨document, hdocument, hdefined⟩ := @buildDocument_of_inside env _ _ hlayout _ hinside.1
    obtain ⟨documents, hdocuments, hdefineds⟩ := ih hinside.2
    refine ⟨document :: documents, ?_, .cons hdefined hdefineds⟩
    rw [List.map_cons, List.map_cons, buildDocuments, hdocument, ok_bind, hdocuments]
    rfl

/-- Spans with new identifiers inside the input have their ranges. -/
theorem spanRanges_of_inside {inputLen : Nat} (hword : inputLen < 2 ^ 64) {seen : List String}
    {spans : List DocumentSpan} (hunique : (spans.map DocumentSpan.docId).Nodup)
    (hnew : ∀ span ∈ spans, span.docId ∉ seen) (hinside : ∀ span ∈ spans, span.stop ≤ inputLen) :
    spanRanges inputLen seen spans =
      .ok (spans.map fun span => (span.logicalOffset, span.stop)) := by
  induction spans generalizing seen with
  | nil => rfl
  | cons span spans ih =>
    rw [List.map_cons, List.nodup_cons] at hunique
    rw [List.forall_mem_cons] at hnew hinside
    have hstop : span.logicalOffset + span.byteLength ≤ inputLen := hinside.1
    have hrest : ∀ other ∈ spans, other.docId ∉ span.docId :: seen := by
      intro other hother hmem
      rcases List.mem_cons.mp hmem with heq | hmem
      · exact hunique.1 (heq ▸ List.mem_map_of_mem hother)
      · exact hnew.2 other hother hmem
    rw [spanRanges, rejectIf_of_not hnew.1, ok_bind, checkedLogicalEnd_of_lt (by omega), ok_bind,
      rejectIf_of_not (by omega), ok_bind, u64ToUsize_of_lt (by omega), ok_bind,
      u64ToUsize_of_lt (by omega), ok_bind, ih hunique.2 hrest hinside.2]
    rfl

/-- The sweep never overflows its counter. -/
theorem linePrefixLoop_succeeds (hword : input.length < 2 ^ 64) {events : List LineEvent}
    (hsorted : events.Pairwise fun a b => a.offset ≤ b.offset) {cursor : Nat}
    (hcursor : ∀ event ∈ events, cursor ≤ event.offset) (linePrefixes : List (Nat × Nat)) :
    ∃ final, linePrefixLoop input events cursor (newlinesBefore input cursor) linePrefixes =
      .ok final ∧ final.length = linePrefixes.length := by
  induction events generalizing cursor linePrefixes with
  | nil => exact ⟨linePrefixes, rfl, rfl⟩
  | cons event events ih =>
    rw [List.pairwise_cons] at hsorted
    rw [List.forall_mem_cons] at hcursor
    have hbound : newlinesBefore input event.offset ≤ input.length :=
      Nat.le_trans List.count_le_length (List.length_take_le' _ _)
    rw [linePrefixLoop, checkedAdd_of_lt, okOr_some, ok_bind,
      newlinesBefore_advance hcursor.1, Nat.max_eq_right hcursor.1]
    · obtain ⟨final, hfinal, hlength⟩ := ih hsorted.2 hsorted.1 (linePrefixes.modify
        event.spanIndex fun counts => if event.isEnd then
          (counts.1, newlinesBefore input event.offset)
          else (newlinesBefore input event.offset, counts.2))
      exact ⟨final, hfinal, by rw [hlength, List.length_modify]⟩
    · rw [newlinesBefore_advance hcursor.1]
      omega

/-- The sweep leaves the LF counts at the ends of every span. -/
theorem linePrefixLoop_of_spans (hword : input.length < 2 ^ 64) (spans : List DocumentSpan) :
    linePrefixLoop input
        ((lineEvents (spans.map fun span => (span.logicalOffset, span.stop))).insertionSort
          LineEvent.le) 0 0 (List.replicate spans.length (0, 0)) =
      .ok (spans.map fun span =>
        (newlinesBefore input span.logicalOffset, newlinesBefore input span.stop)) := by
  have hsorted := (List.pairwise_insertionSort LineEvent.le (lineEvents
    (spans.map fun span => (span.logicalOffset, span.stop)))).imp
      fun {a b} (hab : LineEvent.le a b) => show a.offset ≤ b.offset by
        rcases hab with hlt | ⟨heq, -⟩
        · exact Nat.le_of_lt hlt
        · exact Nat.le_of_eq heq
  obtain ⟨final, hfinal, hlength⟩ := @linePrefixLoop_succeeds input hword _ hsorted 0
    (fun _ _ => Nat.zero_le _) (List.replicate spans.length (0, 0))
  rw [newlinesBefore, List.take_zero, List.count_nil] at hfinal
  rw [hfinal]
  congr 1
  apply List.ext_getElem
  · rw [hlength, List.length_replicate, List.length_map]
  · intro index hindex hmap
    have hspan : index < spans.length := by rwa [List.length_map] at hmap
    have hrange : (spans.map fun span => (span.logicalOffset, span.stop))[index]? =
        some (spans[index].logicalOffset, spans[index].stop) := by
      rw [List.getElem?_map, List.getElem?_eq_getElem hspan, Option.map_some]
    rw [List.getElem_map]
    exact linePrefixLoop_eq_ok hfinal hrange (List.getElem?_eq_getElem hindex)

end Build

/-! ## The index -/

/-- All documents pass. -/
theorem verifyDocuments_of_forall {env : Env} {originalSize lineCount first : Nat}
    {entries : List ChunkEntry} {hashes : List (Nat × Digest)} {documents : List DocumentEntry}
    (h : ∀ index document, documents[index]? = some document →
      verifyDocument env originalSize lineCount entries hashes (first + index) document =
        .ok ⟨⟩) :
    verifyDocuments env originalSize lineCount entries hashes first documents = .ok ⟨⟩ := by
  induction documents generalizing first with
  | nil => rfl
  | cons document documents ih =>
    have hfirst := h 0 document rfl
    rw [Nat.add_zero] at hfirst
    rw [verifyDocuments, hfirst, ok_bind]
    apply ih
    intro index other hother
    rw [Nat.add_assoc, Nat.add_comm 1]
    exact h (index + 1) other hother

/-- A document that is defined by its span passes deep verification. -/
theorem DefinedBy.verifies {env : Env} {input : List UInt8} {entries : List ChunkEntry}
    {spans : List DocumentSpan} {documents : List DocumentEntry} (hword : input.length < 2 ^ 64)
    (hinside : ∀ span ∈ spans, span.stop ≤ input.length)
    (h : List.Forall₂ (DefinedBy env input entries) spans documents)
    {hasher : DocumentHasher env} (htracks : hasher.Tracks documents input) :
    verifyDocuments env input.length (countLines input) entries hasher.results 0 documents =
      .ok ⟨⟩ := by
  apply verifyDocuments_of_forall
  intro index document hget
  rw [Nat.zero_add]
  obtain ⟨hlt, rfl⟩ := List.getElem?_eq_some_iff.mp hget
  have hspan : index < spans.length := by rwa [h.length_eq]
  have hdefined := h.get hspan hlt
  simp only [List.get_eq_getElem] at hdefined
  have hstop : spans[index].logicalOffset + spans[index].byteLength ≤ input.length :=
    hinside _ (List.getElem_mem hspan)
  have hlines := @documentLineCount_le input spans[index].logicalOffset spans[index].stop _
    (Nat.le_add_right _ _) (documentLineCount_eq (Nat.le_add_right _ _) hstop hword)
  have hcount := countLines_le input
  refine verifyDocument_succeeds htracks hget hword rfl ?_ ?_ (by omega) ?_ ?_ ?_
  · rw [hdefined.logicalOffset, hdefined.byteLength]
    exact hstop
  · rw [hdefined.firstLine, hdefined.lineCount]
    exact hlines
  · rw [hdefined.docIdHash, hdefined.docId]
  · rw [hdefined.checksum, hdefined.logicalOffset, hdefined.byteLength]
  · rw [hdefined.logicalOffset, hdefined.byteLength]
    exact hdefined.readerRange

/-- Generated document coordinates are the definitional ones and pass verification.  For every
text, every table of its plan and all spans inside the text whose identifiers are unique and pass
the preflight, in any order and overlapping as they may, the index is built, each document is the
one its span defines, and the range check of deep verification accepts the index with the hashes
of one pass over the text, however that is cut into chunks. -/
theorem buildDocumentIndex_coordinates (env : Env) (containerId : ContainerId) {input : List UInt8}
    {options : ChunkerOptions} {plan : ChunkPlan} {entries : List ChunkEntry}
    {spans : List DocumentSpan} (hinput : input.length < 2 ^ 63)
    (hmax : options.maxChunkSize < 2 ^ 64) (hplan : planChunks input options = .ok plan)
    (htable : plan.IsTable entries) (hunique : (spans.map DocumentSpan.docId).Nodup)
    (hinside : ∀ span ∈ spans, span.logicalOffset + span.byteLength ≤ input.length)
    (hids : DocumentIndex.preflightDocumentIds env (spans.map DocumentSpan.docId) .default =
      .ok ⟨⟩) :
    ∃ index, buildDocumentIndex env spans input containerId entries = .ok index ∧
      index.containerId = containerId ∧
      List.Forall₂ (DefinedBy env input entries) spans index.documents ∧
      ∀ parts : List (List UInt8), parts.flatten = input →
        ∃ hasher : DocumentHasher env, DocumentHasher.feedAll 0 parts (.new index) = .ok hasher ∧
          verifyDocumentIndexRanges env index input.length plan.lineCount entries hasher.finish =
            .ok ⟨⟩ := by
  have hlines : plan.lineCount = countLines input := by
    obtain ⟨-, -, cut, hsplits, rfl⟩ := planChunks_splits hmax hplan
    rw [planOf, hsplits.flatten]
  obtain ⟨cut, hdescribes, rfl, -⟩ := htable.describes hmax hplan
  have hword : cut.flatten.length < 2 ^ 64 := by omega
  obtain ⟨documents, hdocuments, hdefined⟩ :=
    @buildDocuments_of_inside env _ _ (hdescribes.layout hword) spans hinside
  refine ⟨⟨containerId, documents⟩, ?_, rfl, hdefined, ?_⟩
  · rw [buildDocumentIndex, hids, ok_bind, usizeToU64_of_lt hword, ok_bind,
      spanRanges_of_inside hword hunique (fun _ _ => List.not_mem_nil) hinside, ok_bind]
    simp only
    rw [linePrefixLoop_of_spans hword spans, ok_bind, hdocuments]
    rfl
  · intro parts hparts
    have hroom : ([] : List UInt8).length + parts.flatten.length < 2 ^ 64 := by
      rwa [List.length_nil, Nat.zero_add, hparts]
    obtain ⟨hasher, hfeed, htracks⟩ :=
      (@DocumentHasher.tracks_new env ⟨containerId, documents⟩).feedAll hroom
    rw [List.nil_append, hparts] at htracks
    refine ⟨hasher, hfeed, ?_⟩
    rw [verifyDocumentIndexRanges, hlines]
    exact DefinedBy.verifies hword hinside hdefined htracks

/-- `"a\nb"` in chunks of two bytes: one document over both chunks, one over the LF alone, and an
empty one at the end. -/
theorem buildDocumentIndex_coordinates_overlapping :
    let digest : Digest := List.Vector.replicate 32 0
    let entries : List ChunkEntry := [⟨0, 128, 9, 0, 2, 0, 1, 0, 0, digest, digest⟩,
      ⟨1, 137, 9, 2, 1, 1, 1, 0, 0, digest, digest⟩]
    ∃ index, buildDocumentIndex Reference.env [⟨"all", 0, 3⟩, ⟨"end", 3, 0⟩, ⟨"lf", 1, 1⟩]
        [0x61, 0x0a, 0x62] (List.Vector.replicate 16 0) entries = .ok index ∧
      index.documents.map (fun document => (document.firstLine, document.lineCount,
        document.chunkStart, document.chunkEnd)) = [(0, 2, 0, 2), (1, 0, 0, 0), (0, 1, 0, 1)] ∧
      ∃ hasher : DocumentHasher Reference.env,
        verifyDocumentIndexRanges Reference.env index 3 2 entries hasher.finish = .ok ⟨⟩ := by
  intro digest entries
  let plan : ChunkPlan :=
    { chunks :=
        [{ chunkId := 0, logicalOffset := 0, uncompressedSize := 2, firstLine := 0, lineCount := 1,
           flags := 0 },
          { chunkId := 1, logicalOffset := 2, uncompressedSize := 1, firstLine := 1,
            lineCount := 1, flags := 0 }]
      lineCount := 2
      newlineMode := .lf }
  have hplan : planChunks [0x61, 0x0a, 0x62] { targetChunkSize := 2, maxChunkSize := 2 } =
      .ok plan := by decide +kernel
  have htable : plan.IsTable entries :=
    .cons ⟨rfl, rfl, rfl, rfl, rfl, rfl⟩ (.cons ⟨rfl, rfl, rfl, rfl, rfl, rfl⟩ .nil)
  obtain ⟨index, hindex, -, -, hverify⟩ := @buildDocumentIndex_coordinates Reference.env
    (List.Vector.replicate 16 0) _ _ _ _ [⟨"all", 0, 3⟩, ⟨"end", 3, 0⟩, ⟨"lf", 1, 1⟩]
    (by decide) (by decide) hplan htable (by decide) (by decide) (by decide +kernel)
  obtain ⟨hasher, -, hhasher⟩ := hverify [[0x61, 0x0a, 0x62]] rfl
  have hcoordinates : (buildDocumentIndex Reference.env
      [⟨"all", 0, 3⟩, ⟨"end", 3, 0⟩, ⟨"lf", 1, 1⟩] [0x61, 0x0a, 0x62]
      (List.Vector.replicate 16 0) entries).map (fun index => index.documents.map fun document =>
        (document.firstLine, document.lineCount, document.chunkStart, document.chunkEnd)) =
      .ok [(0, 2, 0, 2), (1, 0, 0, 0), (0, 1, 0, 1)] := by decide +kernel
  rw [hindex] at hcoordinates
  exact ⟨index, hindex, Except.ok.inj hcoordinates, hasher, hhasher⟩

/-! ## Identifiers beyond the limit -/

/-- The preflight rejects an identifier that no block may hold. -/
theorem preflightDocumentIds_length_le {env : Env} {ids : List String} {limits : ResourceLimits}
    (h : DocumentIndex.preflightDocumentIds env ids limits = .ok ⟨⟩) :
    ∀ id ∈ ids, (textBytes id).length ≤ limits.maxCborAllocation := by
  have hloop : ∀ {ids : List String} {allocation : Nat},
      DocumentIndex.preflightAllocation limits ids allocation = .ok ⟨⟩ →
        ∀ id ∈ ids, (textBytes id).length ≤ limits.maxCborAllocation := by
    intro ids
    induction ids with
    | nil => exact fun _ _ hmem => absurd hmem List.not_mem_nil
    | cons id ids ih =>
      intro allocation hok
      simp only [DocumentIndex.preflightAllocation, bind_eq_ok_iff, usizeToU64_eq_ok_iff,
        okOr_eq_ok_iff, checkedAdd_eq_some_iff, rejectIf_eq_ok_iff] at hok
      obtain ⟨_, ⟨-, rfl⟩, _, ⟨-, rfl⟩, _, hle, hrest⟩ := hok
      rw [List.forall_mem_cons]
      exact ⟨by omega, ih hrest⟩
  simp only [DocumentIndex.preflightDocumentIds, bind_eq_ok_iff] at h
  obtain ⟨_, -, _, -, _, -, _, -, _, -, _, -, hpreflight⟩ := h
  exact hloop hpreflight

/-- An identifier one byte longer than a block may allocate. -/
def longId : String :=
  String.ofList (List.replicate (ResourceLimits.default.maxCborAllocation + 1) 'a')

/-- One empty document of the empty text, under an identifier that is too long. -/
theorem buildDocumentIndex_rejects_longId :
    ∃ plan, planChunks [] { targetChunkSize := 2, maxChunkSize := 2 } = .ok plan ∧
      plan.IsTable [] ∧ ([⟨longId, 0, 0⟩].map DocumentSpan.docId).Nodup ∧
      (∀ span ∈ [(⟨longId, 0, 0⟩ : DocumentSpan)], span.stop ≤ ([] : List UInt8).length) ∧
      ∀ index, buildDocumentIndex Reference.env [⟨longId, 0, 0⟩] [] (List.Vector.replicate 16 0) []
        ≠ .ok index := by
  refine ⟨{ chunks := [], lineCount := 0, newlineMode := .none }, by decide, .nil,
    List.nodup_singleton _, by simp [DocumentSpan.stop], fun index hindex => ?_⟩
  simp only [buildDocumentIndex, bind_eq_ok_iff] at hindex
  obtain ⟨⟨⟩, hids, -⟩ := hindex
  have hle := preflightDocumentIds_length_le hids longId List.mem_cons_self
  rw [longId, length_textBytes_replicate] at hle
  exact Nat.not_succ_le_self _ hle

end Qzt
