import Qzt.Reader.DeepPass
import Qzt.Writer.Pack

/-!
# The document index of the writer

`build_document_index` counts the lines of all spans in one sweep over sorted events.
What it records for a span is the number of LF bytes before its two ends, so the
documents it builds are those that deep verification accepts.
-/

namespace Qzt

open Foundation

/-! ## Counting lines by LF bytes -/

/-- A text has one line for every LF, and one more when it does not end with one. -/
theorem countLines_eq_count (text : List UInt8) :
    countLines text = text.count lf + if endsLine text then 0 else 1 := by
  induction text using List.reverseRecOn with
  | nil => rfl
  | append_singleton text byte ih =>
    have hstarts : (partLineStarts text [byte]).length = if endsLine text then 1 else 0 := by
      rw [partLineStarts, segmentStarts_cons, segmentStarts, List.append_nil]
      split <;> rfl
    rw [countLines_append, ih, hstarts, endsLine_append_of_ne_nil _ (by simp), List.count_append,
      List.count_singleton]
    by_cases hbyte : byte = lf <;> by_cases hends : endsLine text = true <;>
      simp [hbyte, hends]

theorem countLines_take_le (text : List UInt8) (n : Nat) :
    countLines (text.take n) ≤ countLines text := by
  conv_rhs => rw [← List.take_append_drop n text, countLines_append]
  exact Nat.le_add_right _ _

/-! ## The sweep -/

/-- The number of LF bytes before a position. -/
def newlinesBefore (input : List UInt8) (offset : Nat) : Nat :=
  (input.take offset).count lf

/-- The count of an event in the pair of its span. -/
def LineEvent.recorded (event : LineEvent) (counts : Nat × Nat) : Nat :=
  if event.isEnd then counts.2 else counts.1

/-- The counts of the events that were seen are stored. -/
def Recorded (input : List UInt8) (seen : List LineEvent) (linePrefixes : List (Nat × Nat)) : Prop :=
  ∀ event ∈ seen, ∀ counts, linePrefixes[event.spanIndex]? = some counts →
    event.recorded counts = newlinesBefore input event.offset

/-- Events of one end of one span are at one position. -/
def Consistent (events : List LineEvent) : Prop :=
  ∀ a ∈ events, ∀ b ∈ events, a.spanIndex = b.spanIndex → a.isEnd = b.isEnd → a.offset = b.offset

section Sweep

variable {input : List UInt8}

/-- Advancing the cursor adds the LF bytes in between. -/
theorem newlinesBefore_advance {cursor offset : Nat} (h : cursor ≤ offset) :
    newlinesBefore input cursor + (slice input cursor (offset - cursor)).count lf =
      newlinesBefore input offset := by
  rw [newlinesBefore, newlinesBefore, slice, ← List.count_append, ← List.take_add,
    Nat.add_sub_cancel' h]

theorem newlinesBefore_mono {a b : Nat} (h : a ≤ b) :
    newlinesBefore input a ≤ newlinesBefore input b := by
  rw [← newlinesBefore_advance h]
  exact Nat.le_add_right _ _

/-- Storing the count of one event keeps what was stored. -/
private theorem Recorded.store {seen : List LineEvent} {linePrefixes : List (Nat × Nat)}
    (h : Recorded input seen linePrefixes) {event : LineEvent}
    (hconsistent : Consistent (seen ++ [event])) :
    Recorded input (seen ++ [event]) (linePrefixes.modify event.spanIndex fun counts =>
      if event.isEnd then (counts.1, newlinesBefore input event.offset)
      else (newlinesBefore input event.offset, counts.2)) := by
  intro other hother counts hget
  rw [List.getElem?_modify] at hget
  by_cases hspan : event.spanIndex = other.spanIndex
  · simp only [hspan, if_true] at hget
    obtain ⟨old, hold, rfl⟩ := Option.map_eq_some_iff.mp hget
    by_cases hend : event.isEnd = other.isEnd
    · have hoffset := hconsistent event (by simp) other hother hspan hend
      rw [LineEvent.recorded, ← hend, ← hoffset]
      cases event.isEnd <;> rfl
    · have hseen : other ∈ seen := by
        rcases List.mem_append.mp hother with hmem | hmem
        · exact hmem
        · exact absurd (congrArg LineEvent.isEnd (List.mem_singleton.mp hmem)).symm hend
      rw [← h other hseen old hold, LineEvent.recorded, LineEvent.recorded]
      cases hcase : event.isEnd <;> cases hother' : other.isEnd <;> simp_all
  · simp only [hspan, if_false, Option.map_eq_map, Option.map_id'] at hget
    have hseen : other ∈ seen := by
      rcases List.mem_append.mp hother with hmem | hmem
      · exact hmem
      · exact absurd (congrArg LineEvent.spanIndex (List.mem_singleton.mp hmem)).symm hspan
    exact h other hseen counts hget

/-- The sweep stores the count of every event. -/
theorem linePrefixLoop_recorded {events seen : List LineEvent} {cursor : Nat}
    {linePrefixes final : List (Nat × Nat)}
    (hsorted : events.Pairwise fun a b => a.offset ≤ b.offset)
    (hcursor : ∀ event ∈ events, cursor ≤ event.offset)
    (hconsistent : Consistent (seen ++ events)) (hrecorded : Recorded input seen linePrefixes)
    (h : linePrefixLoop input events cursor (newlinesBefore input cursor) linePrefixes = .ok final) :
    Recorded input (seen ++ events) final ∧ final.length = linePrefixes.length := by
  induction events generalizing seen cursor linePrefixes with
  | nil =>
    cases h
    rw [List.append_nil]
    exact ⟨hrecorded, rfl⟩
  | cons event events ih =>
    rw [List.pairwise_cons] at hsorted
    rw [List.forall_mem_cons] at hcursor
    simp only [linePrefixLoop, bind_eq_ok_iff, okOr_eq_ok_iff, checkedAdd_eq_some_iff] at h
    obtain ⟨_, ⟨-, rfl⟩, hloop⟩ := h
    rw [newlinesBefore_advance hcursor.1, Nat.max_eq_right hcursor.1] at hloop
    have happend : seen ++ event :: events = seen ++ [event] ++ events := by simp
    rw [happend] at hconsistent ⊢
    have hstore := @Recorded.store _ _ _ hrecorded event fun a ha b hb =>
      hconsistent a (List.mem_append_left _ ha) b (List.mem_append_left _ hb)
    obtain ⟨hfinal, hlength⟩ := ih hsorted.2 hsorted.1 hconsistent hstore hloop
    exact ⟨hfinal, by rw [hlength, List.length_modify]⟩

end Sweep

/-! ## Spans -/

/-- The range of a span, inside the input. -/
def SpanRange (inputLen : Nat) (span : DocumentSpan) (range : Nat × Nat) : Prop :=
  range = (span.logicalOffset, span.logicalOffset + span.byteLength) ∧
    span.logicalOffset + span.byteLength ≤ inputLen

theorem spanRanges_eq_ok {inputLen : Nat} {seen : List String} {spans : List DocumentSpan}
    {ranges : List (Nat × Nat)} (h : spanRanges inputLen seen spans = .ok ranges) :
    List.Forall₂ (SpanRange inputLen) spans ranges := by
  induction spans generalizing seen ranges with
  | nil =>
    cases h
    exact .nil
  | cons span spans ih =>
    simp only [spanRanges, bind_eq_ok_iff, rejectIf_eq_ok_iff, checkedLogicalEnd_eq_ok_iff,
      u64ToUsize_eq_ok_iff, pure_eq_ok, Except.ok.injEq] at h
    obtain ⟨_, -, _, ⟨-, rfl⟩, _, hinside, _, ⟨-, rfl⟩, _, ⟨-, rfl⟩, rest, hrest, rfl⟩ := h
    exact .cons ⟨rfl, Nat.not_lt.mp hinside⟩ (ih hrest)

/-- The events are the two ends of every range. -/
theorem mem_lineEvents {ranges : List (Nat × Nat)} {event : LineEvent} :
    event ∈ lineEvents ranges ↔ ∃ range, ranges[event.spanIndex]? = some range ∧
      event.offset = if event.isEnd then range.2 else range.1 := by
  rw [lineEvents, List.mem_flatten]
  constructor
  · rintro ⟨pair, hpair, hevent⟩
    obtain ⟨index, hindex, rfl⟩ := List.mem_mapIdx.mp hpair
    rcases List.mem_cons.mp hevent with rfl | hevent
    · exact ⟨_, List.getElem?_eq_getElem hindex, rfl⟩
    · rw [List.mem_singleton] at hevent
      subst hevent
      exact ⟨_, List.getElem?_eq_getElem hindex, rfl⟩
  · rintro ⟨range, hget, hoffset⟩
    obtain ⟨hindex, rfl⟩ := List.getElem?_eq_some_iff.mp hget
    refine ⟨_, List.mem_mapIdx.mpr ⟨event.spanIndex, hindex, rfl⟩, ?_⟩
    obtain ⟨offset, spanIndex, isEnd⟩ := event
    cases isEnd
    · simp only [Bool.false_eq_true, if_false] at hoffset
      rw [hoffset]
      exact List.mem_cons_self
    · simp only [if_true] at hoffset
      rw [hoffset]
      exact List.mem_cons_of_mem _ List.mem_cons_self

instance : Std.Total LineEvent.le where
  total a b := by
    simp only [LineEvent.le]
    cases a.isEnd <;> cases b.isEnd <;> simp <;> omega

instance : IsTrans LineEvent LineEvent.le where
  trans a b c hab hbc := by
    simp only [LineEvent.le] at hab hbc ⊢
    cases ha : a.isEnd <;> cases hb : b.isEnd <;> cases hc : c.isEnd <;> simp_all <;> omega

/-- The counts that the sweep leaves for a span. -/
theorem linePrefixLoop_eq_ok {input : List UInt8} {ranges linePrefixes : List (Nat × Nat)} {n : Nat}
    (h : linePrefixLoop input ((lineEvents ranges).insertionSort LineEvent.le) 0 0
      (List.replicate n (0, 0)) = .ok linePrefixes) {index : Nat} {range counts : Nat × Nat}
    (hrange : ranges[index]? = some range) (hcounts : linePrefixes[index]? = some counts) :
    counts = (newlinesBefore input range.1, newlinesBefore input range.2) := by
  have hperm := List.perm_insertionSort LineEvent.le (lineEvents ranges)
  have hsorted : ((lineEvents ranges).insertionSort LineEvent.le).Pairwise
      fun a b => a.offset ≤ b.offset := by
    refine (List.pairwise_insertionSort LineEvent.le (lineEvents ranges)).imp ?_
    intro a b hab
    simp only [LineEvent.le] at hab
    omega
  have hconsistent : Consistent ([] ++ (lineEvents ranges).insertionSort LineEvent.le) := by
    intro a ha b hb hspan hend
    rw [List.nil_append] at ha hb
    obtain ⟨ra, hra, hoa⟩ := mem_lineEvents.mp (hperm.subset ha)
    obtain ⟨rb, hrb, hob⟩ := mem_lineEvents.mp (hperm.subset hb)
    rw [hspan, hrb, Option.some.injEq] at hra
    rw [hoa, hob, hend, hra]
  have hnil : Recorded input [] (List.replicate n (0, 0)) := by
    intro event hevent
    cases hevent
  obtain ⟨hrecorded, -⟩ := linePrefixLoop_recorded hsorted (fun _ _ => Nat.zero_le _) hconsistent
    hnil h
  have hstart := hrecorded ⟨range.1, index, false⟩
    (hperm.symm.subset (mem_lineEvents.mpr ⟨range, hrange, rfl⟩)) counts hcounts
  have hstop := hrecorded ⟨range.2, index, true⟩
    (hperm.symm.subset (mem_lineEvents.mpr ⟨range, hrange, rfl⟩)) counts hcounts
  exact Prod.ext hstart hstop

/-! ## Documents -/

theorem documentChunkIndex_eq (entries : List ChunkEntry) (offset : Nat) :
    documentChunkIndex entries offset = chunkIndexForLogicalOffset entries offset := rfl

/-- The writer's chunk range is the reader's. -/
theorem writerDocumentChunkRange_eq_ok {entries : List ChunkEntry} {offset length : Nat}
    {range : Nat × Nat} (h : writerDocumentChunkRange entries offset length = .ok range) :
    documentChunkRange entries offset length = .ok range := by
  unfold writerDocumentChunkRange at h
  unfold documentChunkRange
  split at h
  · rename_i hzero
    rw [if_pos hzero]
    exact h
  · rename_i hpos
    rw [if_neg hpos]
    simp only [documentChunkIndex_eq, bind_eq_ok_iff, okOr_eq_ok_iff, checkedSub_eq_some_iff,
      pure_eq_ok, Except.ok.injEq] at h
    obtain ⟨stop, hstop, firstIndex, hfirstIndex, first, hfirst, _, ⟨-, rfl⟩, lastIndex,
      hlastIndex, last, hlast, lastExclusive, hexclusive, rfl⟩ := h
    rw [hstop, ok_bind, hfirstIndex, ok_bind, hlastIndex, ok_bind, hfirst, okOr_some, ok_bind,
      hlast, okOr_some, ok_bind, hexclusive, okOr_some, ok_bind]
    rfl

/-- The lines of a document end inside the text. -/
theorem documentLineCount_le {input : List UInt8} {start stop lineCount : Nat}
    (hle : start ≤ stop)
    (h : documentLineCount (slice input start (stop - start))
      (newlinesBefore input stop - newlinesBefore input start) = .ok lineCount) :
    newlinesBefore input start + lineCount ≤ countLines input := by
  have hmono := @newlinesBefore_mono input start stop hle
  have hbefore : ∀ n, newlinesBefore input n + (if endsLine (input.take n) then 0 else 1) ≤
      countLines input := by
    intro n
    rw [newlinesBefore, ← countLines_eq_count]
    exact countLines_take_le input n
  unfold documentLineCount at h
  split at h
  · cases h
    have := hbefore start
    omega
  · rename_i hne
    have hlast : (input.take stop).getLast? = (slice input start (stop - start)).getLast? := by
      rw [show input.take stop = input.take start ++ slice input start (stop - start) by
        rw [slice, ← List.take_add, Nat.add_sub_cancel' hle], List.getLast?_append_of_ne_nil _ hne]
    have hends : endsLine (input.take stop) =
        decide ((slice input start (stop - start)).getLast? = some lf) := by
      rw [endsLine, endsSegment, hlast, List.getLast?_eq_some_getLast hne]
      simp
    have hbound := hbefore stop
    rw [hends] at hbound
    split at h
    · rename_i hlf
      cases h
      omega
    · rename_i hlf
      simp only [okOr_eq_ok_iff, checkedAdd_eq_some_iff] at h
      simp only [hlf, decide_false, Bool.false_eq_true, if_false] at hbound
      omega

/-- A built document is one that deep verification accepts. -/
theorem buildDocument_matches {env : Env} {details : SkeletonDetails} {input : List UInt8}
    {span : DocumentSpan} {range counts : Nat × Nat} {document : DocumentEntry}
    (hsize : details.summary.originalSize = input.length)
    (hlines : details.metadata.lineCount = countLines input)
    (hrange : SpanRange input.length span range)
    (hcounts : counts = (newlinesBefore input range.1, newlinesBefore input range.2))
    (h : buildDocument env input details.chunkEntries span range counts = .ok document) :
    DocumentMatches env details input document := by
  obtain ⟨rfl, hinside⟩ := hrange
  subst hcounts
  simp only [buildDocument, bind_eq_ok_iff, okOr_eq_ok_iff, getRange?_eq_some_iff,
    checkedSub_eq_some_iff, pure_eq_ok, Except.ok.injEq, Nat.add_sub_cancel_left] at h
  obtain ⟨_, ⟨-, rfl⟩, _, ⟨-, rfl⟩, lineCount, hlineCount, chunks, hchunks, rfl⟩ := h
  have hdocumentLines := @documentLineCount_le input span.logicalOffset
    (span.logicalOffset + span.byteLength) lineCount (Nat.le_add_right _ _)
    (by rw [Nat.add_sub_cancel_left]; exact hlineCount)
  exact
    { range := by rw [hsize]; exact hinside
      lines := by rw [hlines]; exact hdocumentLines
      docIdHash := rfl
      checksum := rfl
      chunks := writerDocumentChunkRange_eq_ok hchunks }

/-- Every document is built from its span, its range and its counts. -/
theorem buildDocuments_eq_ok {env : Env} {input : List UInt8} {entries : List ChunkEntry}
    {spans : List DocumentSpan} {ranges linePrefixes : List (Nat × Nat)}
    {documents : List DocumentEntry}
    (h : buildDocuments env input entries spans ranges linePrefixes = .ok documents) :
    ∀ document ∈ documents, ∃ (index : Nat) (span : DocumentSpan) (range counts : Nat × Nat),
      spans[index]? = some span ∧ ranges[index]? = some range ∧
      linePrefixes[index]? = some counts ∧
      buildDocument env input entries span range counts = .ok document := by
  induction spans generalizing ranges linePrefixes documents with
  | nil =>
    cases h
    simp
  | cons span spans ih =>
    cases ranges with
    | nil =>
      cases h
      simp
    | cons range ranges =>
      cases linePrefixes with
      | nil =>
        cases h
        simp
      | cons counts linePrefixes =>
        simp only [buildDocuments, bind_eq_ok_iff, pure_eq_ok, Except.ok.injEq] at h
        obtain ⟨first, hfirst, rest, hrest, rfl⟩ := h
        intro document hdocument
        rcases List.mem_cons.mp hdocument with rfl | hdocument
        · exact ⟨0, span, range, counts, rfl, rfl, rfl, hfirst⟩
        · obtain ⟨index, hspec⟩ := ih hrest document hdocument
          exact ⟨index + 1, hspec⟩

/-- The document index of the writer is one that deep verification accepts. -/
theorem buildDocumentIndex_matches {env : Env} {details : SkeletonDetails} {input : List UInt8}
    {spans : List DocumentSpan} {containerId : ContainerId} {index : DocumentIndex}
    (hsize : details.summary.originalSize = input.length)
    (hlines : details.metadata.lineCount = countLines input)
    (h : buildDocumentIndex env spans input containerId details.chunkEntries = .ok index) :
    index.containerId = containerId ∧
      ∀ document ∈ index.documents, DocumentMatches env details input document := by
  simp only [buildDocumentIndex, bind_eq_ok_iff, usizeToU64_eq_ok_iff, pure_eq_ok,
    Except.ok.injEq] at h
  obtain ⟨_, -, _, ⟨-, rfl⟩, ranges, hranges, linePrefixes, hprefixes, documents, hdocuments, rfl⟩ :=
    h
  refine ⟨rfl, ?_⟩
  intro document hdocument
  obtain ⟨i, span, range, counts, hspan, hrange, hcounts, hbuild⟩ :=
    buildDocuments_eq_ok hdocuments document hdocument
  have hspanRange : SpanRange input.length span range := by
    obtain ⟨hi, rfl⟩ := List.getElem?_eq_some_iff.mp hspan
    obtain ⟨hj, rfl⟩ := List.getElem?_eq_some_iff.mp hrange
    exact (spanRanges_eq_ok hranges).get hi hj
  exact buildDocument_matches hsize hlines hspanRange
    (linePrefixLoop_eq_ok hprefixes hrange hcounts) hbuild

end Qzt
