import Qzt.Reader.DeepContract
import Qzt.Reader.TextRanges
import Qzt.Writer.RoundTrip

/-!
# Reading packed documents back

A packed container holds its text.  One that is packed with document spans lists the spans in
their order, and each of its documents is read and verified as the text of its span.
-/

namespace Qzt

open Foundation

/-! ## Containers of a text -/

/-- A container from which a text is read: in memory, and alike through any faithful source. -/
structure HoldsText (env : Env) (container text : List UInt8) : Prop where
  length_lt : container.length < 2 ^ 64
  serves : ∃ reader report, QztReader.openWithLimits env container .default = .ok reader ∧
    reader.verify env .deep = .ok report ∧ ServesText env reader text ∧
    ∀ served : FaithfulSource container,
      QztFileReader.openReadAtWithLimits env served.source served.len .default =
          .ok (served.fileReader reader.details) ∧
        SameReads env reader (served.fileReader reader.details)

theorem holdsText_of_sound (hzstd : env.RoundTrips) {assembly : Assembly}
    (h : assembly.Sound env) : HoldsText env (assembly.bytes env) assembly.parts.flatten := by
  have hopen : QztReader.openWithLimits env (assembly.bytes env) .default =
      .ok (assembly.reader env) := h.opens_reader
  obtain ⟨report, hreport⟩ := h.verifies hzstd
  refine ⟨h.length_lt, assembly.reader env, report, hopen, hreport, ?_, ?_⟩
  · exact Opened.servesText (openSkeletonDetailsWithLimits_opened h.opens) (h.deepVerified hzstd)
  · exact fun served => served.opens hopen

theorem holdsText_of_pack (hzstd : env.RoundTrips) {builder : WriterBuilder}
    {input container : List UInt8} (h : builder.pack env input = .ok container) :
    HoldsText env container input := by
  obtain ⟨assembly, hsound, rfl, rfl⟩ := pack_sound h
  exact holdsText_of_sound hzstd hsound

theorem holdsText_of_packBytes (hzstd : env.RoundTrips) {options : WriterOptions}
    {input container : List UInt8} (h : packBytes env input options = .ok container) :
    HoldsText env container input := by
  obtain ⟨assembly, hsound, rfl, rfl⟩ := packBytesInternal_sound h
  exact holdsText_of_sound hzstd hsound

/-! ## The listed documents -/

/-- The document that the index lists for a span. -/
structure DocumentSpan.ListedAs (span : DocumentSpan) (document : DocumentEntry) : Prop where
  docId : document.docId = span.docId
  logicalOffset : document.logicalOffset = span.logicalOffset
  byteLength : document.byteLength = span.byteLength

variable {env : Env} {input : List UInt8} {entries : List ChunkEntry}

theorem buildDocument_listed {span : DocumentSpan} {range counts : Nat × Nat}
    {document : DocumentEntry}
    (h : buildDocument env input entries span range counts = .ok document) :
    span.ListedAs document := by
  simp only [buildDocument, bind_eq_ok_iff, pure_eq_ok, Except.ok.injEq] at h
  obtain ⟨_, -, _, -, _, -, _, -, rfl⟩ := h
  exact ⟨rfl, rfl, rfl⟩

theorem buildDocuments_listed {spans : List DocumentSpan} {ranges linePrefixes : List (Nat × Nat)}
    {documents : List DocumentEntry} (hranges : spans.length = ranges.length)
    (hprefixes : spans.length = linePrefixes.length)
    (h : buildDocuments env input entries spans ranges linePrefixes = .ok documents) :
    List.Forall₂ DocumentSpan.ListedAs spans documents := by
  induction spans generalizing ranges linePrefixes documents with
  | nil =>
    cases h
    exact .nil
  | cons span spans ih =>
    cases ranges with
    | nil => cases hranges
    | cons range ranges =>
      cases linePrefixes with
      | nil => cases hprefixes
      | cons counts linePrefixes =>
        simp only [buildDocuments, bind_eq_ok_iff, pure_eq_ok, Except.ok.injEq] at h
        obtain ⟨document, hdocument, rest, hrest, rfl⟩ := h
        exact .cons (buildDocument_listed hdocument)
          (ih (Nat.succ.inj hranges) (Nat.succ.inj hprefixes) hrest)

/-- The sweep keeps one pair of counts for each span. -/
theorem linePrefixLoop_length {events : List LineEvent} {cursor count : Nat}
    {linePrefixes result : List (Nat × Nat)}
    (h : linePrefixLoop input events cursor count linePrefixes = .ok result) :
    result.length = linePrefixes.length := by
  induction events generalizing cursor count linePrefixes with
  | nil =>
    cases h
    rfl
  | cons event events ih =>
    simp only [linePrefixLoop, bind_eq_ok_iff] at h
    obtain ⟨_, -, hrest⟩ := h
    rw [ih hrest, List.length_modify]

theorem buildDocumentIndex_listed {spans : List DocumentSpan} {containerId : ContainerId}
    {index : DocumentIndex}
    (h : buildDocumentIndex env spans input containerId entries = .ok index) :
    List.Forall₂ DocumentSpan.ListedAs spans index.documents := by
  simp only [buildDocumentIndex, bind_eq_ok_iff, pure_eq_ok, Except.ok.injEq] at h
  obtain ⟨_, -, _, -, ranges, hranges, linePrefixes, hprefixes, documents, hdocuments, rfl⟩ := h
  have hlength := linePrefixLoop_length hprefixes
  rw [List.length_replicate] at hlength
  exact buildDocuments_listed (spanRanges_eq_ok hranges).length_eq hlength.symm hdocuments

/-! ## The container -/

/-- What a container says about the spans it was packed with. -/
structure Documented (env : Env) (reader : QztReader) (spans : List DocumentSpan)
    (input : List UInt8) (index : DocumentIndex) : Prop where
  serves : ServesText env reader input
  indexed : reader.details.documentIndex = some index
  listed : List.Forall₂ DocumentSpan.ListedAs spans index.documents

theorem pack_documented (hzstd : env.RoundTrips) {builder : WriterBuilder}
    {spans : List DocumentSpan} {container : List UInt8}
    (hspans : builder.documentSpans = some spans) (hpack : builder.pack env input = .ok container) :
    ∃ reader index, QztReader.openWithLimits env container .default = .ok reader ∧
      Documented env reader spans input index := by
  unfold WriterBuilder.pack at hpack
  obtain ⟨_, -, hpack⟩ := bind_eq_ok_iff.mp hpack
  obtain ⟨_, -, hpack⟩ := bind_eq_ok_iff.mp hpack
  obtain ⟨_, -, hpack⟩ := bind_eq_ok_iff.mp hpack
  obtain ⟨containerId, -, hpack⟩ := bind_eq_ok_iff.mp hpack
  obtain ⟨assembly, hsound, rfl, rfl, hdocuments⟩ := packBytesInternal_assembly hpack
  obtain ⟨index, hindex, hbuilt⟩ := hdocuments spans hspans
  have hopened := openSkeletonDetailsWithLimits_opened hsound.opens
  refine ⟨assembly.reader env, index, hsound.opens_reader, ?_⟩
  exact {
    serves := Opened.servesText hopened (hsound.deepVerified hzstd)
    indexed := hindex
    listed := buildDocumentIndex_listed hbuilt }

end Qzt
