import Qzt.Reader.Agreement
import Qzt.Writer.RoundTrip

/-!
# Text ranges and character boundaries (`read_text_range`)

Both readers decode the bytes of the range.  Where there are bytes, they are a text exactly
when the range starts and stops at a boundary.  An empty range is the empty text wherever it
stands, also inside a scalar value.
-/

namespace Qzt

open Foundation

/-- A range of a text is read as text where both of its ends are boundaries, and reported as
`InvalidUtf8Boundary` where one of them is not. -/
def RespectsBoundaries (readTextRange : Nat → Nat → Result String) (text : List UInt8)
    (offset length : Nat) : Prop :=
  ((∃ read, readTextRange offset length = .ok read) ↔
      Utf8.Boundary text offset ∧ Utf8.Boundary text (offset + length)) ∧
    (¬ (Utf8.Boundary text offset ∧ Utf8.Boundary text (offset + length)) →
      readTextRange offset length = .error .invalidUtf8Boundary)

/-- A text is decoded, and what is no text is reported. -/
theorem okOr_fromUtf8 {bytes : List UInt8} :
    ((∃ read, okOr .invalidUtf8Boundary (fromUtf8 bytes) = (.ok read : Result String)) ↔
        Utf8.Valid bytes) ∧
      (¬ Utf8.Valid bytes →
        okOr .invalidUtf8Boundary (fromUtf8 bytes) =
          (.error .invalidUtf8Boundary : Result String)) := by
  have hsome := isSome_fromUtf8_iff bytes
  cases hread : fromUtf8 bytes with
  | none =>
    rw [hread, Option.isSome_none] at hsome
    have hbad : ¬ Utf8.Valid bytes := fun hvalid => absurd (hsome.mpr hvalid) (by decide)
    rw [okOr_none]
    refine ⟨⟨?_, fun hvalid => absurd hvalid hbad⟩, fun _ => rfl⟩
    rintro ⟨read, hok⟩
    cases hok
  | some read =>
    rw [hread, Option.isSome_some] at hsome
    rw [okOr_some]
    exact ⟨⟨fun _ => hsome.mp rfl, fun _ => ⟨read, rfl⟩⟩, fun hbad => absurd (hsome.mp rfl) hbad⟩

/-- Reading the slice as text respects the boundaries unless the range is empty and stands inside
a scalar value. -/
theorem respectsBoundaries_iff {readTextRange : Nat → Nat → Result String} {text : List UInt8}
    (hvalid : Utf8.Valid text) {offset length : Nat} (hrange : offset + length ≤ text.length)
    (hread : readTextRange offset length =
      okOr .invalidUtf8Boundary (fromUtf8 (slice text offset length))) :
    RespectsBoundaries readTextRange text offset length ↔
      0 < length ∨ Utf8.Boundary text offset := by
  obtain ⟨hok, herror⟩ := @okOr_fromUtf8 (slice text offset length)
  rw [← hread] at hok herror
  rcases Nat.eq_zero_or_pos length with rfl | hpos
  · -- The empty text is always read.
    rw [slice_length_zero] at hok
    have hempty := hok.mpr Utf8.valid_nil
    constructor
    · rintro ⟨hiff, -⟩
      exact .inr (hiff.mp hempty).1
    · rintro (hpos | hboundary)
      · exact absurd hpos (Nat.lt_irrefl 0)
      · exact ⟨⟨fun _ => ⟨hboundary, hboundary⟩, fun _ => hempty⟩,
          fun hbad => absurd ⟨hboundary, hboundary⟩ hbad⟩
  · have hslice := Utf8.valid_slice_iff hvalid hpos hrange
    refine ⟨fun _ => .inl hpos, fun _ => ⟨hok.trans hslice, ?_⟩⟩
    intro hbad
    exact herror fun htext => hbad (hslice.mp htext)

section Readers

variable {env : Env} {bytes : List UInt8} {limits : ResourceLimits} {reader : QztReader}

/-- A container that opens in memory opens over a faithful source, and is read alike. -/
theorem FaithfulSource.opens (served : FaithfulSource bytes)
    (hopen : QztReader.openWithLimits env bytes limits = .ok reader) :
    QztFileReader.openReadAtWithLimits env served.source served.len limits =
        .ok (served.fileReader reader.details) ∧
      SameReads env reader (served.fileReader reader.details) := by
  rw [QztReader.openWithLimits] at hopen
  obtain ⟨details, hdetails, heq⟩ := bind_eq_ok_iff.mp hopen
  cases heq
  refine ⟨?_, served.sameReads details⟩
  rw [QztFileReader.openReadAtWithLimits, served.openSkeletonDetailsReadAt_eq, hdetails]
  rfl

theorem ServesText.readTextRange {text : List UInt8} (h : ServesText env reader text)
    {offset length : Nat} (hrange : offset + length ≤ text.length) :
    reader.readTextRange env offset length =
      okOr .invalidUtf8Boundary (fromUtf8 (slice text offset length)) := by
  rw [QztReader.readTextRange, h.readRange offset length hrange, ok_bind]

end Readers

/-- Text ranges of a verified container respect character boundaries exactly where the range is
not empty or stands at a boundary, through the reader over memory and through the reader over any
faithful source. -/
theorem readTextRange_respectsBoundaries_iff {env : Env} {bytes : List UInt8}
    {limits : ResourceLimits} {reader : QztReader} {report : VerifyReport}
    (served : FaithfulSource bytes)
    (hopen : QztReader.openWithLimits env bytes limits = .ok reader)
    (hverify : reader.verify env .deep = .ok report) :
    ∃ fileReader text,
      QztFileReader.openReadAtWithLimits env served.source served.len limits = .ok fileReader ∧
      fileReader.verify env .deep = .ok report ∧
      reader.exportAll env = .ok text ∧ Utf8.Valid text ∧
      ∀ offset length, offset + length ≤ text.length →
        (RespectsBoundaries (reader.readTextRange env) text offset length ↔
          0 < length ∨ Utf8.Boundary text offset) ∧
        (RespectsBoundaries (fileReader.readTextRange env) text offset length ↔
          0 < length ∨ Utf8.Boundary text offset) := by
  obtain ⟨hfile, hsame⟩ := served.opens hopen
  obtain ⟨text, hserves⟩ := servesText_of_verify hopen hverify
  refine ⟨_, text, hfile, (hsame.verify .deep).trans hverify, hserves.exportAll, hserves.valid, ?_⟩
  intro offset length hrange
  have hread := hserves.readTextRange hrange
  constructor
  · exact respectsBoundaries_iff hserves.valid hrange hread
  · exact respectsBoundaries_iff hserves.valid hrange ((hsame.readTextRange _ _).trans hread)

/-- A packed sample container, served from memory. -/
theorem sampleInput_served : ∃ container reader report,
    container.length < 2 ^ 64 ∧
      QztReader.openWithLimits Reference.env container .default = .ok reader ∧
      reader.verify Reference.env .deep = .ok report ∧
      reader.exportAll Reference.env = .ok sampleInput := by
  obtain ⟨container, hpack⟩ := pack_sampleInput
  obtain ⟨assembly, hsound, rfl, hinput⟩ := pack_sound hpack
  obtain ⟨report, hreport⟩ := hsound.verifies Reference.env_roundTrips
  have hexport := hsound.exports Reference.env_roundTrips
  rw [hinput] at hexport
  exact ⟨_, _, report, hsound.length_lt, hsound.opens_reader, hreport, hexport⟩

theorem readTextRange_respectsBoundaries_iff_sample : ∃ container reader fileReader text,
    QztReader.openWithLimits Reference.env container .default = .ok reader ∧
      QztFileReader.openReadAtWithLimits Reference.env (memorySource container) container.length
        .default = .ok fileReader ∧
      reader.exportAll Reference.env = .ok text ∧
      ∀ offset length, offset + length ≤ text.length →
        (RespectsBoundaries (reader.readTextRange Reference.env) text offset length ↔
          0 < length ∨ Utf8.Boundary text offset) ∧
        (RespectsBoundaries (fileReader.readTextRange Reference.env) text offset length ↔
          0 < length ∨ Utf8.Boundary text offset) := by
  obtain ⟨container, reader, report, hlt, hopen, hverify, -⟩ := sampleInput_served
  obtain ⟨fileReader, text, hfile, -, hexport, -, hreads⟩ :=
    readTextRange_respectsBoundaries_iff (servedInMemory container hlt) hopen hverify
  exact ⟨container, reader, fileReader, text, hopen, hfile, hexport, hreads⟩

/-- The empty range between the two bytes of the second line's character is read as the empty
text. -/
theorem readTextRange_insideScalar : ∃ container reader fileReader report,
    QztReader.openWithLimits Reference.env container .default = .ok reader ∧
      QztFileReader.openReadAtWithLimits Reference.env (memorySource container) container.length
        .default = .ok fileReader ∧
      reader.verify Reference.env .deep = .ok report ∧
      reader.exportAll Reference.env = .ok sampleInput ∧ Utf8.Valid sampleInput ∧
      ¬ Utf8.Boundary sampleInput 3 ∧
      reader.readTextRange Reference.env 3 0 = .ok "" ∧
      fileReader.readTextRange Reference.env 3 0 = .ok "" ∧
      ¬ RespectsBoundaries (reader.readTextRange Reference.env) sampleInput 3 0 ∧
      ¬ RespectsBoundaries (fileReader.readTextRange Reference.env) sampleInput 3 0 := by
  obtain ⟨container, reader, report, hlt, hopen, hverify, hexport⟩ := sampleInput_served
  obtain ⟨hfile, hsame⟩ := (servedInMemory container hlt).opens hopen
  obtain ⟨text, hserves⟩ := servesText_of_verify hopen hverify
  obtain rfl : text = sampleInput := Except.ok.inj (hserves.exportAll.symm.trans hexport)
  have hinside : ¬ Utf8.Boundary sampleInput 3 := by
    intro hboundary
    have hstart := hboundary 0xa9 rfl
    revert hstart
    decide
  have hread : reader.readTextRange Reference.env 3 0 = .ok "" := by
    rw [hserves.readTextRange (show 3 + 0 ≤ sampleInput.length by decide)]
    rfl
  have hfileRead := (hsame.readTextRange 3 0).trans hread
  refine ⟨container, reader, _, report, hopen, hfile, hverify, hexport, hserves.valid, hinside,
    hread, hfileRead, ?_, ?_⟩
  · intro hrespects
    exact hinside (hrespects.1.mp ⟨"", hread⟩).1
  · intro hrespects
    exact hinside (hrespects.1.mp ⟨"", hfileRead⟩).1

end Qzt
