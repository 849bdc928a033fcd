import Qzt.Format.Reference
import Qzt.Reader.Readers
import Qzt.Writer.Assembly

/-!
# Lines through the dense index

A line read takes the start of the line inside its chunk from the dense index where there
is one, and by scanning the decoded chunk else.  The opener checks the stored starts for
number, order and range only, so the read with the index returns what the read without it
returns exactly when the stored start leads to the same bytes as the scanned one.
-/

namespace Qzt

open Foundation

/-- The details with the dense index ignored. -/
def SkeletonDetails.withoutDense (details : SkeletonDetails) : SkeletonDetails :=
  { details with denseLineIndex := none }

/-- The reader with the dense index ignored. -/
def QztReader.withoutDense (reader : QztReader) : QztReader :=
  { reader with details := reader.details.withoutDense }

/-- The start of a line in its chunk, as the dense index stores it. -/
def DenseLineIndex.storedStart (dense : DenseLineIndex) (index localIndex : Nat) : Result Nat := do
  u64ToUsize (← dense.lineStartOffset index localIndex)

/-- The bytes from `start` of a decoded chunk through the next LF, and through the chunks `later`
behind it where the chunk holds no LF. -/
def restOfLine (decodeEntry : DecodeEntry) (decoded : List UInt8) (start : Nat)
    (later : List ChunkEntry) : Result (List UInt8) :=
  let (output, foundEnd) := appendUntilLf decoded start []
  if foundEnd then .ok output else continueLine decodeEntry later output

/-- A line begins in the chunk `entry` at `index`, which decodes to `decoded`. -/
structure BeginsIn (details : SkeletonDetails) (decodeEntry : DecodeEntry) (line index : Nat)
    (entry : ChunkEntry) (decoded : List UInt8) : Prop where
  inRange : line < details.summary.lineCount
  found : lineStartChunkIndex details.chunkEntries line = .ok index
  present : details.chunkEntries[index]? = some entry
  decodes : decodeEntry entry = .ok decoded

/-- The chunk in which a line begins is one chunk. -/
theorem BeginsIn.unique {details : SkeletonDetails} {decodeEntry : DecodeEntry}
    {line index index' : Nat} {entry entry' : ChunkEntry} {decoded decoded' : List UInt8}
    (h : BeginsIn details decodeEntry line index entry decoded)
    (h' : BeginsIn details decodeEntry line index' entry' decoded') :
    index' = index ∧ entry' = entry ∧ decoded' = decoded := by
  have hindex := h.found
  rw [h'.found, Except.ok.injEq] at hindex
  subst hindex
  have hentry := h.present
  rw [h'.present, Option.some.injEq] at hentry
  subst hentry
  have hdecoded := h.decodes
  rw [h'.decodes, Except.ok.injEq] at hdecoded
  exact ⟨rfl, rfl, hdecoded⟩

/-- What a line read returns: the rest of the line from its start. -/
theorem readLineFromEntries_eq_ok_iff {details : SkeletonDetails} {line : Nat}
    {decodeEntry : DecodeEntry} {bytes : List UInt8} :
    readLineFromEntries details line decodeEntry = .ok bytes ↔
      ∃ index entry decoded start, BeginsIn details decodeEntry line index entry decoded ∧
        localLineStart details index (line - entry.firstLine) decoded entry.flags = .ok start ∧
        restOfLine decodeEntry decoded start (details.chunkEntries.drop (index + 1)) =
          .ok bytes := by
  constructor
  · intro h
    unfold readLineFromEntries at h
    obtain ⟨_, hrange, h⟩ := bind_eq_ok_iff.mp h
    obtain ⟨index, hindex, h⟩ := bind_eq_ok_iff.mp h
    obtain ⟨entry, hentry, h⟩ := bind_eq_ok_iff.mp h
    obtain ⟨decoded, hdecoded, h⟩ := bind_eq_ok_iff.mp h
    obtain ⟨start, hstart, h⟩ := bind_eq_ok_iff.mp h
    rw [rejectIf_eq_ok_iff] at hrange
    exact ⟨index, entry, decoded, start, ⟨by omega, hindex, okOr_eq_ok_iff.mp hentry, hdecoded⟩,
      hstart, h⟩
  · rintro ⟨index, entry, decoded, start, hbegins, hstart, hrest⟩
    have hrange := hbegins.inRange
    rw [readLineFromEntries, rejectIf_of_not (by omega), ok_bind, hbegins.found, ok_bind,
      hbegins.present, okOr_some, ok_bind, hbegins.decodes, ok_bind]
    simp only
    rw [hstart, ok_bind]
    exact hrest

section Starts

variable {details : SkeletonDetails} {dense : DenseLineIndex} {index localIndex start flags : Nat}
  {decoded : List UInt8}

theorem localLineStart_dense (h : details.denseLineIndex = some dense) :
    localLineStart details index localIndex decoded flags = dense.storedStart index localIndex := by
  rw [localLineStart, h]
  rfl

theorem localLineStart_withoutDense :
    localLineStart details.withoutDense index localIndex decoded flags = .ok start ↔
      (localLineStarts decoded flags)[localIndex]? = some start :=
  okOr_eq_ok_iff

end Starts

/-- Three lines. -/
def staleLines : List UInt8 :=
  [0x61, 0x6c, 0x70, 0x68, 0x61, 0x0a, 0x62, 0x65, 0x74, 0x61, 0x0a,
    0x67, 0x61, 0x6d, 0x6d, 0x61, 0x0a]

/-- Starts that are one byte late behind the first. -/
def staleIndex : DenseLineIndex where
  entries := [{ chunkId := 0, lineStartOffsets := [0, 7, 12] }]

/-- The lines with the stale index. -/
def staleText (indexRootBytes footerPayloadBytes : List UInt8) : Assembly :=
  .ofText Reference.env emptyTextId [staleLines] (some staleIndex) indexRootBytes
    footerPayloadBytes

/-- The index root of the lines. -/
def staleIndexRootBytes : List UInt8 :=
  encodedForm (.map ((staleText [] []).indexRoot Reference.env).entries)

/-- The container. -/
def staleContainer : List UInt8 :=
  (staleText staleIndexRootBytes (encodedForm (.map
    { (staleText staleIndexRootBytes []).footerPayload Reference.env with
      finalFileSize := 2021 }.entries))).bytes Reference.env

/-- The second line of a container, read with the dense index and without it. -/
def readSecondLine (container : List UInt8) :
    Result (Bool × Result (List UInt8) × Result (List UInt8)) := do
  let reader ← QztReader.openWithLimits Reference.env container .default
  return (decide (reader.details.denseLineIndex = some staleIndex),
    reader.readLineRaw Reference.env 1, reader.withoutDense.readLineRaw Reference.env 1)

set_option maxRecDepth 100000 in
theorem readSecondLine_staleContainer : readSecondLine staleContainer =
    .ok (true, .ok [0x65, 0x74, 0x61, 0x0a], .ok [0x62, 0x65, 0x74, 0x61, 0x0a]) := by
  decide +kernel

theorem staleContainer_opens : ∃ reader,
    QztReader.openWithLimits Reference.env staleContainer .default = .ok reader ∧
      reader.details.denseLineIndex = some staleIndex ∧
      reader.readLineRaw Reference.env 1 = .ok [0x65, 0x74, 0x61, 0x0a] ∧
      reader.withoutDense.readLineRaw Reference.env 1 = .ok [0x62, 0x65, 0x74, 0x61, 0x0a] := by
  have hread := readSecondLine_staleContainer
  simp only [readSecondLine, bind_eq_ok_iff, pure_eq_ok, Except.ok.injEq, Prod.mk.injEq,
    decide_eq_true_eq] at hread
  exact hread

end Qzt
