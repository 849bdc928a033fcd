import Qzt.Foundation.Segments
import Qzt.Reader.DeepVerify

/-!
# Line facts of a text

The crate finds line starts in four places: over the whole input (`LineInfo`), per
chunk in the dense index and in the reader, and by counting in the streaming writer and
in deep verification.  All of them are the start positions of LF-terminated segments,
so they compose along any chunking.  The newline counters compose the same way: the
state after a chunk is a function of the text read so far.
-/

namespace Qzt

open Foundation

/-! ## Line starts -/

/-- The LF-terminated segments of a text. -/
def lines (text : List UInt8) : List (List UInt8) :=
  segments lf text

/-- A new line begins after the text. -/
def endsLine (text : List UInt8) : Bool :=
  endsSegment lf true text

/-- The number of lines that begin in a text. -/
def countLines (text : List UInt8) : Nat :=
  (segmentStarts lf true 0 text).length

/-- The line starts of a part, relative to it, where `before` is the text before the part. -/
def partLineStarts (before part : List UInt8) : List Nat :=
  segmentStarts lf (endsLine before) 0 part

/-- The continuation flag of a part that follows `before`. -/
def continuationFlag (before : List UInt8) : Nat :=
  if endsLine before then 0 else startsWithLineContinuation

@[simp] theorem countLines_nil : countLines [] = 0 := rfl

@[simp] theorem endsLine_nil : endsLine [] = true := rfl

theorem length_lines (text : List UInt8) : (lines text).length = countLines text :=
  length_segments text

theorem countLines_append (before part : List UInt8) :
    countLines (before ++ part) = countLines before + (partLineStarts before part).length := by
  rw [countLines, segmentStarts_append, List.length_append, countLines, partLineStarts, endsLine,
    length_segmentStarts_eq (endsSegment lf true before) (0 + before.length) 0]

theorem endsLine_append_of_ne_nil (before : List UInt8) {part : List UInt8} (h : part ≠ []) :
    endsLine (before ++ part) = decide (part.getLast? = some lf) := by
  rw [endsLine, endsSegment, List.getLast?_append_of_ne_nil before h,
    List.getLast?_eq_some_getLast h]
  simp

theorem length_partLineStarts_le (before part : List UInt8) :
    (partLineStarts before part).length ≤ part.length :=
  length_segmentStarts_le _ _ _

theorem countLines_le (text : List UInt8) : countLines text ≤ text.length :=
  length_segmentStarts_le _ _ _

@[simp] theorem startsFreshLine_continuationFlag (before : List UInt8) :
    startsFreshLine (continuationFlag before) = endsLine before := by
  unfold continuationFlag
  cases endsLine before <;> rfl

/-- The scan for LF bytes that are not the last byte finds the starts of all later lines. -/
private theorem filter_range_eq_segmentStarts (text : List UInt8) :
    ((List.range text.length).filter fun index =>
      text[index]? == some lf && decide (index + 1 < text.length)).map (· + 1) =
    segmentStarts lf false 0 text := by
  induction text with
  | nil => rfl
  | cons byte rest ih =>
    have htail : ((List.range rest.length).filter fun index =>
        (byte :: rest)[index + 1]? == some lf && decide (index + 1 + 1 < rest.length + 1)) =
        (List.range rest.length).filter fun index =>
          rest[index]? == some lf && decide (index + 1 < rest.length) := by
      congr 1
      funext index
      simp
    rw [List.length_cons, List.range_succ_eq_map, segmentStarts_cons, List.filter_cons,
      segmentStarts_fresh (decide (byte = lf)), segmentStarts_shift false 0 1, ← ih,
      List.filter_map]
    simp only [Function.comp_def, Nat.succ_eq_add_one, htail]
    by_cases hbyte : byte = lf
    · cases rest with
      | nil => simp [hbyte]
      | cons next rest => simp [hbyte]
    · simp [hbyte]

theorem localLineStarts_eq (decoded : List UInt8) (flags : Nat) :
    localLineStarts decoded flags = segmentStarts lf (startsFreshLine flags) 0 decoded := by
  rw [localLineStarts, filter_range_eq_segmentStarts, ← segmentStarts_fresh]

theorem localLineStarts_continuationFlag (before part : List UInt8) :
    localLineStarts part (continuationFlag before) = partLineStarts before part := by
  rw [localLineStarts_eq, startsFreshLine_continuationFlag, partLineStarts]

/-- The dense index stores the local line starts. -/
theorem lineStartOffsets_eq {decoded : List UInt8} (hlen : decoded.length < 2 ^ 64)
    (flags : Nat) : lineStartOffsets decoded flags = .ok (localLineStarts decoded flags) := by
  rw [lineStartOffsets, collect_of_forall (g := (· + 1))]
  · rfl
  · intro index hindex
    simp only [List.mem_filter, List.mem_range] at hindex
    exact usizeToU64_of_lt (by omega)

theorem lineStartOffsets_eq_ok {decoded : List UInt8} {flags : Nat} {offsets : List Nat}
    (h : lineStartOffsets decoded flags = .ok offsets) :
    offsets = localLineStarts decoded flags := by
  simp only [lineStartOffsets, bind_eq_ok_iff, pure_eq_ok, Except.ok.injEq] at h
  obtain ⟨later, hlater, rfl⟩ := h
  have hmap : ∀ {indices outs : List Nat},
      collect (fun index => usizeToU64 (index + 1)) indices = .ok outs →
        outs = indices.map (· + 1) := by
    intro indices outs hcollect
    rw [collect_eq_ok_iff] at hcollect
    induction hcollect with
    | nil => rfl
    | cons hhead _ ih => simp_all
  rw [hmap hlater]
  rfl

/-- The line starts of the planner. -/
theorem lineInfo_lineStarts (input : List UInt8) :
    (LineInfo.fromBytes input).lineStarts = segmentStarts lf true 0 input := by
  rw [LineInfo.fromBytes, segmentStarts_fresh, ← filter_range_eq_segmentStarts]
  by_cases hnil : input = []
  · simp [hnil]
  · rw [if_neg hnil, if_pos ⟨rfl, hnil⟩, List.singleton_append, ← List.filterMap_eq_map,
      List.filterMap_filter]
    refine congrArg (0 :: ·) (congrArg (List.filterMap · (List.range input.length)) ?_)
    funext index
    by_cases hlf : input[index]? = some lf <;>
      by_cases hlt : index + 1 < input.length <;> simp [hlf, hlt]

/-- The planner's line number of a position is the number of lines that begin before it. -/
theorem lowerBound_lineStarts (before rest : List UInt8) :
    lowerBound (LineInfo.fromBytes (before ++ rest)).lineStarts before.length =
      countLines before := by
  rw [lineInfo_lineStarts]
  exact length_takeWhile_segmentStarts true before rest

/-- The planner's test for a continued line. -/
theorem planner_flags_eq (before rest : List UInt8) :
    (if before.length > 0 ∧ (before ++ rest)[before.length - 1]? ≠ some lf
      then startsWithLineContinuation else 0) = continuationFlag before := by
  rw [continuationFlag, endsLine, endsSegment]
  cases hlast : before.getLast? with
  | none =>
    obtain rfl := List.getLast?_eq_none_iff.mp hlast
    simp
  | some byte =>
    have hne : before ≠ [] := by
      rintro rfl
      simp at hlast
    have hpos := List.length_pos_of_ne_nil hne
    have hget : (before ++ rest)[before.length - 1]? = some byte := by
      rw [List.getElem?_append_left (by omega), ← List.getLast?_eq_getElem?, hlast]
    rw [hget]
    by_cases hbyte : byte = lf <;> simp [hbyte, hpos]

/-! ## Newline counters -/

/-- One byte of the newline loop, without the overflow checks. -/
def NewlineState.scanByte (state : NewlineState) (byte : UInt8) : NewlineState :=
  if byte = lf then
    if state.previousByte = some cr then
      { state with crlfCount := state.crlfCount + 1, previousByte := some byte }
    else
      { state with lfCount := state.lfCount + 1, previousByte := some byte }
  else
    { state with previousByte := some byte }

/-- The newline state after a text. -/
def NewlineState.scan (state : NewlineState) (text : List UInt8) : NewlineState :=
  text.foldl NewlineState.scanByte state

/-- The newline state of a whole text. -/
def newlineState (text : List UInt8) : NewlineState :=
  NewlineState.scan {} text

theorem newlineState_append (before part : List UInt8) :
    newlineState (before ++ part) = (newlineState before).scan part := by
  simp [newlineState, NewlineState.scan]

theorem NewlineState.updateByte_of_lt {state : NewlineState} {n : Nat}
    (hlf : state.lfCount + n < 2 ^ 64) (hcrlf : state.crlfCount + n < 2 ^ 64) (hn : 0 < n)
    (byte : UInt8) : state.updateByte byte = .ok (state.scanByte byte) := by
  unfold updateByte scanByte
  split
  · split
    · rw [checkedAdd_of_lt (by omega), okOr_some, ok_bind, pure_eq_ok]
    · rw [checkedAdd_of_lt (by omega), okOr_some, ok_bind, pure_eq_ok]
  · rfl

theorem NewlineState.scanByte_counts (state : NewlineState) (byte : UInt8) :
    (state.scanByte byte).lfCount ≤ state.lfCount + 1 ∧
      (state.scanByte byte).crlfCount ≤ state.crlfCount + 1 := by
  unfold scanByte
  split
  · split <;> simp
  · simp

/-- Counters that cannot overflow on the text give the scan. -/
theorem NewlineState.update_of_lt {text : List UInt8} {state : NewlineState}
    (hlf : state.lfCount + text.length < 2 ^ 64)
    (hcrlf : state.crlfCount + text.length < 2 ^ 64) :
    NewlineState.update text state = .ok (state.scan text) := by
  induction text generalizing state with
  | nil => rfl
  | cons byte rest ih =>
    rw [List.length_cons] at hlf hcrlf
    have hcounts := state.scanByte_counts byte
    rw [update, updateByte_of_lt hlf hcrlf (Nat.succ_pos _), ok_bind, ih (by omega) (by omega)]
    rfl

/-- A successful update is the scan. -/
theorem NewlineState.update_eq_ok {text : List UInt8} {state state' : NewlineState}
    (h : NewlineState.update text state = .ok state') : state' = state.scan text := by
  induction text generalizing state with
  | nil =>
    simp only [update, Except.ok.injEq] at h
    exact h.symm
  | cons byte rest ih =>
    simp only [update, bind_eq_ok_iff] at h
    obtain ⟨next, hnext, hrest⟩ := h
    have hbyte : next = state.scanByte byte := by
      unfold updateByte at hnext
      unfold scanByte
      split at hnext
      · split at hnext <;>
          · simp only [bind_eq_ok_iff, okOr_eq_ok_iff, checkedAdd_eq_some_iff, pure_eq_ok,
              Except.ok.injEq] at hnext
            obtain ⟨_, ⟨_, rfl⟩, rfl⟩ := hnext
            simp_all
      · simp only [Except.ok.injEq] at hnext
        simp_all
    rw [ih hrest, hbyte]
    rfl

theorem NewlineState.scan_counts (text : List UInt8) (state : NewlineState) :
    (state.scan text).lfCount ≤ state.lfCount + text.length ∧
      (state.scan text).crlfCount ≤ state.crlfCount + text.length := by
  induction text generalizing state with
  | nil => simp [scan]
  | cons byte rest ih =>
    have hrest := ih (state.scanByte byte)
    have hbyte := state.scanByte_counts byte
    simp only [scan, List.foldl_cons, List.length_cons] at hrest ⊢
    omega

theorem newlineState_counts (text : List UInt8) :
    (newlineState text).lfCount ≤ text.length ∧ (newlineState text).crlfCount ≤ text.length := by
  have h := NewlineState.scan_counts text {}
  simpa [newlineState] using h

theorem newlineState_concat (text : List UInt8) (byte : UInt8) :
    newlineState (text ++ [byte]) = (newlineState text).scanByte byte := by
  simp [newlineState, NewlineState.scan]

theorem newlineState_previousByte (text : List UInt8) :
    (newlineState text).previousByte = text.getLast? := by
  induction text using List.reverseRecOn with
  | nil => rfl
  | append_singleton text byte ih =>
    rw [newlineState_concat, List.getLast?_append_of_ne_nil _ (by simp)]
    unfold NewlineState.scanByte
    split
    · split <;> simp
    · simp

/-- The flag that the streaming code expects is the continuation flag of the text before. -/
theorem expectedFlags_eq (before : List UInt8) :
    expectedFlags before.length (newlineState before).previousByte = continuationFlag before := by
  rw [newlineState_previousByte, expectedFlags, continuationFlag, endsLine, endsSegment]
  cases hlast : before.getLast? with
  | none =>
    obtain rfl := List.getLast?_eq_none_iff.mp hlast
    simp
  | some byte =>
    have hpos : 0 < before.length := by
      apply List.length_pos_of_ne_nil
      rintro rfl
      simp at hlast
    by_cases hbyte : byte = lf <;> simp [hbyte, hpos]

/-- The planner's newline mode is that of the scan. -/
theorem lineInfo_newlineMode (input : List UInt8) :
    (LineInfo.fromBytes input).newlineMode =
      .fromCounts (newlineState input).lfCount (newlineState input).crlfCount := by
  have hcounts : (List.range input.length).countP (endsBareLf input) =
        (newlineState input).lfCount ∧
      (List.range input.length).countP (endsCrlf input) = (newlineState input).crlfCount := by
    induction input using List.reverseRecOn with
    | nil => exact ⟨rfl, rfl⟩
    | append_singleton text byte ih =>
      -- Positions of the shorter text look the same in the longer one.
      have hget : ∀ {index : Nat}, index < text.length →
          (text ++ [byte])[index]? = text[index]? := fun h => List.getElem?_append_left h
      have hbare : (List.range text.length).countP (endsBareLf (text ++ [byte])) =
          (List.range text.length).countP (endsBareLf text) := by
        refine List.countP_congr fun index hindex => ?_
        rw [List.mem_range] at hindex
        rw [endsBareLf, endsBareLf, hget hindex, hget (show index - 1 < _ by omega)]
      have hcrlf : (List.range text.length).countP (endsCrlf (text ++ [byte])) =
          (List.range text.length).countP (endsCrlf text) := by
        refine List.countP_congr fun index hindex => ?_
        rw [List.mem_range] at hindex
        rw [endsCrlf, endsCrlf, hget hindex, hget (show index - 1 < _ by omega)]
      have hlast : (decide (text.length > 0) && (text ++ [byte])[text.length - 1]? == some cr) =
          decide ((newlineState text).previousByte = some cr) := by
        rw [newlineState_previousByte, List.getLast?_eq_getElem?]
        cases text with
        | nil => simp
        | cons first rest =>
          rw [hget (by simp), Bool.eq_iff_iff]
          simp
      rw [List.length_append, List.length_singleton, List.range_succ, List.countP_append,
        List.countP_append, List.countP_singleton, List.countP_singleton, hbare, hcrlf, ih.1,
        ih.2, newlineState_concat, endsBareLf, endsCrlf, Bool.and_assoc, hlast,
        NewlineState.scanByte]
      by_cases hbyte : byte = lf <;>
        by_cases hcr : (newlineState text).previousByte = some cr <;> simp [hbyte, hcr]
  by_cases hnil : input = []
  · subst hnil
    rfl
  · rw [LineInfo.fromBytes, if_neg hnil, ← hcounts.1, ← hcounts.2]

end Qzt
