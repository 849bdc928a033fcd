import Qzt.Writer.Planning

/-!
# Chunk plans are partitions

What a plan of `plan_chunks` promises about the input: its chunks lie side by side and
cover the input, none cuts a scalar or a CRLF pair, their line fields are those of the line
starts of the whole input, and a chunk leaves its target or a line only where the windows
hold no LF.
-/

namespace Qzt

open Foundation

open QztFileWriter (chooseKnownChunkEnd chooseNonFinalChunkEnd)

/-! ## What the windows decide -/

section Windows

variable {input : List UInt8} {start stop : Nat}

/-- The scan for the last LF finds one if there is one. -/
theorem lastLfEnd_eq_none (h : lastLfEnd input start stop = none) {k : Nat} (hstart : start ≤ k)
    (hstop : k < stop) : input[k]? ≠ some lf := by
  have hfold : ∀ (cursors : List Nat) (boundary : Option Nat),
      cursors.foldl (fun boundary cursor =>
        if input[cursor]? = some lf then some (cursor + 1) else boundary) boundary = none →
      boundary = none ∧ ∀ cursor ∈ cursors, input[cursor]? ≠ some lf := by
    intro cursors
    induction cursors with
    | nil =>
      intro boundary hnone
      refine ⟨hnone, ?_⟩
      intro cursor hmem
      cases hmem
    | cons cursor cursors ih =>
      intro boundary hnone
      obtain ⟨hboundary, hrest⟩ := ih _ hnone
      beta_reduce at hboundary
      split at hboundary
      · cases hboundary
      · rename_i hcursor
        exact ⟨hboundary, List.forall_mem_cons.mpr ⟨hcursor, hrest⟩⟩
  refine (hfold _ none h).2 k ?_
  rw [List.mem_range'_1]
  omega

/-- The position behind an LF never separates a CRLF pair, so only a window without LF has no line
boundary. -/
theorem lastLineBoundary_eq_none (h : lastLineBoundary input start stop = none) {k : Nat}
    (hstart : start ≤ k) (hstop : k < stop) : input[k]? ≠ some lf := by
  refine lastLfEnd_eq_none ?_ hstart hstop
  cases hlast : lastLfEnd input start stop with
  | none => rfl
  | some found =>
    exfalso
    obtain ⟨hlt, -, hlf⟩ := lastLfEnd_eq_some hlast
    have hkeeps : splitsCrlf input found = false := by
      simp only [splitsCrlf, hlf]
      simp [lf, cr]
    rw [lastLineBoundary, hlast] at h
    simp [hlt, hkeeps] at h

/-- The end that was chosen for the first chunk of the input. -/
structure ChosenEnd (options : ChunkerOptions) (input : List UInt8) (stop : Nat) : Prop where
  pos : 0 < stop
  le_length : stop ≤ input.length
  le_max : stop ≤ options.maxChunkSize
  cutsText : CutsText input stop
  keepsCrlf : splitsCrlf input stop = false
  forced : stop < input.length → input[stop - 1]? ≠ some lf →
    ∀ k < options.maxChunkSize, input[k]? ≠ some lf
  overTarget : options.targetChunkSize < stop →
    ∀ k < options.targetChunkSize, input[k]? ≠ some lf

theorem lastLineBoundary_spec (h : lastLineBoundary input 0 stop = some start) :
    start ≤ stop ∧ input[start - 1]? = some lf ∧ splitsCrlf input start = false := by
  rw [lastLineBoundary, Option.filter_eq_some_iff] at h
  obtain ⟨hlast, htest⟩ := h
  obtain ⟨-, hle, hlf⟩ := lastLfEnd_eq_some hlast
  simp only [Bool.and_eq_true, Bool.not_eq_true'] at htest
  exact ⟨hle, hlf, htest.2⟩

theorem chooseKnownChunkEnd_chosen {options : ChunkerOptions}
    (horder : options.targetChunkSize ≤ options.maxChunkSize) (hinput : input ≠ [])
    (h : chooseKnownChunkEnd input options = .ok stop) : ChosenEnd options input stop := by
  obtain ⟨hpos, hle, hmax, hcuts⟩ := chooseKnownChunkEnd_eq_ok horder hinput h
  unfold chooseKnownChunkEnd chooseNonFinalChunkEnd at h
  split at h
  · -- Everything that is left fits the target.
    rename_i hshort
    cases h
    refine ⟨hpos, hle, hmax, hcuts, ?_, ?_, ?_⟩
    · simp [splitsCrlf]
    · intro hinterior
      omega
    · intro hover
      omega
  rename_i hlong
  split at h
  · -- A line ends inside the target.
    rename_i lineEnd hline
    cases h
    obtain ⟨htarget, hlf, hkeeps⟩ := lastLineBoundary_spec hline
    refine ⟨hpos, hle, hmax, hcuts, hkeeps, ?_, ?_⟩
    · intro _ hnot
      exact absurd hlf hnot
    · intro hover
      omega
  rename_i hnoTarget
  split at h
  · -- A line ends inside the maximum, but none inside the target.
    rename_i lineEnd hline
    cases h
    obtain ⟨-, hlf, hkeeps⟩ := lastLineBoundary_spec hline
    refine ⟨hpos, hle, hmax, hcuts, hkeeps, ?_, ?_⟩
    · intro _ hnot
      exact absurd hlf hnot
    · intro _ k hk
      exact lastLineBoundary_eq_none hnoTarget (Nat.zero_le k) hk
  · -- No line ends inside the maximum.
    rename_i hnoMax
    rw [okOr_eq_ok_iff] at h
    have htest := List.find?_some h
    rw [Bool.and_eq_true, Bool.not_eq_true'] at htest
    refine ⟨hpos, hle, hmax, hcuts, htest.2, ?_, ?_⟩
    · intro _ _ k hk
      rcases Nat.lt_or_ge k input.length with hlt | hge
      · exact lastLineBoundary_eq_none hnoMax (Nat.zero_le k) (by omega)
      · rw [List.getElem?_eq_none hge]
        intro hnone
        cases hnone
    · intro _ k hk
      exact lastLineBoundary_eq_none hnoTarget (Nat.zero_le k) hk

end Windows

/-! ## Line starts of a part -/

section LineStarts

variable (before part rest : List UInt8)

/-- The line starts before a part, in it and behind it. -/
theorem lineStarts_append :
    (LineInfo.fromBytes (before ++ (part ++ rest))).lineStarts =
      segmentStarts lf true 0 before ++
        (segmentStarts lf (endsLine before) before.length part ++
          segmentStarts lf (endsLine (before ++ part)) (before.length + part.length) rest) := by
  rw [lineInfo_lineStarts, segmentStarts_append, segmentStarts_append, Nat.zero_add]
  rw [endsLine, endsLine, endsSegment_append]

theorem length_filter_lineStarts_before :
    ((LineInfo.fromBytes (before ++ (part ++ rest))).lineStarts.filter
      (· < before.length)).length = countLines before := by
  have hbefore : (segmentStarts lf true 0 before).filter (· < before.length) =
      segmentStarts lf true 0 before := by
    rw [List.filter_eq_self]
    intro p hp
    have := segmentStarts_bounds hp
    exact decide_eq_true (by omega)
  have hpart : (segmentStarts lf (endsLine before) before.length part).filter
      (· < before.length) = [] := by
    rw [List.filter_eq_nil_iff]
    intro p hp
    have := segmentStarts_bounds hp
    simp only [decide_eq_true_eq]
    omega
  have hrest : (segmentStarts lf (endsLine (before ++ part)) (before.length + part.length)
      rest).filter (· < before.length) = [] := by
    rw [List.filter_eq_nil_iff]
    intro p hp
    have := segmentStarts_bounds hp
    simp only [decide_eq_true_eq]
    omega
  rw [lineStarts_append, List.filter_append, List.filter_append, hbefore, hpart, hrest,
    List.append_nil, List.append_nil]
  rfl

theorem length_filter_lineStarts_part :
    ((LineInfo.fromBytes (before ++ (part ++ rest))).lineStarts.filter
      (fun p => before.length ≤ p ∧ p < before.length + part.length)).length =
        (partLineStarts before part).length := by
  have hbefore : (segmentStarts lf true 0 before).filter
      (fun p => before.length ≤ p ∧ p < before.length + part.length) = [] := by
    rw [List.filter_eq_nil_iff]
    intro p hp
    have := segmentStarts_bounds hp
    simp only [decide_eq_true_eq]
    omega
  have hpart : (segmentStarts lf (endsLine before) before.length part).filter
      (fun p => before.length ≤ p ∧ p < before.length + part.length) =
        segmentStarts lf (endsLine before) before.length part := by
    rw [List.filter_eq_self]
    intro p hp
    exact decide_eq_true (segmentStarts_bounds hp)
  have hrest : (segmentStarts lf (endsLine (before ++ part)) (before.length + part.length)
      rest).filter (fun p => before.length ≤ p ∧ p < before.length + part.length) = [] := by
    rw [List.filter_eq_nil_iff]
    intro p hp
    have := segmentStarts_bounds hp
    simp only [decide_eq_true_eq]
    omega
  rw [lineStarts_append, List.filter_append, List.filter_append, hbefore, hpart, hrest,
    List.append_nil, List.nil_append, partLineStarts, length_segmentStarts_eq _ _ 0]

/-- A part begins a line exactly when its start is a line start of the whole text. -/
theorem mem_lineStarts_iff {part : List UInt8} (hpart : part ≠ []) :
    before.length ∈ (LineInfo.fromBytes (before ++ (part ++ rest))).lineStarts ↔
      endsLine before = true := by
  obtain ⟨byte, tail, rfl⟩ := List.exists_cons_of_ne_nil hpart
  rw [lineStarts_append]
  constructor
  · intro hmem
    rcases List.mem_append.mp hmem with hmem | hmem
    · have := segmentStarts_bounds hmem
      omega
    rcases List.mem_append.mp hmem with hmem | hmem
    · rw [segmentStarts_cons] at hmem
      rcases List.mem_append.mp hmem with hmem | hmem
      · by_contra hnot
        rw [if_neg hnot] at hmem
        cases hmem
      · have := segmentStarts_bounds hmem
        omega
    · have := segmentStarts_bounds hmem
      rw [List.length_cons] at this
      omega
  · intro hends
    refine List.mem_append_right _ (List.mem_append_left _ ?_)
    rw [segmentStarts_cons, hends]
    exact List.mem_cons_self

end LineStarts

/-! ## Plans come from splits -/

/-- A choice that succeeds is the choice on the rest of the input, also where the end of the
largest window wraps: there only a line inside the target is found. -/
theorem chooseChunkEnd_eq_ok {options : ChunkerOptions} (hmax : options.maxChunkSize < 2 ^ 64)
    {input : List UInt8} {start stop : Nat} (hlen : start ≤ input.length)
    (hstart : start < 2 ^ 64) (h : chooseChunkEnd input start options = .ok stop) :
    ∃ size, chooseKnownChunkEnd (input.drop start) options = .ok size ∧ stop = start + size := by
  by_cases hword : start + options.maxChunkSize < 2 ^ 64
  · rw [chooseChunkEnd_eq _ _ hlen hword, map_eq_ok_iff] at h
    obtain ⟨size, hsize, rfl⟩ := h
    exact ⟨size, hsize, rfl⟩
  rw [chooseChunkEnd] at h
  rw [chooseKnownChunkEnd, chooseNonFinalChunkEnd, List.length_drop]
  by_cases hshort : input.length - start ≤ options.targetChunkSize
  · simp only [if_pos hshort] at h ⊢
    cases h
    exact ⟨input.length - start, rfl, by omega⟩
  simp only [if_neg hshort, lastLineBoundary_shift] at h ⊢
  cases hline : lastLineBoundary (input.drop start) 0 options.targetChunkSize with
  | some lineEnd =>
    rw [hline] at h
    cases h
    exact ⟨lineEnd, rfl, rfl⟩
  | none =>
    -- The wrapped window ends before it begins.
    exfalso
    have hwrapped : min ((start + options.maxChunkSize) % 2 ^ 64) input.length - start = 0 := by
      omega
    have hempty : previousValidSplit input start
        (min ((start + options.maxChunkSize) % 2 ^ 64) input.length) = none := by
      rw [previousValidSplit, hwrapped]
      rfl
    have hnoLine : lastLineBoundary input start
        (min ((start + options.maxChunkSize) % 2 ^ 64) input.length) = none := by
      rw [lastLineBoundary, lastLfEnd, hwrapped]
      rfl
    rw [hline, hnoLine, hempty] at h
    cases h

/-- A successful run of the planner cut the rest of the input. -/
theorem planLoop_eq_ok {options : ChunkerOptions} (hmax : options.maxChunkSize < 2 ^ 64)
    (horder : options.targetChunkSize ≤ options.maxChunkSize) {fuel : Nat}
    {done : List (List UInt8)} {rest : List UInt8} (hfuel : rest.length ≤ fuel)
    {chunks : List PlannedChunk}
    (h : planLoop (done.flatten ++ rest) options
      (LineInfo.fromBytes (done.flatten ++ rest)).lineStarts fuel done.length
      done.flatten.length = .ok chunks) :
    ∃ parts, Splits options rest parts ∧ chunks = mapWithHistory plannedChunk done parts := by
  induction fuel generalizing done rest chunks with
  | zero =>
    obtain rfl := List.eq_nil_of_length_eq_zero (Nat.le_zero.mp hfuel)
    cases h
    exact ⟨[], .nil, rfl⟩
  | succ fuel ih =>
    by_cases hrest : rest = []
    · subst hrest
      rw [planLoop, if_neg (by simp)] at h
      cases h
      exact ⟨[], .nil, rfl⟩
    have hpos := List.length_pos_of_ne_nil hrest
    have hstart : done.flatten.length < (done.flatten ++ rest).length := by
      rw [List.length_append]
      omega
    -- The checks that the iteration went through.
    have hchecks := h
    rw [planLoop, if_pos hstart] at hchecks
    simp only [bind_eq_ok_iff, okOr_eq_ok_iff, checkedAdd_eq_some_iff, usizeToU64_eq_ok_iff]
      at hchecks
    obtain ⟨_, ⟨-, rfl⟩, _, htable, _, hchoose, _, -, _, ⟨-, rfl⟩, _, ⟨hlen, rfl⟩, _,
      ⟨hsize, rfl⟩, -⟩ := hchecks
    obtain ⟨stop, hstop, rfl⟩ := chooseChunkEnd_eq_ok hmax (Nat.le_of_lt hstart) hlen hchoose
    rw [List.drop_left] at hstop
    rw [Nat.add_sub_cancel_left] at hsize
    have hcount : done.length < maxChunkCount := by
      by_contra hnot
      rw [enforceChunkTableEntries_default_of_lt (by omega)] at htable
      cases htable
    obtain ⟨hstopPos, hstopLe, -, -⟩ := chooseKnownChunkEnd_eq_ok horder hrest hstop
    rw [planLoop_step hchoose hstopPos hstopLe hcount hlen hsize, map_eq_ok_iff] at h
    obtain ⟨others, hothers, rfl⟩ := h
    have hshorter : (rest.drop stop).length ≤ fuel := by
      rw [List.length_drop]
      omega
    obtain ⟨parts, hparts, rfl⟩ := ih hshorter hothers
    exact ⟨rest.take stop :: parts, .cons hrest hstop hparts, rfl⟩

/-- A plan is the plan of a split of well-formed text, whatever the sizes. -/
theorem planChunks_splits {input : List UInt8} {options : ChunkerOptions} {plan : ChunkPlan}
    (hmax : options.maxChunkSize < 2 ^ 64) (h : planChunks input options = .ok plan) :
    options.targetChunkSize ≤ options.maxChunkSize ∧ Utf8.Valid input ∧
      ∃ parts, Splits options input parts ∧ plan = planOf parts := by
  simp only [planChunks, ChunkerOptions.validate, bind_eq_ok_iff, rejectIf_eq_ok_iff] at h
  obtain ⟨_, ⟨_, -, horder⟩, _, hdecode, h⟩ := h
  have horder : options.targetChunkSize ≤ options.maxChunkSize := Nat.le_of_not_lt horder
  have hvalid : Utf8.Valid input := by
    rw [Bool.not_eq_true, Option.isNone_eq_false_iff, isSome_fromUtf8_iff] at hdecode
    exact hdecode
  refine ⟨horder, hvalid, ?_⟩
  by_cases hnil : input = []
  · subst hnil
    rw [if_pos rfl] at h
    cases h
    exact ⟨[], .nil, rfl⟩
  · rw [if_neg hnil] at h
    simp only [bind_eq_ok_iff, usizeToU64_eq_ok_iff, pure_eq_ok, Except.ok.injEq] at h
    obtain ⟨chunks, hchunks, _, ⟨-, rfl⟩, rfl⟩ := h
    obtain ⟨parts, hparts, rfl⟩ := @planLoop_eq_ok options hmax horder input.length [] input
      (Nat.le_refl _) chunks hchunks
    refine ⟨parts, hparts, ?_⟩
    rw [planOf, hparts.flatten, lineInfo_newlineMode, countLines, lineInfo_lineStarts]

/-- The end of a part was chosen on the input from its start on. -/
theorem Splits.chosen {options : ChunkerOptions}
    (horder : options.targetChunkSize ≤ options.maxChunkSize) {input part : List UInt8}
    {before after : List (List UInt8)} (h : Splits options input (before ++ part :: after)) :
    ChosenEnd options (part ++ after.flatten) part.length := by
  induction before generalizing input with
  | nil =>
    have hflatten := h.flatten
    rw [List.nil_append, List.flatten_cons] at hflatten
    cases h with
    | @cons _ stop _ hinput hstop hparts =>
      have hchosen := chooseKnownChunkEnd_chosen horder hinput hstop
      rw [hflatten, List.length_take, Nat.min_eq_left hchosen.le_length]
      exact hchosen
  | cons first before ih =>
    cases h with
    | cons _ _ hparts => exact ih hparts

/-! ## The contract of a plan -/

/-- A cut at `position` separates a CR from its LF. -/
def SeparatesCrlf (input : List UInt8) (position : Nat) : Prop :=
  0 < position ∧ input[position - 1]? = some cr ∧ input[position]? = some lf

/-- A cut at `position` leaves text on both sides. -/
def ScalarBoundary (input : List UInt8) (position : Nat) : Prop :=
  Utf8.Valid (input.take position) ∧ Utf8.Valid (input.drop position)

/-- Where a planned chunk ends. -/
def PlannedChunk.stop (chunk : PlannedChunk) : Nat :=
  chunk.logicalOffset + chunk.uncompressedSize

/-- What holds of every chunk of a plan for `input`. -/
structure PlannedChunk.Sound (input : List UInt8) (options : ChunkerOptions)
    (chunk : PlannedChunk) : Prop where
  nonEmpty : 0 < chunk.uncompressedSize
  le_max : chunk.uncompressedSize ≤ options.maxChunkSize
  startBoundary : ScalarBoundary input chunk.logicalOffset
  stopBoundary : ScalarBoundary input chunk.stop
  startKeepsCrlf : ¬ SeparatesCrlf input chunk.logicalOffset
  stopKeepsCrlf : ¬ SeparatesCrlf input chunk.stop
  firstLine : chunk.firstLine =
    ((LineInfo.fromBytes input).lineStarts.filter (· < chunk.logicalOffset)).length
  lineCount : chunk.lineCount =
    ((LineInfo.fromBytes input).lineStarts.filter
      fun p => chunk.logicalOffset ≤ p ∧ p < chunk.stop).length
  flags : chunk.flags = if chunk.logicalOffset ∈ (LineInfo.fromBytes input).lineStarts then 0
    else startsWithLineContinuation
  forced : chunk.stop < input.length → input[chunk.stop - 1]? ≠ some lf →
    ∀ k, chunk.logicalOffset ≤ k → k < chunk.logicalOffset + options.maxChunkSize →
      input[k]? ≠ some lf
  overTarget : options.targetChunkSize < chunk.uncompressedSize →
    ∀ k, chunk.logicalOffset ≤ k → k < chunk.logicalOffset + options.targetChunkSize →
      input[k]? ≠ some lf

/-- The chunks are numbered, lie side by side, cover the input and share out its lines. -/
structure ChunkPlan.Partitions (input : List UInt8) (options : ChunkerOptions)
    (plan : ChunkPlan) : Prop where
  chunkId : ∀ {index : Nat} {chunk : PlannedChunk}, plan.chunks[index]? = some chunk →
    chunk.chunkId = index
  logicalOffset : ∀ {index : Nat} {chunk : PlannedChunk}, plan.chunks[index]? = some chunk →
    chunk.logicalOffset = ((plan.chunks.take index).map PlannedChunk.uncompressedSize).sum
  covers : (plan.chunks.map PlannedChunk.uncompressedSize).sum = input.length
  firstLine : ∀ {index : Nat} {chunk : PlannedChunk}, plan.chunks[index]? = some chunk →
    chunk.firstLine = ((plan.chunks.take index).map PlannedChunk.lineCount).sum
  lineCount : plan.lineCount = (plan.chunks.map PlannedChunk.lineCount).sum
  allLines : plan.lineCount = (LineInfo.fromBytes input).lineStarts.length
  sound : ∀ chunk ∈ plan.chunks, chunk.Sound input options

section Contract

variable {options : ChunkerOptions} {input : List UInt8}

theorem map_uncompressedSize_plannedChunk (done parts : List (List UInt8)) :
    (mapWithHistory plannedChunk done parts).map PlannedChunk.uncompressedSize =
      parts.map List.length := by
  induction parts generalizing done with
  | nil => rfl
  | cons part parts ih => rw [mapWithHistory, List.map_cons, ih, List.map_cons, plannedChunk]

/-- The lines that begin in the parts are the lines of the text. -/
theorem sum_lineCount_plannedChunk (parts : List (List UInt8)) :
    ((mapWithHistory plannedChunk [] parts).map PlannedChunk.lineCount).sum =
      countLines parts.flatten := by
  induction parts using List.reverseRecOn with
  | nil => rfl
  | append_singleton parts part ih =>
    rw [mapWithHistory_concat, List.map_append, List.sum_append, ih, List.flatten_append,
      List.flatten_singleton, countLines_append]
    rfl

/-- Every cut between parts keeps CRLF pairs together. -/
theorem Splits.keepsCrlf (horder : options.targetChunkSize ≤ options.maxChunkSize)
    {before after : List (List UInt8)} (h : Splits options input (before ++ after)) :
    ¬ SeparatesCrlf input before.flatten.length := by
  rintro ⟨hpos, hcr, hlf⟩
  rcases List.eq_nil_or_concat before with rfl | ⟨earlier, part, rfl⟩
  · cases hpos
  -- The cut is the end that was chosen for the part before it.
  rw [List.concat_eq_append] at hcr hlf h
  rw [List.append_assoc, List.singleton_append] at h
  have hchosen := h.chosen horder
  have hkeeps := hchosen.keepsCrlf
  have hlen := hchosen.pos
  have hinput := h.flatten
  rw [List.flatten_append, List.flatten_cons] at hinput
  have hposition : (earlier ++ [part]).flatten.length = earlier.flatten.length + part.length := by
    rw [List.flatten_append, List.flatten_singleton, List.length_append]
  have hget : ∀ k, input[earlier.flatten.length + k]? = (part ++ after.flatten)[k]? := by
    intro k
    rw [← hinput, List.getElem?_append_right (Nat.le_add_right _ _), Nat.add_sub_cancel_left]
  rw [hposition] at hcr hlf
  rw [hget] at hlf
  rw [Nat.add_sub_assoc (show 1 ≤ part.length from hlen), hget] at hcr
  obtain ⟨hlt, -⟩ := List.getElem?_eq_some_iff.mp hlf
  rw [splitsCrlf, hcr, hlf, decide_eq_true hlen, decide_eq_true hlt] at hkeeps
  cases hkeeps

theorem Splits.scalarBoundary (horder : options.targetChunkSize ≤ options.maxChunkSize)
    (hvalid : Utf8.Valid input) {before after : List (List UInt8)}
    (h : Splits options input (before ++ after)) :
    ScalarBoundary input before.flatten.length := by
  have hparts := h.parts_valid horder hvalid
  have hinput := h.flatten
  rw [List.flatten_append] at hinput
  refine ⟨?_, ?_⟩
  · rw [← hinput, List.take_left]
    exact Utf8.valid_flatten fun part hmem => hparts part (List.mem_append_left _ hmem)
  · rw [← hinput, List.drop_left]
    exact Utf8.valid_flatten fun part hmem => hparts part (List.mem_append_right _ hmem)

/-- The planned chunk of a part is sound. -/
theorem Splits.plannedChunk_sound (horder : options.targetChunkSize ≤ options.maxChunkSize)
    (hvalid : Utf8.Valid input) {before after : List (List UInt8)} {part : List UInt8}
    (h : Splits options input (before ++ part :: after)) :
    (plannedChunk before part).Sound input options := by
  have hchosen := h.chosen horder
  have hne : part ≠ [] := List.ne_nil_of_length_pos hchosen.pos
  have hinput : input = before.flatten ++ (part ++ after.flatten) := by
    rw [← h.flatten, List.flatten_append, List.flatten_cons]
  have hnext : Splits options input ((before ++ [part]) ++ after) := by
    rw [List.append_assoc]
    exact h
  have hstop : (before ++ [part]).flatten.length = (plannedChunk before part).stop := by
    rw [List.flatten_append, List.flatten_singleton, List.length_append]
    rfl
  have hget : ∀ k, input[before.flatten.length + k]? = (part ++ after.flatten)[k]? := by
    intro k
    rw [hinput, List.getElem?_append_right (Nat.le_add_right _ _), Nat.add_sub_cancel_left]
  have hlength : input.length = before.flatten.length + (part ++ after.flatten).length := by
    rw [hinput, List.length_append]
  -- A window of the input from the start of the chunk is a window of what is left.
  have hwindow : ∀ n, (∀ k < n, (part ++ after.flatten)[k]? ≠ some lf) →
      ∀ k, before.flatten.length ≤ k → k < before.flatten.length + n → input[k]? ≠ some lf := by
    intro n hnone k hstart hstop
    obtain ⟨d, rfl⟩ := Nat.exists_eq_add_of_le hstart
    rw [hget]
    exact hnone d (by omega)
  refine
    { nonEmpty := hchosen.pos
      le_max := hchosen.le_max
      startBoundary := h.scalarBoundary horder hvalid
      stopBoundary := hstop ▸ hnext.scalarBoundary horder hvalid
      startKeepsCrlf := h.keepsCrlf horder
      stopKeepsCrlf := hstop ▸ hnext.keepsCrlf horder
      firstLine := ?_
      lineCount := ?_
      flags := ?_
      forced := ?_
      overTarget := fun hover => hwindow _ (hchosen.overTarget hover) }
  · rw [hinput]
    exact (length_filter_lineStarts_before _ _ _).symm
  · rw [hinput]
    exact (length_filter_lineStarts_part _ _ _).symm
  · have hmem := mem_lineStarts_iff before.flatten after.flatten hne
    rw [← hinput] at hmem
    simp only [plannedChunk, continuationFlag, hmem]
  · intro hinterior hlf
    refine hwindow _ (hchosen.forced ?_ ?_)
    · rw [hlength] at hinterior
      exact Nat.lt_of_add_lt_add_left hinterior
    · intro heq
      refine hlf ?_
      rw [← hget, ← Nat.add_sub_assoc hchosen.pos] at heq
      exact heq

/-- The plan of a split partitions the text. -/
theorem planOf_partitions (horder : options.targetChunkSize ≤ options.maxChunkSize)
    (hvalid : Utf8.Valid input) {parts : List (List UInt8)} (h : Splits options input parts) :
    (planOf parts).Partitions input options := by
  have hat : ∀ {index : Nat} {chunk : PlannedChunk}, (planOf parts).chunks[index]? = some chunk →
      ∃ part, parts = parts.take index ++ part :: parts.drop (index + 1) ∧
        (parts.take index).length = index ∧ chunk = plannedChunk (parts.take index) part := by
    intro index chunk hchunk
    rw [planOf, getElem?_mapWithHistory, Option.map_eq_some_iff] at hchunk
    obtain ⟨part, hpart, rfl⟩ := hchunk
    obtain ⟨hlt, rfl⟩ := List.getElem?_eq_some_iff.mp hpart
    refine ⟨parts[index], ?_, List.length_take_of_le (Nat.le_of_lt hlt), rfl⟩
    rw [← List.drop_eq_getElem_cons hlt, List.take_append_drop]
  constructor
  · intro index chunk hchunk
    obtain ⟨part, -, hindex, rfl⟩ := hat hchunk
    exact hindex
  · intro index chunk hchunk
    obtain ⟨part, -, -, rfl⟩ := hat hchunk
    rw [planOf, take_mapWithHistory, map_uncompressedSize_plannedChunk, plannedChunk,
      List.length_flatten]
  · rw [planOf, map_uncompressedSize_plannedChunk, ← List.length_flatten, h.flatten]
  · intro index chunk hchunk
    obtain ⟨part, -, -, rfl⟩ := hat hchunk
    rw [planOf, take_mapWithHistory, sum_lineCount_plannedChunk]
    rfl
  · exact (sum_lineCount_plannedChunk parts).symm
  · rw [lineInfo_lineStarts, ← h.flatten]
    rfl
  · intro chunk hmem
    obtain ⟨index, hchunk⟩ := List.mem_iff_getElem?.mp hmem
    obtain ⟨part, hparts, -, rfl⟩ := hat hchunk
    rw [hparts] at h
    exact h.plannedChunk_sound horder hvalid

/-- Every plan that `plan_chunks` returns partitions its input. -/
theorem planChunks_partitions (hmax : options.maxChunkSize < 2 ^ 64) {plan : ChunkPlan}
    (h : planChunks input options = .ok plan) : plan.Partitions input options := by
  obtain ⟨horder, hvalid, parts, hsplits, rfl⟩ := planChunks_splits hmax h
  exact planOf_partitions horder hvalid hsplits

end Contract

/-- `"a\r\nbcdef"` in chunks of at most four bytes: a line, a forced split and the rest. -/
theorem planChunks_partitions_crlf :
    ∃ plan, planChunks [0x61, 0x0d, 0x0a, 0x62, 0x63, 0x64, 0x65, 0x66]
        { targetChunkSize := 3, maxChunkSize := 4 } = .ok plan ∧
      plan.chunks.map PlannedChunk.uncompressedSize = [3, 4, 1] ∧
      plan.Partitions [0x61, 0x0d, 0x0a, 0x62, 0x63, 0x64, 0x65, 0x66]
        { targetChunkSize := 3, maxChunkSize := 4 } := by
  let plan : ChunkPlan :=
    { chunks :=
        [{ chunkId := 0, logicalOffset := 0, uncompressedSize := 3, firstLine := 0, lineCount := 1,
           flags := 0 },
          { chunkId := 1, logicalOffset := 3, uncompressedSize := 4, firstLine := 1,
            lineCount := 1, flags := 0 },
          { chunkId := 2, logicalOffset := 7, uncompressedSize := 1, firstLine := 2,
            lineCount := 0, flags := startsWithLineContinuation }]
      lineCount := 2
      newlineMode := .crlf }
  have hplan : planChunks [0x61, 0x0d, 0x0a, 0x62, 0x63, 0x64, 0x65, 0x66]
      { targetChunkSize := 3, maxChunkSize := 4 } = .ok plan := by decide +kernel
  exact ⟨plan, hplan, rfl, planChunks_partitions (by decide) hplan⟩

end Qzt
