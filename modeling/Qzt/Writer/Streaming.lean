import Qzt.Writer.Planning
import Qzt.Writer.Sinks

/-!
# The streaming writer simulates the batch writer

`Streamed` relates the state of a streaming writer to the text pushed so far: the
emitted parts, what they leave in the buffer, in the table and in the sink, and that
every split of the text goes on from these parts.  Each operation of the writer keeps
the relation.  Where an operation fails although the sink works, the error is one that the
text itself holds (`StopsWith`): every text that extends what was pushed stops at the same
chunk, and the batch writer fails on it.
-/

namespace Qzt

open Foundation QztFileWriter

variable {env : Env} {σ : Type} {live : σ → Prop} {sink : Sink σ} {view : σ → SinkView}

/-! ## Where a text stops the writer -/

theorem isNone_fromUtf8_iff {bytes : List UInt8} :
    (fromUtf8 bytes).isNone = true ↔ ¬ Utf8.Valid bytes := by
  rw [← isSome_fromUtf8_iff, Option.isSome_iff_ne_none, not_not, Option.isNone_iff_eq_none]

/-- Why the writer refuses a chunk that follows `count` others. -/
def chunkRefusal (env : Env) (level : Int32) (count : Nat) (part : List UInt8) : Option QztError :=
  if maxChunkCount ≤ count then some .resourceLimitExceeded
  else if (fromUtf8 part).isNone then some .invalidUtf8
  else
    match env.zstd.encodeAll part level with
    | none => some .zstdEncodeError
    | some frame =>
      if frame = [] then some .chunkSizeMismatch
      else if frame.length > ResourceLimits.default.maxCompressedChunkSize then
        some .resourceLimitExceeded
      else none

theorem chunkRefusal_eq_none_iff {level : Int32} {count : Nat} {part : List UInt8} :
    chunkRefusal env level count part = none ↔
      count < maxChunkCount ∧ Utf8.Valid part ∧ Compresses env level part := by
  unfold chunkRefusal
  split
  · rename_i hcount
    simp only [reduceCtorEq, false_iff, not_and]
    intro hlt
    omega
  · rename_i hcount
    split
    · rename_i hnone
      simp only [reduceCtorEq, false_iff, not_and]
      intro _ htext
      exact absurd htext (isNone_fromUtf8_iff.mp hnone)
    · rename_i hsome
      rw [isNone_fromUtf8_iff, not_not] at hsome
      split
      · rename_i hencode
        simp only [reduceCtorEq, false_iff, not_and]
        intro _ _ hcompress
        rw [hcompress.encodes] at hencode
        cases hencode
      · rename_i frame hencode
        have hframe : chunkFrame env level part = frame := by
          rw [chunkFrame, hencode, Option.getD_some]
        constructor
        · intro hnone
          split at hnone
          · cases hnone
          · rename_i hne
            split at hnone
            · cases hnone
            · rename_i hle
              rw [← hframe] at hencode hne hle
              exact ⟨by omega, hsome, hencode, hne, by omega⟩
        · rintro ⟨-, -, hcompress⟩
          have hne := hcompress.frame_ne_nil
          have hle := hcompress.frame_le
          rw [hframe] at hne hle
          rw [if_neg hne, if_neg (by omega)]

/-- Cutting the text chunk by chunk stops with `e`: at a place without a chunk end, or at a chunk
that is refused after `count` others. -/
inductive StopsWith (env : Env) (options : WriterOptions) :
    Nat → List UInt8 → QztError → Prop where
  | noEnd {count : Nat} {input : List UInt8} {e : QztError} (hinput : input ≠ [])
      (hchoose : chooseKnownChunkEnd input options.chunker = .error e) :
      StopsWith env options count input e
  | refused {count stop : Nat} {input : List UInt8} {e : QztError} (hinput : input ≠ [])
      (hchoose : chooseKnownChunkEnd input options.chunker = .ok stop)
      (hrefused : chunkRefusal env options.zstdLevel count (input.take stop) = some e) :
      StopsWith env options count input e
  | later {count stop : Nat} {input : List UInt8} {e : QztError} (hinput : input ≠ [])
      (hchoose : chooseKnownChunkEnd input options.chunker = .ok stop)
      (haccepted : chunkRefusal env options.zstdLevel count (input.take stop) = none)
      (hrest : StopsWith env options (count + 1) (input.drop stop) e) :
      StopsWith env options count input e

namespace StopsWith

variable {options : WriterOptions} {count stop : Nat} {input : List UInt8} {e : QztError}

/-- Behind an accepted chunk the rest of the text decides. -/
theorem next_iff (hinput : input ≠ [])
    (hchoose : chooseKnownChunkEnd input options.chunker = .ok stop)
    (haccepted : chunkRefusal env options.zstdLevel count (input.take stop) = none) :
    StopsWith env options count input e ↔
      StopsWith env options (count + 1) (input.drop stop) e := by
  constructor
  · intro h
    cases h with
    | noEnd _ hnone =>
      rw [hchoose] at hnone
      cases hnone
    | refused _ hstop hrefused =>
      rw [hchoose, Except.ok.injEq] at hstop
      rw [← hstop, haccepted] at hrefused
      cases hrefused
    | later _ hstop _ hrest =>
      rw [hchoose, Except.ok.injEq] at hstop
      rw [hstop]
      exact hrest
  · exact .later hinput hchoose haccepted

/-- A text stops the writer with one error. -/
theorem unique {e' : QztError} (h : StopsWith env options count input e)
    (h' : StopsWith env options count input e') : e = e' := by
  induction h with
  | noEnd _ hnone =>
    cases h' with
    | noEnd _ hnone' =>
      rw [hnone, Except.error.injEq] at hnone'
      exact hnone'
    | refused _ hstop =>
      rw [hnone] at hstop
      cases hstop
    | later _ hstop =>
      rw [hnone] at hstop
      cases hstop
  | refused _ hchoose hrefused =>
    cases h' with
    | noEnd _ hnone =>
      rw [hchoose] at hnone
      cases hnone
    | refused _ hstop hrefused' =>
      rw [hchoose, Except.ok.injEq] at hstop
      rw [← hstop, hrefused, Option.some.injEq] at hrefused'
      exact hrefused'
    | later _ hstop haccepted =>
      rw [hchoose, Except.ok.injEq] at hstop
      rw [← hstop, hrefused] at haccepted
      cases haccepted
  | later hinput hchoose haccepted _ ih => exact ih ((next_iff hinput hchoose haccepted).mp h')

/-- A well-formed text stops the writer only at a limit, and no split of it gets through. -/
theorem limit_of_valid (hoptions : options.chunker.Admissible) (htotal : env.zstd.Total)
    (h : StopsWith env options count input e) (hvalid : Utf8.Valid input) :
    e = .resourceLimitExceeded ∧ ∀ parts, Splits options.chunker input parts →
      maxChunkCount < count + parts.length ∨
        ∃ part ∈ parts, ¬ Compresses env options.zstdLevel part := by
  induction h with
  | noEnd hinput hnone =>
    refine ⟨chooseKnownChunkEnd_eq_error hnone, fun parts hparts => ?_⟩
    obtain ⟨_, _, hstop, -⟩ := (Splits.cons_iff hinput).mp hparts
    rw [hnone] at hstop
    cases hstop
  | @refused count stop input e hinput hchoose hrefused =>
    obtain ⟨-, -, -, hcut⟩ := chooseKnownChunkEnd_eq_ok hoptions.target_le_max hinput hchoose
    have hpart := (hcut hvalid).1
    have hdecode : ¬ (fromUtf8 (input.take stop)).isNone = true := by
      rw [Bool.not_eq_true, Option.isNone_eq_false_iff, isSome_fromUtf8_iff]
      exact hpart
    obtain ⟨frame, hencode, hne⟩ := htotal (input.take stop) options.zstdLevel
    have hframe : chunkFrame env options.zstdLevel (input.take stop) = frame := by
      rw [chunkFrame, hencode, Option.getD_some]
    have hsplit : ∀ parts, Splits options.chunker input parts →
        ∃ rest, parts = input.take stop :: rest := by
      intro parts hparts
      obtain ⟨stop', rest, hstop, rfl, -⟩ := (Splits.cons_iff hinput).mp hparts
      rw [hchoose, Except.ok.injEq] at hstop
      exact ⟨rest, by rw [hstop]⟩
    unfold chunkRefusal at hrefused
    rw [if_neg hdecode, hencode] at hrefused
    simp only [if_neg hne] at hrefused
    split at hrefused
    · rename_i hcount
      cases hrefused
      refine ⟨rfl, fun parts hparts => ?_⟩
      obtain ⟨rest, rfl⟩ := hsplit parts hparts
      left
      rw [List.length_cons]
      omega
    · split at hrefused
      · rename_i hlong
        cases hrefused
        refine ⟨rfl, fun parts hparts => ?_⟩
        obtain ⟨rest, rfl⟩ := hsplit parts hparts
        right
        refine ⟨_, List.mem_cons_self, fun hcompress => ?_⟩
        have hle := hcompress.frame_le
        rw [hframe] at hle
        omega
      · cases hrefused
  | later hinput hchoose _ _ ih =>
    obtain ⟨-, -, -, hcut⟩ := chooseKnownChunkEnd_eq_ok hoptions.target_le_max hinput hchoose
    obtain ⟨he, hparts⟩ := ih (hcut hvalid).2
    refine ⟨he, fun parts hsplit => ?_⟩
    obtain ⟨stop', rest, hstop, rfl, hrest⟩ := (Splits.cons_iff hinput).mp hsplit
    rw [hchoose, Except.ok.injEq] at hstop
    rw [← hstop] at hrest
    rcases hparts rest hrest with hcount | ⟨part, hpart, hcompress⟩
    · left
      rw [List.length_cons]
      omega
    · exact Or.inr ⟨part, List.mem_cons_of_mem _ hpart, hcompress⟩

/-- The batch writer fails on a well-formed text that stops the streaming writer. -/
theorem packBytes_eq (htotal : env.zstd.Total) (hoptions : validateWriterOptions options = .ok ⟨⟩)
    (h : StopsWith env options 0 input e) (hvalid : Utf8.Valid input) :
    packBytes env input options = .error e := by
  obtain ⟨rfl, hparts⟩ := h.limit_of_valid (validateWriterOptions_eq_ok hoptions) htotal hvalid
  refine packBytes_of_not_splits htotal hoptions hvalid fun parts hsplit => ?_
  refine (hparts parts hsplit.1).resolve_left ?_
  have := hsplit.2
  omega

end StopsWith

/-! ## The simulation relation -/

/-- The streaming writer has taken `consumed` and emitted `parts` of it; `futures` are the texts
that may still follow. -/
structure Streamed (live : σ → Prop) (view : σ → SinkView) (futures : List UInt8 → Prop) (options : WriterOptions)
    (consumed hashed : List UInt8) (parts : List (List UInt8)) (state : QztFileWriter env σ) :
    Prop where
  options_eq : state.options = options
  unfinished : state.finished = false ∧ state.poisoned = false
  text : parts.flatten ++ state.pending = consumed
  splits_iff : ∀ more, futures more → ∀ all, Splits options.chunker (consumed ++ more) all ↔
    ∃ rest, all = parts ++ rest ∧ Splits options.chunker (state.pending ++ more) rest
  hasher : env.blake3.Absorbed state.inputHasher hashed
  entries : state.entries = chunkTableOf env options.zstdLevel parts
  physicalOffset : state.physicalOffset =
    headerLen + (chunkFrames env options.zstdLevel parts).length
  logicalOffset : state.logicalOffset = parts.flatten.length
  lineStartsSeen : state.lineStartsSeen = countLines parts.flatten
  newlines : state.newlines = newlineState parts.flatten
  count : parts.length ≤ maxChunkCount
  compress : ∀ part ∈ parts, Compresses env options.zstdLevel part
  sizes : ∀ part ∈ parts, part.length ≤ ResourceLimits.default.maxUncompressedChunkSize
  valid : ∀ part ∈ parts, Utf8.Valid part
  contents : live state.writer → (view state.writer).contents =
    List.replicate headerLen 0 ++ chunkFrames env options.zstdLevel parts

namespace Streamed

variable {futures : List UInt8 → Prop} {options : WriterOptions} {consumed hashed : List UInt8}
  {parts : List (List UInt8)} {self : QztFileWriter env σ}

theorem text_valid (h : Streamed live view futures options consumed hashed parts self) :
    Utf8.Valid parts.flatten :=
  Utf8.valid_flatten h.valid

theorem length_lt (h : Streamed live view futures options consumed hashed parts self) :
    parts.flatten.length < 2 ^ 46 :=
  (fitsParts_of_forall h.sizes).length_lt h.count

theorem frames_lt (h : Streamed live view futures options consumed hashed parts self) :
    (chunkFrames env options.zstdLevel parts).length < 2 ^ 46 :=
  length_chunkFrames_lt h.count h.compress

/-- Buffered bytes belong to the text. -/
theorem append_pending (h : Streamed live view (fun _ => True) options consumed hashed parts self)
    (bytes : List UInt8) :
    Streamed live view (fun _ => True) options (consumed ++ bytes) hashed parts
      { self with pending := self.pending ++ bytes } where
  options_eq := h.options_eq
  unfinished := h.unfinished
  text := by rw [← h.text, List.append_assoc]
  splits_iff := by
    intro more _ all
    rw [List.append_assoc, h.splits_iff (bytes ++ more) trivial, List.append_assoc]
  hasher := h.hasher
  entries := h.entries
  physicalOffset := h.physicalOffset
  logicalOffset := h.logicalOffset
  lineStartsSeen := h.lineStartsSeen
  newlines := h.newlines
  count := h.count
  compress := h.compress
  sizes := h.sizes
  valid := h.valid
  contents := h.contents

/-- Fewer futures are easier to meet. -/
theorem restrict {futures' : List UInt8 → Prop}
    (h : Streamed live view futures options consumed hashed parts self)
    (hfutures : ∀ more, futures' more → futures more) :
    Streamed live view futures' options consumed hashed parts self :=
  { h with splits_iff := fun more hmore => h.splits_iff more (hfutures more hmore) }

end Streamed

/-- The texts that extend `consumed` stop the writer where what is left of them does. -/
def Continues (futures : List UInt8 → Prop) (options : WriterOptions) (consumed : List UInt8)
    (self : QztFileWriter env σ) : Prop :=
  ∀ more, futures more → ∀ e, StopsWith env options 0 (consumed ++ more) e ↔
    StopsWith env options self.entries.length (self.pending ++ more) e

/-- Provided the sink works, every allowed extension of the text stops the writer with `e`. -/
def StreamFails (env : Env) (live : σ → Prop) (sink : Sink σ) (view : σ → SinkView)
    (futures : List UInt8 → Prop) (options : WriterOptions) (consumed : List UInt8) (e : QztError) : Prop :=
  Works live sink view → ∀ more, futures more → StopsWith env options 0 (consumed ++ more) e

theorem streamFails_of_not_works {futures : List UInt8 → Prop} {options : WriterOptions}
    {consumed : List UInt8} {e : QztError} (h : ¬ Works live sink view) :
    StreamFails env live sink view futures options consumed e :=
  fun hworks => absurd hworks h

/-- The batch writer fails with `e` on every allowed extension of the text, provided the sink and
the encoder work. -/
def BatchFails (env : Env) (live : σ → Prop) (sink : Sink σ) (view : σ → SinkView)
    (futures : List UInt8 → Prop) (options : WriterOptions) (consumed : List UInt8) (e : QztError) : Prop :=
  Works live sink view → env.zstd.Total → ∀ more, futures more →
    Utf8.Valid (consumed ++ more) → packBytes env (consumed ++ more) options = .error e

theorem batchFails_of_not_works {futures : List UInt8 → Prop} {options : WriterOptions}
    {consumed : List UInt8} {e : QztError} (h : ¬ Works live sink view) :
    BatchFails env live sink view futures options consumed e :=
  fun hworks => absurd hworks h

/-- The batch writer fails where the streaming writer does. -/
theorem StreamFails.batchFails {futures : List UInt8 → Prop} {options : WriterOptions}
    {consumed : List UInt8} {e : QztError} (hoptions : validateWriterOptions options = .ok ⟨⟩)
    (h : StreamFails env live sink view futures options consumed e) :
    BatchFails env live sink view futures options consumed e :=
  fun hworks htotal more hmore hvalid => (h hworks more hmore).packBytes_eq htotal hoptions hvalid

theorem Continues.append_pending {options : WriterOptions} {consumed : List UInt8}
    {self : QztFileWriter env σ} (h : Continues (fun _ => True) options consumed self)
    (bytes : List UInt8) :
    Continues (fun _ => True) options (consumed ++ bytes)
      { self with pending := self.pending ++ bytes } := by
  intro more _ e
  rw [List.append_assoc, h (bytes ++ more) trivial e, List.append_assoc]

/-! ## Emitting a chunk -/

section Emit

variable {futures : List UInt8 → Prop} {options : WriterOptions} {consumed hashed : List UInt8}
  {parts : List (List UInt8)} {self : QztFileWriter env σ} {stop : Nat}

/-- The end of the next chunk, agreed by all futures. -/
structure NextEnd (futures : List UInt8 → Prop) (options : ChunkerOptions)
    (pending : List UInt8) (stop : Nat) : Prop where
  pending_ne_nil : pending ≠ []
  stop_pos : 0 < stop
  stop_le : stop ≤ pending.length
  stop_le_max : stop ≤ options.maxChunkSize
  choose : ∀ more, futures more → chooseKnownChunkEnd (pending ++ more) options = .ok stop

theorem NextEnd.take_append {pending : List UInt8} {chunker : ChunkerOptions}
    (h : NextEnd futures chunker pending stop) (more : List UInt8) :
    (pending ++ more).take stop = pending.take stop :=
  List.take_append_of_le_length h.stop_le

theorem NextEnd.drop_append {pending : List UInt8} {chunker : ChunkerOptions}
    (h : NextEnd futures chunker pending stop) (more : List UInt8) :
    (pending ++ more).drop stop = pending.drop stop ++ more :=
  List.drop_append_of_le_length h.stop_le

/-- Every split goes on with the next chunk. -/
theorem splits_next (h : Streamed live view futures options consumed hashed parts self)
    (hnext : NextEnd futures options.chunker self.pending stop) {more : List UInt8}
    (hmore : futures more) {all : List (List UInt8)} :
    Splits options.chunker (consumed ++ more) all ↔
      ∃ rest, all = (parts ++ [self.pending.take stop]) ++ rest ∧
        Splits options.chunker (self.pending.drop stop ++ more) rest := by
  have hne : self.pending ++ more ≠ [] := by
    intro hnil
    exact hnext.pending_ne_nil (List.append_eq_nil_iff.mp hnil).1
  rw [h.splits_iff more hmore]
  constructor
  · rintro ⟨rest, rfl, hrest⟩
    obtain ⟨stop', rest', hstop', rfl, hrest'⟩ := (Splits.cons_iff hne).mp hrest
    rw [hnext.choose more hmore, Except.ok.injEq] at hstop'
    subst hstop'
    rw [hnext.drop_append] at hrest'
    exact ⟨rest', by rw [hnext.take_append, List.append_assoc, List.singleton_append], hrest'⟩
  · rintro ⟨rest, rfl, hrest⟩
    refine ⟨self.pending.take stop :: rest, by simp, ?_⟩
    rw [Splits.cons_iff hne]
    exact ⟨stop, rest, hnext.choose more hmore, by rw [hnext.take_append],
      by rw [hnext.drop_append]; exact hrest⟩

/-- What `emit_chunk` computes for a chunk it accepts. -/
theorem encodeEntry_eq (h : Streamed live view futures options consumed hashed parts self)
    {part : List UInt8} (hcount : parts.length < maxChunkCount)
    (hsize : part.length ≤ ResourceLimits.default.maxUncompressedChunkSize)
    (hvalid : Utf8.Valid part) (hcompress : Compresses env options.zstdLevel part) :
    encodeEntry self part =
      .ok (chunkEntryOf env options.zstdLevel parts part, chunkFrame env options.zstdLevel part) := by
  have hsize' : part.length ≤ 64 * 1024 * 1024 := hsize
  have hframe : (chunkFrame env options.zstdLevel part).length ≤ 72 * 1024 * 1024 :=
    hcompress.frame_le
  have hentries : self.entries.length = parts.length := by
    rw [h.entries, chunkTableOf, length_mapWithHistory]
  have hdecode : ¬ (fromUtf8 part).isNone = true := by
    rw [Bool.not_eq_true, Option.isNone_eq_false_iff, isSome_fromUtf8_iff]
    exact hvalid
  have hflags : expectedFlags self.logicalOffset self.newlines.previousByte =
      continuationFlag parts.flatten := by
    rw [h.logicalOffset, h.newlines, expectedFlags_eq]
  have hstarts : lineStartOffsets part (continuationFlag parts.flatten) =
      .ok (partLineStarts parts.flatten part) := by
    rw [lineStartOffsets_eq (by omega), localLineStarts_continuationFlag]
  have hlines := length_partLineStarts_le parts.flatten part
  have hcount' : parts.length < 524288 := hcount
  have huncompressed : ResourceLimits.default.enforceChunkSizes 0 part.length = .ok ⟨⟩ :=
    (ResourceLimits.enforceChunkSizes_eq_ok_iff _).mpr ⟨Nat.zero_le _, hsize⟩
  have hcompressed : ResourceLimits.default.enforceChunkSizes
      (chunkFrame env options.zstdLevel part).length 0 = .ok ⟨⟩ :=
    (ResourceLimits.enforceChunkSizes_eq_ok_iff _).mpr ⟨hcompress.frame_le, Nat.zero_le _⟩
  rw [encodeEntry, hentries, checkedAdd_of_lt (by omega), okOr_some, ok_bind, checkChunkTableSize,
    enforceChunkTableEntries_default hcount, ok_bind, usizeToU64_of_lt (by omega), ok_bind,
    huncompressed, ok_bind, rejectIf_of_not hdecode, ok_bind, encodeChunk, h.options_eq,
    hcompress.encodes, okOr_some, ok_bind, rejectIf_of_not hcompress.frame_ne_nil, ok_bind,
    usizeToU64_of_lt (by omega), ok_bind, hcompressed, ok_bind]
  simp only [hflags, hstarts, ok_bind]
  rw [usizeToU64_of_lt (by omega), ok_bind, usizeToU64_of_lt (by omega), ok_bind,
    h.physicalOffset, h.logicalOffset, h.lineStartsSeen]
  rfl

theorem recordEntry_eq (h : Streamed live view futures options consumed hashed parts self)
    {part : List UInt8} (hsize : part.length ≤ ResourceLimits.default.maxUncompressedChunkSize)
    (hcompress : Compresses env options.zstdLevel part) :
    recordEntry self part (chunkEntryOf env options.zstdLevel parts part) =
      .ok { self with
        newlines := newlineState (parts ++ [part]).flatten
        lineStartsSeen := countLines (parts ++ [part]).flatten
        logicalOffset := (parts ++ [part]).flatten.length
        physicalOffset := headerLen + (chunkFrames env options.zstdLevel (parts ++ [part])).length
        entries := chunkTableOf env options.zstdLevel (parts ++ [part]) } := by
  have hsize' : part.length ≤ 64 * 1024 * 1024 := hsize
  have hframe : (chunkFrame env options.zstdLevel part).length ≤ 72 * 1024 * 1024 :=
    hcompress.frame_le
  have hlen := h.length_lt
  have hframes := h.frames_lt
  have hcounts := newlineState_counts parts.flatten
  have hlines := countLines_le parts.flatten
  have hpartLines := length_partLineStarts_le parts.flatten part
  have hnewlines : NewlineState.update part (newlineState parts.flatten) =
      .ok (newlineState (parts ++ [part]).flatten) := by
    rw [NewlineState.update_of_lt (by omega) (by omega), ← newlineState_append,
      List.flatten_append, List.flatten_singleton]
  have hlinesEq : countLines (parts ++ [part]).flatten =
      countLines parts.flatten + (partLineStarts parts.flatten part).length := by
    rw [List.flatten_append, List.flatten_singleton, countLines_append]
  have hlengthEq : (parts ++ [part]).flatten.length = parts.flatten.length + part.length := by
    rw [List.flatten_append, List.flatten_singleton, List.length_append]
  have hphysicalEq : headerLen + (chunkFrames env options.zstdLevel (parts ++ [part])).length =
      headerLen + (chunkFrames env options.zstdLevel parts).length +
        (chunkFrame env options.zstdLevel part).length := by
    rw [chunkFrames_concat, List.length_append, Nat.add_assoc]
  have htableEq : chunkTableOf env options.zstdLevel (parts ++ [part]) =
      chunkTableOf env options.zstdLevel parts ++
        [chunkEntryOf env options.zstdLevel parts part] := mapWithHistory_concat _ _
  rw [recordEntry, h.newlines, hnewlines, ok_bind, h.lineStartsSeen, h.logicalOffset,
    h.physicalOffset, h.entries]
  simp only [chunkEntryOf]
  rw [checkedAdd_of_lt (by omega), okOr_some, ok_bind, checkedAdd_of_lt (by omega), okOr_some,
    ok_bind, checkedAdd_of_lt (by rw [headerLen]; omega), okOr_some, ok_bind, hlinesEq, hlengthEq,
    hphysicalEq, htableEq]
  rfl

/-- The encoding step fails with the refusal of the chunk. -/
theorem encodeEntry_eq_error (h : Streamed live view futures options consumed hashed parts self)
    {part : List UInt8} (hsize : part.length ≤ ResourceLimits.default.maxUncompressedChunkSize)
    {e : QztError} (he : encodeEntry self part = .error e) :
    chunkRefusal env options.zstdLevel parts.length part = some e := by
  have hentries : self.entries.length = parts.length := by
    rw [h.entries, chunkTableOf, length_mapWithHistory]
  have hcountAll : parts.length ≤ 524288 := h.count
  have hsize' : part.length ≤ 64 * 1024 * 1024 := hsize
  have huncompressed : ResourceLimits.default.enforceChunkSizes 0 part.length = .ok ⟨⟩ :=
    (ResourceLimits.enforceChunkSizes_eq_ok_iff _).mpr ⟨Nat.zero_le _, hsize⟩
  have hstep := he
  rw [encodeEntry, hentries, checkedAdd_of_lt (by omega), okOr_some, ok_bind, checkChunkTableSize] at he
  unfold chunkRefusal
  by_cases hcount : maxChunkCount ≤ parts.length
  · rw [enforceChunkTableEntries_default_of_lt (by omega)] at he
    cases he
    rw [if_pos hcount]
  · rw [enforceChunkTableEntries_default (by omega), ok_bind, usizeToU64_of_lt (by omega), ok_bind,
      huncompressed, ok_bind] at he
    rw [if_neg hcount]
    by_cases hnone : (fromUtf8 part).isNone = true
    · rw [rejectIf_of hnone] at he
      cases he
      rw [if_pos hnone]
    · rw [rejectIf_of_not hnone, ok_bind, encodeChunk, h.options_eq] at he
      rw [if_neg hnone]
      cases hencode : env.zstd.encodeAll part options.zstdLevel with
      | none =>
        rw [hencode] at he
        cases he
        rfl
      | some frame =>
        rw [hencode, okOr_some, ok_bind] at he
        simp only
        by_cases hempty : frame = []
        · rw [rejectIf_of hempty] at he
          cases he
          rw [if_pos hempty]
        · rw [rejectIf_of_not hempty, ok_bind] at he
          rw [if_neg hempty]
          by_cases hlong : frame.length > ResourceLimits.default.maxCompressedChunkSize
          · -- The frame is too large, for the limit or even for a machine word.
            rw [if_pos hlong]
            unfold usizeToU64 at he
            split at he
            · rw [ok_bind, ResourceLimits.enforceChunkSizes, rejectIf_of (by omega),
                error_bind] at he
              cases he
              rfl
            · cases he
              rfl
          · -- Nothing is left to fail.
            rw [isNone_fromUtf8_iff, not_not] at hnone
            have hframe : chunkFrame env options.zstdLevel part = frame := by
              rw [chunkFrame, hencode, Option.getD_some]
            have hcompress : Compresses env options.zstdLevel part :=
              ⟨by rw [hframe, hencode], by rw [hframe]; exact hempty, by rw [hframe]; omega⟩
            rw [encodeEntry_eq h (by omega) hsize hnone hcompress] at hstep
            cases hstep

/-- A chunk that the encoding step accepts has the entry and the frame of the table. -/
theorem encodeEntry_eq_ok (h : Streamed live view futures options consumed hashed parts self)
    {part : List UInt8} {r : ChunkEntry × List UInt8} (hr : encodeEntry self part = .ok r) :
    parts.length < maxChunkCount ∧ Utf8.Valid part ∧ Compresses env options.zstdLevel part ∧
      r = (chunkEntryOf env options.zstdLevel parts part,
        chunkFrame env options.zstdLevel part) := by
  have hentries : self.entries.length = parts.length := by
    rw [h.entries, chunkTableOf, length_mapWithHistory]
  have hconditions := hr
  simp only [encodeEntry, encodeChunk, checkChunkTableSize, bind_eq_ok_iff, okOr_eq_ok_iff,
    checkedAdd_eq_some_iff, ResourceLimits.enforceChunkTableEntries_eq_ok_iff,
    usizeToU64_eq_ok_iff, ResourceLimits.enforceChunkSizes_eq_ok_iff, rejectIf_eq_ok_iff,
    Bool.not_eq_true, hentries, h.options_eq] at hconditions
  obtain ⟨_, ⟨_, rfl⟩, _, ⟨_, htable⟩, _, ⟨_, rfl⟩, _, ⟨_, hsize⟩, _, hdecode, frame, hencode, _,
    hne, _, ⟨_, rfl⟩, _, ⟨hframe, _⟩, _⟩ := hconditions
  have hchunkFrame : chunkFrame env options.zstdLevel part = frame := by
    rw [chunkFrame, hencode, Option.getD_some]
  have hcount : parts.length < maxChunkCount := by
    simp only [chunkEntryLen, ResourceLimits.default] at htable
    simp only [maxChunkCount]
    omega
  have hvalid : Utf8.Valid part := by
    rw [Option.isNone_eq_false_iff, isSome_fromUtf8_iff] at hdecode
    exact hdecode
  have hcompress : Compresses env options.zstdLevel part :=
    ⟨by rw [hchunkFrame]; exact hencode, by rw [hchunkFrame]; exact hne,
      by rw [hchunkFrame]; exact hframe⟩
  rw [encodeEntry_eq h hcount hsize hvalid hcompress, Except.ok.injEq] at hr
  exact ⟨hcount, hvalid, hcompress, hr.symm⟩

/-- `emit_pending_chunk` emits the next part. -/
theorem emitPendingChunk_ensures (hsink : FaithfulWhile live sink view)
    (hoptions : validateWriterOptions options = .ok ⟨⟩)
    (h : Streamed live view futures options consumed hashed parts self)
    (hcontinues : Continues futures options consumed self)
    (hnext : NextEnd futures options.chunker self.pending stop) :
    Ensures (emitPendingChunk sink stop) self
      (fun _ self' => Streamed live view futures options consumed hashed
          (parts ++ [self.pending.take stop]) self' ∧
        Continues futures options consumed self' ∧ self'.pending = self.pending.drop stop)
      (fun e _ => StreamFails env live sink view futures options consumed e) := by
  have hsize : (self.pending.take stop).length ≤
      ResourceLimits.default.maxUncompressedChunkSize := by
    have := hnext.stop_le_max
    have := (validateWriterOptions_eq_ok hoptions).max_le
    rw [List.length_take]
    omega
  have hrange : getRange? self.pending 0 stop = some (self.pending.take stop) := by
    rw [getRange?_eq_some_iff]
    exact ⟨⟨Nat.zero_le _, hnext.stop_le⟩, by simp [slice]⟩
  have hunreliable : ∀ (e : QztError) (_ : QztFileWriter env σ), ¬ Works live sink view →
      StreamFails env live sink view futures options consumed e := fun _ _ => streamFails_of_not_works
  have hentries : self.entries.length = parts.length := by
    rw [h.entries, chunkTableOf, length_mapWithHistory]
  have hne : ∀ more, self.pending ++ more ≠ [] := fun more hnil =>
    hnext.pending_ne_nil (List.append_eq_nil_iff.mp hnil).1
  unfold emitPendingChunk
  apply ensures_bind
  apply ensures_get
  apply ensures_bind
  rw [hrange, okOr_some]
  apply ensures_lift_ok rfl
  apply ensures_bind
  unfold emitChunk
  apply ensures_bind
  apply ensures_get
  apply ensures_bind
  refine ensures_lift (fun r hr => ?_) fun e he => ?_
  swap
  · -- The refused chunk is the next one of every extension.
    intro _ more hmore
    rw [hcontinues more hmore e]
    refine .refused (hne more) (hnext.choose more hmore) ?_
    rw [hnext.take_append, hentries]
    exact encodeEntry_eq_error h hsize he
  obtain ⟨hcount, hvalid, hcompress, rfl⟩ := encodeEntry_eq_ok h hr
  apply ensures_bind
  apply ensures_get
  apply ensures_bind
  refine ensures_seekStart hsink (fun _ writer₁ hseek => ?_) hunreliable
  apply ensures_bind
  refine ensures_writeAll hsink (fun writer₂ hwrite => ?_) hunreliable
  apply ensures_bind
  apply ensures_get
  apply ensures_bind
  -- Only the sink has changed, so the bookkeeping step sees the state of the relation.
  have hrecord := recordEntry_eq h hsize hcompress
  have hrecord₂ : recordEntry { self with writer := writer₂ } (self.pending.take stop)
      (chunkEntryOf env options.zstdLevel parts (self.pending.take stop)) =
        (fun s => { s with writer := writer₂ }) <$> recordEntry self (self.pending.take stop)
          (chunkEntryOf env options.zstdLevel parts (self.pending.take stop)) := by
    simp only [recordEntry, map_bind]
    rfl
  rw [hrecord, map_ok] at hrecord₂
  apply ensures_lift_ok hrecord₂
  apply ensures_set
  apply ensures_modify
  refine ⟨?_, ?_, rfl⟩
  swap
  · intro more hmore e
    have haccepted : chunkRefusal env options.zstdLevel self.entries.length
        ((self.pending ++ more).take stop) = none := by
      rw [hnext.take_append, hentries]
      exact chunkRefusal_eq_none_iff.mpr ⟨hcount, hvalid, hcompress⟩
    rw [hcontinues more hmore e, StopsWith.next_iff (hne more) (hnext.choose more hmore) haccepted,
      hnext.drop_append, hentries]
    simp only [chunkTableOf, length_mapWithHistory, List.length_append, List.length_singleton]
  have hcontents : live writer₂ → (view writer₂).contents = List.replicate headerLen 0 ++
      chunkFrames env options.zstdLevel (parts ++ [self.pending.take stop]) := by
    intro hlive₂
    obtain ⟨hlive₁, hview₂⟩ := hwrite hlive₂
    obtain ⟨hlive, hview₁⟩ := hseek hlive₁
    have hposition : self.physicalOffset = (view self.writer).contents.length := by
      rw [h.physicalOffset, h.contents hlive, List.length_append, List.length_replicate]
    rw [hview₂, hview₁]
    simp only
    rw [hposition, writeAt_length, h.contents hlive, chunkFrames_concat, List.append_assoc]
  exact
    { options_eq := h.options_eq
      unfinished := h.unfinished
      text := by rw [← h.text]; simp
      splits_iff := fun more hmore all => splits_next h hnext hmore
      hasher := h.hasher
      entries := rfl
      physicalOffset := rfl
      logicalOffset := rfl
      lineStartsSeen := rfl
      newlines := rfl
      count := by
        rw [List.length_append, List.length_singleton]
        exact hcount
      compress := List.forall_mem_append.mpr ⟨h.compress, List.forall_mem_singleton.mpr hcompress⟩
      sizes := List.forall_mem_append.mpr ⟨h.sizes, List.forall_mem_singleton.mpr hsize⟩
      valid := List.forall_mem_append.mpr ⟨h.valid, List.forall_mem_singleton.mpr hvalid⟩
      contents := hcontents }

end Emit

/-! ## Pushing -/

section Push

variable {options : WriterOptions} {consumed hashed : List UInt8} {parts : List (List UInt8)}
  {self : QztFileWriter env σ}

/-- After `emit_if_full` the buffer holds at most one largest chunk. -/
theorem emitIfFull_ensures (hsink : FaithfulWhile live sink view)
    (hoptions : validateWriterOptions options = .ok ⟨⟩)
    (h : Streamed live view (fun _ => True) options consumed hashed parts self)
    (hcontinues : Continues (fun _ => True) options consumed self)
    (hpending : self.pending.length ≤ options.chunker.maxChunkSize + 1) :
    Ensures (emitIfFull sink) self
      (fun _ self' => (∃ parts', Streamed live view (fun _ => True) options consumed hashed parts' self')
        ∧ Continues (fun _ => True) options consumed self'
        ∧ self'.pending.length ≤ options.chunker.maxChunkSize)
      (fun e _ => StreamFails env live sink view (fun _ => True) options consumed e) := by
  have hadmissible := validateWriterOptions_eq_ok hoptions
  unfold emitIfFull
  apply ensures_bind
  apply ensures_get
  apply ensures_ite
  · intro hfull
    rw [h.options_eq] at hfull ⊢
    have hchoose : ∀ more, chooseStreamChunkEnd self.pending options.chunker =
        chooseKnownChunkEnd (self.pending ++ more) options.chunker :=
      fun more => chooseStreamChunkEnd_eq more hadmissible.target_le_max hfull
    have hne : self.pending ≠ [] := by
      intro hnil
      rw [hnil, List.length_nil] at hfull
      omega
    apply ensures_bind
    refine ensures_lift (fun stop hstop => ?_) fun e he => ?_
    · have hstop' := hstop
      rw [hchoose [], List.append_nil] at hstop'
      obtain ⟨hpos, hle, hmax, -⟩ := chooseKnownChunkEnd_eq_ok hadmissible.target_le_max hne hstop'
      have hnext : NextEnd (fun _ => True) options.chunker self.pending stop :=
        ⟨hne, hpos, hle, hmax, fun more _ => by rw [← hchoose, hstop]⟩
      refine (emitPendingChunk_ensures hsink hoptions h hcontinues hnext).mono ?_ fun _ _ => id
      rintro _ self' ⟨hself', hcontinues', hpending'⟩
      refine ⟨⟨_, hself'⟩, hcontinues', ?_⟩
      rw [hpending', List.length_drop]
      omega
    · -- No future gives the chunk an end.
      intro _ more _
      rw [hcontinues more trivial e]
      refine .noEnd (by simp [hne]) ?_
      rw [← hchoose, he]
  · intro hnotFull
    rw [h.options_eq] at hnotFull
    apply ensures_pure
    exact ⟨⟨parts, h⟩, hcontinues, by omega⟩

/-- The loop of `push` takes all the bytes. -/
theorem pushLoop_ensures (hsink : FaithfulWhile live sink view)
    (hoptions : validateWriterOptions options = .ok ⟨⟩) {fuel : Nat} {remaining : List UInt8}
    (hfuel : remaining.length ≤ fuel)
    (h : Streamed live view (fun _ => True) options consumed hashed parts self)
    (hcontinues : Continues (fun _ => True) options consumed self)
    (hpending : self.pending.length ≤ options.chunker.maxChunkSize) :
    Ensures (pushLoop sink fuel remaining) self
      (fun _ self' =>
        (∃ parts', Streamed live view (fun _ => True) options (consumed ++ remaining) hashed parts' self')
        ∧ Continues (fun _ => True) options (consumed ++ remaining) self'
        ∧ self'.pending.length ≤ options.chunker.maxChunkSize)
      (fun e _ => StreamFails env live sink view (fun _ => True) options (consumed ++ remaining) e) := by
  induction fuel generalizing remaining consumed parts self with
  | zero =>
    obtain rfl := List.eq_nil_of_length_eq_zero (Nat.le_zero.mp hfuel)
    apply ensures_pure
    rw [List.append_nil]
    exact ⟨⟨parts, h⟩, hcontinues, hpending⟩
  | succ fuel ih =>
    unfold pushLoop
    apply ensures_ite
    · rintro rfl
      apply ensures_pure
      rw [List.append_nil]
      exact ⟨⟨parts, h⟩, hcontinues, hpending⟩
    · intro hne
      have hpos := List.length_pos_of_ne_nil hne
      apply ensures_bind
      apply ensures_get
      apply ensures_bind
      apply ensures_set
      apply ensures_bind
      generalize htake : min remaining.length
        (self.options.chunker.maxChunkSize + 1 - self.pending.length) = take
      rw [h.options_eq] at htake
      have hsplit : consumed ++ remaining = consumed ++ remaining.take take ++
          remaining.drop take := by
        rw [List.append_assoc, List.take_append_drop]
      have hlen : (self.pending ++ remaining.take take).length ≤
          options.chunker.maxChunkSize + 1 := by
        rw [List.length_append, List.length_take]
        omega
      rw [hsplit]
      refine (emitIfFull_ensures hsink hoptions (h.append_pending (remaining.take take))
        (hcontinues.append_pending (remaining.take take)) hlen).mono ?_ ?_
      · rintro _ self' ⟨⟨parts', hself'⟩, hcontinues', hpending'⟩
        exact ih (by rw [List.length_drop]; omega) hself' hcontinues' hpending'
      · intro e _ hfails hworks more _
        rw [List.append_assoc]
        exact hfails hworks _ trivial

/-- `push` takes all the bytes, or every text that starts like this stops the writer. -/
theorem run_push {futures : List UInt8 → Prop} {hashed : List UInt8} (bytes : List UInt8)
    (h : Streamed live view futures options consumed hashed parts self) :
    (push sink bytes).run.run self =
      match (pushInner sink bytes).run.run self with
      | (.ok u, self') => (.ok u, self')
      | (.error e, self') => (.error e, { self' with poisoned := true }) := by
  have hlive : (self.finished || self.poisoned) = false := by
    rw [h.unfinished.1, h.unfinished.2]
    rfl
  change (if (self.finished || self.poisoned) = true then _ else _) = _
  rw [hlive]
  rfl

theorem push_ensures (hsink : FaithfulWhile live sink view)
    (hoptions : validateWriterOptions options = .ok ⟨⟩) (bytes : List UInt8)
    (h : Streamed live view (fun _ => True) options consumed consumed parts self)
    (hcontinues : Continues (fun _ => True) options consumed self)
    (hpending : self.pending.length ≤ options.chunker.maxChunkSize) :
    Ensures (push sink bytes) self
      (fun _ self' =>
        (∃ parts', Streamed live view (fun _ => True) options (consumed ++ bytes) (consumed ++ bytes)
          parts' self') ∧ Continues (fun _ => True) options (consumed ++ bytes) self' ∧
        self'.pending.length ≤ options.chunker.maxChunkSize)
      (fun e _ => StreamFails env live sink view (fun _ => True) options (consumed ++ bytes) e) := by
  have hhashed : Streamed live view (fun _ => True) options consumed (consumed ++ bytes) parts
      { self with inputHasher := env.blake3.update self.inputHasher bytes } :=
    { h with hasher := h.hasher.update bytes }
  have hinner : Ensures (pushInner sink bytes) self
      (fun _ self' =>
        (∃ parts', Streamed live view (fun _ => True) options (consumed ++ bytes) (consumed ++ bytes)
          parts' self') ∧ Continues (fun _ => True) options (consumed ++ bytes) self' ∧
        self'.pending.length ≤ options.chunker.maxChunkSize)
      (fun e _ => StreamFails env live sink view (fun _ => True) options (consumed ++ bytes) e) := by
    unfold pushInner
    apply ensures_bind
    apply ensures_modify
    exact pushLoop_ensures hsink hoptions (Nat.le_refl _) hhashed hcontinues hpending
  unfold Ensures at hinner ⊢
  rw [run_push bytes h]
  revert hinner
  rcases (pushInner sink bytes).run.run self with ⟨e | u, self'⟩ <;> exact id

end Push

end Qzt
