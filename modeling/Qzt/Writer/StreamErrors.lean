import Qzt.Writer.StreamContract

/-!
# Malformed text on a stream

The batch writer checks the whole input for UTF-8 before it cuts it.  The streaming writer
cuts first and checks every chunk behind the cut, so malformed bytes can also be met by the
search for a chunk end, and chunks before them can be refused for other reasons.  It
reports malformed text exactly when cutting the input stops at a chunk that is not
well-formed.
-/

namespace Qzt

open Foundation QztFileWriter

variable {env : Env} {σ : Type} {live : σ → Prop} {sink : Sink σ} {view : σ → SinkView}
  {options : WriterOptions}

/-- A writer that reaches the tail of `finish` has emitted well-formed text only. -/
theorem finish_stops (hsink : FaithfulWhile live sink view)
    (hoptions : validateWriterOptions options = .ok ⟨⟩) {consumed : List UInt8}
    {parts : List (List UInt8)} {self : QztFileWriter env σ}
    (h : Streamed live view (fun _ => True) options consumed consumed parts self)
    (hcontinues : Continues (fun _ => True) options consumed self) :
    Ensures (finish sink) self (fun _ _ => Utf8.Valid consumed)
      (fun e _ => Utf8.Valid consumed ∨
        StreamFails env live sink view (· = []) options consumed e) := by
  have hinner : Ensures (finishInner sink) self (fun _ _ => Utf8.Valid consumed)
      (fun e _ => Utf8.Valid consumed ∨
        StreamFails env live sink view (· = []) options consumed e) := by
    unfold finishInner
    apply ensures_bind
    apply ensures_get
    apply ensures_bind
    refine (drainPending_ensures hsink hoptions (Nat.le_refl _) (h.restrict fun _ _ => trivial)
      fun more _ => hcontinues more trivial).mono ?_ fun _ _ => Or.inr
    rintro _ self' ⟨⟨parts', hself'⟩, hpending⟩
    have hvalid : Utf8.Valid consumed := by
      rw [← hself'.text, hpending, List.append_nil]
      exact hself'.text_valid
    exact ensures_of_forall (fun _ _ => hvalid) fun _ _ => Or.inl hvalid
  unfold Ensures at hinner ⊢
  rw [run_finish h]
  revert hinner
  rcases (finishInner sink).run.run self with ⟨e | u, self'⟩ <;> exact id

/-- A stream over a reliable empty sink that is fed malformed text fails, with the error at which
cutting the text stops. -/
theorem streamPack_stops (hsink : ReliableSink sink view)
    (hoptions : validateWriterOptions options = .ok ⟨⟩) {fragments : List (List UInt8)}
    (hinvalid : ¬ Utf8.Valid fragments.flatten) {s : σ} (hempty : (view s).contents = []) :
    ∃ e, streamPack env sink s options fragments = .error e ∧
      StopsWith env options 0 fragments.flatten e := by
  have hworks : Works (fun _ => True) sink view := ⟨hsink, fun _ => trivial⟩
  rcases hinner : (newInner sink).run.run s with ⟨e | _, s'⟩
  · exact ((newInner_ensures_of_reliable hsink hempty).of_error hinner).elim
  · have hnew : QztFileWriter.new env sink s options = .ok (fresh env options s') := by
      have hinner' : newInner sink s = (.ok ⟨⟩, s') := hinner
      rw [QztFileWriter.new, hoptions]
      simp only [hinner']
    obtain ⟨hstreamed, hcontinues, hpending⟩ := streamed_new hsink.toFaithfulWhile hnew
    have hrun : Ensures (do pushAll sink fragments; finish sink : WriterM env σ Unit)
        (fresh env options s') (fun _ _ => False)
        (fun e _ => StopsWith env options 0 fragments.flatten e) := by
      have hstops : ∀ {e}, StreamFails env (fun _ => True) sink view (· = []) options
          fragments.flatten e → StopsWith env options 0 fragments.flatten e := by
        intro e h
        have := h hworks [] rfl
        rwa [List.append_nil] at this
      apply ensures_bind
      refine (pushAll_ensures hsink.toFaithfulWhile hoptions hstreamed hcontinues
        (by rw [hpending]; exact Nat.zero_le _)).mono ?_ fun _ _ => hstops
      rintro _ self' ⟨⟨parts', hself'⟩, hcontinues'⟩
      exact (finish_stops hsink.toFaithfulWhile hoptions hself' hcontinues').mono
        (fun _ _ hvalid => hinvalid hvalid)
        fun _ _ hfails => hstops (hfails.resolve_left hinvalid)
    rw [streamPack, hnew]
    rcases hend : (do pushAll sink fragments; finish sink : WriterM env σ Unit).run.run
        (fresh env options s') with ⟨e | _, self'⟩
    · refine ⟨e, ?_, hrun.of_error hend⟩
      simp only [hend]
    · exact (hrun.of_ok hend).elim

/-- Malformed text, on both writers: the batch writer reports it always; over a reliable empty sink
and for every way of cutting the input into fragments, the streaming writer reports it exactly when
cutting the input into chunks stops at a chunk that is not well-formed. -/
theorem streaming_invalidUtf8_iff (env : Env) (sink : Sink σ) (view : σ → SinkView)
    (hsink : ReliableSink sink view) (s : σ) (hempty : (view s).contents = [])
    (options : WriterOptions) (hoptions : validateWriterOptions options = .ok ⟨⟩)
    (input : List UInt8) (hinvalid : ¬ Utf8.Valid input) (fragments : List (List UInt8))
    (hfragments : fragments.flatten = input) :
    (streamPack env sink s options fragments = .error .invalidUtf8 ∧
        packBytes env input options = .error .invalidUtf8) ↔
      StopsWith env options 0 input .invalidUtf8 := by
  subst hfragments
  have hbatch : packBytes env fragments.flatten options = .error .invalidUtf8 := by
    rw [packBytes, packBytesWithContainerId, packBytesInternal, hoptions, ok_bind,
      validateProfile, rejectIf_of_not (by decide), ok_bind, rejectIf_of_not (by simp), ok_bind,
      checkSome, ok_bind, planChunks_invalid (validateWriterOptions_eq_ok hoptions) hinvalid]
    rfl
  obtain ⟨e, hstream, hstops⟩ := @streamPack_stops env σ sink view options hsink hoptions
    fragments hinvalid s hempty
  constructor
  · rintro ⟨herror, -⟩
    rw [hstream, Except.error.injEq] at herror
    rw [← herror]
    exact hstops
  · intro hinvalidStops
    rw [hstream, hstops.unique hinvalidStops]
    exact ⟨rfl, hbatch⟩

/-! ## Continuation bytes only -/

/-- Chunks of at most four bytes. -/
def fourByteOptions : WriterOptions :=
  { WriterOptions.default with chunker := { targetChunkSize := 4, maxChunkSize := 4 } }

set_option maxRecDepth 100000 in
/-- Five continuation bytes have no place for a cut, which the streaming writer reports as an
exceeded limit. -/
theorem streamPack_continuationBytes :
    ¬ Utf8.Valid [0x80, 0x80, 0x80, 0x80, 0x80] ∧
      validateWriterOptions fourByteOptions = .ok ⟨⟩ ∧
      streamPack Reference.env memorySink emptyFile fourByteOptions
        [[0x80, 0x80, 0x80, 0x80, 0x80]] = .error .resourceLimitExceeded ∧
      packBytes Reference.env [0x80, 0x80, 0x80, 0x80, 0x80] fourByteOptions =
        .error .invalidUtf8 := by
  refine ⟨by decide, by decide, ?_, ?_⟩
  · decide +kernel
  · decide +kernel

/-- A byte that begins no scalar, in a chunk with the text behind it. -/
theorem streaming_invalidUtf8_iff_oneChunk :
    streamPack Reference.env memorySink emptyFile .default [[0xff], [0x61]] =
        .error .invalidUtf8 ∧
      packBytes Reference.env [0xff, 0x61] .default = .error .invalidUtf8 := by
  refine (streaming_invalidUtf8_iff Reference.env memorySink id memorySink_reliable emptyFile rfl
    .default (by decide) [0xff, 0x61] (by decide) [[0xff], [0x61]] rfl).mpr ?_
  exact .refused (List.cons_ne_nil _ _) rfl rfl

end Qzt
