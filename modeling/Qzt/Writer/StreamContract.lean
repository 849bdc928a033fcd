import Qzt.Format.Reference
import Qzt.Writer.Finishing

/-!
# The contract of the streaming writer

Over whole runs: what `new`, any sequence of `push` and `finish` and any sink leave
behind.  A stream over a sink that works is the batch writer, whatever the
fragmentation; a stream over a sink that fails somewhere stops at its first error.
-/

namespace Qzt

open Foundation QztFileWriter

variable {env : Env} {σ : Type} {live : σ → Prop} {sink : Sink σ} {view : σ → SinkView}
  {options : WriterOptions}

/-! ## `new` -/

section New

variable {s : σ}

theorem ensures_sinkCall {α : Type} {op : σ → Except IoErrorKind α × σ} {post : α → σ → Prop}
    {fail : QztError → σ → Prop} (hok : ∀ a s', op s = (.ok a, s') → post a s')
    (herror : ∀ kind s', op s = (.error kind, s') → fail (.io kind) s') :
    Ensures (sinkCall op) s post fail := by
  have hrun : (sinkCall op).run.run s = (ioResult (op s).1, (op s).2) := rfl
  rw [Ensures, hrun]
  rcases hop : op s with ⟨kind | a, s'⟩
  · exact herror kind s' hop
  · exact hok a s' hop

/-- A successful `new` leaves the placeholder of the header in an empty sink. -/
theorem newInner_ensures_placeholder (hsink : FaithfulWhile live sink view) :
    Ensures (newInner sink) s
      (fun _ s' => live s' → (view s').contents = List.replicate headerLen 0)
      (fun _ _ => True) := by
  unfold newInner
  apply ensures_bind
  refine ensures_sinkCall (fun _ s₁ h₁ => ?_) fun _ _ _ => trivial
  apply ensures_bind
  refine ensures_sinkCall (fun length s₂ h₂ => ?_) fun _ _ _ => trivial
  apply ensures_ite
  · intro _
    apply ensures_bind
    refine ensures_sinkCall (fun _ _ _ => ?_) fun _ _ _ => trivial
    exact ensures_lift (fun _ h => by cases h) fun _ _ => trivial
  · intro hzero
    apply ensures_bind
    refine ensures_sinkCall (fun _ s₃ h₃ => ?_) fun _ _ _ => trivial
    refine ensures_sinkCall (fun _ s₄ h₄ => ?_) fun _ _ _ => trivial
    intro hlive₄
    have hwritten : live (sink.writeAll (List.replicate headerLen 0) s₃).2 := by
      rw [h₄]
      exact hlive₄
    have hlive₃ : live s₃ := hsink.live_writeAll hwritten
    have hlive₂ : live s₂ := hsink.live_seekStart (n := 0) (by rw [h₃]; exact hlive₃)
    obtain ⟨hlength, hview₂⟩ := hsink.seekEnd_ok hlive₂ h₂
    have hempty : (view s₁).contents = [] := by
      apply List.eq_nil_of_length_eq_zero
      omega
    rw [hsink.writeAll_ok hlive₄ h₄, hsink.seekStart_ok hlive₃ h₃, hview₂, hempty]
    exact writeAt_nil _

/-- On a reliable empty sink the operations of `new` succeed. -/
theorem newInner_ensures_of_reliable (hsink : ReliableSink sink view)
    (hempty : (view s).contents = []) :
    Ensures (newInner sink) s (fun _ _ => True) (fun _ _ => False) := by
  unfold newInner
  apply ensures_bind
  refine ensures_sinkCall (fun _ s₁ h₁ => ?_) fun _ _ h => ?_
  swap
  · obtain ⟨_, _, hok⟩ := hsink.streamPosition_succeeds s
    rw [h] at hok
    cases hok
  obtain ⟨-, hview₁⟩ := hsink.streamPosition_ok trivial h₁
  apply ensures_bind
  refine ensures_sinkCall (fun length s₂ h₂ => ?_) fun _ _ h => ?_
  swap
  · obtain ⟨_, _, hok⟩ := hsink.seekEnd_succeeds s₁
    rw [h] at hok
    cases hok
  obtain ⟨hlength, -⟩ := hsink.seekEnd_ok trivial h₂
  rw [hview₁, hempty] at hlength
  apply ensures_ite
  · intro hne
    exact absurd hlength hne
  · intro _
    apply ensures_bind
    refine ensures_sinkCall (fun _ s₃ _ => ?_) fun _ _ h => ?_
    swap
    · obtain ⟨_, _, hok⟩ := hsink.seekStart_succeeds 0 s₂
      rw [h] at hok
      cases hok
    refine ensures_sinkCall (fun _ _ _ => trivial) fun _ _ h => ?_
    obtain ⟨_, _, hok⟩ := hsink.writeAll_succeeds (List.replicate headerLen 0) s₃
    rw [h] at hok
    cases hok

/-- `new` never writes to a sink whose end is not at zero. -/
theorem newInner_ensures_contents (hseeks : SeeksKeepContents sink view)
    (hend : ∀ s n s', sink.seekEnd s = (.ok n, s') → n = (view s).contents.length)
    (hne : (view s).contents ≠ []) :
    Ensures (newInner sink) s (fun _ _ => False)
      (fun _ s' => (view s').contents = (view s).contents) := by
  have hposition : ∀ {s r s'}, sink.streamPosition s = (r, s') →
      (view s').contents = (view s).contents := fun {s} {_} {_} h => by
    have := hseeks.streamPosition s
    rwa [h] at this
  have hseekEnd : ∀ {s r s'}, sink.seekEnd s = (r, s') →
      (view s').contents = (view s).contents := fun {s} {_} {_} h => by
    have := hseeks.seekEnd s
    rwa [h] at this
  have hseekStart : ∀ {n s r s'}, sink.seekStart n s = (r, s') →
      (view s').contents = (view s).contents := fun {n} {s} {_} {_} h => by
    have := hseeks.seekStart n s
    rwa [h] at this
  unfold newInner
  apply ensures_bind
  refine ensures_sinkCall (fun _ s₁ h₁ => ?_) fun _ _ h => hposition h
  apply ensures_bind
  refine ensures_sinkCall (fun length s₂ h₂ => ?_) fun _ _ h => (hseekEnd h).trans (hposition h₁)
  have hlength := hend _ _ _ h₂
  have hpos := List.length_pos_of_ne_nil hne
  rw [hposition h₁] at hlength
  apply ensures_ite
  · intro _
    apply ensures_bind
    refine ensures_sinkCall (fun _ s₃ h₃ => ?_) fun _ _ h =>
      (hseekStart h).trans ((hseekEnd h₂).trans (hposition h₁))
    refine ensures_lift (fun _ h => by cases h) fun _ _ => ?_
    exact (hseekStart h₃).trans ((hseekEnd h₂).trans (hposition h₁))
  · intro hzero
    omega

theorem new_eq_ok {writer : QztFileWriter env σ}
    (h : QztFileWriter.new env sink s options = .ok writer) :
    validateWriterOptions options = .ok ⟨⟩ ∧ ∃ s', (newInner sink).run.run s = (.ok ⟨⟩, s') ∧
      writer = fresh env options s' := by
  unfold QztFileWriter.new at h
  split at h
  · cases h
  · rename_i hoptions
    split at h
    · rename_i s' hinner
      cases h
      exact ⟨hoptions, s', hinner, rfl⟩
    · cases h

/-- The writer that `new` returns has consumed nothing. -/
theorem streamed_new (hsink : FaithfulWhile live sink view) {writer : QztFileWriter env σ}
    (h : QztFileWriter.new env sink s options = .ok writer) :
    Streamed live view (fun _ => True) options [] [] [] writer ∧
      Continues (fun _ => True) options [] writer ∧ writer.pending = [] := by
  obtain ⟨-, s', hinner, rfl⟩ := new_eq_ok h
  have hcontents := (newInner_ensures_placeholder (s := s) hsink).of_ok hinner
  refine ⟨?_, fun more _ e => Iff.rfl, rfl⟩
  exact
     { options_eq := rfl
       unfinished := ⟨rfl, rfl⟩
       text := rfl
       splits_iff := fun more _ all => by simp [fresh]
       hasher := env.blake3.absorbed_new
       entries := rfl
       physicalOffset := rfl
       logicalOffset := rfl
       lineStartsSeen := rfl
       newlines := rfl
       count := Nat.zero_le _
       compress := by simp
       sizes := by simp
       valid := by simp
       contents := fun hlive => by
         rw [chunkFrames, List.map_nil, List.flatten_nil, List.append_nil]
         exact hcontents hlive }

end New

/-! ## A whole stream -/

/-- Push the fragments in order. -/
def pushAll (sink : Sink σ) : List (List UInt8) → WriterM env σ Unit
  | [] => pure ⟨⟩
  | fragment :: fragments => do
    push sink fragment
    pushAll sink fragments

/-- `new`, `push` of every fragment and `finish`, stopping at the first error; the sink at the
end. -/
def streamPack (env : Env) (sink : Sink σ) (s : σ) (options : WriterOptions)
    (fragments : List (List UInt8)) : Result σ :=
  match QztFileWriter.new env sink s options with
  | .error (e, _) => .error e
  | .ok writer =>
    match (do pushAll sink fragments; finish sink : WriterM env σ Unit).run.run writer with
    | (.ok _, writer) => .ok writer.writer
    | (.error e, _) => .error e

theorem pushAll_ensures (hsink : FaithfulWhile live sink view)
    (hoptions : validateWriterOptions options = .ok ⟨⟩) {fragments : List (List UInt8)}
    {consumed : List UInt8} {parts : List (List UInt8)} {self : QztFileWriter env σ}
    (h : Streamed live view (fun _ => True) options consumed consumed parts self)
    (hcontinues : Continues (fun _ => True) options consumed self)
    (hpending : self.pending.length ≤ options.chunker.maxChunkSize) :
    Ensures (pushAll sink fragments) self
      (fun _ self' => (∃ parts', Streamed live view (fun _ => True) options
        (consumed ++ fragments.flatten) (consumed ++ fragments.flatten) parts' self') ∧
        Continues (fun _ => True) options (consumed ++ fragments.flatten) self')
      (fun e _ => StreamFails env live sink view (· = []) options
        (consumed ++ fragments.flatten) e) := by
  induction fragments generalizing consumed parts self with
  | nil =>
    apply ensures_pure
    rw [List.flatten_nil, List.append_nil]
    exact ⟨⟨parts, h⟩, hcontinues⟩
  | cons fragment fragments ih =>
    rw [List.flatten_cons, ← List.append_assoc]
    apply ensures_bind
    refine (push_ensures hsink hoptions fragment h hcontinues hpending).mono ?_ ?_
    · rintro _ self' ⟨⟨parts', hself'⟩, hcontinues', hpending'⟩
      exact ih hself' hcontinues' hpending'
    · rintro e _ hfails hworks more rfl
      rw [List.append_nil]
      exact hfails hworks _ trivial

/-- Over a reliable empty sink the stream leaves the bytes of the batch writer, or fails with its
error. -/
theorem contents_streamPack (hsink : ReliableSink sink view) (htotal : env.zstd.Total)
    (options : WriterOptions) {fragments : List (List UInt8)}
    (hvalid : Utf8.Valid fragments.flatten) {s : σ} (hempty : (view s).contents = []) :
    (fun s' => (view s').contents) <$> streamPack env sink s options fragments =
      packBytes env fragments.flatten options := by
  have hworks : Works (fun _ => True) sink view := ⟨hsink, fun _ => trivial⟩
  cases hoptions : validateWriterOptions options with
  | error e =>
    have hnew : QztFileWriter.new env sink s options = .error (e, s) := by
      rw [QztFileWriter.new, hoptions]
    rw [streamPack, hnew, packBytes, packBytesWithContainerId, packBytesInternal, hoptions]
    rfl
  | ok u =>
    rcases hinner : (newInner sink).run.run s with ⟨e | _, s'⟩
    · exact ((newInner_ensures_of_reliable hsink hempty).of_error hinner).elim
    · have hnew : QztFileWriter.new env sink s options = .ok (fresh env options s') := by
        have hinner' : newInner sink s = (.ok ⟨⟩, s') := hinner
        rw [QztFileWriter.new, hoptions]
        simp only [hinner']
      obtain ⟨hstreamed, hcontinues, hpending⟩ := streamed_new hsink.toFaithfulWhile hnew
      have hrun : Ensures (do pushAll sink fragments; finish sink : WriterM env σ Unit)
          (fresh env options s')
          (fun _ self' => packBytes env fragments.flatten options =
            .ok (view self'.writer).contents)
          (fun e _ => packBytes env fragments.flatten options = .error e) := by
        have hfails : ∀ {e}, BatchFails env (fun _ => True) sink view (· = []) options
            fragments.flatten e → packBytes env fragments.flatten options = .error e := by
          intro e h
          have := h hworks htotal [] rfl (by rwa [List.append_nil])
          rwa [List.append_nil] at this
        apply ensures_bind
        refine (pushAll_ensures hsink.toFaithfulWhile hoptions hstreamed hcontinues
          (by rw [hpending]; exact Nat.zero_le _)).mono ?_ fun _ _ h => hfails (h.batchFails hoptions)
        rintro _ self' ⟨⟨parts', hself'⟩, hcontinues'⟩
        exact (finish_ensures hsink.toFaithfulWhile hoptions hself' hcontinues').mono
          (fun _ _ h => h trivial) fun _ _ => hfails
      rw [streamPack, hnew]
      rcases hend : (do pushAll sink fragments; finish sink : WriterM env σ Unit).run.run
          (fresh env options s') with ⟨e | _, self'⟩
      · rw [hrun.of_error hend]
        simp only [hend]
        rfl
      · rw [hrun.of_ok hend]
        simp only [hend]
        rfl

/-- The streaming writer is the batch writer: over any reliable empty sink and for every way of
cutting a well-formed input into fragments, the sink ends with the bytes that `pack_bytes`
returns, or both fail with the same error. -/
theorem streaming_matches_batch (env : Env) (htotal : env.zstd.Total) (sink : Sink σ)
    (view : σ → SinkView) (hsink : ReliableSink sink view) (s : σ)
    (hempty : (view s).contents = []) (options : WriterOptions) (input : List UInt8)
    (hvalid : Utf8.Valid input) (fragments : List (List UInt8))
    (hfragments : fragments.flatten = input) :
    (fun s' => (view s').contents) <$> streamPack env sink s options fragments =
      packBytes env input options := by
  subst hfragments
  exact contents_streamPack hsink htotal options hvalid hempty

/-! ## Sequences of calls -/

/-- A call on a writer. -/
inductive WriterCall where
  | push (bytes : List UInt8)
  | finish
  deriving DecidableEq, Repr

namespace WriterCall

/-- The method a call runs. -/
def run (sink : Sink σ) : WriterCall → WriterM env σ Unit
  | push bytes => QztFileWriter.push sink bytes
  | finish => QztFileWriter.finish sink

/-- The bytes a call pushes. -/
def bytes : WriterCall → List UInt8
  | push bytes => bytes
  | finish => []

end WriterCall

/-- The writer after a sequence of calls. -/
def afterCalls (sink : Sink σ) (writer : QztFileWriter env σ) (calls : List WriterCall) :
    QztFileWriter env σ :=
  calls.foldl (fun writer call => ((call.run sink).run.run writer).2) writer

/-- The result of a call made after a sequence of calls. -/
def callResult (sink : Sink σ) (writer : QztFileWriter env σ) (before : List WriterCall)
    (call : WriterCall) : Result Unit :=
  ((call.run sink).run.run (afterCalls sink writer before)).1

/-- A finished or poisoned writer. -/
def Closed (writer : QztFileWriter env σ) : Prop :=
  (writer.finished || writer.poisoned) = true

section Calls

variable {writer : QztFileWriter env σ}

theorem afterCalls_append (before after : List WriterCall) :
    afterCalls sink writer (before ++ after) =
      afterCalls sink (afterCalls sink writer before) after :=
  List.foldl_append

theorem afterCalls_concat (before : List WriterCall) (call : WriterCall) :
    afterCalls sink writer (before ++ [call]) =
      ((call.run sink).run.run (afterCalls sink writer before)).2 := by
  rw [afterCalls_append]
  rfl

/-- A call on a closed writer does nothing. -/
theorem run_closed (h : Closed writer) (call : WriterCall) :
    (call.run sink).run.run writer = (.error .writerAlreadyFinished, writer) := by
  cases call with
  | push bytes => exact if_pos h
  | finish => exact if_pos h

theorem afterCalls_closed (h : Closed writer) (calls : List WriterCall) :
    afterCalls sink writer calls = writer := by
  induction calls with
  | nil => rfl
  | cons call calls ih =>
    change afterCalls sink ((call.run sink).run.run writer).2 calls = writer
    rw [run_closed h]
    exact ih

/-- `push` closes the writer exactly by failing. -/
theorem push_closes (h : ¬ Closed writer) (bytes : List UInt8) {e : QztError}
    {writer' : QztFileWriter env σ}
    (hrun : (QztFileWriter.push sink bytes).run.run writer = (.error e, writer')) :
    Closed writer' := by
  change (if (writer.finished || writer.poisoned) = true then _ else _) = _ at hrun
  rw [if_neg (show ¬ (writer.finished || writer.poisoned) = true from h)] at hrun
  split at hrun
  · cases hrun
  · cases hrun
    simp [Closed]

/-- `finish` closes the writer. -/
theorem finish_closes (writer : QztFileWriter env σ) :
    Closed ((QztFileWriter.finish sink).run.run writer).2 := by
  by_cases h : Closed writer
  · have hrun : (QztFileWriter.finish sink).run.run writer =
        (.error .writerAlreadyFinished, writer) := run_closed h .finish
    rw [hrun]
    exact h
  · change Closed (if (writer.finished || writer.poisoned) = true then _ else _ : _ × _).2
    rw [if_neg (show ¬ (writer.finished || writer.poisoned) = true from h)]
    split
    · simp [Closed]
    · simp [Closed]

/-- A call that fails, or a `finish`, leaves a closed writer. -/
theorem closed_of_result (before : List WriterCall) (call : WriterCall)
    (h : call = .finish ∨ ∃ e, callResult sink writer before call = .error e) :
    Closed (afterCalls sink writer (before ++ [call])) := by
  rw [afterCalls_concat]
  by_cases hclosed : Closed (afterCalls sink writer before)
  · rw [run_closed hclosed]
    exact hclosed
  · cases call with
    | finish => exact finish_closes _
    | push bytes =>
      obtain ⟨e, he⟩ := h.resolve_left (by simp)
      exact push_closes hclosed bytes (Prod.ext he rfl)

/-- A writer that is still open has seen pushes only, and is related to what they pushed. -/
theorem streamed_of_open (hsink : FaithfulWhile live sink view) {s : σ}
    (hnew : QztFileWriter.new env sink s options = .ok writer) {calls : List WriterCall}
    (hopen : ¬ Closed (afterCalls sink writer calls)) :
    (∃ parts, Streamed live view (fun _ => True) options (calls.flatMap WriterCall.bytes)
      (calls.flatMap WriterCall.bytes) parts (afterCalls sink writer calls)) ∧
      Continues (fun _ => True) options (calls.flatMap WriterCall.bytes)
        (afterCalls sink writer calls) ∧
      (afterCalls sink writer calls).pending.length ≤ options.chunker.maxChunkSize := by
  obtain ⟨hoptions, -⟩ := new_eq_ok hnew
  induction calls using List.reverseRecOn with
  | nil =>
    obtain ⟨hstreamed, hcontinues, hpending⟩ := streamed_new hsink hnew
    refine ⟨⟨[], hstreamed⟩, hcontinues, ?_⟩
    change writer.pending.length ≤ _
    rw [hpending]
    exact Nat.zero_le _
  | append_singleton calls call ih =>
    have hbefore : ¬ Closed (afterCalls sink writer calls) := by
      intro hclosed
      rw [afterCalls_append, afterCalls_closed hclosed] at hopen
      exact hopen hclosed
    obtain ⟨⟨parts, hstreamed⟩, hcontinues, hpending⟩ := ih hbefore
    cases call with
    | finish => exact absurd (closed_of_result calls .finish (.inl rfl)) hopen
    | push bytes =>
      rw [afterCalls_concat]
      rcases hrun : ((WriterCall.push bytes).run sink).run.run
          (afterCalls sink writer calls) with ⟨e | _, writer'⟩
      · refine absurd (closed_of_result calls (.push bytes) (.inr ⟨e, ?_⟩)) hopen
        rw [callResult, hrun]
      · have hpush := (push_ensures hsink hoptions bytes hstreamed hcontinues hpending).of_ok hrun
        rw [List.flatMap_append, List.flatMap_singleton]
        exact hpush

/-- A successful `finish` leaves the batch container of everything pushed before it. -/
theorem packBytes_of_finish (hsink : FaithfulWhile live sink view) {s : σ}
    (hnew : QztFileWriter.new env sink s options = .ok writer) {before : List WriterCall}
    (hfinish : callResult sink writer before .finish = .ok ⟨⟩)
    (hlive : live (afterCalls sink writer (before ++ [.finish])).writer) :
    packBytes env (before.flatMap WriterCall.bytes) options =
      .ok (view (afterCalls sink writer (before ++ [.finish])).writer).contents := by
  have hopen : ¬ Closed (afterCalls sink writer before) := by
    intro hclosed
    rw [callResult, run_closed hclosed] at hfinish
    cases hfinish
  obtain ⟨⟨parts, hstreamed⟩, hcontinues, -⟩ := streamed_of_open hsink hnew hopen
  rw [afterCalls_concat] at hlive ⊢
  exact (finish_ensures hsink (new_eq_ok hnew).1 hstreamed hcontinues).of_ok (Prod.ext hfinish rfl) hlive

end Calls

/-- What holds over every sequence of calls on a writer. -/
structure RunContract (sink : Sink σ) (options : WriterOptions) (writer : QztFileWriter env σ) :
    Prop where
  /-- At most one `finish` succeeds. -/
  one_finish : ∀ before between, callResult sink writer before .finish = .ok ⟨⟩ →
    callResult sink writer (before ++ .finish :: between) .finish ≠ .ok ⟨⟩
  /-- A `finish` succeeds only if every earlier `push` did. -/
  finish_after_ok : ∀ before bytes between,
    callResult sink writer (before ++ .push bytes :: between) .finish = .ok ⟨⟩ →
      callResult sink writer before (.push bytes) = .ok ⟨⟩
  /-- After the first error or the first successful `finish`, every call returns
  `WriterAlreadyFinished` and leaves the whole state as it was, the sink included. -/
  stops : ∀ before call between next,
    (∃ e, callResult sink writer before call = .error e) ∨
        call = .finish ∧ callResult sink writer before call = .ok ⟨⟩ →
      callResult sink writer (before ++ call :: between) next = .error .writerAlreadyFinished ∧
        afterCalls sink writer (before ++ call :: between ++ [next]) =
          afterCalls sink writer (before ++ [call])
  /-- A sink that is faithful up to the successful `finish` then holds the batch container. -/
  holds_container : ∀ (live : σ → Prop) (view : σ → SinkView), FaithfulWhile live sink view →
    ∀ before, callResult sink writer before .finish = .ok ⟨⟩ →
      live (afterCalls sink writer (before ++ [.finish])).writer →
        packBytes env (before.flatMap WriterCall.bytes) options =
          .ok (view (afterCalls sink writer (before ++ [.finish])).writer).contents

/-- Every writer that `new` returns keeps the run contract, and `new` never changes the bytes of a
sink that is not empty. -/
theorem streamWriter_contract (env : Env) (sink : Sink σ) (s : σ) (options : WriterOptions) :
    (∀ writer : QztFileWriter env σ, QztFileWriter.new env sink s options = .ok writer →
      RunContract sink options writer) ∧
    (∀ view : σ → SinkView, SeeksKeepContents sink view →
      (∀ s n s', sink.seekEnd s = (.ok n, s') → n = (view s).contents.length) →
        (view s).contents ≠ [] → ∃ e s', QztFileWriter.new env sink s options = .error (e, s') ∧
          (view s').contents = (view s).contents) := by
  constructor
  · intro writer hnew
    have hstops : ∀ (before : List WriterCall) (call : WriterCall) (between : List WriterCall)
        (next : WriterCall), Closed (afterCalls sink writer (before ++ [call])) →
        callResult sink writer (before ++ call :: between) next = .error .writerAlreadyFinished ∧
          afterCalls sink writer (before ++ call :: between ++ [next]) =
            afterCalls sink writer (before ++ [call]) := by
      intro before call between next hclosed
      have hstate : afterCalls sink writer (before ++ call :: between) =
          afterCalls sink writer (before ++ [call]) := by
        rw [show before ++ call :: between = (before ++ [call]) ++ between by simp,
          afterCalls_append, afterCalls_closed hclosed]
      rw [callResult, afterCalls_concat, hstate, run_closed hclosed]
      exact ⟨rfl, rfl⟩
    refine ⟨?_, ?_, ?_, ?_⟩
    · intro before between _ hsecond
      rw [(hstops before .finish between .finish
        (closed_of_result before .finish (.inl rfl))).1] at hsecond
      cases hsecond
    · intro before bytes between hfinish
      cases hpush : callResult sink writer before (.push bytes) with
      | ok u => rfl
      | error e =>
        rw [(hstops before (.push bytes) between .finish
          (closed_of_result before (.push bytes) (.inr ⟨e, hpush⟩))).1] at hfinish
        cases hfinish
    · intro before call between next hresult
      exact hstops before call between next (closed_of_result before call
        (hresult.elim .inr fun h => .inl h.1))
    · intro live view hsink before hfinish hlive
      exact packBytes_of_finish hsink hnew hfinish hlive
  · intro view hseeks hend hne
    unfold QztFileWriter.new
    split
    · exact ⟨_, s, rfl, rfl⟩
    · rcases hinner : (newInner sink).run.run s with ⟨e | _, s'⟩
      · have hinner' : newInner sink s = (.error e, s') := hinner
        simp only [hinner']
        exact ⟨e, s', rfl, (newInner_ensures_contents hseeks hend hne).of_error hinner⟩
      · exact ((newInner_ensures_contents hseeks hend hne).of_ok hinner).elim

/-! ## A run over the memory file -/

/-- The empty memory file. -/
def emptyFile : SinkView where
  contents := []
  position := 0
  synced := true

/-- The memory file after `new`. -/
def headerFile : SinkView where
  contents := List.replicate headerLen 0
  position := headerLen
  synced := false

theorem new_emptyFile :
    QztFileWriter.new Reference.env memorySink emptyFile .default =
      .ok (fresh Reference.env .default headerFile) := by
  have hoptions : validateWriterOptions .default = .ok ⟨⟩ := by decide
  have hresult : ((newInner memorySink).run.run emptyFile).1 = .ok ⟨⟩ := by decide +kernel
  have hfile : ((newInner memorySink).run.run emptyFile).2 = headerFile := by decide +kernel
  have hinner : newInner memorySink emptyFile = (.ok ⟨⟩, headerFile) := Prod.ext hresult hfile
  rw [QztFileWriter.new, hoptions]
  simp only [hinner]

/-- Two pushes that cut a scalar. -/
def sampleCalls : List WriterCall :=
  [.push [0xc3], .push [0xa9, 0x0a]]

set_option maxRecDepth 100000 in
theorem finish_sampleCalls :
    callResult memorySink (fresh Reference.env .default headerFile) sampleCalls .finish =
      .ok ⟨⟩ := by
  decide +kernel

theorem reference_total : Reference.env.zstd.Total :=
  fun _ _ => ⟨_, rfl, List.cons_ne_nil _ _⟩

/-- The batch writer packs a line with a two-byte scalar. -/
theorem packBytes_sample :
    ∃ container, packBytes Reference.env [0xc3, 0xa9, 0x0a] .default = .ok container := by
  have hbytes : sampleCalls.flatMap WriterCall.bytes = [0xc3, 0xa9, 0x0a] := by decide
  have hpack := packBytes_of_finish memorySink_reliable.toFaithfulWhile new_emptyFile
    finish_sampleCalls trivial
  rw [hbytes] at hpack
  exact ⟨_, hpack⟩

/-- Fragments that cut the scalar, and an empty fragment. -/
theorem streaming_matches_batch_sample :
    (fun s' => s'.contents) <$> streamPack Reference.env memorySink emptyFile .default
        [[0xc3], [], [0xa9, 0x0a]] = packBytes Reference.env [0xc3, 0xa9, 0x0a] .default ∧
      ∃ container, packBytes Reference.env [0xc3, 0xa9, 0x0a] .default = .ok container :=
  ⟨streaming_matches_batch Reference.env reference_total memorySink id memorySink_reliable emptyFile
    rfl .default [0xc3, 0xa9, 0x0a] (by decide) [[0xc3], [], [0xa9, 0x0a]] rfl, packBytes_sample⟩

/-- A run over the memory file whose `finish` succeeds: the file then holds the batch container, a
second `finish` fails, and a file that is not empty is left alone. -/
theorem streamWriter_contract_sample :
    QztFileWriter.new Reference.env memorySink emptyFile .default =
        .ok (fresh Reference.env .default headerFile) ∧
      packBytes Reference.env (sampleCalls.flatMap WriterCall.bytes) .default =
        .ok (afterCalls memorySink (fresh Reference.env .default headerFile)
          (sampleCalls ++ [.finish])).writer.contents ∧
      callResult memorySink (fresh Reference.env .default headerFile)
        (sampleCalls ++ [.finish]) .finish ≠ .ok ⟨⟩ ∧
      ∃ e s', QztFileWriter.new Reference.env memorySink { emptyFile with contents := [0x61] }
        .default = .error (e, s') ∧ s'.contents = [0x61] := by
  have hcontract := (streamWriter_contract Reference.env memorySink emptyFile .default).1
    (fresh Reference.env .default headerFile) new_emptyFile
  have hcontainer := hcontract.holds_container (fun _ => True) id
    memorySink_reliable.toFaithfulWhile sampleCalls finish_sampleCalls trivial
  exact ⟨new_emptyFile, by simpa only [id_eq] using hcontainer,
    hcontract.one_finish sampleCalls [] finish_sampleCalls,
    (streamWriter_contract Reference.env memorySink { emptyFile with contents := [0x61] }
      .default).2 id memorySink_seeksKeepContents (by rintro s n s' ⟨⟩; rfl) (by decide)⟩

end Qzt
