import Qzt.Writer.PlanContract
import Qzt.Writer.StreamContract

/-!
# Chunking makes progress

A window of four bytes or more over well-formed text has a place to cut, so the planner
stops at the limit of the chunk table and nowhere else.  The streaming writer keeps its
buffer within one byte of the largest chunk: a monitor that repeats its loops and watches
the buffer, the room left in it and every emission has nothing to report.

## The monitor

`monitorPush` and `monitorDrain` are the loops of `push` and `finish` with a `Fault` for each
thing that must not happen.  A loop that ran out of steps before it was done is a fault
too, so that a run of the monitor without a fault is a run that ended.
-/

namespace Qzt

open Foundation

open QztFileWriter

/-! ## A window has a place to cut -/

section Choice

variable {options : ChunkerOptions} {input : List UInt8}

/-- The first scalar of a text is at most four bytes long. -/
theorem exists_isUtf8Boundary (hvalid : Utf8.Valid input) (hinput : input ≠ []) :
    ∃ n, 0 < n ∧ n ≤ 4 ∧ n ≤ input.length ∧ isUtf8Boundary input n = true := by
  obtain ⟨cs, rfl⟩ := hvalid
  cases cs with
  | nil => exact absurd rfl hinput
  | cons c cs =>
    have hsize : (String.utf8EncodeChar c).length ≤ 4 := by
      rw [String.length_utf8EncodeChar]
      exact c.utf8Size_le_four
    refine ⟨(String.utf8EncodeChar c).length,
      List.length_pos_of_ne_nil (Utf8.encodeChar_ne_nil c), hsize, ?_, ?_⟩
    · rw [Utf8.encode_cons, List.length_append]
      omega
    · -- The next scalar starts there, or the text ends there.
      have hnext : (Utf8.encode (c :: cs))[(String.utf8EncodeChar c).length]? =
          (Utf8.encode cs).head? := by
        rw [Utf8.encode_cons, List.getElem?_append_right (Nat.le_refl _), Nat.sub_self,
          List.head?_eq_getElem?]
      cases hhead : (Utf8.encode cs).head? with
      | none =>
        have hnil := List.head?_eq_none_iff.mp hhead
        have hend : (String.utf8EncodeChar c).length = (Utf8.encode (c :: cs)).length := by
          rw [Utf8.encode_cons, hnil, List.append_nil]
        rw [isUtf8Boundary, beq_iff_eq.mpr hend, Bool.or_true, Bool.true_or]
      | some byte =>
        have hstarts := Utf8.startsScalar_encode cs byte hhead
        rw [isUtf8Boundary, hnext, hhead, Option.any_some, hstarts, Bool.not_false, Bool.or_true]

/-- Without an LF before `maxEnd`, a place to cut is found inside the window. -/
theorem previousValidSplit_isSome (hvalid : Utf8.Valid input) (hinput : input ≠ []) {maxEnd : Nat}
    (hlong : maxEnd = input.length ∨ 4 ≤ maxEnd)
    (hnoLf : ∀ k < maxEnd, input[k]? ≠ some lf) :
    ∃ stop, previousValidSplit input 0 maxEnd = some stop := by
  have hfound : ∀ n, 0 < n → n ≤ maxEnd → isUtf8Boundary input n = true →
      splitsCrlf input n = false → ∃ stop, previousValidSplit input 0 maxEnd = some stop := by
    intro n hpos hn hboundary hkeeps
    rw [← Option.isSome_iff_exists, previousValidSplit, List.find?_isSome]
    refine ⟨n, ?_, ?_⟩
    · rw [List.mem_reverse, List.mem_range'_1]
      omega
    · rw [hboundary, hkeeps]
      rfl
  obtain ⟨n, hpos, hfour, hn, hboundary⟩ := exists_isUtf8Boundary hvalid hinput
  cases hkeeps : splitsCrlf input n with
  | false => exact hfound n hpos (by omega) hboundary hkeeps
  | true =>
    -- A pair across the end of the window: its CR is a boundary of its own.
    simp only [splitsCrlf, Bool.and_eq_true, decide_eq_true_eq, beq_iff_eq] at hkeeps
    obtain ⟨⟨⟨-, hlt⟩, hcr⟩, hlf⟩ := hkeeps
    have hend : maxEnd ≤ n := by
      by_contra hnot
      exact hnoLf n (Nat.lt_of_not_le hnot) hlf
    refine hfound (n - 1) (by omega) (by omega) ?_ ?_
    · rw [isUtf8Boundary, hcr, Option.any_some]
      exact Bool.or_true _
    · rw [splitsCrlf, hcr]
      simp [cr, lf]

theorem chooseKnownChunkEnd_total (hmax : 4 ≤ options.maxChunkSize) (hvalid : Utf8.Valid input)
    (hinput : input ≠ []) : ∃ stop, chooseKnownChunkEnd input options = .ok stop := by
  unfold chooseKnownChunkEnd chooseNonFinalChunkEnd
  split
  · exact ⟨_, rfl⟩
  split
  · exact ⟨_, rfl⟩
  split
  · exact ⟨_, rfl⟩
  rename_i hnoLine
  obtain ⟨stop, hstop⟩ := previousValidSplit_isSome hvalid hinput (by omega)
    (fun k hk => lastLineBoundary_eq_none hnoLine (Nat.zero_le k) hk)
  exact ⟨stop, by rw [hstop, okOr_some]⟩

/-- Well-formed text splits, into as many chunks as it takes. -/
theorem exists_splits (horder : options.targetChunkSize ≤ options.maxChunkSize)
    (hmax : 4 ≤ options.maxChunkSize) (hvalid : Utf8.Valid input) :
    ∃ parts, Splits options input parts := by
  induction hn : input.length using Nat.strong_induction_on generalizing input with
  | _ n ih =>
    by_cases hinput : input = []
    · subst hinput
      exact ⟨[], .nil⟩
    obtain ⟨stop, hstop⟩ := chooseKnownChunkEnd_total hmax hvalid hinput
    obtain ⟨hpos, hle, -, hcuts⟩ := chooseKnownChunkEnd_eq_ok horder hinput hstop
    have hshorter : (input.drop stop).length < n := by
      rw [List.length_drop]
      omega
    obtain ⟨parts, hparts⟩ := ih _ hshorter (hcuts hvalid).2 rfl
    exact ⟨_, .cons hinput hstop hparts⟩

/-- The planner on a split: the plan of its parts, unless the table has no room for them. -/
theorem planLoop_eq_of_splits (horder : options.targetChunkSize ≤ options.maxChunkSize)
    {parts : List (List UInt8)} {rest : List UInt8} (h : Splits options rest parts)
    {done : List (List UInt8)} {fuel : Nat} (hfuel : rest.length ≤ fuel)
    (hcount : done.length ≤ maxChunkCount)
    (hword : done.flatten.length + rest.length + options.maxChunkSize < 2 ^ 64) :
    planLoop (done.flatten ++ rest) options (LineInfo.fromBytes (done.flatten ++ rest)).lineStarts
        fuel done.length done.flatten.length =
      if done.length + parts.length ≤ maxChunkCount
        then .ok (mapWithHistory plannedChunk done parts) else .error .resourceLimitExceeded := by
  induction h generalizing done fuel with
  | nil =>
    rw [if_pos (show done.length + [].length ≤ maxChunkCount from hcount)]
    cases fuel with
    | zero => rfl
    | succ fuel =>
      rw [planLoop, if_neg (by simp)]
      rfl
  | @cons rest stop parts hrest hstop hparts ih =>
    obtain ⟨hpos, hle, -, -⟩ := chooseKnownChunkEnd_eq_ok horder hrest hstop
    obtain ⟨fuel, rfl⟩ : ∃ n, fuel = n + 1 := ⟨fuel - 1, by omega⟩
    rw [List.length_cons]
    rcases Nat.lt_or_ge done.length maxChunkCount with hlt | hge
    · have hchoose := @chooseChunkEnd_append options done rest (by omega)
      rw [hstop, map_ok] at hchoose
      have hdone : (done ++ [rest.take stop]).length = done.length + 1 := by
        rw [List.length_append, List.length_singleton]
      have htake : (rest.take stop).length = stop := List.length_take_of_le hle
      rw [planLoop_step hchoose hpos hle hlt (by omega) (by omega), ih, hdone]
      · by_cases hroom : done.length + (parts.length + 1) ≤ maxChunkCount
        · rw [if_pos hroom, if_pos (by omega)]
          rfl
        · rw [if_neg hroom, if_neg (by omega)]
          rfl
      · rw [List.length_drop]
        omega
      · omega
      · rw [List.flatten_append, List.flatten_singleton, List.length_append, htake,
          List.length_drop]
        omega
    · have hstart : done.flatten.length < (done.flatten ++ rest).length := by
        rw [List.length_append]
        omega
      have hnext : done.length + 1 < 2 ^ 64 := by
        simp only [maxChunkCount] at hcount
        omega
      rw [if_neg (by omega), planLoop, if_pos hstart, checkedAdd_of_lt hnext, okOr_some, ok_bind,
        enforceChunkTableEntries_default_of_lt (by omega)]
      rfl

theorem targetChunkSize_le_of_validate (h : options.validate = .ok ⟨⟩) :
    options.targetChunkSize ≤ options.maxChunkSize := by
  simp only [ChunkerOptions.validate, bind_eq_ok_iff, rejectIf_eq_ok_iff] at h
  obtain ⟨_, -, horder⟩ := h
  exact Nat.le_of_not_lt horder

/-- The verdict of `plan_chunks`. -/
theorem planChunks_eq (hoptions : options.validate = .ok ⟨⟩)
    (hword : input.length + options.maxChunkSize < 2 ^ 64) (hvalid : Utf8.Valid input)
    {parts : List (List UInt8)} (h : Splits options input parts) :
    planChunks input options = if parts.length ≤ maxChunkCount then .ok (planOf parts)
      else .error .resourceLimitExceeded := by
  have hdecode : ¬ (fromUtf8 input).isNone = true := by
    rw [Bool.not_eq_true, Option.isNone_eq_false_iff, isSome_fromUtf8_iff]
    exact hvalid
  have horder := targetChunkSize_le_of_validate hoptions
  rw [planChunks, hoptions, ok_bind, rejectIf_of_not hdecode, ok_bind]
  by_cases hnil : input = []
  · subst hnil
    obtain rfl := Splits.nil_iff.mp h
    rfl
  have hloop := @planLoop_eq_of_splits options horder parts input h [] input.length (Nat.le_refl _)
    (Nat.zero_le _) (by simpa using hword)
  simp only [List.flatten_nil, List.nil_append, List.length_nil, Nat.zero_add] at hloop
  have hcount : countLines input < 2 ^ 64 := by
    have := countLines_le input
    omega
  simp only [hnil, if_false, hloop]
  by_cases hroom : parts.length ≤ maxChunkCount
  · rw [if_pos hroom, if_pos hroom, ok_bind, lineInfo_lineStarts, ← countLines,
      usizeToU64_of_lt hcount, ok_bind, pure_eq_ok, lineInfo_newlineMode, planOf, h.flatten]
  · rw [if_neg hroom, if_neg hroom, error_bind]

end Choice

/-! ## The buffer of the streaming writer -/

section Buffer

variable {env : Env} {σ : Type} {sink : Sink σ} {self : QztFileWriter env σ}

/-- The part of a writer that the sink operations leave alone. -/
def buffered (self : QztFileWriter env σ) : List UInt8 × WriterOptions :=
  (self.pending, self.options)

theorem keeps_sinkOp {α : Type} (op : σ → Except IoErrorKind α × σ) :
    Keeps buffered (sinkOp op : WriterM env σ α) := fun _ => rfl

theorem recordEntry_buffered {chunk : List UInt8} {entry : ChunkEntry}
    {self' : QztFileWriter env σ} (h : recordEntry self chunk entry = .ok self') :
    buffered self' = buffered self := by
  simp only [recordEntry, bind_eq_ok_iff, pure_eq_ok] at h
  obtain ⟨_, -, _, -, _, -, _, -, h⟩ := h
  cases h
  rfl

theorem keeps_emitChunk (chunk : List UInt8) :
    Keeps buffered (emitChunk sink chunk : WriterM env σ Unit) := by
  unfold emitChunk
  refine keeps_bind keeps_get fun self => keeps_bind (keeps_lift _) ?_
  rintro ⟨entry, compressed⟩
  refine keeps_bind keeps_get fun self => keeps_bind (keeps_sinkOp _) fun _ => ?_
  refine keeps_bind (keeps_sinkOp _) fun _ => ?_
  -- The bookkeeping reads the state it replaces.
  intro self
  change buffered ((liftM (recordEntry self chunk entry) >>= set :
    WriterM env σ Unit).run.run self).2 = _
  cases h : recordEntry self chunk entry with
  | error e => rfl
  | ok self' => exact recordEntry_buffered h

/-- An emission takes its chunk off `pending`; one that fails takes nothing. -/
theorem emitPendingChunk_buffer (stop : Nat) :
    Ensures (emitPendingChunk sink stop) self
      (fun _ self' => buffered self' = (self.pending.drop stop, self.options))
      (fun _ self' => buffered self' = buffered self) := by
  unfold emitPendingChunk
  apply ensures_bind
  apply ensures_get
  apply ensures_bind
  refine ensures_lift (fun chunk _ => ?_) fun _ _ => rfl
  apply ensures_bind
  refine (keeps_emitChunk chunk).ensures.mono (fun _ self' h => ?_) fun _ _ h => h
  apply ensures_modify
  obtain ⟨hpending, hoptions⟩ := Prod.mk.inj h
  exact Prod.ext (congrArg (List.drop stop) hpending) hoptions

/-- An emission takes a byte or more, and no more than the largest chunk. -/
def Emits (chunker : ChunkerOptions) (before after : List UInt8) : Prop :=
  after.length < before.length ∧ before.length ≤ after.length + chunker.maxChunkSize

instance (chunker : ChunkerOptions) (before after : List UInt8) :
    Decidable (Emits chunker before after) := inferInstanceAs (Decidable (_ ∧ _))

theorem emits_drop {chunker : ChunkerOptions} {pending : List UInt8} {stop : Nat}
    (hpos : 0 < stop) (hle : stop ≤ pending.length) (hmax : stop ≤ chunker.maxChunkSize) :
    Emits chunker pending (pending.drop stop) := by
  rw [Emits, List.length_drop]
  omega

/-- One emission, at the end that a choice finds. -/
def emitAt (sink : Sink σ) (choice : Result Nat) : WriterM env σ Unit := do
  let stop ← (choice : Result _)
  emitPendingChunk sink stop

theorem emitAt_buffer {choice : Result Nat}
    (hchoice : ∀ stop, choice = .ok stop → Emits self.options.chunker self.pending
      (self.pending.drop stop)) :
    Ensures (emitAt sink choice) self
      (fun _ self' => Emits self.options.chunker self.pending self'.pending ∧
        self'.options = self.options)
      (fun _ self' => buffered self' = buffered self) := by
  apply ensures_bind
  refine ensures_lift (fun stop hstop => ?_) fun _ _ => rfl
  refine (emitPendingChunk_buffer stop).mono (fun _ self' h => ?_) fun _ _ h => h
  obtain ⟨hpending, hoptions⟩ := Prod.mk.inj h
  rw [hpending]
  exact ⟨hchoice stop hstop, hoptions⟩

theorem emitIfFull_buffer
    (horder : self.options.chunker.targetChunkSize ≤ self.options.chunker.maxChunkSize)
    (hfull : self.options.chunker.maxChunkSize < self.pending.length) :
    Ensures (emitIfFull sink) self
      (fun _ self' => Emits self.options.chunker self.pending self'.pending ∧
        self'.options = self.options)
      (fun _ self' => buffered self' = buffered self) := by
  unfold emitIfFull
  apply ensures_bind
  apply ensures_get
  apply ensures_ite
  · intro _
    apply emitAt_buffer
    intro stop hstop
    rw [chooseStreamChunkEnd, rejectIf_of_not (Nat.not_le_of_lt hfull), ok_bind] at hstop
    obtain ⟨hpos, hle, -⟩ := chooseNonFinalChunkEnd_eq_ok horder hstop
    exact emits_drop hpos (by omega) hle
  · intro hnot
    exact absurd hfull hnot

theorem run_emitIfFull_of_le
    (hroom : self.pending.length ≤ self.options.chunker.maxChunkSize) :
    (emitIfFull sink).run.run self = (.ok ⟨⟩, self) := by
  unfold emitIfFull
  rw [run_bind]
  change (if _ then _ else _ : WriterM env σ Unit).run.run self = _
  rw [if_neg (Nat.not_lt_of_le hroom)]
  rfl

/-! ## The monitor -/

/-- What must not happen while the writer works. -/
inductive Fault where
  /-- `pending` is longer than `max_chunk_size + 1`. -/
  | overrun
  /-- `max_chunk_size + 1 - pending.len()` underflows. -/
  | underflow
  /-- An emission takes no byte off `pending`, or more than `max_chunk_size`. -/
  | emission
  /-- A loop is not done after the steps it was given. -/
  | endless
  deriving DecidableEq, Repr

/-- A watched computation: a fault, or the outcome of the one that it watches. -/
abbrev Watched (env : Env) (σ : Type) := Except Fault (Result Unit × QztFileWriter env σ)

/-- Go on after a success, as `?` does. -/
def Watched.andThen (first : Watched env σ) (next : QztFileWriter env σ → Watched env σ) :
    Watched env σ :=
  match first with
  | .error fault => .error fault
  | .ok (.ok _, self) => next self
  | .ok (.error e, self) => .ok (.error e, self)

/-- An emission, with a look at the buffer before and after it. -/
def monitorEmission (emit : WriterM env σ Unit) (self : QztFileWriter env σ) : Watched env σ :=
  match emit.run.run self with
  | (.error e, self') => .ok (.error e, self')
  | (.ok _, self') =>
    if Emits self.options.chunker self.pending self'.pending then .ok (.ok ⟨⟩, self')
    else .error .emission

/-- How many of the remaining bytes an iteration of `push` takes. -/
def takeLen (self : QztFileWriter env σ) (remaining : List UInt8) : Nat :=
  min remaining.length (self.options.chunker.maxChunkSize + 1 - self.pending.length)

/-- The writer with these bytes in its buffer. -/
def filled (self : QztFileWriter env σ) (remaining : List UInt8) : QztFileWriter env σ :=
  { self with pending := self.pending ++ remaining.take (takeLen self remaining) }

/-- The loop of `push`, watched. -/
def monitorPush (sink : Sink σ) : Nat → List UInt8 → QztFileWriter env σ → Watched env σ
  | 0, remaining, self => if remaining = [] then .ok (.ok ⟨⟩, self) else .error .endless
  | fuel + 1, remaining, self =>
    let maxChunkSize := self.options.chunker.maxChunkSize
    if remaining = [] then .ok (.ok ⟨⟩, self)
    else if maxChunkSize + 1 < self.pending.length then .error .underflow
    else
      let full := filled self remaining
      if maxChunkSize + 1 < full.pending.length then .error .overrun
      else
        Watched.andThen
          (if full.pending.length > maxChunkSize then monitorEmission (emitIfFull sink) full
            else .ok (.ok ⟨⟩, full))
          (monitorPush sink fuel (remaining.drop (takeLen self remaining)))

/-- The first loop of `finish_inner`, watched. -/
def monitorDrain (sink : Sink σ) : Nat → QztFileWriter env σ → Watched env σ
  | 0, self => if self.pending = [] then .ok (.ok ⟨⟩, self) else .error .endless
  | fuel + 1, self =>
    if self.pending = [] then .ok (.ok ⟨⟩, self)
    else if self.options.chunker.maxChunkSize + 1 < self.pending.length then .error .overrun
    else
      Watched.andThen
        (monitorEmission (emitAt sink (chooseKnownChunkEnd self.pending self.options.chunker)) self)
        (monitorDrain sink fuel)

/-- The end of a call: a success is handed to `done`, an error poisons the writer. -/
def Watched.close (run : Watched env σ) (done : QztFileWriter env σ → QztFileWriter env σ) :
    Watched env σ :=
  match run with
  | .error fault => .error fault
  | .ok (.ok _, self) => .ok (.ok ⟨⟩, done self)
  | .ok (.error e, self) => .ok (.error e, { self with poisoned := true })

/-- A call on a writer, watched. -/
def monitorCall (sink : Sink σ) (call : WriterCall) (self : QztFileWriter env σ) :
    Watched env σ :=
  if self.finished || self.poisoned then .ok (.error .writerAlreadyFinished, self)
  else
    match call with
    | .push bytes =>
      (monitorPush sink bytes.length bytes
        { self with inputHasher := env.blake3.update self.inputHasher bytes }).close id
    | .finish =>
      ((monitorDrain sink self.pending.length self).andThen
        fun self => .ok ((finishTail sink).run.run self)).close
          fun self => { self with finished := true }

/-! ## The monitor has nothing to report -/

theorem Watched.andThen_eq {m : WriterM env σ Unit} {k : Unit → WriterM env σ Unit}
    {first : Watched env σ} {next : QztFileWriter env σ → Watched env σ}
    (hfirst : first = .ok (m.run.run self))
    (hnext : ∀ self', m.run.run self = (.ok ⟨⟩, self') →
      next self' = .ok ((k ⟨⟩).run.run self')) :
    first.andThen next = .ok ((m >>= k).run.run self) := by
  subst hfirst
  rw [run_bind]
  rcases hrun : m.run.run self with ⟨e | u, self'⟩
  · rfl
  · exact hnext self' hrun

theorem monitorEmission_eq {emit : WriterM env σ Unit} {fail : QztError → QztFileWriter env σ → Prop}
    (h : Ensures emit self
      (fun _ self' => Emits self.options.chunker self.pending self'.pending ∧
        self'.options = self.options) fail) :
    monitorEmission emit self = .ok (emit.run.run self) := by
  unfold monitorEmission
  rcases hrun : emit.run.run self with ⟨e | u, self'⟩
  · rfl
  · simp only
    rw [if_pos (h.of_ok hrun).1]

/-- What every call leaves: the options, and a buffer within its bound. -/
def Buffers (options : WriterOptions) (writer : QztFileWriter env σ) : Prop :=
  writer.options = options ∧ writer.pending.length ≤ options.chunker.maxChunkSize + 1

/-- A writer between two iterations of a loop. -/
def HasRoom (options : WriterOptions) (writer : QztFileWriter env σ) : Prop :=
  writer.options = options ∧ writer.pending.length ≤ options.chunker.maxChunkSize

variable {options : WriterOptions}

theorem HasRoom.buffers (h : HasRoom options self) : Buffers options self :=
  ⟨h.1, Nat.le_succ_of_le h.2⟩

theorem Buffers.congr {self' : QztFileWriter env σ} (h : Buffers options self)
    (heq : buffered self' = buffered self) : Buffers options self' := by
  obtain ⟨hpending, hoptions⟩ := Prod.mk.inj heq
  exact ⟨hoptions.trans h.1, hpending ▸ h.2⟩

/-- An emission makes room. -/
theorem HasRoom.of_emits {self' : QztFileWriter env σ} (h : Buffers options self)
    (hemits : Emits self.options.chunker self.pending self'.pending)
    (hoptions : self'.options = self.options) : HasRoom options self' := by
  obtain ⟨hself, hle⟩ := h
  refine ⟨hoptions.trans hself, ?_⟩
  have := hemits.1
  omega

theorem HasRoom.filled (h : HasRoom options self) (remaining : List UInt8) :
    Buffers options (filled self remaining) := by
  obtain ⟨hself, hle⟩ := h
  refine ⟨hself, ?_⟩
  have hlength : (Qzt.filled self remaining).pending.length =
      self.pending.length + min (takeLen self remaining) remaining.length := by
    rw [Qzt.filled, List.length_append, List.length_take]
  rw [hlength, takeLen, hself]
  omega

theorem emitIfFull_hasRoom
    (horder : options.chunker.targetChunkSize ≤ options.chunker.maxChunkSize)
    (h : Buffers options self) :
    Ensures (emitIfFull sink) self (fun _ self' => HasRoom options self')
      (fun _ self' => Buffers options self') := by
  have hoptions := h.1
  by_cases hfull : self.options.chunker.maxChunkSize < self.pending.length
  · refine (emitIfFull_buffer (hoptions ▸ horder) hfull).mono ?_ fun _ _ hkept => h.congr hkept
    rintro _ self' ⟨hemits, hkept⟩
    exact HasRoom.of_emits h hemits hkept
  · rw [Ensures, run_emitIfFull_of_le (Nat.le_of_not_lt hfull)]
    exact ⟨hoptions, hoptions ▸ Nat.le_of_not_lt hfull⟩

/-- One iteration of `push`. -/
theorem run_pushLoop_succ {fuel : Nat} {remaining : List UInt8} (hremaining : remaining ≠ []) :
    (pushLoop sink (fuel + 1) remaining).run.run self =
      (emitIfFull sink >>= fun _ => pushLoop sink fuel
        (remaining.drop (takeLen self remaining))).run.run (filled self remaining) := by
  rw [pushLoop, if_neg hremaining]
  rfl

theorem pushLoop_buffers
    (horder : options.chunker.targetChunkSize ≤ options.chunker.maxChunkSize) {fuel : Nat}
    {remaining : List UInt8} (h : HasRoom options self) :
    Ensures (pushLoop sink fuel remaining) self (fun _ self' => HasRoom options self')
      (fun _ self' => Buffers options self') := by
  induction fuel generalizing remaining self with
  | zero => exact h
  | succ fuel ih =>
    by_cases hremaining : remaining = []
    · rw [pushLoop, if_pos hremaining]
      exact h
    · rw [Ensures, run_pushLoop_succ hremaining]
      apply ensures_bind
      refine (emitIfFull_hasRoom horder (h.filled remaining)).mono ?_ fun _ _ hkept => hkept
      intro _ self' hroom
      exact ih hroom

theorem monitorPush_eq
    (horder : options.chunker.targetChunkSize ≤ options.chunker.maxChunkSize) {fuel : Nat}
    {remaining : List UInt8} (hfuel : remaining.length ≤ fuel) (h : HasRoom options self) :
    monitorPush sink fuel remaining self = .ok ((pushLoop sink fuel remaining).run.run self) := by
  induction fuel generalizing remaining self with
  | zero =>
    have hnil : remaining = [] := List.eq_nil_of_length_eq_zero (Nat.le_zero.mp hfuel)
    rw [monitorPush, if_pos hnil]
    rfl
  | succ fuel ih =>
    by_cases hremaining : remaining = []
    · rw [monitorPush, pushLoop, if_pos hremaining, if_pos hremaining]
      rfl
    · have hpos := List.length_pos_of_ne_nil hremaining
      have hfilled := h.filled remaining
      obtain ⟨hoptions, hle⟩ := h
      rw [run_pushLoop_succ hremaining, monitorPush, if_neg hremaining,
        if_neg (by rw [hoptions]; omega),
        if_neg (by rw [hoptions]; exact Nat.not_lt_of_le hfilled.2)]
      apply Watched.andThen_eq
      · split
        · rename_i hfull
          exact monitorEmission_eq (emitIfFull_buffer (hfilled.1 ▸ horder) hfull)
        · rename_i hroom
          exact congrArg _ (run_emitIfFull_of_le (Nat.le_of_not_lt hroom)).symm
      · intro self' hrun
        -- The buffer had room, so the iteration took a byte.
        apply ih
        · rw [List.length_drop, takeLen, hoptions]
          omega
        · exact (emitIfFull_hasRoom horder hfilled).of_ok hrun

/-! ## The end of a stream -/

theorem emitAt_chooseKnown_buffer
    (horder : self.options.chunker.targetChunkSize ≤ self.options.chunker.maxChunkSize)
    (hpending : self.pending ≠ []) :
    Ensures (emitAt sink (chooseKnownChunkEnd self.pending self.options.chunker)) self
      (fun _ self' => Emits self.options.chunker self.pending self'.pending ∧
        self'.options = self.options)
      (fun _ self' => buffered self' = buffered self) := by
  apply emitAt_buffer
  intro stop hstop
  obtain ⟨hpos, hle, hmax, -⟩ := chooseKnownChunkEnd_eq_ok horder hpending hstop
  exact emits_drop hpos hle hmax

theorem run_drainPending_succ {fuel : Nat} (hpending : self.pending ≠ []) :
    (drainPending sink (fuel + 1)).run.run self =
      (emitAt sink (chooseKnownChunkEnd self.pending self.options.chunker) >>= fun _ =>
        drainPending sink fuel).run.run self := by
  rw [drainPending, run_bind]
  change (if _ then _ else _ : WriterM env σ Unit).run.run self = _
  rw [if_neg hpending, emitAt, bind_assoc]

theorem drainPending_hasRoom
    (horder : options.chunker.targetChunkSize ≤ options.chunker.maxChunkSize) {fuel : Nat}
    (h : HasRoom options self) :
    Ensures (drainPending sink fuel) self (fun _ self' => HasRoom options self')
      (fun _ self' => Buffers options self') := by
  induction fuel generalizing self with
  | zero => exact h
  | succ fuel ih =>
    by_cases hpending : self.pending = []
    · rw [drainPending]
      apply ensures_bind
      apply ensures_get
      rw [if_pos hpending]
      exact h
    · rw [Ensures, run_drainPending_succ hpending]
      apply ensures_bind
      refine (emitAt_chooseKnown_buffer (h.1 ▸ horder) hpending).mono ?_
        fun _ _ hkept => h.buffers.congr hkept
      intro _ self' hemitted
      exact ih (HasRoom.of_emits h.buffers hemitted.1 hemitted.2)

theorem monitorDrain_eq
    (horder : options.chunker.targetChunkSize ≤ options.chunker.maxChunkSize) {fuel : Nat}
    (hfuel : self.pending.length ≤ fuel) (h : HasRoom options self) :
    monitorDrain sink fuel self = .ok ((drainPending sink fuel).run.run self) := by
  induction fuel generalizing self with
  | zero =>
    have hnil : self.pending = [] := List.eq_nil_of_length_eq_zero (Nat.le_zero.mp hfuel)
    rw [monitorDrain, if_pos hnil]
    rfl
  | succ fuel ih =>
    by_cases hpending : self.pending = []
    · rw [monitorDrain, if_pos hpending, drainPending, run_bind]
      change _ = Except.ok ((if _ then _ else _ : WriterM env σ Unit).run.run self)
      rw [if_pos hpending]
      rfl
    · have hroom : ¬ self.options.chunker.maxChunkSize + 1 < self.pending.length := by
        rw [h.1]
        exact Nat.not_lt_of_le h.buffers.2
      have hemission := @emitAt_chooseKnown_buffer env σ sink self (h.1 ▸ horder) hpending
      rw [run_drainPending_succ hpending, monitorDrain, if_neg hpending, if_neg hroom]
      apply Watched.andThen_eq (monitorEmission_eq hemission)
      intro self' hrun
      -- The emission took a byte.
      obtain ⟨hemits, hoptions⟩ := hemission.of_ok hrun
      apply ih
      · have := hemits.1
        omega
      · exact HasRoom.of_emits h.buffers hemits hoptions

/-- The read loop of `finish` has no use for more steps than there are bytes left to hash. -/
theorem hashPrefixLoop_fuel {fuel fuel' remaining : Nat} (h : remaining ≤ fuel)
    (h' : remaining ≤ fuel') (hasher : env.blake3.Hasher) :
    (hashPrefixLoop sink fuel remaining hasher : WriterM env σ _) =
      hashPrefixLoop sink fuel' remaining hasher := by
  induction fuel generalizing fuel' remaining hasher with
  | zero =>
    obtain rfl := Nat.le_zero.mp h
    cases fuel' <;> rfl
  | succ fuel ih =>
    cases remaining with
    | zero => cases fuel' <;> rfl
    | succ remaining =>
      obtain ⟨fuel', rfl⟩ : ∃ n, fuel' = n + 1 := ⟨fuel' - 1, by omega⟩
      have hbuffer : hashBufferSize = 65536 := rfl
      generalize hpiece : min (remaining + 1) hashBufferSize = piece
      have hlift : (liftM (u64ToUsize piece) : WriterM env σ Nat) = pure piece := by
        rw [u64ToUsize_of_lt (by omega)]
        rfl
      rw [hashPrefixLoop, hashPrefixLoop, if_pos (Nat.succ_pos _), if_pos (Nat.succ_pos _),
        hpiece, hlift, pure_bind, pure_bind]
      congr 1
      funext buffer
      apply ih <;> omega

theorem keeps_hashPrefixLoop (fuel remaining : Nat) (hasher : env.blake3.Hasher) :
    Keeps buffered (hashPrefixLoop sink fuel remaining hasher : WriterM env σ _) := by
  induction fuel generalizing remaining hasher with
  | zero => exact keeps_pure _
  | succ fuel ih =>
    unfold hashPrefixLoop
    refine keeps_ite ?_ (keeps_pure _)
    exact keeps_bind (keeps_lift _) fun _ => keeps_bind (keeps_sinkOp _) fun _ => ih _ _

theorem keeps_finishTail : Keeps buffered (finishTail sink : WriterM env σ Unit) := by
  unfold finishTail
  refine keeps_bind keeps_get fun _ => keeps_bind (keeps_lift _) fun plan => ?_
  refine keeps_bind ?_ fun _ => keeps_bind ?_ fun _ => keeps_bind ?_ fun checksum => ?_
  · unfold writeBlocks
    refine keeps_bind (keeps_sinkOp _) fun _ => keeps_bind (keeps_sinkOp _) fun _ => ?_
    exact keeps_bind (keeps_sinkOp _) fun _ => keeps_sinkOp _
  · unfold patchHeader
    refine keeps_bind (keeps_sinkOp _) fun _ => keeps_bind (keeps_sinkOp _) fun _ => ?_
    refine keeps_bind (keeps_sinkOp _) fun _ => keeps_bind (keeps_lift _) fun _ => ?_
    exact keeps_sinkOp _
  · unfold hashPrefix
    refine keeps_bind (keeps_sinkOp _) fun _ => ?_
    exact keeps_bind (keeps_hashPrefixLoop _ _ _) fun _ => keeps_pure _
  · unfold writeFooter
    refine keeps_bind (keeps_lift _) fun _ => keeps_bind (keeps_sinkOp _) fun _ => ?_
    refine keeps_bind (keeps_sinkOp _) fun _ => keeps_bind (keeps_sinkOp _) fun _ => ?_
    refine keeps_bind (keeps_sinkOp _) fun _ => keeps_bind (keeps_sinkOp _) fun _ => ?_
    exact keeps_lift _

/-! ## Whole runs -/

theorem Watched.close_eq {m : WriterM env σ Unit} {run : Watched env σ}
    {done : QztFileWriter env σ → QztFileWriter env σ} (hrun : run = .ok (m.run.run self)) :
    run.close done = .ok (match m.run.run self with
      | (.ok u, self) => (.ok u, done self)
      | (.error e, self) => (.error e, { self with poisoned := true })) := by
  subst hrun
  rcases m.run.run self with ⟨e | u, self'⟩ <;> rfl

/-- The invariant between two calls: the buffer of an open writer has room. -/
structure BoundedBuffer (options : WriterOptions) (writer : QztFileWriter env σ) : Prop where
  buffers : Buffers options writer
  hasRoom : ¬ Closed writer → HasRoom options writer

theorem BoundedBuffer.monitorCall_eq (h : BoundedBuffer options self)
    (horder : options.chunker.targetChunkSize ≤ options.chunker.maxChunkSize)
    (call : WriterCall) : monitorCall sink call self = .ok ((call.run sink).run.run self) := by
  unfold monitorCall
  by_cases hclosed : Closed self
  · rw [if_pos (show (self.finished || self.poisoned) = true from hclosed), run_closed hclosed]
  · have hroom := h.hasRoom hclosed
    have hopen : ¬ (self.finished || self.poisoned) = true := hclosed
    rw [if_neg hopen]
    cases call with
    | push bytes =>
      change _ = Except.ok (push sink bytes self)
      rw [push, if_neg hopen]
      exact Watched.close_eq (monitorPush_eq horder (Nat.le_refl _) hroom)
    | finish =>
      change _ = Except.ok (finish sink self)
      rw [finish, if_neg hopen]
      exact Watched.close_eq (Watched.andThen_eq (monitorDrain_eq horder (Nat.le_refl _) hroom)
        fun _ _ => rfl)

theorem pushInner_hasRoom
    (horder : options.chunker.targetChunkSize ≤ options.chunker.maxChunkSize)
    (bytes : List UInt8) (h : HasRoom options self) :
    Ensures (pushInner sink bytes) self (fun _ self' => HasRoom options self')
      (fun _ self' => Buffers options self') := by
  apply ensures_bind
  apply ensures_modify
  exact pushLoop_buffers horder h

theorem finishInner_buffers
    (horder : options.chunker.targetChunkSize ≤ options.chunker.maxChunkSize)
    (h : HasRoom options self) :
    Ensures (finishInner sink) self (fun _ self' => Buffers options self')
      (fun _ self' => Buffers options self') := by
  apply ensures_bind
  apply ensures_get
  apply ensures_bind
  refine (drainPending_hasRoom horder h).mono (fun _ self' hroom => ?_) fun _ _ hkept => hkept
  exact keeps_finishTail.ensures.mono (fun _ _ hkept => hroom.buffers.congr hkept)
    fun _ _ hkept => hroom.buffers.congr hkept

/-- One call keeps the invariant. -/
theorem BoundedBuffer.afterCall (h : BoundedBuffer options self)
    (horder : options.chunker.targetChunkSize ≤ options.chunker.maxChunkSize)
    (call : WriterCall) : BoundedBuffer options ((call.run sink).run.run self).2 := by
  by_cases hclosed : Closed self
  · rw [run_closed hclosed]
    exact h
  have hroom := h.hasRoom hclosed
  have hopen : ¬ (self.finished || self.poisoned) = true := hclosed
  cases call with
  | push bytes =>
    have hinner := @pushInner_hasRoom env σ sink self options horder bytes hroom
    change BoundedBuffer options (push sink bytes self).2
    rw [push, if_neg hopen]
    split
    · rename_i hrun
      have hself' := hinner.of_ok hrun
      exact ⟨hself'.buffers, fun _ => hself'⟩
    · rename_i hrun
      -- A failed `push` poisons the writer.
      have hself' := hinner.of_error hrun
      refine ⟨hself', fun hstill => absurd ?_ hstill⟩
      simp [Closed]
  | finish =>
    refine ⟨?_, fun hstill => absurd (finish_closes self) hstill⟩
    have hinner := @finishInner_buffers env σ sink self options horder hroom
    change Buffers options (finish sink self).2
    rw [finish, if_neg hopen]
    split
    · rename_i hrun
      have hself' := hinner.of_ok hrun
      exact hself'
    · rename_i hrun
      have hself' := hinner.of_error hrun
      exact hself'

/-- Every sequence of calls keeps it. -/
theorem BoundedBuffer.afterCalls (h : BoundedBuffer options self)
    (horder : options.chunker.targetChunkSize ≤ options.chunker.maxChunkSize)
    (calls : List WriterCall) : BoundedBuffer options (Qzt.afterCalls sink self calls) := by
  induction calls generalizing self with
  | nil => exact h
  | cons call calls ih => exact ih (h.afterCall horder call)

theorem boundedBuffer_new {s : σ} (h : QztFileWriter.new env sink s options = .ok self) :
    BoundedBuffer options self ∧ options.chunker.targetChunkSize ≤ options.chunker.maxChunkSize := by
  obtain ⟨hoptions, s', -, rfl⟩ := new_eq_ok h
  have hroom : HasRoom options (fresh env options s') := ⟨rfl, Nat.zero_le _⟩
  exact ⟨⟨hroom.buffers, fun _ => hroom⟩, (validateWriterOptions_eq_ok hoptions).target_le_max⟩

end Buffer

/-- Chunking makes progress.  A well-formed input splits, and `plan_chunks` returns the plan of
the split or finds no room for it in the chunk table; `finish` reads no further than the prefix
it hashes; and after any sequence of calls the buffer of a streaming writer is within its bound
and the next call runs without a fault. -/
theorem chunking_progresses (env : Env) {σ : Type} (sink : Sink σ) :
    (∀ (input : List UInt8) (options : ChunkerOptions), Utf8.Valid input →
      options.validate = .ok ⟨⟩ → 4 ≤ options.maxChunkSize →
      input.length + options.maxChunkSize < 2 ^ 64 →
      ∃ parts, Splits options input parts ∧ planChunks input options =
        if parts.length ≤ maxChunkCount then .ok (planOf parts)
        else .error .resourceLimitExceeded) ∧
    (∀ (s : σ) (options : WriterOptions) (writer : QztFileWriter env σ),
      QztFileWriter.new env sink s options = .ok writer → ∀ (calls : List WriterCall),
        (afterCalls sink writer calls).pending.length ≤ options.chunker.maxChunkSize + 1 ∧
        ∀ call : WriterCall, monitorCall sink call (afterCalls sink writer calls) =
          .ok ((call.run sink).run.run (afterCalls sink writer calls))) ∧
    ∀ (fuel remaining : Nat) (hasher : env.blake3.Hasher), remaining ≤ fuel →
      (hashPrefixLoop sink fuel remaining hasher : WriterM env σ _) =
        hashPrefixLoop sink remaining remaining hasher := by
  refine ⟨?_, ?_, ?_⟩
  · intro input options hvalid hoptions hmax hword
    obtain ⟨parts, hparts⟩ := exists_splits (targetChunkSize_le_of_validate hoptions) hmax hvalid
    exact ⟨parts, hparts, planChunks_eq hoptions hword hvalid hparts⟩
  · intro s options writer hnew calls
    obtain ⟨hbounded, horder⟩ := boundedBuffer_new hnew
    have hcalls : BoundedBuffer options (afterCalls sink writer calls) :=
      hbounded.afterCalls horder calls
    exact ⟨hcalls.buffers.2, hcalls.monitorCall_eq horder⟩
  · intro fuel remaining hasher hfuel
    exact hashPrefixLoop_fuel hfuel (Nat.le_refl _) hasher

/-- The default options with chunks of at most four bytes. -/
def twoByteTarget : WriterOptions :=
  { WriterOptions.default with chunker := { targetChunkSize := 2, maxChunkSize := 4 } }

set_option maxRecDepth 4000 in
/-- Two chunks are planned, and `finish` runs without a fault after a fragment that fills the
buffer. -/
theorem chunking_progresses_twoByteTarget :
    (∃ parts, Splits twoByteTarget.chunker [0x61, 0x0a, 0x62] parts ∧
      planChunks [0x61, 0x0a, 0x62] twoByteTarget.chunker =
        if parts.length ≤ maxChunkCount then .ok (planOf parts)
        else .error .resourceLimitExceeded) ∧
    ∃ writer : QztFileWriter Reference.env SinkView,
      QztFileWriter.new Reference.env memorySink ⟨[], 0, true⟩ twoByteTarget = .ok writer ∧
      (afterCalls memorySink writer [.push [0x61, 0x62, 0x63, 0x64, 0x65]]).pending.length ≤ 5 ∧
      monitorCall memorySink .finish
          (afterCalls memorySink writer [.push [0x61, 0x62, 0x63, 0x64, 0x65]]) =
        .ok ((WriterCall.finish.run memorySink).run.run
          (afterCalls memorySink writer [.push [0x61, 0x62, 0x63, 0x64, 0x65]])) := by
  obtain ⟨hplan, hstream, -⟩ := chunking_progresses Reference.env memorySink
  have hvalid : Utf8.Valid [0x61, 0x0a, 0x62] := ⟨['a', '\n', 'b'], by decide⟩
  have hnew : QztFileWriter.new Reference.env memorySink ⟨[], 0, true⟩ twoByteTarget =
      .ok (fresh Reference.env twoByteTarget ⟨List.replicate headerLen 0, headerLen, false⟩) := rfl
  obtain ⟨hbound, hmonitor⟩ := hstream _ _ _ hnew [.push [0x61, 0x62, 0x63, 0x64, 0x65]]
  exact ⟨hplan _ _ hvalid rfl (by decide) (by decide), _, hnew, hbound, hmonitor .finish⟩

/-- Where `start + max_chunk_size` wraps, the planner gives up on a text of two chunks. -/
theorem planChunks_wraps :
    Utf8.Valid [0x0a, 0x61, 0x62] ∧ ChunkerOptions.validate ⟨1, 2 ^ 64 - 1⟩ = .ok ⟨⟩ ∧
    (∃ parts, Splits ⟨1, 2 ^ 64 - 1⟩ [0x0a, 0x61, 0x62] parts ∧ parts.length ≤ maxChunkCount) ∧
    planChunks [0x0a, 0x61, 0x62] ⟨1, 2 ^ 64 - 1⟩ = .error .resourceLimitExceeded := by
  have hfirst : chooseKnownChunkEnd [0x0a, 0x61, 0x62] ⟨1, 2 ^ 64 - 1⟩ = .ok 1 := by decide
  have hsecond : chooseKnownChunkEnd [0x61, 0x62] ⟨1, 2 ^ 64 - 1⟩ = .ok 2 := by decide
  have hsplits : Splits ⟨1, 2 ^ 64 - 1⟩ [0x0a, 0x61, 0x62] [[0x0a], [0x61, 0x62]] :=
    .cons (by decide) hfirst (.cons (by decide) hsecond .nil)
  exact ⟨⟨['\n', 'a', 'b'], by decide⟩, by decide, ⟨_, hsplits, by decide⟩, by decide⟩

end Qzt
