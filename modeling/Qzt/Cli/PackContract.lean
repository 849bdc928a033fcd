import Qzt.Cli.FilesContract
import Qzt.Cli.Pack
import Qzt.Writer.PackedDocuments

/-!
# The container that `pack` writes holds the input

On either path and whatever fails, the output is as it was, or it is a container from which the
input is read.
-/

namespace Qzt

open Foundation Disk QztFileWriter

variable {host : Host} {env : Env} {reads : FileReads} {start s : Disk} {done : List Step}
  {tree : Tree}

/-! ## The open output file -/

section Sink

variable {faults : Nat → Option (WriteFault IoErrorKind)}

/-- An operation that succeeds is the one on the file in memory. -/
theorem OutputFile.operation_ok {α : Type} {op : SinkView → Except IoErrorKind α × SinkView}
    {partly : Nat → SinkView → SinkView} {file file' : OutputFile} {a : α}
    (h : OutputFile.operation faults op partly file = (.ok a, file')) :
    op file.view = (.ok a, file'.view) := by
  unfold OutputFile.operation at h
  split at h
  · rw [Prod.mk.injEq] at h
    obtain ⟨hresult, rfl⟩ := h
    exact Prod.ext hresult rfl
  · cases h

/-- The file is a faithful sink, whatever fails. -/
theorem fileSink_faithful : FaithfulWhile (fun _ => True) (fileSink faults) OutputFile.view where
  live_streamPosition := id
  live_seekStart := id
  live_seekEnd := id
  live_writeAll := id
  live_readExact := id
  live_flush := id
  streamPosition_ok := by
    intro s n s' _ h
    simp only [fileSink] at h
    exact memorySink_reliable.streamPosition_ok trivial (OutputFile.operation_ok h)
  seekStart_ok := by
    intro n s m s' _ h
    simp only [fileSink] at h
    exact memorySink_reliable.seekStart_ok trivial (OutputFile.operation_ok h)
  seekEnd_ok := by
    intro s n s' _ h
    simp only [fileSink] at h
    exact memorySink_reliable.seekEnd_ok trivial (OutputFile.operation_ok h)
  writeAll_ok := by
    intro bytes s u s' _ h
    simp only [fileSink] at h
    exact memorySink_reliable.writeAll_ok trivial (OutputFile.operation_ok h)
  readExact_ok := by
    intro n s bytes s' _ h hsynced
    simp only [fileSink] at h
    exact memorySink_reliable.readExact_ok trivial (OutputFile.operation_ok h) hsynced
  flush_ok := by
    intro s u s' _ h
    simp only [fileSink] at h
    exact memorySink_reliable.flush_ok trivial (OutputFile.operation_ok h)

end Sink

/-! ## The streaming path -/

/-- A stream that ends without an error was read to its end. -/
theorem stream_whole {source : Except IoError (List UInt8)} (h : (reads.stream source).2 = none) :
    source = .ok (reads.stream source).1.flatten := by
  cases source with
  | error error => cases h
  | ok bytes => exact congrArg Except.ok ((reads.streamed bytes).whole h).symm

theorem pushInput_ensures {σ : Type} {live : σ → Prop} {sink : Sink σ} {view : σ → SinkView}
    (hsink : FaithfulWhile live sink view) {options : WriterOptions} {file : σ}
    {writer : QztFileWriter env σ}
    (hnew : QztFileWriter.new env sink file options = .ok writer)
    (input : List (List UInt8) × Option IoError) :
    Ensures (pushInput sink input) writer
      (fun _ writer' => input.2 = none ∧ (live writer'.writer →
        packBytes env input.1.flatten options = .ok (view writer'.writer).contents))
      (fun _ _ => True) := by
  have hoptions := (new_eq_ok hnew).1
  obtain ⟨hstreamed, hcontinues, hpending⟩ := streamed_new hsink hnew
  have hroom : writer.pending.length ≤ options.chunker.maxChunkSize := by
    rw [hpending]
    exact Nat.zero_le _
  apply ensures_bind
  apply ensures_onError
  refine (pushAll_ensures hsink hoptions hstreamed hcontinues hroom).mono ?_ ?_
  · rintro _ writer₁ ⟨⟨parts, hstreamed₁⟩, hcontinues₁⟩
    rw [List.nil_append] at hstreamed₁ hcontinues₁
    cases hend : input.2 with
    | some error => exact ensures_throw trivial
    | none =>
      apply ensures_onError
      exact (finish_ensures hsink hoptions hstreamed₁ hcontinues₁).mono
        (fun _ _ hcontents => ⟨rfl, hcontents⟩) (fun _ _ _ => trivial)
  · exact fun _ _ _ => trivial

/-- The callback returns only once it has read all of the input and written all of the container. -/
theorem packStream_ok {options : WriterOptions} {faults : Nat → Option (WriteFault IoErrorKind)}
    {input : List (List UInt8) × Option IoError} {u : PUnit}
    (h : (packStream env options faults input []).1 = .ok u) :
    input.2 = none ∧
      packBytes env input.1.flatten options = .ok (packStream env options faults input []).2 := by
  unfold packStream at h ⊢
  dsimp only at h ⊢
  split at h
  · cases h
  · rename_i writer hnew
    have hensures := pushInput_ensures fileSink_faithful hnew input
    have hrun : (pushInput (fileSink faults) input).run.run writer = (.ok u, _) := Prod.ext h rfl
    obtain ⟨hwhole, hcontents⟩ := hensures.of_ok hrun
    exact ⟨hwhole, hcontents trivial⟩

/-! ## A run -/

/-- The input of a run: the standard input, or what the path leads to. -/
def PackArgs.source (args : PackArgs) (special : Path → Except IoError (List UInt8)) (tree : Tree)
    (stdin : List UInt8) : Except IoError (List UInt8) :=
  if args.inputPath = "-" then .ok stdin else readTree special tree (Path.ofString args.inputPath)

/-- The files that a run reads. -/
def PackArgs.inputs (args : PackArgs) : List Path :=
  if args.inputPath = "-" then [] else [Path.ofString args.inputPath]

/-- The output is a container of a text that is the input. -/
def HoldsInput (env : Env) (args : PackArgs) (source : Except IoError (List UInt8))
    (after : Tree) : Prop :=
  ∃ text state, source = .ok text ∧ HoldsText env state.bytes text ∧
    after (Path.ofString args.outputPath).location = some (.file state)

/-- What a run of `pack` leaves that was started. -/
def PackRun (env : Env) (special : Path → Except IoError (List UInt8)) (args : PackArgs)
    (stdin : List UInt8) (before : Tree) (packed : Prop) (after : Tree) : Prop :=
  OutputRun special (Path.ofString args.outputPath) args.inputs
    (HoldsInput env args (args.source special before stdin)) before packed after

theorem openInput_ensures {inputPath : String} {stdin : List UInt8} (h : At start done tree s) :
    Ensures (openInput reads inputPath stdin) s
      (fun input s' => At start done tree s' ∧
        input = if inputPath = "-" then .ok stdin
          else readTree reads.special tree (Path.ofString inputPath))
      (fun _ s' => At start done tree s') := by
  unfold openInput
  apply ensures_ite
  · intro hstdin
    exact ensures_pure ⟨h, (if_pos hstdin).symm⟩
  · intro hfile
    apply ensures_bind
    apply ensures_liftIo
    refine (ensures_openFile h).mono ?_ (fun _ _ hat => hat)
    intro _ s₁ hat
    apply ensures_bind
    apply ensures_get
    refine ensures_pure ⟨hat, ?_⟩
    rw [hat.tree_eq, if_neg hfile]

theorem packStreaming_ensures (hzstd : env.RoundTrips) (args : PackArgs) (stdin : List UInt8)
    (faults : PackFaults) (h : At start done start.tree s) :
    Ensures (packStreaming env host reads args stdin faults) s
      (fun _ s' => PackRun env reads.special args stdin start.tree True s'.tree)
      (fun _ s' => PackRun env reads.special args stdin start.tree False s'.tree) := by
  apply ensures_bind
  refine (openInput_ensures h).mono ?_ (fun _ _ hat => .unstarted hat)
  rintro input s₁ ⟨hat, hinput⟩
  have hmade : ∀ after, WrittenBy (packStream env args.options faults.operations (reads.stream input))
      (Path.ofString args.outputPath) after →
        HoldsInput env args (args.source reads.special start.tree stdin) after := by
    rintro after ⟨hok, state, hbytes, hfile⟩
    obtain ⟨hwhole, hpack⟩ := packStream_ok hok
    refine ⟨(reads.stream input).1.flatten, state, ?_, ?_, hfile⟩
    · rw [PackArgs.source, ← hinput]
      exact stream_whole hwhole
    · rw [hbytes]
      exact holdsText_of_packBytes hzstd hpack
  have hwrite := @writeAtomically_run host reads.special s₁ (Path.ofString args.outputPath)
    args.inputs true (packStream env args.options faults.operations (reads.stream input))
  rw [hat.tree_eq] at hwrite
  exact hwrite.mono (fun _ s' hrun => hrun.mono (hmade s'.tree))
    (fun _ s' hrun => hrun.mono (hmade s'.tree))

theorem packWhole_ensures (hzstd : env.RoundTrips) (args : PackArgs) (stdin : List UInt8)
    (faults : PackFaults) (hfile : args.inputPath ≠ "-") (h : At start done start.tree s) :
    Ensures (packWhole env host reads args faults) s
      (fun _ s' => PackRun env reads.special args stdin start.tree True s'.tree)
      (fun _ s' => PackRun env reads.special args stdin start.tree False s'.tree) := by
  have hinputs : [Path.ofString args.inputPath] = args.inputs := (if_neg hfile).symm
  have hsource : args.source reads.special start.tree stdin =
      readTree reads.special start.tree (Path.ofString args.inputPath) := if_neg hfile
  apply ensures_bind
  apply ensures_liftIo
  refine (readFile_ensures h).mono ?_ (fun _ _ hat => .unstarted hat)
  rintro input s₁ ⟨hread, hat⟩
  apply ensures_bind
  apply ensures_liftQzt
  · intro container hpack
    have hmade : ∀ after, HasBytes (Path.ofString args.outputPath) container after →
        HoldsInput env args (args.source reads.special start.tree stdin) after := by
      rintro after ⟨state, rfl, hafter⟩
      exact ⟨input, state, hsource.trans hread, holdsText_of_pack hzstd hpack, hafter⟩
    have hwrite := @writeContainerAtomically_run host reads.special s₁
      (Path.ofString args.outputPath) [Path.ofString args.inputPath] container faults.container
    rw [hat.tree_eq] at hwrite
    unfold PackRun
    rw [← hinputs]
    exact hwrite.mono (fun _ s' hrun => hrun.mono (hmade s'.tree))
      (fun _ s' hrun => hrun.mono (hmade s'.tree))
  · exact fun _ _ => .unstarted hat

theorem checkPackCollision_ensures (args : PackArgs) :
    Ensures (checkPackCollision host args) start
      (fun _ s' => At start [] start.tree s')
      (fun _ s' => At start [] start.tree s') := by
  apply ensures_ite
  · exact fun _ => ensures_pure (At.refl start)
  · intro _
    exact (checkOutputCollision_ensures (At.refl start)).mono (fun _ _ h => h.1) (fun _ _ h => h.2)

theorem packInput_ensures (hzstd : env.RoundTrips) {args : PackArgs} (stdin : List UInt8)
    (faults : PackFaults)
    (hstdin : args.inputPath = "-" → args.profile = "core" ∧ args.denseLineIndex = false) :
    Ensures (packInput env host reads args stdin faults) start
      (fun _ s' => PackRun env reads.special args stdin start.tree True s'.tree)
      (fun _ s' => PackRun env reads.special args stdin start.tree False s'.tree) := by
  apply ensures_bind
  refine (checkPackCollision_ensures args).mono ?_ (fun _ _ hat => .unstarted hat)
  intro _ s₁ hat
  apply ensures_ite
  · exact fun _ => packStreaming_ensures hzstd args stdin faults hat
  · exact fun hwhole => packWhole_ensures hzstd args stdin faults (mt hstdin hwhole) hat

/-- Only the streaming path reads the standard input. -/
theorem PackArgs.parse_stdin {kindText : IoErrorKind → String} {args : List String}
    {parsed : PackArgs} (h : PackArgs.parse kindText args = .ok parsed)
    (hstdin : parsed.inputPath = "-") : parsed.profile = "core" ∧ parsed.denseLineIndex = false := by
  simp only [PackArgs.parse, bind_eq_ok_iff, okOr_eq_ok_iff, rejectIf_eq_ok_iff, not_and,
    Except.ok.injEq] at h
  obtain ⟨locals, -, inputPath, -, outputPath, -, _, -, _, hprofile, _, hdense, rfl⟩ := h
  exact ⟨not_not.mp (hprofile hstdin), Bool.eq_false_iff.mpr (hdense hstdin)⟩

/-- `qzt pack a.txt -o out.qzt`, with a read for each byte. -/
def runPackSample : PackExit × Disk :=
  (runPack Reference.env (.following 7 fun _ => "") FileReads.trickling
    ["a.txt", "-o", "out.qzt"] [] { operations := fun _ => none, container := none }).run sampleDisk

set_option maxRecDepth 100000 in
theorem runPackSample_packed : runPackSample.1 = .packed := by
  decide +kernel

/-- The arguments of the run. -/
def samplePackArgs : PackArgs where
  inputPath := "a.txt"
  outputPath := "out.qzt"
  options := .default
  profile := "core"
  denseLineIndex := false

end Qzt
