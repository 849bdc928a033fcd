import Qzt.Cli.PackDocs
import Qzt.Writer.StreamContract

/-!
# Packing one file (`pack` in `main.rs`)

The core profile without a dense line index streams: the input, a file or the standard input, is
read piece by piece and pushed into a writer over the open output file.  The other profiles take
the whole input at once.
-/

namespace Qzt

open Foundation

/-! ## Arguments -/

/-- The parsed arguments of `run_pack`. -/
structure PackArgs where
  inputPath : String
  outputPath : String
  options : WriterOptions
  profile : String
  denseLineIndex : Bool
  deriving DecidableEq, Repr

/-- The options of `pack` are those of `pack-docs` without the prefix. -/
def packOption (arg : String) : Option PackDocsOption :=
  if arg = "--doc-id-prefix" then none else PackDocsOption.ofArg arg

namespace PackArgs

/-- The loop over the arguments.  Its option arms are those of `pack-docs`. -/
def parseLoop : List String → PackDocsLocals → Except String PackDocsLocals
  | [], self => .ok self
  | arg :: args, self =>
    match packOption arg, args with
    | some option, [] => option.set self none
    | some option, value :: args => do
      let self ← option.set self (some value)
      parseLoop args self
    | none, args =>
      if arg.toList.head? = some '-' ∧ arg ≠ "-" then .error ("unknown option '" ++ arg ++ "'")
      else if self.inputPaths ≠ [] then
        .error ("unexpected additional input '" ++ arg ++ "'")
      else parseLoop args { self with inputPaths := [arg] }

/-- Why a profile cannot be read from the standard input. -/
def stdinProfileMessage (profile : String) : String :=
  "stdin does not support --profile " ++ profile ++
    "; use --profile core on the streaming pack path\n" ++
    if profile = "memory" then
      "(for memory profile, use WriterBuilder::profile(\"memory\").document_index(...) with " ++
        "file-backed input)"
    else "(other profiles need the whole input in memory; write to a file first)"

def stdinDenseMessage : String :=
  "stdin does not support --dense-line-index on; Dense Line Index requires the in-memory pack " ++
    "path\nuse --profile core without --dense-line-index on the streaming pack path"

/-- The arguments of `run_pack`, with the checks before it starts. -/
def parse (kindText : IoErrorKind → String) (args : List String) : Except String PackArgs := do
  let locals ← parseLoop args {}
  let inputPath ← okOr "missing input file" locals.inputPaths.head?
  let outputPath ← okOr "missing -o output.qzt" locals.outputPath
  locals.options.chunker.validate.mapError (QztError.display kindText)
  let denseLineIndex := locals.denseLineIndex.getD (decide (locals.profile = "memory"))
  rejectIf (inputPath = "-" ∧ locals.profile ≠ "core") (stdinProfileMessage locals.profile)
  rejectIf (inputPath = "-" ∧ denseLineIndex = true) stdinDenseMessage
  .ok {
    inputPath
    outputPath
    options := locals.options
    profile := locals.profile
    denseLineIndex }

end PackArgs

/-! ## The open output file -/

/-- The output file while a writer has it, and the number of operations on it. -/
structure OutputFile where
  view : SinkView
  calls : Nat

/-- An operation on the file.  A fault takes its place; what it has written by then stays. -/
def OutputFile.operation {α : Type} (faults : Nat → Option (WriteFault IoErrorKind))
    (op : SinkView → Except IoErrorKind α × SinkView) (partly : Nat → SinkView → SinkView)
    (self : OutputFile) : Except IoErrorKind α × OutputFile :=
  match faults self.calls with
  | none => ((op self.view).1, { view := (op self.view).2, calls := self.calls + 1 })
  | some fault =>
    (.error fault.error, { view := partly fault.written self.view, calls := self.calls + 1 })

/-- The file as the writer's sink. -/
def fileSink (faults : Nat → Option (WriteFault IoErrorKind)) : Sink OutputFile where
  streamPosition := OutputFile.operation faults memorySink.streamPosition fun _ view => view
  seekStart := fun n => OutputFile.operation faults (memorySink.seekStart n) fun _ view => view
  seekEnd := OutputFile.operation faults memorySink.seekEnd fun _ view => view
  writeAll := fun bytes =>
    OutputFile.operation faults (memorySink.writeAll bytes) fun written view =>
      (memorySink.writeAll (bytes.take written) view).2
  readExact := fun n => OutputFile.operation faults (memorySink.readExact n) fun _ view => view
  flush := OutputFile.operation faults memorySink.flush fun _ view => view

/-! ## Packing -/

/-- What reads of an input return before its end or an error. -/
def FileReads.stream (reads : FileReads) :
    Except IoError (List UInt8) → List (List UInt8) × Option IoError
  | .ok bytes => ((reads.streamed bytes).pieces, (reads.streamed bytes).failure)
  | .error error => ([], some error)

/-- `?` on the result of a read that failed, and `finish` at the end of the input. -/
def endInput {env : Env} {σ : Type} (sink : Sink σ) :
    Option IoError → ExceptT CliError (StateM (QztFileWriter env σ)) PUnit
  | some error => throw (.io error)
  | none => onError (QztFileWriter.finish sink) fun error => pure (.qzt error)

/-- The read loop of `run_pack`, and `finish`. -/
def pushInput {env : Env} {σ : Type} (sink : Sink σ) (input : List (List UInt8) × Option IoError) :
    ExceptT CliError (StateM (QztFileWriter env σ)) PUnit := do
  onError (pushAll sink input.1) fun error => pure (.qzt error)
  endInput sink input.2

/-- The closure that `run_pack` hands to `write_atomically`. -/
def packStream (env : Env) (options : WriterOptions)
    (faults : Nat → Option (WriteFault IoErrorKind)) (input : List (List UInt8) × Option IoError) :
    WriteCallback := fun found =>
  let opened : OutputFile := {
    view := { contents := found, position := 0, synced := true }
    calls := 0 }
  match QztFileWriter.new env (fileSink faults) opened options with
  | .error (error, file) => (.error (.qzt error), file.view.contents)
  | .ok writer =>
    let run := (pushInput (fileSink faults) input).run.run writer
    (run.1, run.2.writer.view.contents)

/-- The failures of the writes of one run: of the operations on the open file, or of the write of
a whole container. -/
structure PackFaults where
  operations : Nat → Option (WriteFault IoErrorKind)
  container : Option (WriteFault IoError)

variable (env : Env) (host : Host) (reads : FileReads)

/-- The input of the streaming path. -/
def openInput (inputPath : String) (stdin : List UInt8) : CliM (Except IoError (List UInt8)) :=
  if inputPath = "-" then pure (.ok stdin)
  else do
    liftIo (openFile (Path.ofString inputPath))
    let s ← get
    pure (readTree reads.special s.tree (Path.ofString inputPath))

/-- The streaming path of `run_pack`. -/
def packStreaming (args : PackArgs) (stdin : List UInt8) (faults : PackFaults) : CliM PUnit := do
  let input ← openInput reads args.inputPath stdin
  let inputs := if args.inputPath = "-" then [] else [Path.ofString args.inputPath]
  writeAtomically host (Path.ofString args.outputPath) inputs true
    (packStream env args.options faults.operations (reads.stream input))

/-- The builder of the other path. -/
def packBuilder (args : PackArgs) : WriterBuilder where
  options := args.options
  profile := args.profile
  denseLineIndex := some args.denseLineIndex

/-- The path of `run_pack` that takes the whole input at once. -/
def packWhole (args : PackArgs) (faults : PackFaults) : CliM PUnit := do
  let input ← liftIo (readFile reads.special (Path.ofString args.inputPath))
  let container ← liftQzt ((packBuilder args).pack env input)
  writeContainerAtomically host (Path.ofString args.outputPath) [Path.ofString args.inputPath]
    container faults.container

/-- The check before an input that is a file is opened. -/
def checkPackCollision (args : PackArgs) : CliM PUnit :=
  if args.inputPath = "-" then pure ⟨⟩
  else
    checkOutputCollision host (Path.ofString args.outputPath) [Path.ofString args.inputPath]

/-- The closure of `run_pack`. -/
def packInput (args : PackArgs) (stdin : List UInt8) (faults : PackFaults) : CliM PUnit := do
  checkPackCollision host args
  if args.profile = "core" ∧ args.denseLineIndex = false then
    packStreaming env host reads args stdin faults
  else packWhole env host reads args faults

/-- How `run_pack` ends. -/
inductive PackExit where
  | help
  | usage (message : String)
  | packed
  /-- `--profile memory` without a document index has a message of its own. -/
  | needsDocumentIndex
  | failed (error : CliError)
  deriving DecidableEq, Repr

/-- The exit of a run that was started. -/
def PackExit.ofResult (profile : String) : Except CliError PUnit → PackExit
  | .ok _ => .packed
  | .error error =>
    if error = .qzt .metadataInvalid ∧ profile = "memory" then .needsDocumentIndex
    else .failed error

/-- `run_pack`. -/
def runPack (args : List String) (stdin : List UInt8) (faults : PackFaults) :
    StateM Disk PackExit := do
  if "--help" ∈ args ∨ "-h" ∈ args then
    pure .help
  else
    match PackArgs.parse host.kindText args with
    | .error message => pure (.usage message)
    | .ok parsed =>
      let result ← (packInput env host reads parsed stdin faults).run
      pure (.ofResult parsed.profile result)

end Qzt
