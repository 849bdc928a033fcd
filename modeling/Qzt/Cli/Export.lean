import Qzt.Cli.Files

/-!
# Exporting a container (`export` in `main.rs`, `export_to` in `reader.rs`)

`export` decodes one chunk after the other into a buffered writer, over a new output file or over
the standard output.
-/

namespace Qzt

open Foundation

/-! ## Decoding into a writer -/

/-- `export_to` of both readers, into any writer. -/
def exportTo {ε σ : Type} (kindOf : ε → IoErrorKind) (decodeEntry : DecodeEntry)
    (writeAll : List UInt8 → ExceptT ε (StateM σ) PUnit) :
    List ChunkEntry → ExceptT QztError (StateM σ) PUnit
  | [] => pure ⟨⟩
  | entry :: entries => do
    let decoded ← liftM (decodeEntry entry)
    onError (writeAll decoded) fun error => pure (.io (kindOf error))
    exportTo kindOf decodeEntry writeAll entries

/-- The capacity of `BufWriter::new`. -/
def bufWriterCapacity : Nat := 8 * 1024

/-- `export_to` into a buffered writer, and its `flush`. -/
def exportBuffered (env : Env) (kindOf : ErrorKind → IoErrorKind) (reader : QztFileReader)
    (faults : Nat → Option (WriteFault IoError)) :
    ExceptT CliError (StateM (BufWriter UInt8 bufWriterCapacity)) PUnit := do
  onError (exportTo (fun error : IoError => kindOf error.kind) (reader.decodeEntry env)
    (BufWriter.writeAll faults) reader.details.chunkEntries) fun error => pure (.qzt error)
  onError (BufWriter.flush faults) fun error => pure (.io error)

/-- The closure of `run_export`, over the bytes of a file or of the standard output. -/
def exportOver (env : Env) (kindOf : ErrorKind → IoErrorKind) (reader : QztFileReader)
    (faults : Nat → Option (WriteFault IoError)) : WriteCallback := fun found =>
  let run := (exportBuffered env kindOf reader faults).run.run
    (BufWriter.new { contents := found, writes := 0 })
  (run.1, (run.2.dropped faults).contents)

/-! ## The command -/

/-- The parsed arguments of `run_export`. -/
structure ExportArgs where
  path : String
  outputPath : Option String
  deriving DecidableEq, Repr

namespace ExportArgs

/-- The loop over the arguments behind the path. -/
def parseLoop : List String → ExportArgs → Except String ExportArgs
  | [], self => .ok self
  | arg :: args, self =>
    if arg = "-o" ∨ arg = "--output" then
      match args with
      | [] => .error "missing output path"
      | path :: args => parseLoop args { self with outputPath := some path }
    else .error ("unknown option '" ++ arg ++ "'")

/-- The arguments of `run_export`. -/
def parse : List String → Except String ExportArgs
  | [] => .error "missing file"
  | path :: args => parseLoop args { path, outputPath := none }

end ExportArgs

variable (env : Env) (host : Host) (reads : FileReads)

/-- `run_export` into a file. -/
def exportFile (path output : String) (faults : Nat → Option (WriteFault IoError)) : CliM PUnit := do
  checkOutputCollision host (Path.ofString output) [Path.ofString path]
  let reader ← openPath env reads (Path.ofString path)
  writeAtomically host (Path.ofString output) [Path.ofString path] false
    (exportOver env reads.kindOf reader faults)

/-- What a command returns, and what the standard output has received. -/
structure Printed where
  result : Except CliError PUnit
  stdout : List UInt8

/-- What is printed through a reader that was opened, or was not. -/
def Printed.ofOpened (faults : Nat → Option (WriteFault IoError)) :
    Except CliError QztFileReader → Printed
  | .error error => { result := .error error, stdout := [] }
  | .ok reader =>
    let run := exportOver env reads.kindOf reader faults []
    { result := run.1, stdout := run.2 }

/-- `run_export` to the standard output. -/
def exportStdout (path : String) (faults : Nat → Option (WriteFault IoError)) :
    StateM Disk Printed := do
  let opened ← (openPath env reads (Path.ofString path)).run
  pure (.ofOpened env reads faults opened)

/-- `run_export`: its exit, and what the standard output has received. -/
def runExport (args : List String) (faults : Nat → Option (WriteFault IoError)) :
    StateM Disk (CommandExit × List UInt8) :=
  match ExportArgs.parse args with
  | .error message => pure (.usage message, [])
  | .ok { path, outputPath := some output } => do
    let result ← (exportFile env host reads path output faults).run
    pure (.ofResult result, [])
  | .ok { path, outputPath := none } => do
    let printed ← exportStdout env reads path faults
    pure (.ofResult printed.result, printed.stdout)

end Qzt
