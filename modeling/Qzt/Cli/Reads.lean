import Qzt.Cli.Context
import Qzt.Cli.Files

/-!
# Reading parts of a container (`range`, `line` and `doc` in `main.rs`)

`range` prints bytes or lines, `line` prints one line, and `doc` looks a document up by its name
and reads it, against its checksum unless it is told not to.
-/

namespace Qzt

open Foundation

/-! ## Ranges of arguments -/

/-- `split_once(':')`, into characters. -/
def splitOnceColon (range : String) : Option (List Char × List Char) :=
  match range.toList.span (· ≠ ':') with
  | (front, _ :: back) => some (front, back)
  | (_, []) => none

/-- `parse_range`. -/
def parseRange (range : String) : Option (Nat × Nat) := do
  let (front, back) ← splitOnceColon range
  let start ← parseU64 (String.ofList front)
  let stop ← parseU64 (String.ofList back)
  if start ≤ stop then some (start, stop) else none

/-- `parse_line_range`. -/
def parseLineRange (range : String) : Option (Nat × Nat) := do
  let (start, stop) ← parseRange range
  if 0 < start ∧ start ≤ stop then some (start, stop) else none

/-! ## Lines -/

/-- The loop of `read_line_range_file`, with `remaining` lines left. -/
def readLineRangeLoop (readLineRaw : Nat → Result (List UInt8)) :
    Nat → Nat → List UInt8 → Result (List UInt8)
  | 0, _, output => .ok output
  | remaining + 1, line, output => do
    let bytes ← readLineRaw (line - 1)
    readLineRangeLoop readLineRaw remaining (line + 1) (output ++ bytes)

/-- `read_line_range_file`. -/
def readLineRangeFile (env : Env) (reader : QztFileReader) (startOneBased endOneBased : Nat) :
    Result (List UInt8) :=
  readLineRangeLoop (reader.readLineRaw env) (endOneBased + 1 - startOneBased) startOneBased []

/-! ## Commands that print -/

variable (env : Env) (host : Host) (reads : FileReads)

/-- A command that opens a container, reads from it and prints what it has read. -/
def printRead (path : String) (read : QztFileReader → Result (List UInt8))
    (fault : Option (WriteFault IoError)) : StateM Disk (CommandExit × List UInt8) := do
  let result ← (do
    let reader ← openPath env reads (Path.ofString path)
    liftQzt (read reader) : CliM (List UInt8)).run
  match result with
  | .error error => pure (.failed error, [])
  | .ok bytes => pure (writeStdout bytes fault)

/-- What `run_range` reads. -/
inductive RangeRequest where
  | bytes (start stop : Nat)
  | lines (start stop : Nat)
  deriving DecidableEq, Repr

/-- The check that no argument is left. -/
def rejectArgument : Option String → Except String Unit
  | some arg => .error ("unknown option '" ++ arg ++ "'")
  | none => .ok ⟨⟩

/-- The arguments of `run_range`: the path and what is read. -/
def parseRangeArgs : List String → Except String (String × RangeRequest)
  | [] => .error "missing file"
  | [_] => .error "missing --bytes A:B or --lines A:B"
  | path :: flag :: args => do
    rejectIf (flag ≠ "--bytes" ∧ flag ≠ "--lines") "expected --bytes A:B or --lines A:B"
    let range ← okOr "missing range" args.head?
    rejectArgument args.tail.head?
    if flag = "--bytes" then do
      let (start, stop) ← okOr "invalid byte range" (parseRange range)
      .ok (path, .bytes start stop)
    else do
      let (start, stop) ← okOr "invalid line range" (parseLineRange range)
      .ok (path, .lines start stop)

/-- The reads of `run_range`. -/
def RangeRequest.read (reader : QztFileReader) : RangeRequest → Result (List UInt8)
  | .bytes start stop => reader.readRange env start (stop - start)
  | .lines start stop => readLineRangeFile env reader start stop

/-- `run_range`: its exit, and what the standard output has received. -/
def runRange (args : List String) (fault : Option (WriteFault IoError)) :
    StateM Disk (CommandExit × List UInt8) :=
  match parseRangeArgs args with
  | .error message => pure (.usage message, [])
  | .ok (path, request) => printRead env reads path (request.read env) fault

/-- The options of `run_line` behind the line. -/
def parseLineOptions : List String → Bool → Except String Bool
  | [], zeroBased => .ok zeroBased
  | arg :: args, _ =>
    if arg = "--zero-based" then parseLineOptions args true
    else .error ("unknown option '" ++ arg ++ "'")

/-- The arguments of `run_line`: the path and the number of the line, from zero. -/
def parseLineArgs : List String → Except String (String × Nat)
  | [] => .error "missing file"
  | [_] => .error "missing line number"
  | path :: line :: args => do
    let zeroBased ← parseLineOptions args false
    let lineNumber ← okOr "invalid line number" (parseU64 line)
    if zeroBased = true then .ok (path, lineNumber)
    else do
      rejectIf (lineNumber = 0) "line numbers are 1-based by default"
      .ok (path, lineNumber - 1)

/-- `run_line`: its exit, and what the standard output has received. -/
def runLine (args : List String) (fault : Option (WriteFault IoError)) :
    StateM Disk (CommandExit × List UInt8) :=
  match parseLineArgs args with
  | .error message => pure (.usage message, [])
  | .ok (path, line) => printRead env reads path (fun reader => reader.readLineRaw env line) fault

/-! ## Reading one document -/

/-- The closure of `run_doc`, from the open reader. -/
def docBytes (env : Env) (reader : QztFileReader) (docId : String) (noVerify : Bool) :
    Context.Build (List UInt8) :=
  if noVerify then
    Context.lift (reader.readDocument env docId)
  else do
    let documentIndex ← Context.lift (okOr .missingRequiredBlock reader.details.documentIndex)
    let pos ← Context.lift (okOr .documentNotFound (reader.details.documentLookup.lookup docId))
    let entry ← Context.item documentIndex.documents pos
    let expected := entry.checksum
    Context.lift (reader.readDocumentVerified env docId expected)

/-- The parsed arguments of `run_doc`. -/
structure DocArgs where
  path : String
  docId : String
  outputPath : Option String
  noVerify : Bool
  deriving DecidableEq, Repr

namespace DocArgs

/-- The loop over the options. -/
def parseLoop : List String → DocArgs → Except String DocArgs
  | [], self => .ok self
  | arg :: args, self =>
    if arg = "-o" ∨ arg = "--output" then
      match args with
      | [] => .error "missing output path"
      | path :: args => parseLoop args { self with outputPath := some path }
    else if arg = "--no-verify" then parseLoop args { self with noVerify := true }
    else .error ("unknown option '" ++ arg ++ "'")

/-- The arguments of `run_doc`. -/
def parse : List String → Except String DocArgs
  | [] => .error "missing file"
  | [_] => .error "missing doc_id"
  | path :: docId :: args => parseLoop args { path, docId, outputPath := none, noVerify := false }

end DocArgs

/-- The check of the output before the container is opened. -/
def checkDocOutput (args : DocArgs) : CliM PUnit :=
  match args.outputPath with
  | some output =>
    checkOutputCollision host (Path.ofString output) [Path.ofString args.path]
  | none => pure ⟨⟩

/-- The closure of `run_doc`.  What it reads may panic. -/
def readDoc (args : DocArgs) : CliM (Context.Build (List UInt8)) := do
  checkDocOutput host args
  let reader ← openPath env reads (Path.ofString args.path)
  pure (docBytes env reader args.docId args.noVerify)

/-- What `run_doc` does with the bytes. -/
def deliverDoc (args : DocArgs) (bytes : List UInt8) (fault : Option (WriteFault IoError)) :
    StateM Disk (CommandExit × List UInt8) :=
  match args.outputPath with
  | some output => do
    let result ← (writeContainerAtomically host (Path.ofString output) [Path.ofString args.path]
      bytes fault).run
    pure (.ofResult result, [])
  | none => pure (writeStdout bytes fault)

/-- `run_doc`: its exit, and what the standard output has received. -/
def runDoc (args : List String) (fault : Option (WriteFault IoError)) :
    StateM Disk (CommandExit × List UInt8) :=
  match DocArgs.parse args with
  | .error message => pure (.usage message, [])
  | .ok parsed => do
    match ← (readDoc env host reads parsed).run with
    | .error error => pure (.failed error, [])
    | .ok (.error (.qzt error)) => pure (.failed (.qzt error), [])
    | .ok (.error .panic) => pure (.panicked, [])
    | .ok (.ok bytes) => deliverDoc host parsed bytes fault

end Qzt
