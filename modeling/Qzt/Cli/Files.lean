import Qzt.Cli.AtomicOutput
import Qzt.Foundation.Buffered
import Qzt.Reader.FileSource

/-!
# Files and numbers of the command line (`main.rs`, `io.rs`)

What the commands share: the numbers of their arguments, whole files, the streams and the
containers they read, and the containers they write.  Paths are taken by their components, so
repeated and trailing slashes are gone.
-/

namespace Qzt

open Foundation

/-! ## Numbers -/

/-- The digits of a number, as `from_str` reads them. -/
def parseDigits (digits : List Char) : Option Nat :=
  if digits ≠ [] ∧ digits.all Char.isDigit = true then some (Nat.ofDigitChars 10 digits 0) else none

/-- A number may begin with a plus sign. -/
def stripPlus : List Char → List Char
  | '+' :: digits => digits
  | digits => digits

/-- `u64::from_str`, and `usize::from_str`. -/
def parseU64 (value : String) : Option Nat := do
  let number ← parseDigits (stripPlus value.toList)
  if number < 2 ^ 64 then some number else none

/-- `i32::from_str`. -/
def parseI32 (value : String) : Option Int32 :=
  match value.toList with
  | '-' :: digits => do
    let number ← parseDigits digits
    if number ≤ 2 ^ 31 then some (Int32.ofInt (-number)) else none
  | digits => do
    let number ← parseDigits (stripPlus digits)
    if number < 2 ^ 31 then some (Int32.ofNat number) else none

/-! ## Reading files -/

/-- The reads of a stream over `bytes` into a buffer of 64 KiB: the pieces they return, up to the
end or an error. -/
structure InputReads (bytes : List UInt8) where
  pieces : List (List UInt8)
  failure : Option IoError
  inOrder : pieces.flatten <+: bytes
  short : ∀ piece ∈ pieces, piece ≠ [] ∧ piece.length ≤ 64 * 1024
  whole : failure = none → pieces.flatten = bytes

/-- How the system serves files: where reads are cut and where they fail, what a device delivers
to a path, and the kinds of errors as `QztError` knows them. -/
structure FileReads where
  streamed : (bytes : List UInt8) → InputReads bytes
  positioned : (bytes : List UInt8) → bytes.length < 2 ^ 64 → PositionedFile
  positioned_bytes : ∀ bytes h, (positioned bytes h).bytes = bytes
  schedule : Nat → Nat → Nat
  special : Path → Except IoError (List UInt8)
  kindOf : ErrorKind → IoErrorKind

/-- What an entry delivers to `std::fs::read`. -/
def readEntry (special : Path → Except IoError (List UInt8)) (path : Path) :
    Entry → Except IoError (List UInt8)
  | .file state => .ok state.bytes
  | .special => special path
  | .directory | .symlink _ => .error isADirectoryError

/-- What `std::fs::read` finds on a tree. -/
def readTree (special : Path → Except IoError (List UInt8)) (tree : Tree) (path : Path) :
    Except IoError (List UInt8) :=
  match tree.readThrough path.location with
  | none => .error notFoundError
  | some entry => readEntry special path entry

/-- `std::fs::read`. -/
def readFile (special : Path → Except IoError (List UInt8)) (path : Path) : DiskM (List UInt8) :=
  Disk.step (.openFile path) true fun tree => do
    .ok (← readTree special tree path, tree)

/-- `impl From<QztError> for CliError`, at a `?`. -/
def liftQzt {α : Type} (result : Result α) : CliM α :=
  liftM (result.mapError CliError.qzt)

/-- The bytes at the positions of an entry.  A device has the length zero. -/
def positionedBytes : Entry → Option (List UInt8)
  | .file state => some state.bytes
  | .special => some []
  | .directory | .symlink _ => none

/-- A reader over bytes that are read at their positions.  No file is longer than `u64::MAX`. -/
def openBytes (env : Env) (reads : FileReads) (bytes : List UInt8) : Result QztFileReader :=
  if h : bytes.length < 2 ^ 64 then
    QztFileReader.openReadAtWithLimits env ((reads.positioned bytes h).source reads.schedule)
      bytes.length .default
  else .error (.io .invalidInput)

/-- `QztFileReader::open_path`.  The file is known by its bytes once it is open. -/
def openPath (env : Env) (reads : FileReads) (path : Path) : CliM QztFileReader := do
  onError (openFile path) fun error => pure (.qzt (.io (reads.kindOf error.kind)))
  let s ← get
  let bytes ← liftQzt (okOr (.io (reads.kindOf .isADirectory))
    ((s.tree.readThrough path.location).bind positionedBytes))
  liftQzt (openBytes env reads bytes)

/-! ## Writing files -/

/-- The callback of `write_container_atomically`. -/
def writeAll (container : List UInt8) : Option (WriteFault IoError) → WriteCallback
  | none, bytes => (.ok ⟨⟩, bytes ++ container)
  | some fault, bytes => (.error (.io fault.error), bytes ++ container.take fault.written)

/-- `write_container_atomically`. -/
def writeContainerAtomically (host : Host) (outputPath : Path) (inputs : List Path)
    (container : List UInt8) (fault : Option (WriteFault IoError)) : CliM PUnit :=
  writeAtomically host outputPath inputs false (writeAll container fault)

/-! ## Exits -/

/-- How a command ends. -/
inductive CommandExit where
  | usage (message : String)
  | success
  | failed (error : CliError)
  /-- The standard output has failed. -/
  | stdoutFailed (error : IoError)
  | panicked
  deriving DecidableEq, Repr

/-- The exit of a command that was started. -/
def CommandExit.ofResult : Except CliError PUnit → CommandExit
  | .ok _ => .success
  | .error error => .failed error

/-- `write_stdout`: the exit, and what the standard output has received. -/
def writeStdout (bytes : List UInt8) : Option (WriteFault IoError) → CommandExit × List UInt8
  | none => (.success, bytes)
  | some fault => (.stdoutFailed fault.error, bytes.take fault.written)

end Qzt
