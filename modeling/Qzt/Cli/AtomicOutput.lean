import Qzt.Foundation.FileSystem
import Qzt.Format.Errors

/-!
# Replacing an output file (`main.rs`, `cli_output_security.rs`)

The command line writes its output to a new temporary file beside the destination and
renames it into place.  This is the Unix build; the access control list is copied as on
Linux.
-/

namespace Qzt

open Foundation

/-! ## Errors -/

/-- `impl Display for QztError`.  `kindText` is the standard library's text for an error kind. -/
def QztError.display (kindText : IoErrorKind → String) : QztError → String
  | .invalidMagic => "invalid magic bytes: not a QZT container"
  | .unsupportedVersion => "unsupported QZT format version"
  | .invalidHeader => "fixed header is malformed"
  | .invalidFooterTrailer => "fixed footer trailer is malformed"
  | .invalidFooterPayload => "footer payload is malformed"
  | .nonCanonicalCbor => "CBOR is not in the deterministic canonical form"
  | .duplicateCborKey => "CBOR map contains duplicate keys"
  | .footerChecksumMismatch => "footer payload checksum mismatch"
  | .finalFileSizeMismatch => "final file size does not match the footer"
  | .containerIdMismatch => "container id mismatch between header and footer"
  | .metadataChecksumMismatch => "metadata block checksum mismatch"
  | .metadataInvalid => "metadata block is invalid"
  | .duplicateDocumentId => "document index contains a duplicate document id"
  | .versionMismatch => "version mismatch between blocks"
  | .newlineModeMismatch => "newline mode mismatch between metadata and content"
  | .indexRootChecksumMismatch => "index root checksum mismatch"
  | .missingRequiredBlock => "a required block is missing"
  | .unknownRequiredBlock => "an unknown block is marked as required"
  | .documentNotFound => "document id not found in the document index"
  | .invalidFlags => "reserved flags contain unexpected bits"
  | .chunkTableChecksumMismatch => "chunk table checksum mismatch"
  | .chunkTableInvalid => "chunk table is invalid"
  | .chunkCountMismatch => "chunk count mismatch"
  | .chunkSizeMismatch => "chunk size mismatch"
  | .physicalRangeOutOfBounds => "physical byte range is out of bounds"
  | .logicalRangeOutOfBounds => "logical byte range is out of bounds"
  | .invalidUtf8 => "content is not valid UTF-8"
  | .invalidUtf8Boundary => "range does not start or end on a UTF-8 boundary"
  | .lineOutOfRange => "line number is out of range"
  | .missingDictionary => "a chunk references a missing dictionary"
  | .dictionaryChecksumMismatch => "dictionary checksum mismatch"
  | .compressedChunkChecksumMismatch => "compressed chunk checksum mismatch"
  | .uncompressedChunkChecksumMismatch => "uncompressed chunk checksum mismatch"
  | .zstdEncodeError => "zstd compression failed"
  | .zstdDecodeError => "zstd decompression failed"
  | .containerCorrupt => "container is corrupt"
  | .resourceLimitExceeded => "a resource limit was exceeded"
  | .rangeOverlap => "physical ranges overlap"
  | .unexpectedEof => "unexpected end of input"
  | .nonEmptyWriterSink => "writer sink is not empty"
  | .writerAlreadyFinished => "writer has already been finished"
  | .verifiedChecksumMismatch => "verified content checksum mismatch"
  | .benchmarkMetricsMismatch => "benchmark metrics mismatch"
  | .io kind => "I/O error: " ++ kindText kind
  | .unsupportedIndexMode mode => "index mode " ++ mode ++ " is not supported"

/-- `CliError`. -/
inductive CliError where
  | io (error : IoError)
  | qzt (error : QztError)
  | replacementUnconfirmed (error : IoError)
  | durabilityUnconfirmed (error : IoError)
  deriving DecidableEq, Repr

/-- `impl Display for CliError`. -/
def CliError.display (kindText : IoErrorKind → String) : CliError → String
  | .io error => "I/O error: " ++ error.message
  | .qzt error => error.display kindText
  | .replacementUnconfirmed error =>
    "output replacement failed or its outcome is unconfirmed; inspect the output path: " ++
      error.message
  | .durabilityUnconfirmed error =>
    "output replaced, but directory durability is unconfirmed: " ++ error.message

/-- `std::io::Error::new` with a message. -/
def ioError (kind : ErrorKind) (message : String) : IoError :=
  { kind, rawOsError := none, message }

/-! ## What surrounds the program -/

/-- The process and the libraries it calls.  `sameFile` is the `same-file` crate on a tree. -/
structure Host where
  processId : Nat
  kindText : IoErrorKind → String
  sameFile : Tree → Path → Path → Except IoError Bool
  /-- Two paths that lead to one regular file are the same file. -/
  sameFile_of_resolve : ∀ (tree : Tree) (path other : Path) (location : Location) (state : FileState),
    tree.resolve path.location = some location → tree.resolve other.location = some location →
      tree location = some (.file state) → sameFile tree path other = .ok true

/-- A computation of the command line. -/
abbrev CliM := ExceptT CliError (StateM Disk)

/-- `impl From<std::io::Error> for CliError`, at a `?`. -/
def liftIo {α : Type} (m : DiskM α) : CliM α :=
  onError m fun error => pure (.io error)

variable (host : Host)

/-- `same_file::is_same_file`. -/
def isSameFile (path other : Path) : DiskM Bool :=
  Disk.step (.isSameFile path other) true fun tree => do
    .ok (← host.sameFile tree path other, tree)

/-! ## Collisions -/

/-- The loop of `check_output_collision` over the inputs. -/
def checkInputs (outputPath : Path) : List Path → CliM PUnit
  | [] => pure ⟨⟩
  | input :: inputs => do
    if ← liftIo (isSameFile host input outputPath) then
      throw (.io (ioError .invalidInput
        ("input and output refer to the same file: " ++ input.display)))
    else
      checkInputs outputPath inputs

/-- `check_output_collision`. -/
def checkOutputCollision (outputPath : Path) (inputs : List Path) : CliM PUnit := do
  match ← attempt (symlinkMetadata outputPath) with
  | .ok metadata =>
    if metadata.isSymlink then
      throw (.io (ioError .invalidInput "output path is a symlink"))
    else if !metadata.isFile then
      throw (.io (ioError .invalidInput "output path is not a regular file"))
    else
      checkInputs host outputPath inputs
  | .error error =>
    if error.kind = .notFound then pure ⟨⟩ else throw (.io error)

/-! ## The temporary file -/

/-- `output_parent`. -/
def outputParent (outputPath : Path) : Path :=
  match outputPath.parent with
  | some parent => if parent.components = [] then ⟨[.curDir]⟩ else parent
  | none => ⟨[.curDir]⟩

/-- The error of a failed cleanup. -/
def removalFailure (tempOutputPath : Path) (primaryError : CliError) (cleanupError : IoError) :
    CliError :=
  .io (ioError .other
    (primaryError.display host.kindText ++ "; additionally failed to remove temporary output " ++
      tempOutputPath.display ++ ": " ++ cleanupError.message))

/-- `cleanup_atomic_output`. -/
def cleanupAtomicOutput (tempOutputPath : Path) (primaryError : CliError) : StateM Disk CliError := do
  match ← (removeFile tempOutputPath).run with
  | .ok _ => pure primaryError
  | .error cleanupError =>
    if cleanupError.kind = .notFound then
      pure primaryError
    else
      pure (removalFailure host tempOutputPath primaryError cleanupError)

/-- `preserve_output_security`. -/
def preserveOutputSecurity (existing temp : Path) : DiskM PUnit := do
  openFile existing
  match ← attempt (getAcl (.aclLength existing) existing) with
  | .error error =>
    if error.rawOsError = some enodata then
      match ← attempt (removeAcl temp) with
      | .error removeError =>
        if removeError.rawOsError ≠ some enodata then throw removeError else pure ⟨⟩
      | .ok _ => pure ⟨⟩
    else if error.rawOsError = some enotsup then
      pure ⟨⟩
    else
      throw error
  | .ok measured =>
    let acl ← getAcl (.readAcl existing) existing
    if acl.length ≠ measured.length then
      throw (ioError .other "output ACL changed during read")
    else
      setAcl temp acl

/-- The name of the temporary file at an attempt. -/
def temporaryName (fileName : String) (attempt : Nat) : String :=
  "." ++ fileName ++ ".qzt-tmp-" ++ toString host.processId ++ "-" ++ toString attempt

/-- What `create_atomic_output` does with a file it has just created. -/
def inheritMetadata (outputPath path : Path) : Option Nat → CliM PUnit
  | none => pure ⟨⟩
  | some permissions => do
    onError (liftIo (setPermissions path permissions)) (cleanupAtomicOutput host path)
    onError (liftIo (preserveOutputSecurity outputPath path)) (cleanupAtomicOutput host path)

/-- The loop of `create_atomic_output`, with `remaining` attempts left. -/
def tryTemporaryNames (outputPath : Path) (readAccess : Bool) (fileName : String)
    (inheritedPermissions : Option Nat) : Nat → Nat → CliM Path
  | 0, _ =>
    throw (.io (ioError .alreadyExists "could not allocate a unique temporary output file"))
  | remaining + 1, number => do
    let path := (outputParent outputPath).join (temporaryName host fileName number)
    match ← attempt (createNew path readAccess) with
    | .ok _ =>
      inheritMetadata host outputPath path inheritedPermissions
      pure path
    | .error error =>
      if error.kind = .alreadyExists then
        tryTemporaryNames outputPath readAccess fileName inheritedPermissions remaining (number + 1)
      else
        throw (.io error)

/-- `create_atomic_output`.  The open file is known by its path. -/
def createAtomicOutput (outputPath : Path) (readAccess : Bool) : CliM Path :=
  match outputPath.fileName with
  | none => throw (.io (ioError .invalidInput "output path has no file name"))
  | some fileName => do
    match ← attempt (symlinkMetadata outputPath) with
    | .ok (.file state) => tryTemporaryNames host outputPath readAccess fileName (some state.permissions) 128 0
    | .ok _ => tryTemporaryNames host outputPath readAccess fileName none 128 0
    | .error error =>
      if error.kind = .notFound then
        tryTemporaryNames host outputPath readAccess fileName none 128 0
      else
        throw (.io error)

/-! ## Replacement -/

/-- `replace_output`. -/
def replaceOutput (tempPath outputPath : Path) : DiskM PUnit :=
  rename tempPath outputPath

/-- `sync_output_directory`. -/
def syncOutputDirectory (outputPath : Path) : DiskM PUnit := do
  openDirectory (outputParent outputPath)
  syncDirectory (outputParent outputPath)

/-- What a callback does with the open file: from the bytes it finds to its result and the
bytes it leaves. -/
abbrev WriteCallback := List UInt8 → Except CliError PUnit × List UInt8

/-- The closure of `write_atomically`. -/
def writeAndReplace (outputPath : Path) (inputs : List Path) (write : WriteCallback)
    (tempPath : Path) : CliM PUnit := do
  withFile tempPath write
  liftIo (flush tempPath)
  liftIo (syncAll tempPath)
  checkOutputCollision host outputPath inputs
  onError (replaceOutput tempPath outputPath) fun error => pure (.replacementUnconfirmed error)
  onError (syncOutputDirectory outputPath) fun error => pure (.durabilityUnconfirmed error)

/-- `write_atomically`. -/
def writeAtomically (outputPath : Path) (inputs : List Path) (readAccess : Bool)
    (write : WriteCallback) : CliM PUnit := do
  checkOutputCollision host outputPath inputs
  let tempPath ← createAtomicOutput host outputPath readAccess
  onError (writeAndReplace host outputPath inputs write tempPath) (cleanupAtomicOutput host tempPath)

end Qzt
