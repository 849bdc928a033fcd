import Qzt.Cli.Files
import Qzt.Writer.Pack

/-!
# Packing documents (`pack-docs` in `main.rs`)

`pack-docs` concatenates its input files and packs them with one document for each file, named
by a prefix and the file's name.
-/

namespace Qzt

open Foundation

/-! ## Arguments -/

/-- `PACK_DOCS_MEMORY_DEFAULT_TARGET_CHUNK_SIZE`. -/
def packDocsMemoryDefaultTargetChunkSize : Nat := 256 * 1024

/-- `PACK_DOCS_MEMORY_DEFAULT_MAX_CHUNK_SIZE`. -/
def packDocsMemoryDefaultMaxChunkSize : Nat := 2 * 1024 * 1024

/-- `PackDocsArgs`. -/
structure PackDocsArgs where
  inputPaths : List String
  outputPath : String
  docIdPrefix : String
  options : WriterOptions
  profile : String
  denseLineIndex : Option Bool
  deriving DecidableEq, Repr

/-- The local variables of `PackDocsArgs::parse`. -/
structure PackDocsLocals where
  inputPaths : List String := []
  outputPath : Option String := none
  docIdPrefix : String := ""
  options : WriterOptions := .default
  profile : String := "core"
  denseLineIndex : Option Bool := none
  targetChunkSizeConfigured : Bool := false
  maxChunkSizeConfigured : Bool := false

/-- The options of `pack-docs`.  Each takes the next argument for its value. -/
inductive PackDocsOption where
  | output
  | docIdPrefix
  | profile
  | chunkSize
  | maxChunkSize
  | zstdLevel
  | checksum
  | dict
  | denseLineIndex

/-- The option that an argument names. -/
def PackDocsOption.ofArg : String → Option PackDocsOption
  | "-o" | "--output" => some .output
  | "--doc-id-prefix" => some .docIdPrefix
  | "--profile" => some .profile
  | "--chunk-size" => some .chunkSize
  | "--max-chunk-size" => some .maxChunkSize
  | "--zstd-level" => some .zstdLevel
  | "--checksum" => some .checksum
  | "--dict" => some .dict
  | "--dense-line-index" => some .denseLineIndex
  | _ => none

/-- The arm of an option, with the next argument. -/
def PackDocsOption.set (self : PackDocsLocals) (value : Option String) :
    PackDocsOption → Except String PackDocsLocals
  | .output => do
    let path ← okOr "missing output path" value
    .ok { self with outputPath := some path }
  | .docIdPrefix => do
    let docIdPrefix ← okOr "missing --doc-id-prefix value" value
    .ok { self with docIdPrefix }
  | .profile => do
    let profile ← okOr "missing --profile value" value
    rejectIf (profile ∉ ["minimal", "core", "log", "archive", "memory"]) "invalid --profile value"
    .ok { self with profile }
  | .chunkSize => do
    let size ← okOr "invalid --chunk-size" (value.bind parseU64)
    .ok { self with
      options.chunker.targetChunkSize := size
      targetChunkSizeConfigured := true }
  | .maxChunkSize => do
    let size ← okOr "invalid --max-chunk-size" (value.bind parseU64)
    .ok { self with
      options.chunker.maxChunkSize := size
      maxChunkSizeConfigured := true }
  | .zstdLevel => do
    let level ← okOr "invalid --zstd-level" (value.bind parseI32)
    .ok { self with options.zstdLevel := level }
  | .checksum => do
    rejectIf (value ≠ some "blake3") "only blake3 checksum is supported"
    .ok self
  | .dict => do
    rejectIf (value ≠ some "none") "CLI dictionary writing is not implemented"
    .ok self
  | .denseLineIndex => do
    let value ← okOr "missing --dense-line-index value" value
    rejectIf (value ∉ ["on", "off"]) "invalid --dense-line-index value"
    .ok { self with denseLineIndex := some (value = "on") }

namespace PackDocsArgs

/-- The loop of `parse`. -/
def parseLoop : List String → PackDocsLocals → Except String PackDocsLocals
  | [], self => .ok self
  | arg :: args, self =>
    match PackDocsOption.ofArg arg, args with
    | some option, [] => option.set self none
    | some option, value :: args => do
      let self ← option.set self (some value)
      parseLoop args self
    | none, args =>
      if arg.toList.head? = some '-' then .error ("unknown option '" ++ arg ++ "'")
      else parseLoop args { self with inputPaths := self.inputPaths ++ [arg] }

/-- The chunk sizes of the memory profile, where they were not configured. -/
def memoryChunker (self : PackDocsLocals) : ChunkerOptions :=
  let chunker := self.options.chunker
  let targetChunkSize :=
    if self.targetChunkSizeConfigured then chunker.targetChunkSize
    else if self.maxChunkSizeConfigured then
      min packDocsMemoryDefaultTargetChunkSize chunker.maxChunkSize
    else packDocsMemoryDefaultTargetChunkSize
  let maxChunkSize :=
    if self.maxChunkSizeConfigured then chunker.maxChunkSize
    else max packDocsMemoryDefaultMaxChunkSize targetChunkSize
  { targetChunkSize, maxChunkSize }

end PackDocsArgs

/-- `pack_docs_document_id`. -/
def packDocsDocumentId (inputPath docIdPrefix : String) : Option String := do
  let basename ← (Path.ofString inputPath).fileName
  some (docIdPrefix ++ basename)

namespace PackDocsArgs

/-- The loop of `validate` over the inputs, with the identifiers seen so far. -/
def validateLoop (docIdPrefix : String) : List String → List String → Except String PUnit
  | [], _ => .ok ⟨⟩
  | inputPath :: inputPaths, docIds => do
    let docId ← okOr "input path has no UTF-8 basename" (packDocsDocumentId inputPath docIdPrefix)
    rejectIf (docId ∈ docIds) ("duplicate doc_id: " ++ docId)
    validateLoop docIdPrefix inputPaths (docId :: docIds)

/-- `PackDocsArgs::validate`. -/
def validate (kindText : IoErrorKind → String) (self : PackDocsArgs) : Except String PUnit := do
  self.options.chunker.validate.mapError (QztError.display kindText)
  rejectIf ("-" ∈ self.inputPaths) "stdin is not supported; provide input file paths"
  validateLoop self.docIdPrefix self.inputPaths []

/-- `PackDocsArgs::parse`. -/
def parse (kindText : IoErrorKind → String) (args : List String) : Except String PackDocsArgs := do
  let locals ← parseLoop args {}
  rejectIf (locals.inputPaths = []) "missing input file"
  let outputPath ← okOr "missing -o output.qzt" locals.outputPath
  let chunker := if locals.profile = "memory" then memoryChunker locals else locals.options.chunker
  let parsed : PackDocsArgs := {
    inputPaths := locals.inputPaths
    outputPath
    docIdPrefix := locals.docIdPrefix
    options := { locals.options with chunker }
    profile := locals.profile
    denseLineIndex := locals.denseLineIndex }
  parsed.validate kindText
  .ok parsed

end PackDocsArgs

/-! ## Packing -/

variable (special : Path → Except IoError (List UInt8))

/-- The loop of `load_pack_docs_input`, with the input and the spans so far. -/
def loadLoop (docIdPrefix : String) : List String → List UInt8 → List DocumentSpan →
    CliM (List UInt8 × List DocumentSpan)
  | [], input, spans => pure (input, spans)
  | inputPath :: inputPaths, input, spans => do
    let docId ← liftM (okOr (CliError.io (ioError .invalidInput "input path has no UTF-8 basename"))
      (packDocsDocumentId inputPath docIdPrefix))
    let bytes ← liftIo (readFile special (Path.ofString inputPath))
    let offset ← liftQzt (usizeToU64 input.length)
    let byteLength ← liftQzt (usizeToU64 bytes.length)
    loadLoop docIdPrefix inputPaths (input ++ bytes)
      (spans ++ [{ docId, logicalOffset := offset, byteLength }])

/-- `load_pack_docs_input`. -/
def loadPackDocsInput (args : PackDocsArgs) : CliM (List UInt8 × List DocumentSpan) :=
  loadLoop special args.docIdPrefix args.inputPaths [] []

/-- The builder of `build_pack_docs_container`. -/
def packDocsBuilder (options : WriterOptions) (profile : String) (denseLineIndex : Option Bool)
    (spans : List DocumentSpan) : WriterBuilder where
  options
  profile
  denseLineIndex
  documentSpans := some spans

/-- `build_pack_docs_container`. -/
def buildPackDocsContainer (env : Env) (options : WriterOptions) (profile : String)
    (denseLineIndex : Option Bool) (input : List UInt8) (spans : List DocumentSpan) :
    CliM (List UInt8) :=
  liftQzt ((packDocsBuilder options profile denseLineIndex spans).pack env input)

/-- `pack_docs`.  A fault stops the write of the container. -/
def packDocs (env : Env) (host : Host) (args : PackDocsArgs) (fault : Option (WriteFault IoError)) :
    CliM PUnit := do
  let inputRefs := args.inputPaths.map Path.ofString
  checkOutputCollision host (Path.ofString args.outputPath) inputRefs
  let (input, spans) ← loadPackDocsInput special args
  let container ← buildPackDocsContainer env args.options args.profile args.denseLineIndex input spans
  writeContainerAtomically host (Path.ofString args.outputPath) inputRefs container fault

/-- How `run_pack_docs` ends. -/
inductive PackDocsExit where
  | help
  | usage (message : String)
  | packed
  | failed (error : CliError)
  deriving DecidableEq, Repr

/-- The exit of a run that was started. -/
def PackDocsExit.ofResult : Except CliError PUnit → PackDocsExit
  | .ok _ => .packed
  | .error error => .failed error

/-- `run_pack_docs`. -/
def runPackDocs (env : Env) (host : Host) (args : List String) (fault : Option (WriteFault IoError)) :
    StateM Disk PackDocsExit := do
  if "--help" ∈ args ∨ "-h" ∈ args then
    pure .help
  else
    match PackDocsArgs.parse host.kindText args with
    | .error message => pure (.usage message)
    | .ok parsed =>
      let result ← (packDocs special env host parsed fault).run
      pure (.ofResult result)

end Qzt
