import Qzt.Reader.Readers

/-!
# The batch writer (`writer.rs`)

`pack_bytes`, `WriterBuilder::pack` and the container assembly they share.  The
internal-testing override of the dense index is not modelled; the flag that skips the
document check is.
-/

namespace Qzt

open Foundation

/-! ## Options -/

/-- `WriterOptions`. -/
structure WriterOptions where
  chunker : ChunkerOptions
  zstdLevel : Int32
  deriving DecidableEq, Repr

/-- `WriterOptions::default`. -/
def WriterOptions.default : WriterOptions where
  chunker := { targetChunkSize := 4 * 1024 * 1024, maxChunkSize := 16 * 1024 * 1024 }
  zstdLevel := 0

/-- `DocumentSpan`. -/
structure DocumentSpan where
  docId : String
  logicalOffset : Nat
  byteLength : Nat
  deriving DecidableEq, Repr

/-- `DenseLineIndexMode`. -/
inductive DenseLineIndexMode where
  | omit
  | generate
  | generateIfAtLeast (minLines : Nat)
  deriving DecidableEq, Repr

/-- `MEMORY_PROFILE_DENSE_LINE_INDEX_MIN_LINES`. -/
def memoryProfileDenseLineIndexMinLines : Nat := 2048

/-- `validate_writer_options`. -/
def validateWriterOptions (options : WriterOptions) : Result Unit := do
  options.chunker.validate
  let maxChunkSize ← usizeToU64 options.chunker.maxChunkSize
  ResourceLimits.default.enforceChunkSizes 0 maxChunkSize

/-- `check_chunk_table_size`. -/
def checkChunkTableSize (entryCount : Nat) : Result Unit :=
  ResourceLimits.default.enforceChunkTableEntries entryCount

/-- `check_writer_cbor_block`. -/
def checkWriterCborBlock (bytes : List UInt8) : Result Unit := do
  let size ← usizeToU64 bytes.length
  ResourceLimits.default.enforceIndexBlockSize size
  let _ ← validateDeterministicWithLimits bytes ResourceLimits.default.cborLimits

/-- `validate_profile`. -/
def validateProfile (profile : String) : Result Unit :=
  rejectIf (profile ∉ ["minimal", "core", "log", "archive", "memory"]) .metadataInvalid

/-- `check_dense_allocation`. -/
def checkDenseAllocation (entries : List ChunkEntry) : Result Unit := do
  let bytes ← DenseLineIndex.requestedAllocationForChunks entries
  ResourceLimits.default.enforceDenseAllocation bytes

/-- `container_id_from_hash`. -/
def containerIdFromHash (hash : Digest) : ContainerId :=
  digestPrefix16 hash

/-- `container_id_from_input`. -/
def containerIdFromInput (env : Env) (input : List UInt8) : ContainerId :=
  containerIdFromHash (env.blake3.hash input)

/-! ## Document index -/

/-- The first loop of `build_document_index`: identifiers are new and ranges are inside the
input. -/
def spanRanges (inputLen : Nat) : List String → List DocumentSpan → Result (List (Nat × Nat))
  | _, [] => .ok []
  | seen, span :: spans => do
    rejectIf (span.docId ∈ seen) .duplicateDocumentId
    let stop ← checkedLogicalEnd span.logicalOffset span.byteLength
    rejectIf (stop > inputLen) .logicalRangeOutOfBounds
    let start ← u64ToUsize span.logicalOffset
    let stop ← u64ToUsize stop
    let ranges ← spanRanges inputLen (span.docId :: seen) spans
    return (start, stop) :: ranges

/-- An entry of `line_events`: offset, span index, and whether the span ends there. -/
structure LineEvent where
  offset : Nat
  spanIndex : Nat
  isEnd : Bool
  deriving DecidableEq, Repr

/-- The tuple order of `line_events.sort_unstable()`. -/
def LineEvent.le (a b : LineEvent) : Prop :=
  a.offset < b.offset ∨ a.offset = b.offset ∧
    (a.spanIndex < b.spanIndex ∨ a.spanIndex = b.spanIndex ∧ (a.isEnd = true → b.isEnd = true))

instance : DecidableRel LineEvent.le := fun a b =>
  inferInstanceAs (Decidable (a.offset < b.offset ∨ a.offset = b.offset ∧
    (a.spanIndex < b.spanIndex ∨
      a.spanIndex = b.spanIndex ∧ (a.isEnd = true → b.isEnd = true))))

/-- The line events of the spans. -/
def lineEvents (ranges : List (Nat × Nat)) : List LineEvent :=
  (ranges.mapIdx fun index range =>
    [{ offset := range.1, spanIndex := index, isEnd := false },
      { offset := range.2, spanIndex := index, isEnd := true }]).flatten

/-- The event loop: the LF count before every event is stored as the start or end count of its
span.  The inner `while` advances the cursor to the event. -/
def linePrefixLoop (input : List UInt8) :
    List LineEvent → Nat → Nat → List (Nat × Nat) → Result (List (Nat × Nat))
  | [], _, _, linePrefixes => .ok linePrefixes
  | event :: events, inputCursor, newlineCount, linePrefixes => do
    let newlineCount ← okOr .resourceLimitExceeded (checkedAdd newlineCount
      ((slice input inputCursor (event.offset - inputCursor)).count lf))
    let inputCursor := max inputCursor event.offset
    linePrefixLoop input events inputCursor newlineCount
      (linePrefixes.modify event.spanIndex fun counts =>
        if event.isEnd then (counts.1, newlineCount) else (newlineCount, counts.2))

/-- `document_chunk_index` of the writer. -/
def documentChunkIndex (entries : List ChunkEntry) (offset : Nat) : Result Nat :=
  partitionPoint
    (fun mid => do
      let entry ← okOr .chunkTableInvalid entries[mid]?
      let chunkEnd ← checkedLogicalEnd entry.logicalOffset entry.uncompressedSize
      return decide (chunkEnd ≤ offset))
    entries.length

/-- `document_chunk_range` of the writer. -/
def writerDocumentChunkRange (entries : List ChunkEntry) (offset length : Nat) :
    Result (Nat × Nat) :=
  if length = 0 then .ok (0, 0)
  else do
    let stop ← checkedLogicalEnd offset length
    let first ← okOr .chunkTableInvalid entries[← documentChunkIndex entries offset]?
    let lastOffset ← okOr .chunkTableInvalid (checkedSub stop 1)
    let last ← okOr .chunkTableInvalid entries[← documentChunkIndex entries lastOffset]?
    let lastExclusive ← okOr .chunkTableInvalid (checkedAdd last.chunkId 1)
    return (first.chunkId, lastExclusive)

/-- The line count of a document with `newlines` LF bytes. -/
def documentLineCount (bytes : List UInt8) (newlines : Nat) : Result Nat :=
  if bytes = [] then .ok 0
  else if bytes.getLast? = some lf then .ok newlines
  else okOr .resourceLimitExceeded (checkedAdd newlines 1)

/-- The document of one span. -/
def buildDocument (env : Env) (input : List UInt8) (entries : List ChunkEntry)
    (span : DocumentSpan) (range : Nat × Nat) (counts : Nat × Nat) : Result DocumentEntry := do
  let bytes ← okOr .logicalRangeOutOfBounds (getRange? input range.1 range.2)
  let spanNewlineCount ← okOr .resourceLimitExceeded (checkedSub counts.2 counts.1)
  let lineCount ← documentLineCount bytes spanNewlineCount
  let (chunkStart, chunkEnd) ←
    writerDocumentChunkRange entries span.logicalOffset span.byteLength
  return DocumentEntry.new env span.docId span.logicalOffset span.byteLength counts.1 lineCount
    chunkStart chunkEnd (Checksum.blake3 env bytes)

/-- The last loop of `build_document_index`. -/
def buildDocuments (env : Env) (input : List UInt8) (entries : List ChunkEntry) :
    List DocumentSpan → List (Nat × Nat) → List (Nat × Nat) → Result (List DocumentEntry)
  | span :: spans, range :: ranges, counts :: linePrefixes => do
    let document ← buildDocument env input entries span range counts
    let documents ← buildDocuments env input entries spans ranges linePrefixes
    return document :: documents
  | _, _, _ => .ok []

/-- `build_document_index`. -/
def buildDocumentIndex (env : Env) (spans : List DocumentSpan) (input : List UInt8)
    (containerId : ContainerId) (entries : List ChunkEntry) : Result DocumentIndex := do
  DocumentIndex.preflightDocumentIds env (spans.map DocumentSpan.docId) .default
  let inputLen ← usizeToU64 input.length
  let ranges ← spanRanges inputLen [] spans
  let events := (lineEvents ranges).insertionSort LineEvent.le
  let linePrefixes ← linePrefixLoop input events 0 0 (List.replicate spans.length (0, 0))
  let documents ← buildDocuments env input entries spans ranges linePrefixes
  return { containerId, documents }

/-! ## Compressing the planned chunks -/

/-- The chunk loop of `pack_bytes_internal`: entries and compressed chunks. -/
def compressChunks (env : Env) (input : List UInt8) (zstdLevel : Int32) :
    List PlannedChunk → Nat → Result (List ChunkEntry × List (List UInt8))
  | [], _ => .ok ([], [])
  | chunk :: chunks, physicalOffset => do
    let start ← u64ToUsize chunk.logicalOffset
    let size ← u64ToUsize chunk.uncompressedSize
    let stop ← okOr .resourceLimitExceeded (checkedAdd start size)
    let uncompressed ← okOr .containerCorrupt (getRange? input start stop)
    let compressed ← encodeChunk env uncompressed zstdLevel
    rejectIf (compressed = []) .chunkSizeMismatch
    let compressedSize ← usizeToU64 compressed.length
    ResourceLimits.default.enforceChunkSizes compressedSize chunk.uncompressedSize
    let entry : ChunkEntry :=
      { chunkId := chunk.chunkId
        physicalOffset
        compressedSize
        logicalOffset := chunk.logicalOffset
        uncompressedSize := chunk.uncompressedSize
        firstLine := chunk.firstLine
        lineCount := chunk.lineCount
        dictionaryId := 0
        flags := chunk.flags
        compressedChecksumBlake3 := (Checksum.blake3 env compressed).value
        uncompressedChecksumBlake3 := (Checksum.blake3 env uncompressed).value }
    let physicalOffset ← okOr .physicalRangeOutOfBounds (checkedAdd physicalOffset compressedSize)
    let (entries, compressedChunks) ← compressChunks env input zstdLevel chunks physicalOffset
    return (entry :: entries, compressed :: compressedChunks)

/-! ## Assembly -/

/-- `MetadataOptions`. -/
structure MetadataOptions where
  zstdLevel : Int32
  targetChunkSize : Nat
  maxChunkSize : Nat
  dictionaryMode : String
  profile : String
  denseLineIndex : Bool
  documentIndex : Bool
  deriving DecidableEq, Repr

/-- `Metadata::for_source_with_options`. -/
def Metadata.forSourceWithOptions (containerId : ContainerId) (originalSize : Nat)
    (originalChecksum : Checksum) (newlineMode : String) (lineCount : Nat)
    (options : MetadataOptions) : Metadata :=
  { containerId, originalSize, originalChecksum, newlineMode, lineCount,
    zstdLevel := options.zstdLevel, targetChunkSize := options.targetChunkSize,
    maxChunkSize := options.maxChunkSize, dictionaryMode := options.dictionaryMode,
    profile := options.profile, denseLineIndex := options.denseLineIndex,
    documentIndex := options.documentIndex }

/-- `OptionalBlocks`. -/
structure OptionalBlocks where
  denseLineIndex : Option DenseLineIndex
  documentIndex : Option DocumentIndex
  profile : String
  writerOptions : WriterOptions

/-- Apply a fallible function where there is a value: `Option::map(..).transpose()?`. -/
def transposeMap {α β : Type} (f : α → Result β) : Option α → Result (Option β)
  | some a => do
    let b ← f a
    return some b
  | none => .ok none

/-- The exclusive physical end of the last chunk, or the header length. -/
def metadataOffsetOf (entries : List ChunkEntry) : Result Nat :=
  match entries.getLast? with
  | some entry =>
    okOr .physicalRangeOutOfBounds (checkedAdd entry.physicalOffset entry.compressedSize)
  | none => .ok headerLen

/-- The size check on an encoded dense index. -/
def checkDenseEncodedSize (index : DenseLineIndex) : Result Unit := do
  rejectIf ((← index.encodedSize) > ResourceLimits.default.maxIndexBlockSize)
    .resourceLimitExceeded

/-- Run a check where there is a value. -/
def checkSome {α : Type} (check : α → Result Unit) : Option α → Result Unit
  | some a => check a
  | none => .ok ⟨⟩

/-- The bytes of an optional block. -/
def optionalBytes (bytes : Option (List UInt8)) : List UInt8 :=
  bytes.getD []

/-- `assemble_container`. -/
def assembleContainer (env : Env) (input : List UInt8) (containerId : ContainerId)
    (plan : ChunkPlan) (compressedChunks : List (List UInt8)) (entries : List ChunkEntry)
    (optionalBlocks : OptionalBlocks) : Result (List UInt8) := do
  rejectIf (compressedChunks.length ≠ entries.length) .containerCorrupt
  let metadataOffset ← metadataOffsetOf entries
  let originalSize ← usizeToU64 input.length
  let targetChunkSize ← usizeToU64 optionalBlocks.writerOptions.chunker.targetChunkSize
  let maxChunkSize ← usizeToU64 optionalBlocks.writerOptions.chunker.maxChunkSize
  let metadata := Metadata.forSourceWithOptions containerId originalSize
    (Checksum.blake3 env input) plan.newlineMode.asStr plan.lineCount
    { zstdLevel := optionalBlocks.writerOptions.zstdLevel
      targetChunkSize
      maxChunkSize
      dictionaryMode := "none"
      profile := optionalBlocks.profile
      denseLineIndex := optionalBlocks.denseLineIndex.isSome
      documentIndex := optionalBlocks.documentIndex.isSome }
  let metadataBytes ← metadata.encode
  let metadataSize ← usizeToU64 metadataBytes.length
  checkWriterCborBlock metadataBytes
  checkSome checkDenseEncodedSize optionalBlocks.denseLineIndex
  let denseLineIndexBytes ← transposeMap DenseLineIndex.encode optionalBlocks.denseLineIndex
  let denseLineIndexOffset ← okOr .physicalRangeOutOfBounds
    (checkedAdd metadataOffset metadataSize)
  let denseLineIndexSize ← usizeToU64 (optionalBytes denseLineIndexBytes).length
  let documentIndexBytes ← transposeMap DocumentIndex.encode optionalBlocks.documentIndex
  checkSome checkWriterCborBlock documentIndexBytes
  let documentIndexOffset ← okOr .physicalRangeOutOfBounds
    (checkedAdd denseLineIndexOffset denseLineIndexSize)
  let documentIndexSize ← usizeToU64 (optionalBytes documentIndexBytes).length
  let chunkTableBytes := entries.flatMap ChunkEntry.encode
  let chunkTableOffset ← okOr .physicalRangeOutOfBounds
    (checkedAdd documentIndexOffset documentIndexSize)
  let chunkTableSize ← usizeToU64 chunkTableBytes.length
  let blocks :=
    [BlockDescriptor.chunkTable chunkTableOffset chunkTableSize
      (Checksum.blake3 env chunkTableBytes)] ++
    (denseLineIndexBytes.map fun bytes => BlockDescriptor.denseLineIndex denseLineIndexOffset
      bytes.length (Checksum.blake3 env bytes)).toList ++
    (documentIndexBytes.map fun bytes => BlockDescriptor.documentIndex documentIndexOffset
      bytes.length (Checksum.blake3 env bytes)).toList
  let chunkCount ← usizeToU64 entries.length
  let indexRoot : IndexRoot :=
    { containerId, blocks, originalSize := metadata.originalSize,
      originalChecksum := metadata.originalChecksum, chunkCount, lineCount := metadata.lineCount }
  let indexRootBytes ← indexRoot.encode
  checkWriterCborBlock indexRootBytes
  let indexRootOffset ← okOr .physicalRangeOutOfBounds (checkedAdd chunkTableOffset chunkTableSize)
  let indexRootSize ← usizeToU64 indexRootBytes.length
  let footerPayloadOffset ← okOr .physicalRangeOutOfBounds
    (checkedAdd indexRootOffset indexRootSize)
  let header : Header :=
    { metadataOffset, metadataSize, indexHintOffset := indexRootOffset, containerId }
  let prefixBytes := header.encode ++ (compressedChunks.flatten ++ (metadataBytes ++
    (optionalBytes denseLineIndexBytes ++ (optionalBytes documentIndexBytes ++
      (chunkTableBytes ++ indexRootBytes)))))
  let indexRootRef : BlockRef :=
    { offset := indexRootOffset, size := indexRootSize,
      checksum := Checksum.blake3 env indexRootBytes }
  let metadataRef : BlockRef :=
    { offset := metadataOffset, size := metadataSize,
      checksum := Checksum.blake3 env metadataBytes }
  let footerPayload ← fixedPointFooterPayload containerId indexRootRef metadataRef
    footerPayloadOffset (some (Checksum.blake3 env prefixBytes))
  let footerPayloadBytes ← footerPayload.encode
  checkWriterCborBlock footerPayloadBytes
  let footerPayloadSize ← usizeToU64 footerPayloadBytes.length
  let footerTrailer : FooterTrailer :=
    { footerPayloadOffset, footerPayloadSize,
      footerPayloadChecksumBlake3 := (Checksum.blake3 env footerPayloadBytes).value }
  return prefixBytes ++ (footerPayloadBytes ++ footerTrailer.encode)

/-! ## Packing -/

/-- The dense index that `dense_mode` asks for. -/
def generateDenseLineIndex (mode : DenseLineIndexMode) (plan : ChunkPlan) (input : List UInt8)
    (entries : List ChunkEntry) : Result (Option DenseLineIndex) :=
  let generate : Result (Option DenseLineIndex) := do
    checkDenseAllocation entries
    let index ← DenseLineIndex.fromOriginalBytes input entries
    return some index
  match mode with
  | .omit => .ok none
  | .generate => generate
  | .generateIfAtLeast minLines => if plan.lineCount ≥ minLines then generate else .ok none

/-- The spans a supplied document index describes. -/
def DocumentIndex.spans (index : DocumentIndex) : List DocumentSpan :=
  index.documents.map fun document =>
    { docId := document.docId, logicalOffset := document.logicalOffset,
      byteLength := document.byteLength }

/-- The check of the document index that will be written. -/
def checkDocumentIndex (env : Env) (input : List UInt8) (containerId : ContainerId)
    (entries : List ChunkEntry) (verifyDocumentIndex generated : Bool) (index : DocumentIndex) :
    Result Unit := do
  index.validateForWriter .default
  if verifyDocumentIndex && !generated then
    let rebuilt ← buildDocumentIndex env index.spans input containerId entries
    rejectIf (rebuilt ≠ index) .containerCorrupt
  else
    return ()

/-- The checks of a supplied document index before planning. -/
def preflightDocumentIndex (index : DocumentIndex) : Result Unit := do
  index.validateForWriter .default
  index.validateUniqueDocIds

/-- `pack_bytes_internal`. -/
def packBytesInternal (env : Env) (input : List UInt8) (containerId : ContainerId)
    (options : WriterOptions) (denseMode : DenseLineIndexMode)
    (documentIndex : Option DocumentIndex) (documentSpans : Option (List DocumentSpan))
    (profile : String) (verifyDocumentIndex : Bool) : Result (List UInt8) := do
  validateWriterOptions options
  validateProfile profile
  rejectIf (profile = "memory" ∧ documentIndex.isNone = true ∧ documentSpans.isNone = true)
    .metadataInvalid
  checkSome preflightDocumentIndex documentIndex
  let plan ← planChunks input options.chunker
  checkChunkTableSize plan.chunks.length
  let (entries, compressedChunks) ←
    compressChunks env input options.zstdLevel plan.chunks headerLen
  let denseLineIndex ← generateDenseLineIndex denseMode plan input entries
  let generatedDocumentIndex ← transposeMap
    (fun spans => buildDocumentIndex env spans input containerId entries) documentSpans
  let documentIndex := generatedDocumentIndex.or documentIndex
  checkSome (checkDocumentIndex env input containerId entries verifyDocumentIndex
    generatedDocumentIndex.isSome) documentIndex
  assembleContainer env input containerId plan compressedChunks entries
    { denseLineIndex, documentIndex, profile, writerOptions := options }

/-- `pack_bytes_with_container_id`. -/
def packBytesWithContainerId (env : Env) (input : List UInt8) (containerId : ContainerId)
    (options : WriterOptions) : Result (List UInt8) :=
  packBytesInternal env input containerId options .omit none none "core" true

/-- `pack_bytes`. -/
def packBytes (env : Env) (input : List UInt8) (options : WriterOptions) : Result (List UInt8) :=
  packBytesWithContainerId env input (containerIdFromInput env input) options

/-! ## The builder -/

/-- `WriterBuilder`. -/
structure WriterBuilder where
  options : WriterOptions := .default
  profile : String := "core"
  denseLineIndex : Option Bool := none
  containerId : Option ContainerId := none
  documentIndex : Option DocumentIndex := none
  documentSpans : Option (List DocumentSpan) := none

namespace WriterBuilder

/-- The container identifier `pack` uses. -/
def chooseContainerId (env : Env) (self : WriterBuilder) (input : List UInt8) :
    Result ContainerId :=
  match self.containerId, self.documentIndex with
  | some configured, some index =>
    if configured ≠ index.containerId then .error .containerIdMismatch else .ok configured
  | some configured, none => .ok configured
  | none, some index => .ok index.containerId
  | none, none => .ok (containerIdFromInput env input)

/-- The dense index mode `pack` uses. -/
def denseMode (self : WriterBuilder) : DenseLineIndexMode :=
  match self.denseLineIndex with
  | some true => .generate
  | some false => .omit
  | none =>
    if self.profile = "memory" then .generateIfAtLeast memoryProfileDenseLineIndexMinLines
    else .omit

/-- `WriterBuilder::pack`. -/
def pack (env : Env) (self : WriterBuilder) (input : List UInt8) : Result (List UInt8) := do
  validateWriterOptions self.options
  checkSome (fun index => index.validateForWriter .default) self.documentIndex
  checkSome (fun spans => DocumentIndex.preflightDocumentIds env
    (spans.map DocumentSpan.docId) .default) self.documentSpans
  let containerId ← self.chooseContainerId env input
  packBytesInternal env input containerId self.options self.denseMode self.documentIndex
    self.documentSpans self.profile true

end WriterBuilder

end Qzt
