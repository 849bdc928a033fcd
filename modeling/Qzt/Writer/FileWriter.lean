import Qzt.Writer.Pack

/-!
# The streaming writer (`writer.rs`)

`QztFileWriter` over a sink whose operations may fail.  A sink is given by its
operations on a state of its own; every operation returns a result and the state after
it, also when it fails.  The writer's methods are state-passing computations that keep
the state at an error, so that a run can go on after one.
-/

namespace Qzt

open Foundation

/-! ## Sinks -/

/-- `Read + Write + Seek` as the writer uses it: `stream_position`, `seek(SeekFrom::Start(_))`,
`seek(SeekFrom::End(0))`, `write_all`, `read_exact` and `flush`. -/
structure Sink (σ : Type) where
  streamPosition : σ → Except IoErrorKind Nat × σ
  seekStart : Nat → σ → Except IoErrorKind Nat × σ
  seekEnd : σ → Except IoErrorKind Nat × σ
  writeAll : List UInt8 → σ → Except IoErrorKind Unit × σ
  readExact : Nat → σ → Except IoErrorKind (List UInt8) × σ
  flush : σ → Except IoErrorKind Unit × σ

/-- `map_err(|error| QztError::Io(error.kind()))`. -/
def ioResult {α : Type} : Except IoErrorKind α → Result α
  | .ok a => .ok a
  | .error kind => .error (.io kind)

/-! ## The writer -/

/-- `QztFileWriter`. -/
structure QztFileWriter (env : Env) (σ : Type) where
  writer : σ
  options : WriterOptions
  pending : List UInt8
  entries : List ChunkEntry
  inputHasher : env.blake3.Hasher
  physicalOffset : Nat
  logicalOffset : Nat
  lineStartsSeen : Nat
  newlines : NewlineState
  finished : Bool
  poisoned : Bool

/-- A method of the writer: it keeps the state it reached, also at an error. -/
abbrev WriterM (env : Env) (σ : Type) := ExceptT QztError (StateM (QztFileWriter env σ))

namespace QztFileWriter

variable {env : Env} {σ : Type} (sink : Sink σ)

/-- One sink operation on the wrapped writer. -/
def sinkOp {α : Type} (op : σ → Except IoErrorKind α × σ) : WriterM env σ α := fun self =>
  let (result, writer) := op self.writer
  (ioResult result, { self with writer })

/-- `choose_non_final_chunk_end`. -/
def chooseNonFinalChunkEnd (input : List UInt8) (targetEnd maxEnd : Nat) : Result Nat :=
  match lastLineBoundary input 0 targetEnd with
  | some lineEnd => .ok lineEnd
  | none =>
    match lastLineBoundary input 0 maxEnd with
    | some lineEnd => .ok lineEnd
    | none => okOr .resourceLimitExceeded (previousValidSplit input 0 maxEnd)

/-- `choose_stream_chunk_end`. -/
def chooseStreamChunkEnd (input : List UInt8) (options : ChunkerOptions) : Result Nat := do
  rejectIf (input.length ≤ options.maxChunkSize) .resourceLimitExceeded
  chooseNonFinalChunkEnd input options.targetChunkSize options.maxChunkSize

/-- `choose_known_chunk_end`. -/
def chooseKnownChunkEnd (input : List UInt8) (options : ChunkerOptions) : Result Nat :=
  if input.length ≤ options.targetChunkSize then .ok input.length
  else chooseNonFinalChunkEnd input options.targetChunkSize
    (min options.maxChunkSize input.length)

/-- The checks and the encoding of `emit_chunk`, before it touches the sink: the new entry and
the compressed chunk. -/
def encodeEntry (self : QztFileWriter env σ) (uncompressed : List UInt8) :
    Result (ChunkEntry × List UInt8) := do
  let next ← okOr .resourceLimitExceeded (checkedAdd self.entries.length 1)
  checkChunkTableSize next
  ResourceLimits.default.enforceChunkSizes 0 (← usizeToU64 uncompressed.length)
  rejectIf ((fromUtf8 uncompressed).isNone = true) .invalidUtf8
  let compressed ← encodeChunk env uncompressed self.options.zstdLevel
  rejectIf (compressed = []) .chunkSizeMismatch
  let compressedSize ← usizeToU64 compressed.length
  ResourceLimits.default.enforceChunkSizes compressedSize 0
  let flags := expectedFlags self.logicalOffset self.newlines.previousByte
  let lineCount ← usizeToU64 (← lineStartOffsets uncompressed flags).length
  let chunkId ← usizeToU64 self.entries.length
  let uncompressedSize ← usizeToU64 uncompressed.length
  let entry : ChunkEntry :=
    { chunkId
      physicalOffset := self.physicalOffset
      compressedSize
      logicalOffset := self.logicalOffset
      uncompressedSize
      firstLine := self.lineStartsSeen
      lineCount
      dictionaryId := 0
      flags
      compressedChecksumBlake3 := (Checksum.blake3 env compressed).value
      uncompressedChecksumBlake3 := (Checksum.blake3 env uncompressed).value }
  return (entry, compressed)

/-- The bookkeeping of `emit_chunk` after the write. -/
def recordEntry (self : QztFileWriter env σ) (uncompressed : List UInt8) (entry : ChunkEntry) :
    Result (QztFileWriter env σ) := do
  let newlines ← NewlineState.update uncompressed self.newlines
  let lineStartsSeen ← okOr .resourceLimitExceeded
    (checkedAdd self.lineStartsSeen entry.lineCount)
  let logicalOffset ← okOr .resourceLimitExceeded
    (checkedAdd self.logicalOffset entry.uncompressedSize)
  let physicalOffset ← okOr .physicalRangeOutOfBounds
    (checkedAdd self.physicalOffset entry.compressedSize)
  return { self with newlines, lineStartsSeen, logicalOffset, physicalOffset,
                     entries := self.entries ++ [entry] }

/-- `emit_chunk`. -/
def emitChunk (uncompressed : List UInt8) : WriterM env σ Unit := do
  let (entry, compressed) ← (encodeEntry (← get) uncompressed : Result _)
  let _ ← sinkOp (sink.seekStart (← get).physicalOffset)
  sinkOp (sink.writeAll compressed)
  set (← (recordEntry (← get) uncompressed entry : Result _))

/-- `emit_pending_chunk`. -/
def emitPendingChunk (stop : Nat) : WriterM env σ Unit := do
  let chunk ← (okOr .resourceLimitExceeded (getRange? (← get).pending 0 stop) : Result _)
  emitChunk sink chunk
  modify fun self => { self with pending := self.pending.drop stop }

/-- Emit one chunk when `pending` is longer than the largest chunk. -/
def emitIfFull : WriterM env σ Unit := do
  let self ← get
  if self.pending.length > self.options.chunker.maxChunkSize then
    let stop ← (chooseStreamChunkEnd self.pending self.options.chunker : Result _)
    emitPendingChunk sink stop
  else
    pure ()

/-- The loop of `push`.  `pending` holds at most `max_chunk_size` bytes at its head, so every
iteration takes a byte and `fuel := bytes.length` suffices. -/
def pushLoop : Nat → List UInt8 → WriterM env σ Unit
  | 0, _ => pure ()
  | fuel + 1, remaining =>
    if remaining = [] then pure ()
    else do
      let self ← get
      let take := min remaining.length
        (self.options.chunker.maxChunkSize + 1 - self.pending.length)
      set { self with pending := self.pending ++ remaining.take take }
      emitIfFull sink
      pushLoop fuel (remaining.drop take)

/-- The body of `push`. -/
def pushInner (bytes : List UInt8) : WriterM env σ Unit := do
  modify fun self => { self with inputHasher := env.blake3.update self.inputHasher bytes }
  pushLoop sink bytes.length bytes

/-- `QztFileWriter::push`. -/
def push (bytes : List UInt8) : WriterM env σ Unit := fun self =>
  if self.finished || self.poisoned then (.error .writerAlreadyFinished, self)
  else
    match pushInner sink bytes self with
    | (.ok u, self) => (.ok u, self)
    | (.error e, self) => (.error e, { self with poisoned := true })

/-- The first loop of `finish_inner`; every iteration emits a byte. -/
def drainPending : Nat → WriterM env σ Unit
  | 0 => pure ()
  | fuel + 1 => do
    let self ← get
    if self.pending = [] then pure ()
    else
      let stop ← (chooseKnownChunkEnd self.pending self.options.chunker : Result _)
      emitPendingChunk sink stop
      drainPending fuel

/-- The read loop of `hash_prefix`; `fuel := remaining` pieces are always enough. -/
def hashPrefixLoop : Nat → Nat → env.blake3.Hasher → WriterM env σ env.blake3.Hasher
  | 0, _, hasher => pure hasher
  | fuel + 1, remaining, hasher =>
    if remaining > 0 then do
      let chunkLen ← (u64ToUsize (min remaining hashBufferSize) : Result _)
      let buffer ← sinkOp (sink.readExact chunkLen)
      hashPrefixLoop fuel (remaining - chunkLen) (env.blake3.update hasher buffer)
    else
      pure hasher

/-- `hash_prefix`. -/
def hashPrefix (prefixLen : Nat) : WriterM env σ Checksum := do
  let _ ← sinkOp (sink.seekStart 0)
  let hasher ← hashPrefixLoop sink prefixLen prefixLen env.blake3.new
  return Checksum.fromHasher env hasher

/-- What `finish_inner` computes from the writer's state before it writes the tail. -/
structure FinishPlan where
  containerId : ContainerId
  metadataOffset : Nat
  metadataBytes : List UInt8
  metadataSize : Nat
  chunkTableBytes : List UInt8
  indexRootBytes : List UInt8
  indexRootOffset : Nat
  indexRootSize : Nat
  footerPayloadOffset : Nat

/-- The header of a finished container. -/
def FinishPlan.header (plan : FinishPlan) : Header where
  metadataOffset := plan.metadataOffset
  metadataSize := plan.metadataSize
  indexHintOffset := plan.indexRootOffset
  containerId := plan.containerId

/-- The blocks of `finish_inner`, up to the header. -/
def finishPlan (self : QztFileWriter env σ) : Result FinishPlan := do
  let inputHash := env.blake3.finalize self.inputHasher
  let containerId := containerIdFromHash inputHash
  let originalChecksum := Checksum.fromRawBytes inputHash
  let metadataOffset := self.physicalOffset
  let targetChunkSize ← usizeToU64 self.options.chunker.targetChunkSize
  let maxChunkSize ← usizeToU64 self.options.chunker.maxChunkSize
  let metadata := Metadata.forSourceWithOptions containerId self.logicalOffset originalChecksum
    (NewlineMode.fromCounts self.newlines.lfCount self.newlines.crlfCount).asStr
    self.lineStartsSeen
    { zstdLevel := self.options.zstdLevel
      targetChunkSize
      maxChunkSize
      dictionaryMode := "none"
      profile := "core"
      denseLineIndex := false
      documentIndex := false }
  let metadataBytes ← metadata.encode
  let metadataSize ← usizeToU64 metadataBytes.length
  checkWriterCborBlock metadataBytes
  let chunkTableOffset ← okOr .physicalRangeOutOfBounds (checkedAdd metadataOffset metadataSize)
  let chunkTableBytes := self.entries.flatMap ChunkEntry.encode
  let chunkTableSize ← usizeToU64 chunkTableBytes.length
  let chunkCount ← usizeToU64 self.entries.length
  let indexRoot : IndexRoot :=
    { containerId
      blocks := [BlockDescriptor.chunkTable chunkTableOffset chunkTableSize
        (Checksum.blake3 env chunkTableBytes)]
      originalSize := metadata.originalSize
      originalChecksum := metadata.originalChecksum
      chunkCount
      lineCount := metadata.lineCount }
  let indexRootBytes ← indexRoot.encode
  checkWriterCborBlock indexRootBytes
  let indexRootOffset ← okOr .physicalRangeOutOfBounds (checkedAdd chunkTableOffset chunkTableSize)
  let indexRootSize ← usizeToU64 indexRootBytes.length
  let footerPayloadOffset ← okOr .physicalRangeOutOfBounds
    (checkedAdd indexRootOffset indexRootSize)
  return { containerId, metadataOffset, metadataBytes, metadataSize, chunkTableBytes,
           indexRootBytes, indexRootOffset, indexRootSize, footerPayloadOffset }

/-- The footer of `finish_inner`, once the prefix is hashed. -/
def finishFooter (env : Env) (plan : FinishPlan) (containerChecksum : Checksum) :
    Result (FooterPayload × List UInt8 × FooterTrailer) := do
  let indexRootRef : BlockRef :=
    { offset := plan.indexRootOffset, size := plan.indexRootSize,
      checksum := Checksum.blake3 env plan.indexRootBytes }
  let metadataRef : BlockRef :=
    { offset := plan.metadataOffset, size := plan.metadataSize,
      checksum := Checksum.blake3 env plan.metadataBytes }
  let footerPayload ← fixedPointFooterPayload plan.containerId indexRootRef metadataRef
    plan.footerPayloadOffset (some containerChecksum)
  let footerPayloadBytes ← footerPayload.encode
  checkWriterCborBlock footerPayloadBytes
  let footerPayloadSize ← usizeToU64 footerPayloadBytes.length
  let footerTrailer : FooterTrailer :=
    { footerPayloadOffset := plan.footerPayloadOffset, footerPayloadSize,
      footerPayloadChecksumBlake3 := (Checksum.blake3 env footerPayloadBytes).value }
  return (footerPayload, footerPayloadBytes, footerTrailer)

/-- `finish_inner`: the blocks behind the chunks. -/
def writeBlocks (plan : FinishPlan) : WriterM env σ Unit := do
  let _ ← sinkOp (sink.seekStart plan.metadataOffset)
  sinkOp (sink.writeAll plan.metadataBytes)
  sinkOp (sink.writeAll plan.chunkTableBytes)
  sinkOp (sink.writeAll plan.indexRootBytes)

/-- `finish_inner`: the header in the place of its placeholder. -/
def patchHeader (plan : FinishPlan) : WriterM env σ Unit := do
  let _ ← sinkOp (sink.seekStart 0)
  sinkOp (sink.writeAll plan.header.encode)
  let position ← sinkOp sink.streamPosition
  (rejectIf (position ≠ headerLen) .containerCorrupt : Result _)
  -- A buffered sink need not expose pending writes to its reads until it is flushed.
  sinkOp sink.flush

/-- `finish_inner`: footer payload and trailer, and the check of the file size. -/
def writeFooter (plan : FinishPlan) (containerChecksum : Checksum) : WriterM env σ Unit := do
  let (footerPayload, footerPayloadBytes, footerTrailer) ←
    (finishFooter env plan containerChecksum : Result _)
  let _ ← sinkOp (sink.seekStart plan.footerPayloadOffset)
  sinkOp (sink.writeAll footerPayloadBytes)
  sinkOp (sink.writeAll footerTrailer.encode)
  sinkOp sink.flush
  let actualSize ← sinkOp sink.seekEnd
  (rejectIf (actualSize ≠ footerPayload.finalFileSize) .finalFileSizeMismatch : Result _)

/-- `finish_inner` after its first loop. -/
def finishTail : WriterM env σ Unit := do
  let plan ← (finishPlan (← get) : Result _)
  writeBlocks sink plan
  patchHeader sink plan
  let containerChecksum ← hashPrefix sink plan.footerPayloadOffset
  writeFooter sink plan containerChecksum

/-- `finish_inner`. -/
def finishInner : WriterM env σ Unit := do
  drainPending sink (← get).pending.length
  finishTail sink

/-- `QztFileWriter::finish`. -/
def finish : WriterM env σ Unit := fun self =>
  if self.finished || self.poisoned then (.error .writerAlreadyFinished, self)
  else
    match finishInner sink self with
    | (.ok u, self) => (.ok u, { self with finished := true })
    | (.error e, self) => (.error e, { self with poisoned := true })

/-- The writer a successful `QztFileWriter::new` returns. -/
def fresh (env : Env) (options : WriterOptions) (writer : σ) : QztFileWriter env σ where
  writer := writer
  options := options
  pending := []
  entries := []
  inputHasher := env.blake3.new
  physicalOffset := headerLen
  logicalOffset := 0
  lineStartsSeen := 0
  newlines := {}
  finished := false
  poisoned := false

/-- One operation on a sink that no writer wraps yet. -/
def sinkCall {α : Type} (op : σ → Except IoErrorKind α × σ) : ExceptT QztError (StateM σ) α :=
  fun s =>
    let (result, s) := op s
    (ioResult result, s)

/-- The sink operations of `QztFileWriter::new`. -/
def newInner (sink : Sink σ) : ExceptT QztError (StateM σ) Unit := do
  let originalPosition ← sinkCall sink.streamPosition
  let length ← sinkCall sink.seekEnd
  if length ≠ 0 then
    let _ ← sinkCall (sink.seekStart originalPosition)
    (Except.error .nonEmptyWriterSink : Result _)
  else
    let _ ← sinkCall (sink.seekStart 0)
    sinkCall (sink.writeAll (List.replicate headerLen 0))

/-- `QztFileWriter::new`: the writer, or the error and the sink as it was left. -/
def new (env : Env) (sink : Sink σ) (writer : σ) (options : WriterOptions) :
    Except (QztError × σ) (QztFileWriter env σ) :=
  match validateWriterOptions options with
  | .error e => .error (e, writer)
  | .ok _ =>
    match newInner sink writer with
    | (.ok _, writer) => .ok (fresh env options writer)
    | (.error e, writer) => .error (e, writer)

end QztFileWriter

end Qzt
