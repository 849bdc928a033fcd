import Qzt.Reader.Entries

/-!
# Deep verification (`reader.rs`)

One pass over the decoded chunks with running state: the hash of the original, the
line and newline statistics, and the hashes of all documents.
-/

namespace Qzt

open Foundation

/-! ## Reports -/

/-- `VerifyLevel`. -/
inductive VerifyLevel where
  | quick
  | normal
  | deep
  deriving DecidableEq, Repr

/-- `PrefixChecksumStatus`. -/
inductive PrefixChecksumStatus where
  | absent
  | presentUnchecked
  | verified
  deriving DecidableEq, Repr

/-- `IndexVerificationStatus`. -/
inductive IndexVerificationStatus where
  | absent
  | storedBlockVerified
  | sourceChecked
  deriving DecidableEq, Repr

/-- `VerifyReport`. -/
structure VerifyReport where
  level : VerifyLevel
  checkedChunks : Nat
  compressedChecksumChunks : Nat
  decodedChunks : Nat
  decodedBytes : Nat
  originalChecksumVerified : Bool
  containerChecksumStatus : PrefixChecksumStatus
  denseLineIndexStatus : IndexVerificationStatus
  documentIndexStatus : IndexVerificationStatus
  deriving DecidableEq, Repr

/-- `index_status`. -/
def indexStatus (present sourceChecked : Bool) : IndexVerificationStatus :=
  match present, sourceChecked with
  | false, _ => .absent
  | true, false => .storedBlockVerified
  | true, true => .sourceChecked

/-- `report_for_level`. -/
def reportForLevel (details : SkeletonDetails) (level : VerifyLevel) (decodedBytes : Nat) :
    VerifyReport :=
  let payloadChecked := level != .quick
  let deep := level == .deep
  { level
    checkedChunks := details.summary.chunkCount
    compressedChecksumChunks := if payloadChecked then details.summary.chunkCount else 0
    decodedChunks := if deep then details.summary.chunkCount else 0
    decodedBytes
    originalChecksumVerified := deep
    containerChecksumStatus :=
      match details.footerPayload.containerChecksum, payloadChecked with
      | none, _ => .absent
      | some _, false => .presentUnchecked
      | some _, true => .verified
    denseLineIndexStatus := indexStatus details.denseLineIndex.isSome deep
    documentIndexStatus := indexStatus details.documentIndex.isSome deep }

/-! ## Text analysis -/

/-- The newline counters and the previous byte, carried from chunk to chunk. -/
structure NewlineState where
  lfCount : Nat := 0
  crlfCount : Nat := 0
  previousByte : Option UInt8 := none
  deriving DecidableEq, Repr

/-- One byte of the newline loop. -/
def NewlineState.updateByte (state : NewlineState) (byte : UInt8) : Result NewlineState :=
  if byte = lf then
    if state.previousByte = some cr then do
      let crlfCount ← okOr .resourceLimitExceeded (checkedAdd state.crlfCount 1)
      return { state with crlfCount, previousByte := some byte }
    else do
      let lfCount ← okOr .resourceLimitExceeded (checkedAdd state.lfCount 1)
      return { state with lfCount, previousByte := some byte }
  else
    .ok { state with previousByte := some byte }

/-- The newline loop of `StreamingTextAnalysis::update` and of `update_newline_state`. -/
def NewlineState.update : List UInt8 → NewlineState → Result NewlineState
  | [], state => .ok state
  | byte :: bytes, state => do
    let state ← state.updateByte byte
    NewlineState.update bytes state

/-- `StreamingTextAnalysis`. -/
structure StreamingTextAnalysis where
  lineStartsSeen : Nat := 0
  newlines : NewlineState := {}
  deriving DecidableEq, Repr

/-- `StreamingTextAnalysis::update`. -/
def StreamingTextAnalysis.update (self : StreamingTextAnalysis) (decoded : List UInt8)
    (flags : Nat) : Result StreamingTextAnalysis := do
  let starts := localLineStarts decoded flags
  let lineStartsSeen ← okOr .resourceLimitExceeded
    (checkedAdd self.lineStartsSeen (← usizeToU64 starts.length))
  let newlines ← NewlineState.update decoded self.newlines
  return { lineStartsSeen, newlines }

/-- `StreamingTextAnalysis::newline_mode`. -/
def StreamingTextAnalysis.newlineMode (self : StreamingTextAnalysis) : String :=
  (NewlineMode.fromCounts self.newlines.lfCount self.newlines.crlfCount).asStr

/-! ## Document hashes -/

/-- `PendingDocument`. -/
structure PendingDocument where
  index : Nat
  start : Nat
  stop : Nat
  deriving DecidableEq, Repr

/-- The order of `pending`: by start, then by index. -/
def PendingDocument.le (a b : PendingDocument) : Prop :=
  a.start < b.start ∨ a.start = b.start ∧ a.index ≤ b.index

instance : DecidableRel PendingDocument.le := fun a b =>
  inferInstanceAs (Decidable (a.start < b.start ∨ a.start = b.start ∧ a.index ≤ b.index))

/-- `ActiveDocument`. -/
structure ActiveDocument (env : Env) where
  index : Nat
  start : Nat
  stop : Nat
  hasher : env.blake3.Hasher

/-- `DocumentHasher`.  `pending` is the part of the source's vector from `next` on; `results` is
the list of insertions into the result map, latest first. -/
structure DocumentHasher (env : Env) where
  pending : List PendingDocument
  active : List (ActiveDocument env)
  results : List (Nat × Digest)

namespace DocumentHasher

variable {env : Env}

/-- The pending entry of a document, unless it is empty. -/
def pendingDocument (index : Nat) (document : DocumentEntry) : Option PendingDocument :=
  if document.byteLength > 0 then
    some { index, start := document.logicalOffset,
           stop := saturatingAdd document.logicalOffset document.byteLength }
  else
    none

/-- The non-empty documents with their positions. -/
def pendingDocuments (documents : List DocumentEntry) : List PendingDocument :=
  (documents.mapIdx pendingDocument).reduceOption

/-- `DocumentHasher::new`. -/
def new (documentIndex : DocumentIndex) : DocumentHasher env where
  pending := (pendingDocuments documentIndex.documents).insertionSort PendingDocument.le
  active := []
  results := []

/-- A pending document that starts to be hashed. -/
def activate (pending : PendingDocument) : ActiveDocument env where
  index := pending.index
  start := pending.start
  stop := pending.stop
  hasher := env.blake3.new

/-- One active document against a chunk. -/
def feedDocument (chunkOffset chunkEnd : Nat) (decoded : List UInt8)
    (document : ActiveDocument env) : Result (ActiveDocument env) :=
  let lower := max chunkOffset document.start
  let upper := min chunkEnd document.stop
  if lower < upper then do
    let localStart ← u64ToUsize (lower - chunkOffset)
    let localEnd ← u64ToUsize (upper - chunkOffset)
    let bytes ← okOr .containerCorrupt (getRange? decoded localStart localEnd)
    return { document with hasher := env.blake3.update document.hasher bytes }
  else
    .ok document

/-- The loop over the active documents: those still active, and the extended results. -/
def feedActive (chunkOffset chunkEnd : Nat) (decoded : List UInt8) :
    List (ActiveDocument env) → List (Nat × Digest) →
      Result (List (ActiveDocument env) × List (Nat × Digest))
  | [], results => .ok ([], results)
  | document :: documents, results => do
    let document ← feedDocument chunkOffset chunkEnd decoded document
    if document.stop ≤ chunkEnd then
      feedActive chunkOffset chunkEnd decoded documents
        ((document.index, env.blake3.finalize document.hasher) :: results)
    else
      let (stillActive, results) ← feedActive chunkOffset chunkEnd decoded documents results
      return (document :: stillActive, results)

/-- `DocumentHasher::feed`. -/
def feed (self : DocumentHasher env) (chunkOffset : Nat) (decoded : List UInt8) :
    Result (DocumentHasher env) := do
  let chunkLen ← usizeToU64 decoded.length
  let chunkEnd ← okOr .resourceLimitExceeded (checkedAdd chunkOffset chunkLen)
  let started := self.pending.takeWhile fun pending => decide (pending.start < chunkEnd)
  let pending := self.pending.dropWhile fun pending => decide (pending.start < chunkEnd)
  let (active, results) ← feedActive chunkOffset chunkEnd decoded
    (self.active ++ started.map activate) self.results
  return { pending, active, results }

end DocumentHasher

/-- The checksum a document must have, from the hashes of the chunk pass. -/
def documentChecksum (env : Env) (index : Nat) (document : DocumentEntry)
    (documentHashes : List (Nat × Digest)) : Result Checksum :=
  if document.byteLength = 0 then .ok (Checksum.blake3 env [])
  else do
    let value ← okOr .containerCorrupt (documentHashes.lookup index)
    return .fromRawBytes value

/-- One document of `verify_document_index_ranges`. -/
def verifyDocument (env : Env) (originalSize lineCount : Nat) (chunkEntries : List ChunkEntry)
    (documentHashes : List (Nat × Digest)) (index : Nat) (document : DocumentEntry) :
    Result Unit := do
  let stop ← checkedLogicalEnd document.logicalOffset document.byteLength
  rejectIf (stop > originalSize) .logicalRangeOutOfBounds
  let lineEnd ← checkedLogicalEnd document.firstLine document.lineCount
  rejectIf (lineEnd > lineCount) .lineOutOfRange
  rejectIf (document.docIdHash ≠ digestPrefix16 (env.blake3.hash (textBytes document.docId)))
    .containerCorrupt
  let actual ← documentChecksum env index document documentHashes
  rejectIf (actual ≠ document.checksum) .containerCorrupt
  let (chunkStart, chunkEnd) ←
    documentChunkRange chunkEntries document.logicalOffset document.byteLength
  rejectIf (document.chunkStart ≠ chunkStart ∨ document.chunkEnd ≠ chunkEnd) .chunkTableInvalid

/-- The loop of `verify_document_index_ranges`. -/
def verifyDocuments (env : Env) (originalSize lineCount : Nat) (chunkEntries : List ChunkEntry)
    (documentHashes : List (Nat × Digest)) : Nat → List DocumentEntry → Result Unit
  | _, [] => .ok ⟨⟩
  | index, document :: documents => do
    verifyDocument env originalSize lineCount chunkEntries documentHashes index document
    verifyDocuments env originalSize lineCount chunkEntries documentHashes (index + 1) documents

/-- `verify_document_index_ranges`. -/
def verifyDocumentIndexRanges (env : Env) (documentIndex : DocumentIndex)
    (originalSize lineCount : Nat) (chunkEntries : List ChunkEntry)
    (documentHashes : List (Nat × Digest)) : Result Unit :=
  verifyDocuments env originalSize lineCount chunkEntries documentHashes 0 documentIndex.documents

/-! ## The pass -/

/-- The running state of `verify_deep_entries`. -/
structure DeepState (env : Env) where
  originalHasher : env.blake3.Hasher
  text : StreamingTextAnalysis
  documentHasher : Option (DocumentHasher env)
  decodedBytes : Nat

/-- The state before the first chunk. -/
def DeepState.new (env : Env) (details : SkeletonDetails) : DeepState env where
  originalHasher := env.blake3.new
  text := {}
  documentHasher := details.documentIndex.map DocumentHasher.new
  decodedBytes := 0

/-- The continuation flag a chunk must carry. -/
def expectedFlags (logicalOffset : Nat) (previousByte : Option UInt8) : Nat :=
  if logicalOffset > 0 ∧ previousByte ≠ some lf then startsWithLineContinuation else 0

/-- `dense.verify_chunk` where there is a dense index. -/
def verifyDenseChunk (dense : Option DenseLineIndex) (chunkIndex : Nat) (decoded : List UInt8)
    (flags : Nat) : Result Unit :=
  match dense with
  | some dense => dense.verifyChunk chunkIndex decoded flags
  | none => .ok ⟨⟩

/-- `hasher.feed` where there is a document index. -/
def feedDocumentHasher {env : Env} (hasher : Option (DocumentHasher env)) (chunkOffset : Nat)
    (decoded : List UInt8) : Result (Option (DocumentHasher env)) :=
  match hasher with
  | some hasher => do
    let hasher ← hasher.feed chunkOffset decoded
    return some hasher
  | none => .ok none

/-- One chunk of `verify_deep_entries`. -/
def verifyDeepEntry (env : Env) (details : SkeletonDetails) (decodeEntry : DecodeEntry)
    (chunkIndex : Nat) (entry : ChunkEntry) (state : DeepState env) : Result (DeepState env) := do
  rejectIf (entry.flags ≠ expectedFlags entry.logicalOffset state.text.newlines.previousByte)
    .chunkTableInvalid
  rejectIf (entry.firstLine ≠ state.text.lineStartsSeen) .chunkTableInvalid
  let decoded ← decodeEntry entry
  rejectIf ((fromUtf8 decoded).isNone = true) .invalidUtf8
  verifyDenseChunk details.denseLineIndex chunkIndex decoded entry.flags
  let chunkLineCount ← usizeToU64 (localLineStarts decoded entry.flags).length
  rejectIf (entry.lineCount ≠ chunkLineCount) .chunkTableInvalid
  let originalHasher := env.blake3.update state.originalHasher decoded
  let text ← state.text.update decoded entry.flags
  let documentHasher ← feedDocumentHasher state.documentHasher entry.logicalOffset decoded
  let decodedBytes ← okOr .resourceLimitExceeded
    (checkedAdd state.decodedBytes (← usizeToU64 decoded.length))
  return { originalHasher, text, documentHasher, decodedBytes }

/-- The chunk loop of `verify_deep_entries`. -/
def verifyDeepLoop (env : Env) (details : SkeletonDetails) (decodeEntry : DecodeEntry) :
    Nat → List ChunkEntry → DeepState env → Result (DeepState env)
  | _, [], state => .ok state
  | chunkIndex, entry :: entries, state => do
    let state ← verifyDeepEntry env details decodeEntry chunkIndex entry state
    verifyDeepLoop env details decodeEntry (chunkIndex + 1) entries state

/-- The result map of the document hasher, empty where there is none. -/
def DeepState.documentHashes {env : Env} (state : DeepState env) : List (Nat × Digest) :=
  match state.documentHasher with
  | some hasher => hasher.results
  | none => []

/-- The final document check, where there is a document index. -/
def verifyDeepDocuments (env : Env) (details : SkeletonDetails) (state : DeepState env) :
    Result Unit :=
  match details.documentIndex with
  | some documentIndex =>
    verifyDocumentIndexRanges env documentIndex details.summary.originalSize
      details.metadata.lineCount details.chunkEntries state.documentHashes
  | none => .ok ⟨⟩

/-- `verify_deep_entries`. -/
def verifyDeepEntries (env : Env) (details : SkeletonDetails) (decodeEntry : DecodeEntry) :
    Result VerifyReport := do
  let state ← verifyDeepLoop env details decodeEntry 0 details.chunkEntries (.new env details)
  rejectIf (state.decodedBytes ≠ details.summary.originalSize) .chunkSizeMismatch
  rejectIf (Checksum.fromHasher env state.originalHasher ≠ details.metadata.originalChecksum)
    .uncompressedChunkChecksumMismatch
  rejectIf (state.text.lineStartsSeen ≠ details.metadata.lineCount) .containerCorrupt
  rejectIf (state.text.newlineMode ≠ details.metadata.newlineMode) .newlineModeMismatch
  verifyDeepDocuments env details state
  return reportForLevel details .deep state.decodedBytes

end Qzt
