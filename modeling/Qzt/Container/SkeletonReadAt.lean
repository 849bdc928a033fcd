import Qzt.Container.Skeleton

/-!
# Opening a positioned source (`skeleton.rs`, `io.rs`)

`open_skeleton_details_read_at` and its block readers.  A `ReadAt` source answers a
positioned read of an exact length; every answer may be an I/O error.
-/

namespace Qzt

open Foundation

/-- `ReadAt`: `read_exact_at(offset, buf)` with the length of `buf` and the bytes it is filled
with. -/
structure ReadAt where
  readExactAt : Nat → Nat → Except IoErrorKind (List UInt8)

/-- The error code of a failed positioned read. -/
def readAtError : IoErrorKind → QztError
  | .unexpectedEof => .unexpectedEof
  | _ => .containerCorrupt

/-- `read_exact_at_qzt`. -/
def readExactAtQzt (reader : ReadAt) (offset len : Nat) : Result (List UInt8) :=
  match reader.readExactAt offset len with
  | .ok bytes => .ok bytes
  | .error kind => .error (readAtError kind)

/-- `read_physical_at`. -/
def readPhysicalAt (reader : ReadAt) (finalFileSize : Nat) (range : PhysicalRange) :
    Result (List UInt8) := do
  let stop ← checkedPhysicalEnd range.offset range.size
  rejectIf (stop > finalFileSize) .physicalRangeOutOfBounds
  let len ← u64ToUsize range.size
  readExactAtQzt reader range.offset len

/-- `read_block_ref_at`. -/
def readBlockRefAt (reader : ReadAt) (finalFileSize : Nat) (block : BlockRef) :
    Result (List UInt8) :=
  readPhysicalAt reader finalFileSize ⟨block.offset, block.size⟩

/-! ## Blocks of a positioned source -/

section

variable (env : Env) (reader : ReadAt) (finalFileSize : Nat)

/-- The descriptor loop of `parse_dictionary_blocks_at`. -/
def parseDictionaryDescriptorsAt (containerId : ContainerId) (limits : ResourceLimits) :
    List BlockDescriptor → List DictionaryEntry → Result (List DictionaryEntry)
  | [], dictionaries => .ok dictionaries
  | descriptor :: descriptors, dictionaries => do
    rejectIf (descriptor.required = true ∨ descriptor.codec ≠ "qzt-dict-cbor-v1") .containerCorrupt
    limits.enforceIndexBlockSize descriptor.size
    let dictionaryBytes ← readPhysicalAt reader finalFileSize ⟨descriptor.offset, descriptor.size⟩
    rejectIf (Checksum.blake3 env dictionaryBytes ≠ descriptor.checksum)
      .dictionaryChecksumMismatch
    let _ ← validateDeterministicWithLimits dictionaryBytes limits.cborLimits
    let block ← DictionaryBlock.decodeWithLimits env dictionaryBytes limits.maxDictionarySize
    rejectIf (block.containerId ≠ containerId) .containerIdMismatch
    let dictionaries ← appendDictionaries dictionaries block.dictionaries
    parseDictionaryDescriptorsAt containerId limits descriptors dictionaries

/-- `parse_dictionary_blocks_at`. -/
def parseDictionaryBlocksAt (indexRoot : IndexRoot)
    (containerId : ContainerId) (limits : ResourceLimits) : Result (List DictionaryEntry) :=
  parseDictionaryDescriptorsAt env reader finalFileSize containerId limits
    (indexRoot.blocksOfType "dictionary") []

/-- The descriptor loop of `parse_dense_line_index_at`. -/
def parseDenseDescriptorsAt (chunkEntries : List ChunkEntry) (limits : ResourceLimits) :
    List BlockDescriptor → Option DenseLineIndex → Result (Option DenseLineIndex)
  | [], dense => .ok dense
  | descriptor :: descriptors, dense => do
    rejectIf (descriptor.required = true ∨ descriptor.codec ≠ "qzt-line-delta-varint-v1")
      .chunkTableInvalid
    rejectIf (dense.isSome = true) .chunkTableInvalid
    let denseBytes ← readPhysicalAt reader finalFileSize ⟨descriptor.offset, descriptor.size⟩
    rejectIf (Checksum.blake3 env denseBytes ≠ descriptor.checksum) .chunkTableChecksumMismatch
    let dense ← DenseLineIndex.decodeForChunksWithLimit denseBytes chunkEntries
      limits.maxDenseLineIndexAllocation
    parseDenseDescriptorsAt chunkEntries limits descriptors (some dense)

/-- `parse_dense_line_index_at`. -/
def parseDenseLineIndexAt (indexRoot : IndexRoot)
    (chunkEntries : List ChunkEntry) (limits : ResourceLimits) : Result (Option DenseLineIndex) :=
  parseDenseDescriptorsAt env reader finalFileSize chunkEntries limits
    (indexRoot.blocksOfType "dense_line_index") none

/-- The descriptor loop of `parse_document_index_at`. -/
def parseDocumentDescriptorsAt (containerId : ContainerId) (limits : ResourceLimits) :
    List BlockDescriptor → Option DocumentIndex → Result (Option DocumentIndex)
  | [], documentIndex => .ok documentIndex
  | descriptor :: descriptors, documentIndex => do
    rejectIf (descriptor.required = true ∨ descriptor.codec ≠ "qzt-doc-index-cbor-v1")
      .containerCorrupt
    rejectIf (documentIndex.isSome = true) .containerCorrupt
    let documentBytes ← readPhysicalAt reader finalFileSize ⟨descriptor.offset, descriptor.size⟩
    rejectIf (Checksum.blake3 env documentBytes ≠ descriptor.checksum) .containerCorrupt
    let _ ← validateDeterministicWithLimits documentBytes limits.cborLimits
    let block ← DocumentIndex.decode documentBytes
    rejectIf (block.containerId ≠ containerId) .containerIdMismatch
    parseDocumentDescriptorsAt containerId limits descriptors (some block)

/-- `parse_document_index_at`. -/
def parseDocumentIndexAt (indexRoot : IndexRoot)
    (containerId : ContainerId) (limits : ResourceLimits) : Result (Option DocumentIndex) :=
  parseDocumentDescriptorsAt env reader finalFileSize containerId limits
    (indexRoot.blocksOfType "document_index") none

/-! ## The opener -/

/-- `open_skeleton_details_read_at`. -/
def openSkeletonDetailsReadAt (limits : ResourceLimits) : Result SkeletonDetails := do
  rejectIf (finalFileSize < headerLen) .invalidHeader
  rejectIf (finalFileSize < headerLen + footerTrailerLen) .invalidFooterTrailer
  let headerBytes ← readExactAtQzt reader 0 headerLen
  let header ← Header.decode headerBytes
  let trailerOffset ← okOr .invalidFooterTrailer (checkedSub finalFileSize footerTrailerLen)
  let trailerBytes ← readExactAtQzt reader trailerOffset footerTrailerLen
  let trailer ← FooterTrailer.decode trailerBytes
  let footerPayloadBytes ← readPhysicalAt reader finalFileSize
    ⟨trailer.footerPayloadOffset, trailer.footerPayloadSize⟩
  rejectIf ((Checksum.blake3 env footerPayloadBytes).value ≠ trailer.footerPayloadChecksumBlake3)
    .footerChecksumMismatch
  let _ ← validateDeterministicWithLimits footerPayloadBytes limits.cborLimits
  let footerPayload ← FooterPayload.decode footerPayloadBytes
  rejectIf (footerPayload.finalFileSize ≠ finalFileSize) .finalFileSizeMismatch
  rejectIf (footerPayload.containerId ≠ header.containerId) .containerIdMismatch
  rejectIf (footerPayload.metadata.offset ≠ header.metadataOffset ∨
    footerPayload.metadata.size ≠ header.metadataSize) .metadataInvalid
  limits.enforceIndexBlockSize footerPayload.metadata.size
  let metadataBytes ← readBlockRefAt reader finalFileSize footerPayload.metadata
  rejectIf (Checksum.blake3 env metadataBytes ≠ footerPayload.metadata.checksum)
    .metadataChecksumMismatch
  let _ ← validateDeterministicWithLimits metadataBytes limits.cborLimits
  let metadata ← Metadata.decode metadataBytes
  rejectIf (metadata.containerId ≠ header.containerId) .containerIdMismatch
  limits.enforceIndexBlockSize footerPayload.indexRoot.size
  let indexRootBytes ← readBlockRefAt reader finalFileSize footerPayload.indexRoot
  rejectIf (Checksum.blake3 env indexRootBytes ≠ footerPayload.indexRoot.checksum)
    .indexRootChecksumMismatch
  let _ ← validateDeterministicWithLimits indexRootBytes limits.cborLimits
  let indexRoot ← IndexRoot.decode indexRootBytes
  validateSourceConsistency metadata indexRoot
  let chunkTable ← indexRoot.chunkTableBlock
  rejectIf (chunkTable.codec ≠ "qzt-ctbl-fixed-v1") .chunkTableInvalid
  checkAll (fun block => limits.enforceIndexBlockSize block.size) indexRoot.blocks
  let chunkTableBytes ← readPhysicalAt reader finalFileSize ⟨chunkTable.offset, chunkTable.size⟩
  rejectIf (Checksum.blake3 env chunkTableBytes ≠ chunkTable.checksum) .chunkTableChecksumMismatch
  let chunkEntries ← validateChunkTableBlock chunkTableBytes indexRoot.chunkCount
    indexRoot.originalSize indexRoot.lineCount
  checkAll (fun entry => limits.enforceChunkSizes entry.compressedSize entry.uncompressedSize)
    chunkEntries
  validatePhysicalRanges finalFileSize
    (containerRanges header trailer footerPayload chunkTable indexRoot chunkEntries)
  let dictionaries ← parseDictionaryBlocksAt env reader finalFileSize indexRoot
    header.containerId limits
  validateRequiredDictionaries chunkEntries dictionaries
  let denseLineIndex ← parseDenseLineIndexAt env reader finalFileSize indexRoot chunkEntries limits
  let documentIndex ← parseDocumentIndexAt env reader finalFileSize indexRoot
    header.containerId limits
  return skeletonDetails header trailer footerPayload metadata indexRoot chunkEntries dictionaries
    denseLineIndex documentIndex

end

end Qzt
