import Qzt.Container.DenseLineIndex
import Qzt.Container.Schema

/-!
# Opening a container (`skeleton.rs`)

The structural opener over an in-memory container, and the footer size fixed point of
the writers.  The opener over a positioned source is in `Qzt.Container.SkeletonReadAt`.
-/

namespace Qzt

open Foundation

/-- `SkeletonSummary`. -/
structure SkeletonSummary where
  containerId : ContainerId
  originalSize : Nat
  chunkCount : Nat
  lineCount : Nat
  deriving DecidableEq

/-- `SkeletonDetails`.  The hash map `document_lookup` is its list of insertions, looked up by
first occurrence. -/
structure SkeletonDetails where
  summary : SkeletonSummary
  chunkEntries : List ChunkEntry
  metadata : Metadata
  footerPayload : FooterPayload
  footerPayloadOffset : Nat
  dictionaries : List DictionaryEntry
  denseLineIndex : Option DenseLineIndex
  documentIndex : Option DocumentIndex
  documentLookup : List (String × Nat)
  deriving DecidableEq

/-- `build_document_lookup`. -/
def buildDocumentLookup : Option DocumentIndex → List (String × Nat)
  | none => []
  | some documentIndex => documentIndex.documents.mapIdx fun index document =>
      (document.docId, index)

/-! ## Blocks of an in-memory container -/

/-- `slice_physical`. -/
def slicePhysical (bytes : List UInt8) (range : PhysicalRange) : Result (List UInt8) := do
  let stop ← checkedPhysicalEnd range.offset range.size
  rejectIf (stop > bytes.length) .physicalRangeOutOfBounds
  okOr .physicalRangeOutOfBounds (getRange? bytes range.offset stop)

/-- `slice_block_ref`. -/
def sliceBlockRef (bytes : List UInt8) (block : BlockRef) : Result (List UInt8) :=
  slicePhysical bytes ⟨block.offset, block.size⟩

/-- Append the dictionaries of one block; no identifier may exist already. -/
def appendDictionaries : List DictionaryEntry → List DictionaryEntry →
    Result (List DictionaryEntry)
  | dictionaries, [] => .ok dictionaries
  | dictionaries, entry :: entries => do
    rejectIf (dictionaries.any (fun existing => existing.dictionaryId == entry.dictionaryId) = true)
      .containerCorrupt
    appendDictionaries (dictionaries ++ [entry]) entries

/-- The descriptors of one block type. -/
def IndexRoot.blocksOfType (indexRoot : IndexRoot) (blockType : String) : List BlockDescriptor :=
  indexRoot.blocks.filter fun block => block.blockType == blockType

/-- The descriptor loop of `parse_dictionary_blocks`. -/
def parseDictionaryDescriptors (env : Env) (bytes : List UInt8) (containerId : ContainerId)
    (limits : ResourceLimits) :
    List BlockDescriptor → List DictionaryEntry → Result (List DictionaryEntry)
  | [], dictionaries => .ok dictionaries
  | descriptor :: descriptors, dictionaries => do
    rejectIf (descriptor.required = true ∨ descriptor.codec ≠ "qzt-dict-cbor-v1") .containerCorrupt
    limits.enforceIndexBlockSize descriptor.size
    let dictionaryBytes ← slicePhysical bytes ⟨descriptor.offset, descriptor.size⟩
    rejectIf (Checksum.blake3 env dictionaryBytes ≠ descriptor.checksum)
      .dictionaryChecksumMismatch
    let _ ← validateDeterministicWithLimits dictionaryBytes limits.cborLimits
    let block ← DictionaryBlock.decodeWithLimits env dictionaryBytes limits.maxDictionarySize
    rejectIf (block.containerId ≠ containerId) .containerIdMismatch
    let dictionaries ← appendDictionaries dictionaries block.dictionaries
    parseDictionaryDescriptors env bytes containerId limits descriptors dictionaries

/-- `parse_dictionary_blocks`. -/
def parseDictionaryBlocks (env : Env) (bytes : List UInt8) (indexRoot : IndexRoot)
    (containerId : ContainerId) (limits : ResourceLimits) : Result (List DictionaryEntry) :=
  parseDictionaryDescriptors env bytes containerId limits (indexRoot.blocksOfType "dictionary") []

/-- `validate_required_dictionaries`. -/
def validateRequiredDictionaries (chunkEntries : List ChunkEntry)
    (dictionaries : List DictionaryEntry) : Result Unit :=
  checkAll (fun entry => rejectIf (entry.dictionaryId ≠ 0 ∧
      dictionaries.any (fun dictionary => dictionary.dictionaryId == entry.dictionaryId) = false)
    .missingDictionary) chunkEntries

/-- The descriptor loop of `parse_dense_line_index`. -/
def parseDenseDescriptors (env : Env) (bytes : List UInt8) (chunkEntries : List ChunkEntry)
    (limits : ResourceLimits) :
    List BlockDescriptor → Option DenseLineIndex → Result (Option DenseLineIndex)
  | [], dense => .ok dense
  | descriptor :: descriptors, dense => do
    rejectIf (descriptor.required = true ∨ descriptor.codec ≠ "qzt-line-delta-varint-v1")
      .chunkTableInvalid
    rejectIf (dense.isSome = true) .chunkTableInvalid
    let denseBytes ← slicePhysical bytes ⟨descriptor.offset, descriptor.size⟩
    rejectIf (Checksum.blake3 env denseBytes ≠ descriptor.checksum) .chunkTableChecksumMismatch
    let dense ← DenseLineIndex.decodeForChunksWithLimit denseBytes chunkEntries
      limits.maxDenseLineIndexAllocation
    parseDenseDescriptors env bytes chunkEntries limits descriptors (some dense)

/-- `parse_dense_line_index`. -/
def parseDenseLineIndex (env : Env) (bytes : List UInt8) (indexRoot : IndexRoot)
    (chunkEntries : List ChunkEntry) (limits : ResourceLimits) : Result (Option DenseLineIndex) :=
  parseDenseDescriptors env bytes chunkEntries limits
    (indexRoot.blocksOfType "dense_line_index") none

/-- The descriptor loop of `parse_document_index`. -/
def parseDocumentDescriptors (env : Env) (bytes : List UInt8) (containerId : ContainerId)
    (limits : ResourceLimits) :
    List BlockDescriptor → Option DocumentIndex → Result (Option DocumentIndex)
  | [], documentIndex => .ok documentIndex
  | descriptor :: descriptors, documentIndex => do
    rejectIf (descriptor.required = true ∨ descriptor.codec ≠ "qzt-doc-index-cbor-v1")
      .containerCorrupt
    rejectIf (documentIndex.isSome = true) .containerCorrupt
    let documentBytes ← slicePhysical bytes ⟨descriptor.offset, descriptor.size⟩
    rejectIf (Checksum.blake3 env documentBytes ≠ descriptor.checksum) .containerCorrupt
    let _ ← validateDeterministicWithLimits documentBytes limits.cborLimits
    let block ← DocumentIndex.decode documentBytes
    rejectIf (block.containerId ≠ containerId) .containerIdMismatch
    parseDocumentDescriptors env bytes containerId limits descriptors (some block)

/-- `parse_document_index`. -/
def parseDocumentIndex (env : Env) (bytes : List UInt8) (indexRoot : IndexRoot)
    (containerId : ContainerId) (limits : ResourceLimits) : Result (Option DocumentIndex) :=
  parseDocumentDescriptors env bytes containerId limits
    (indexRoot.blocksOfType "document_index") none

/-! ## Pieces both openers build the same way -/

/-- The physical ranges that must not overlap. -/
def containerRanges (header : Header) (trailer : FooterTrailer) (footerPayload : FooterPayload)
    (chunkTable : BlockDescriptor) (indexRoot : IndexRoot) (chunkEntries : List ChunkEntry) :
    List PhysicalRange :=
  [⟨header.metadataOffset, header.metadataSize⟩,
    ⟨footerPayload.indexRoot.offset, footerPayload.indexRoot.size⟩,
    ⟨trailer.footerPayloadOffset, trailer.footerPayloadSize⟩,
    ⟨chunkTable.offset, chunkTable.size⟩] ++
  ((indexRoot.blocks.filter fun block =>
      !(block.blockType == "metadata" || block.blockType == "chunk_table")).map fun block =>
    ⟨block.offset, block.size⟩) ++
  chunkEntries.map fun entry => ⟨entry.physicalOffset, entry.compressedSize⟩

/-- The `SkeletonDetails` an opener returns. -/
def skeletonDetails (header : Header) (trailer : FooterTrailer) (footerPayload : FooterPayload)
    (metadata : Metadata) (indexRoot : IndexRoot) (chunkEntries : List ChunkEntry)
    (dictionaries : List DictionaryEntry) (denseLineIndex : Option DenseLineIndex)
    (documentIndex : Option DocumentIndex) : SkeletonDetails where
  summary :=
    { containerId := header.containerId, originalSize := indexRoot.originalSize,
      chunkCount := indexRoot.chunkCount, lineCount := indexRoot.lineCount }
  chunkEntries := chunkEntries
  metadata := metadata
  footerPayload := footerPayload
  footerPayloadOffset := trailer.footerPayloadOffset
  dictionaries := dictionaries
  denseLineIndex := denseLineIndex
  documentIndex := documentIndex
  documentLookup := buildDocumentLookup documentIndex

/-! ## The opener -/

/-- `open_skeleton_details_with_limits`. -/
def openSkeletonDetailsWithLimits (env : Env) (bytes : List UInt8) (limits : ResourceLimits) :
    Result SkeletonDetails := do
  rejectIf (bytes.length < headerLen) .invalidHeader
  rejectIf (bytes.length < headerLen + footerTrailerLen) .invalidFooterTrailer
  let finalFileSize ← usizeToU64 bytes.length
  let header ← Header.decode (slice bytes 0 headerLen)
  let trailer ← FooterTrailer.decode
    (slice bytes (bytes.length - footerTrailerLen) footerTrailerLen)
  let footerPayloadBytes ← slicePhysical bytes
    ⟨trailer.footerPayloadOffset, trailer.footerPayloadSize⟩
  rejectIf ((Checksum.blake3 env footerPayloadBytes).value ≠ trailer.footerPayloadChecksumBlake3)
    .footerChecksumMismatch
  let _ ← validateDeterministicWithLimits footerPayloadBytes limits.cborLimits
  let footerPayload ← FooterPayload.decode footerPayloadBytes
  rejectIf (footerPayload.finalFileSize ≠ finalFileSize) .finalFileSizeMismatch
  rejectIf (footerPayload.containerId ≠ header.containerId) .containerIdMismatch
  rejectIf (footerPayload.metadata.offset ≠ header.metadataOffset ∨
    footerPayload.metadata.size ≠ header.metadataSize) .metadataInvalid
  limits.enforceIndexBlockSize footerPayload.metadata.size
  let metadataBytes ← sliceBlockRef bytes footerPayload.metadata
  rejectIf (Checksum.blake3 env metadataBytes ≠ footerPayload.metadata.checksum)
    .metadataChecksumMismatch
  let _ ← validateDeterministicWithLimits metadataBytes limits.cborLimits
  let metadata ← Metadata.decode metadataBytes
  rejectIf (metadata.containerId ≠ header.containerId) .containerIdMismatch
  limits.enforceIndexBlockSize footerPayload.indexRoot.size
  let indexRootBytes ← sliceBlockRef bytes footerPayload.indexRoot
  rejectIf (Checksum.blake3 env indexRootBytes ≠ footerPayload.indexRoot.checksum)
    .indexRootChecksumMismatch
  let _ ← validateDeterministicWithLimits indexRootBytes limits.cborLimits
  let indexRoot ← IndexRoot.decode indexRootBytes
  validateSourceConsistency metadata indexRoot
  let chunkTable ← indexRoot.chunkTableBlock
  rejectIf (chunkTable.codec ≠ "qzt-ctbl-fixed-v1") .chunkTableInvalid
  checkAll (fun block => limits.enforceIndexBlockSize block.size) indexRoot.blocks
  let chunkTableBytes ← slicePhysical bytes ⟨chunkTable.offset, chunkTable.size⟩
  rejectIf (Checksum.blake3 env chunkTableBytes ≠ chunkTable.checksum) .chunkTableChecksumMismatch
  let chunkEntries ← validateChunkTableBlock chunkTableBytes indexRoot.chunkCount
    indexRoot.originalSize indexRoot.lineCount
  checkAll (fun entry => limits.enforceChunkSizes entry.compressedSize entry.uncompressedSize)
    chunkEntries
  validatePhysicalRanges finalFileSize
    (containerRanges header trailer footerPayload chunkTable indexRoot chunkEntries)
  let dictionaries ← parseDictionaryBlocks env bytes indexRoot header.containerId limits
  validateRequiredDictionaries chunkEntries dictionaries
  let denseLineIndex ← parseDenseLineIndex env bytes indexRoot chunkEntries limits
  let documentIndex ← parseDocumentIndex env bytes indexRoot header.containerId limits
  return skeletonDetails header trailer footerPayload metadata indexRoot chunkEntries dictionaries
    denseLineIndex documentIndex

/-- `open_skeleton_details`. -/
def openSkeletonDetails (env : Env) (bytes : List UInt8) : Result SkeletonDetails :=
  openSkeletonDetailsWithLimits env bytes .default

/-! ## The footer size fixed point -/

/-- The loop of `fixed_point_footer_payload`, `fuel` rounds being left. -/
def fixedPointLoop (containerId : ContainerId) (indexRoot metadata : BlockRef)
    (footerPayloadOffset : Nat) (containerChecksum : Option Checksum) :
    Nat → Nat → Result FooterPayload
  | 0, _ => .error .containerCorrupt
  | fuel + 1, finalFileSize => do
    let candidate : FooterPayload :=
      { containerId, indexRoot, metadata, finalFileSize, footerFlags := 0, containerChecksum }
    let size ← usizeToU64 (← candidate.encode).length
    let next ← okOr .physicalRangeOutOfBounds
      ((checkedAdd footerPayloadOffset size).bind (checkedAdd · footerTrailerLen))
    if next = finalFileSize then
      return candidate
    else
      fixedPointLoop containerId indexRoot metadata footerPayloadOffset containerChecksum fuel next

/-- `fixed_point_footer_payload`. -/
def fixedPointFooterPayload (containerId : ContainerId) (indexRoot metadata : BlockRef)
    (footerPayloadOffset : Nat) (containerChecksum : Option Checksum) : Result FooterPayload :=
  fixedPointLoop containerId indexRoot metadata footerPayloadOffset containerChecksum 8 0

end Qzt
