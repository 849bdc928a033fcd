import Qzt.Cbor.Budgets
import Qzt.Container.Skeleton

/-!
# The rules of the opener

`SkeletonParts` names what the opener reads on its way, and `SkeletonParts.Follows` lists
the rules it enforces, one field for each check.  The limits under which the schema
decoders validate a CBOR block a second time are a parameter of the rules; the opener
follows them with the default limits (`openSkeletonDetailsWithLimits_eq_ok_iff`).
-/

namespace Qzt

open Foundation

/-! ## Blocks -/

theorem slicePhysical_eq_ok {bytes block : List UInt8} {range : PhysicalRange}
    (h : slicePhysical bytes range = .ok block) : block = slice bytes range.offset range.size := by
  simp only [slicePhysical, bind_eq_ok_iff, checkedPhysicalEnd_eq_ok_iff, okOr_eq_ok_iff,
    getRange?_eq_some_iff] at h
  obtain ⟨_, ⟨-, rfl⟩, _, -, -, rfl⟩ := h
  rw [Nat.add_sub_cancel_left]

/-- A kind of CBOR block: its prologue and the rules behind it. -/
structure BlockSchema (α : Type) where
  keys : List String
  schema : String
  error : QztError
  read : CborValue → Result α

/-- Decode a block whose CBOR is validated under `limits`. -/
def BlockSchema.decodeUnder {α : Type} (block : BlockSchema α) (limits : CborLimits)
    (bytes : List UInt8) : Result α := do
  let value ← validateDeterministicWithLimits bytes limits
  checkPrologue value block.keys block.schema block.error
  block.read value

/-- The footer payload. -/
def FooterPayload.block : BlockSchema FooterPayload where
  keys := footerKeys
  schema := schemaFooter
  error := .invalidFooterPayload
  read := FooterPayload.read

/-- The metadata block. -/
def Metadata.block : BlockSchema Metadata where
  keys := ["schema", "format", "format_version", "container_id", "identity", "source",
    "compression", "chunking", "indexes", "integrity", "compatibility"]
  schema := schemaMetadata
  error := .metadataInvalid
  read := Metadata.read

/-- The index root. -/
def IndexRoot.block : BlockSchema IndexRoot where
  keys := ["schema", "format_version", "container_id", "blocks", "content"]
  schema := schemaIndexRoot
  error := .containerCorrupt
  read := IndexRoot.read

/-- A dictionary block. -/
def DictionaryBlock.block (env : Env) (maxDictionarySize : Nat) : BlockSchema DictionaryBlock where
  keys := ["schema", "format_version", "container_id", "dictionaries"]
  schema := schemaDictionary
  error := .containerCorrupt
  read := DictionaryBlock.read env maxDictionarySize

/-- The document index. -/
def DocumentIndex.block : BlockSchema DocumentIndex where
  keys := ["schema", "format_version", "container_id", "documents"]
  schema := schemaDocumentIndex
  error := .containerCorrupt
  read := DocumentIndex.read

theorem FooterPayload.decode_eq (bytes : List UInt8) :
    FooterPayload.decode bytes = FooterPayload.block.decodeUnder .default bytes := by
  simp only [FooterPayload.decode, decodePrologue, bind_assoc, pure_bind]
  rfl

theorem Metadata.decode_eq (bytes : List UInt8) :
    Metadata.decode bytes = Metadata.block.decodeUnder .default bytes := by
  simp only [Metadata.decode, decodePrologue, bind_assoc, pure_bind]
  rfl

theorem IndexRoot.decode_eq (bytes : List UInt8) :
    IndexRoot.decode bytes = IndexRoot.block.decodeUnder .default bytes := by
  simp only [IndexRoot.decode, decodePrologue, bind_assoc, pure_bind]
  rfl

theorem DictionaryBlock.decodeWithLimits_eq (env : Env) (bytes : List UInt8) (max : Nat) :
    DictionaryBlock.decodeWithLimits env bytes max =
      (DictionaryBlock.block env max).decodeUnder .default bytes := by
  simp only [DictionaryBlock.decodeWithLimits, decodePrologue, bind_assoc, pure_bind]
  rfl

theorem DocumentIndex.decode_eq (bytes : List UInt8) :
    DocumentIndex.decode bytes = DocumentIndex.block.decodeUnder .default bytes := by
  simp only [DocumentIndex.decode, decodePrologue, bind_assoc, pure_bind]
  rfl

/-- The budgets decide whether a block is decoded, not as what. -/
theorem BlockSchema.decodeUnder_congr {α : Type} {block : BlockSchema α}
    {limits limits' : CborLimits} {bytes : List UInt8} {value : CborValue}
    (h : validateDeterministicWithLimits bytes limits' = .ok value) {a : α}
    (hdecode : block.decodeUnder limits bytes = .ok a) :
    block.decodeUnder limits' bytes = .ok a := by
  simp only [decodeUnder, bind_eq_ok_iff] at hdecode
  obtain ⟨value', hvalue, ⟨⟩, hprologue, hread⟩ := hdecode
  obtain rfl := validateDeterministicWithLimits_unique hvalue h
  rw [decodeUnder, h, ok_bind, hprologue, ok_bind, hread]

theorem BlockSchema.decodeUnder_unique {α : Type} {block : BlockSchema α}
    {limits limits' : CborLimits} {bytes : List UInt8} {a a' : α}
    (h : block.decodeUnder limits bytes = .ok a) (h' : block.decodeUnder limits' bytes = .ok a') :
    a = a' := by
  simp only [decodeUnder, bind_eq_ok_iff] at h'
  obtain ⟨value, hvalue, ⟨⟩, hprologue, hread⟩ := h'
  have hsame := decodeUnder_congr hvalue h
  rw [decodeUnder, hvalue, ok_bind, hprologue, ok_bind, hread, Except.ok.injEq] at hsame
  exact hsame.symm

/-! ## Optional blocks -/

/-- `parseDictionaryDescriptors` with the blocks decoded under `cbor`. -/
def parseDictionariesUnder (env : Env) (bytes : List UInt8) (containerId : ContainerId)
    (limits : ResourceLimits) (cbor : CborLimits) :
    List BlockDescriptor → List DictionaryEntry → Result (List DictionaryEntry)
  | [], dictionaries => .ok dictionaries
  | descriptor :: descriptors, dictionaries => do
    rejectIf (descriptor.required = true ∨ descriptor.codec ≠ "qzt-dict-cbor-v1") .containerCorrupt
    limits.enforceIndexBlockSize descriptor.size
    let dictionaryBytes ← slicePhysical bytes ⟨descriptor.offset, descriptor.size⟩
    rejectIf (Checksum.blake3 env dictionaryBytes ≠ descriptor.checksum)
      .dictionaryChecksumMismatch
    let _ ← validateDeterministicWithLimits dictionaryBytes limits.cborLimits
    let block ← (DictionaryBlock.block env limits.maxDictionarySize).decodeUnder cbor
      dictionaryBytes
    rejectIf (block.containerId ≠ containerId) .containerIdMismatch
    let dictionaries ← appendDictionaries dictionaries block.dictionaries
    parseDictionariesUnder env bytes containerId limits cbor descriptors dictionaries

/-- `parseDocumentDescriptors` with the blocks decoded under `cbor`. -/
def parseDocumentsUnder (env : Env) (bytes : List UInt8) (containerId : ContainerId)
    (limits : ResourceLimits) (cbor : CborLimits) :
    List BlockDescriptor → Option DocumentIndex → Result (Option DocumentIndex)
  | [], documentIndex => .ok documentIndex
  | descriptor :: descriptors, documentIndex => do
    rejectIf (descriptor.required = true ∨ descriptor.codec ≠ "qzt-doc-index-cbor-v1")
      .containerCorrupt
    rejectIf (documentIndex.isSome = true) .containerCorrupt
    let documentBytes ← slicePhysical bytes ⟨descriptor.offset, descriptor.size⟩
    rejectIf (Checksum.blake3 env documentBytes ≠ descriptor.checksum) .containerCorrupt
    let _ ← validateDeterministicWithLimits documentBytes limits.cborLimits
    let block ← DocumentIndex.block.decodeUnder cbor documentBytes
    rejectIf (block.containerId ≠ containerId) .containerIdMismatch
    parseDocumentsUnder env bytes containerId limits cbor descriptors (some block)

section Optional

variable (env : Env) (bytes : List UInt8) (containerId : ContainerId) (limits : ResourceLimits)

theorem parseDictionariesUnder_default (descriptors : List BlockDescriptor)
    (dictionaries : List DictionaryEntry) :
    parseDictionariesUnder env bytes containerId limits .default descriptors dictionaries =
      parseDictionaryDescriptors env bytes containerId limits descriptors dictionaries := by
  induction descriptors generalizing dictionaries with
  | nil => rfl
  | cons descriptor descriptors ih =>
    simp only [parseDictionariesUnder, parseDictionaryDescriptors,
      DictionaryBlock.decodeWithLimits_eq, ih]

theorem parseDocumentsUnder_default (descriptors : List BlockDescriptor)
    (documentIndex : Option DocumentIndex) :
    parseDocumentsUnder env bytes containerId limits .default descriptors documentIndex =
      parseDocumentDescriptors env bytes containerId limits descriptors documentIndex := by
  induction descriptors generalizing documentIndex with
  | nil => rfl
  | cons descriptor descriptors ih =>
    simp only [parseDocumentsUnder, parseDocumentDescriptors, DocumentIndex.decode_eq, ih]

end Optional

/-! ## The rules -/

/-- What the opener reads. -/
structure SkeletonParts where
  header : Header
  trailer : FooterTrailer
  footerPayloadBytes : List UInt8
  footerPayload : FooterPayload
  metadataBytes : List UInt8
  metadata : Metadata
  indexRootBytes : List UInt8
  indexRoot : IndexRoot
  chunkTable : BlockDescriptor
  chunkTableBytes : List UInt8
  chunkEntries : List ChunkEntry
  dictionaries : List DictionaryEntry
  denseLineIndex : Option DenseLineIndex
  documentIndex : Option DocumentIndex

namespace SkeletonParts

/-- The details the opener returns. -/
def details (parts : SkeletonParts) : SkeletonDetails :=
  skeletonDetails parts.header parts.trailer parts.footerPayload parts.metadata parts.indexRoot
    parts.chunkEntries parts.dictionaries parts.denseLineIndex parts.documentIndex

/-- The physical ranges that must not overlap. -/
def ranges (parts : SkeletonParts) : List PhysicalRange :=
  containerRanges parts.header parts.trailer parts.footerPayload parts.chunkTable parts.indexRoot
    parts.chunkEntries

/-- A block that passes CBOR validation under the caller's limits. -/
def Admitted (limits : ResourceLimits) (blockBytes : List UInt8) : Prop :=
  ∃ value, validateDeterministicWithLimits blockBytes limits.cborLimits = .ok value

/-- The rules of the opener, in the order in which it enforces them. -/
structure Follows (env : Env) (bytes : List UInt8) (limits : ResourceLimits) (cbor : CborLimits)
    (parts : SkeletonParts) : Prop where
  length : headerLen + footerTrailerLen ≤ bytes.length
  word : bytes.length < 2 ^ 64
  header : Header.decode (slice bytes 0 headerLen) = .ok parts.header
  trailer : FooterTrailer.decode
    (slice bytes (bytes.length - footerTrailerLen) footerTrailerLen) = .ok parts.trailer
  footerSlice : slicePhysical bytes
    ⟨parts.trailer.footerPayloadOffset, parts.trailer.footerPayloadSize⟩ =
      .ok parts.footerPayloadBytes
  footerChecksum : (Checksum.blake3 env parts.footerPayloadBytes).value =
    parts.trailer.footerPayloadChecksumBlake3
  footerAdmitted : Admitted limits parts.footerPayloadBytes
  footer : FooterPayload.block.decodeUnder cbor parts.footerPayloadBytes = .ok parts.footerPayload
  finalFileSize : parts.footerPayload.finalFileSize = bytes.length
  footerId : parts.footerPayload.containerId = parts.header.containerId
  metadataRef : parts.footerPayload.metadata.offset = parts.header.metadataOffset ∧
    parts.footerPayload.metadata.size = parts.header.metadataSize
  metadataSize : parts.footerPayload.metadata.size ≤ limits.maxIndexBlockSize
  metadataSlice : sliceBlockRef bytes parts.footerPayload.metadata = .ok parts.metadataBytes
  metadataChecksum : Checksum.blake3 env parts.metadataBytes = parts.footerPayload.metadata.checksum
  metadataAdmitted : Admitted limits parts.metadataBytes
  metadata : Metadata.block.decodeUnder cbor parts.metadataBytes = .ok parts.metadata
  metadataId : parts.metadata.containerId = parts.header.containerId
  indexRootSize : parts.footerPayload.indexRoot.size ≤ limits.maxIndexBlockSize
  indexRootSlice : sliceBlockRef bytes parts.footerPayload.indexRoot = .ok parts.indexRootBytes
  indexRootChecksum :
    Checksum.blake3 env parts.indexRootBytes = parts.footerPayload.indexRoot.checksum
  indexRootAdmitted : Admitted limits parts.indexRootBytes
  indexRoot : IndexRoot.block.decodeUnder cbor parts.indexRootBytes = .ok parts.indexRoot
  source : validateSourceConsistency parts.metadata parts.indexRoot = .ok ⟨⟩
  chunkTable : parts.indexRoot.chunkTableBlock = .ok parts.chunkTable
  chunkTableCodec : parts.chunkTable.codec = "qzt-ctbl-fixed-v1"
  blockSizes : ∀ block ∈ parts.indexRoot.blocks, block.size ≤ limits.maxIndexBlockSize
  chunkTableSlice : slicePhysical bytes ⟨parts.chunkTable.offset, parts.chunkTable.size⟩ =
    .ok parts.chunkTableBytes
  chunkTableChecksum : Checksum.blake3 env parts.chunkTableBytes = parts.chunkTable.checksum
  chunkEntries : validateChunkTableBlock parts.chunkTableBytes parts.indexRoot.chunkCount
    parts.indexRoot.originalSize parts.indexRoot.lineCount = .ok parts.chunkEntries
  chunkSizes : ∀ entry ∈ parts.chunkEntries,
    entry.compressedSize ≤ limits.maxCompressedChunkSize ∧
      entry.uncompressedSize ≤ limits.maxUncompressedChunkSize
  ranges : validatePhysicalRanges bytes.length parts.ranges = .ok ⟨⟩
  dictionaries : parseDictionariesUnder env bytes parts.header.containerId limits cbor
    (parts.indexRoot.blocksOfType "dictionary") [] = .ok parts.dictionaries
  required : validateRequiredDictionaries parts.chunkEntries parts.dictionaries = .ok ⟨⟩
  dense : parseDenseLineIndex env bytes parts.indexRoot parts.chunkEntries limits =
    .ok parts.denseLineIndex
  documents : parseDocumentsUnder env bytes parts.header.containerId limits cbor
    (parts.indexRoot.blocksOfType "document_index") none = .ok parts.documentIndex

/-- Bytes that follow the rules with the default limits are opened. -/
theorem Follows.opens {env : Env} {bytes : List UInt8} {limits : ResourceLimits}
    {parts : SkeletonParts} (h : parts.Follows env bytes limits .default) :
    openSkeletonDetailsWithLimits env bytes limits = .ok parts.details := by
  have hlength := h.length
  obtain ⟨_, hfooterAdmitted⟩ := h.footerAdmitted
  obtain ⟨_, hmetadataAdmitted⟩ := h.metadataAdmitted
  obtain ⟨_, hindexRootAdmitted⟩ := h.indexRootAdmitted
  have hfooter := (FooterPayload.decode_eq _).trans h.footer
  have hmetadata := (Metadata.decode_eq _).trans h.metadata
  have hindexRoot := (IndexRoot.decode_eq _).trans h.indexRoot
  have hblocks : checkAll (fun block => limits.enforceIndexBlockSize (BlockDescriptor.size block))
      parts.indexRoot.blocks = .ok ⟨⟩ := by
    rw [checkAll_eq_ok_iff]
    exact fun block hblock =>
      (ResourceLimits.enforceIndexBlockSize_eq_ok_iff _).mpr (h.blockSizes block hblock)
  have hchunks : checkAll (fun entry => limits.enforceChunkSizes
      (ChunkEntry.compressedSize entry) entry.uncompressedSize) parts.chunkEntries = .ok ⟨⟩ := by
    rw [checkAll_eq_ok_iff]
    exact fun entry hentry =>
      (ResourceLimits.enforceChunkSizes_eq_ok_iff _).mpr (h.chunkSizes entry hentry)
  have hmetadataSize : limits.enforceIndexBlockSize parts.footerPayload.metadata.size = .ok ⟨⟩ :=
    (ResourceLimits.enforceIndexBlockSize_eq_ok_iff _).mpr h.metadataSize
  have hindexRootSize : limits.enforceIndexBlockSize parts.footerPayload.indexRoot.size = .ok ⟨⟩ :=
    (ResourceLimits.enforceIndexBlockSize_eq_ok_iff _).mpr h.indexRootSize
  have hdictionaries := h.dictionaries
  rw [parseDictionariesUnder_default] at hdictionaries
  have hdocuments := h.documents
  rw [parseDocumentsUnder_default] at hdocuments
  rw [openSkeletonDetailsWithLimits, rejectIf_of_not (by omega), ok_bind,
    rejectIf_of_not (by omega), ok_bind, usizeToU64_of_lt h.word, ok_bind, h.header, ok_bind,
    h.trailer, ok_bind, h.footerSlice, ok_bind, rejectIf_of_not (not_not_intro h.footerChecksum),
    ok_bind, hfooterAdmitted, ok_bind, hfooter, ok_bind,
    rejectIf_of_not (not_not_intro h.finalFileSize), ok_bind,
    rejectIf_of_not (not_not_intro h.footerId), ok_bind,
    rejectIf_of_not (fun hbad => hbad.elim (· h.metadataRef.1) (· h.metadataRef.2)), ok_bind]
  rw [hmetadataSize, ok_bind, h.metadataSlice, ok_bind, rejectIf_of_not (not_not_intro h.metadataChecksum), ok_bind,
    hmetadataAdmitted, ok_bind, hmetadata, ok_bind, rejectIf_of_not (not_not_intro h.metadataId),
    ok_bind, hindexRootSize, ok_bind, h.indexRootSlice, ok_bind, rejectIf_of_not (not_not_intro h.indexRootChecksum), ok_bind,
    hindexRootAdmitted, ok_bind, hindexRoot, ok_bind, h.source, ok_bind]
  rw [h.chunkTable, ok_bind, rejectIf_of_not (not_not_intro h.chunkTableCodec), ok_bind, hblocks,
    ok_bind, h.chunkTableSlice, ok_bind, rejectIf_of_not (not_not_intro h.chunkTableChecksum),
    ok_bind, h.chunkEntries, ok_bind, hchunks, ok_bind]
  have hranges := h.ranges
  rw [SkeletonParts.ranges] at hranges
  rw [hranges, ok_bind, parseDictionaryBlocks, hdictionaries, ok_bind, h.required, ok_bind, h.dense,
    ok_bind, parseDocumentIndex, hdocuments, ok_bind]
  rfl

/-- Every check that the opener passed. -/
theorem follows_of_open {env : Env} {bytes : List UInt8} {limits : ResourceLimits}
    {details : SkeletonDetails} (h : openSkeletonDetailsWithLimits env bytes limits = .ok details) :
    ∃ parts : SkeletonParts, parts.Follows env bytes limits .default ∧ parts.details = details := by
  unfold openSkeletonDetailsWithLimits at h
  obtain ⟨_, -, h⟩ := bind_eq_ok_iff.mp h
  obtain ⟨_, hlength, h⟩ := bind_eq_ok_iff.mp h
  obtain ⟨_, hsize, h⟩ := bind_eq_ok_iff.mp h
  obtain ⟨hword, rfl⟩ := usizeToU64_eq_ok_iff.mp hsize
  obtain ⟨header, hheader, h⟩ := bind_eq_ok_iff.mp h
  obtain ⟨trailer, htrailer, h⟩ := bind_eq_ok_iff.mp h
  obtain ⟨footerPayloadBytes, hfooterSlice, h⟩ := bind_eq_ok_iff.mp h
  obtain ⟨_, hfooterChecksum, h⟩ := bind_eq_ok_iff.mp h
  obtain ⟨footerValue, hfooterAdmitted, h⟩ := bind_eq_ok_iff.mp h
  obtain ⟨footerPayload, hfooter, h⟩ := bind_eq_ok_iff.mp h
  obtain ⟨_, hfinal, h⟩ := bind_eq_ok_iff.mp h
  obtain ⟨_, hfooterId, h⟩ := bind_eq_ok_iff.mp h
  obtain ⟨_, hmetadataRef, h⟩ := bind_eq_ok_iff.mp h
  obtain ⟨_, hmetadataSize, h⟩ := bind_eq_ok_iff.mp h
  obtain ⟨metadataBytes, hmetadataSlice, h⟩ := bind_eq_ok_iff.mp h
  obtain ⟨_, hmetadataChecksum, h⟩ := bind_eq_ok_iff.mp h
  obtain ⟨metadataValue, hmetadataAdmitted, h⟩ := bind_eq_ok_iff.mp h
  obtain ⟨metadata, hmetadata, h⟩ := bind_eq_ok_iff.mp h
  obtain ⟨_, hmetadataId, h⟩ := bind_eq_ok_iff.mp h
  obtain ⟨_, hindexRootSize, h⟩ := bind_eq_ok_iff.mp h
  obtain ⟨indexRootBytes, hindexRootSlice, h⟩ := bind_eq_ok_iff.mp h
  obtain ⟨_, hindexRootChecksum, h⟩ := bind_eq_ok_iff.mp h
  obtain ⟨indexRootValue, hindexRootAdmitted, h⟩ := bind_eq_ok_iff.mp h
  obtain ⟨indexRoot, hindexRoot, h⟩ := bind_eq_ok_iff.mp h
  obtain ⟨⟨⟩, hsource, h⟩ := bind_eq_ok_iff.mp h
  obtain ⟨chunkTable, hchunkTable, h⟩ := bind_eq_ok_iff.mp h
  obtain ⟨_, hcodec, h⟩ := bind_eq_ok_iff.mp h
  obtain ⟨⟨⟩, hblocks, h⟩ := bind_eq_ok_iff.mp h
  obtain ⟨chunkTableBytes, htableSlice, h⟩ := bind_eq_ok_iff.mp h
  obtain ⟨_, htableChecksum, h⟩ := bind_eq_ok_iff.mp h
  obtain ⟨chunkEntries, hentries, h⟩ := bind_eq_ok_iff.mp h
  obtain ⟨⟨⟩, hchunks, h⟩ := bind_eq_ok_iff.mp h
  obtain ⟨⟨⟩, hranges, h⟩ := bind_eq_ok_iff.mp h
  obtain ⟨dictionaries, hdictionaries, h⟩ := bind_eq_ok_iff.mp h
  obtain ⟨⟨⟩, hrequired, h⟩ := bind_eq_ok_iff.mp h
  obtain ⟨denseLineIndex, hdense, h⟩ := bind_eq_ok_iff.mp h
  obtain ⟨documentIndex, hdocuments, h⟩ := bind_eq_ok_iff.mp h
  rw [rejectIf_eq_ok_iff] at hlength hfooterChecksum hfinal hfooterId hmetadataRef
  rw [rejectIf_eq_ok_iff] at hmetadataChecksum hmetadataId hindexRootChecksum hcodec
  rw [rejectIf_eq_ok_iff] at htableChecksum
  rw [checkAll_eq_ok_iff] at hblocks hchunks
  refine ⟨⟨header, trailer, footerPayloadBytes, footerPayload, metadataBytes, metadata,
    indexRootBytes, indexRoot, chunkTable, chunkTableBytes, chunkEntries, dictionaries,
    denseLineIndex, documentIndex⟩, ?_, Except.ok.inj h⟩
  exact
    { length := Nat.le_of_not_lt hlength
      word := hword
      header := hheader
      trailer := htrailer
      footerSlice := hfooterSlice
      footerChecksum := not_not.mp hfooterChecksum
      footerAdmitted := ⟨footerValue, hfooterAdmitted⟩
      footer := (FooterPayload.decode_eq _).symm.trans hfooter
      finalFileSize := not_not.mp hfinal
      footerId := not_not.mp hfooterId
      metadataRef := by
        rw [not_or] at hmetadataRef
        exact ⟨not_not.mp hmetadataRef.1, not_not.mp hmetadataRef.2⟩
      metadataSize := (ResourceLimits.enforceIndexBlockSize_eq_ok_iff _).mp hmetadataSize
      metadataSlice := hmetadataSlice
      metadataChecksum := not_not.mp hmetadataChecksum
      metadataAdmitted := ⟨metadataValue, hmetadataAdmitted⟩
      metadata := (Metadata.decode_eq _).symm.trans hmetadata
      metadataId := not_not.mp hmetadataId
      indexRootSize := (ResourceLimits.enforceIndexBlockSize_eq_ok_iff _).mp hindexRootSize
      indexRootSlice := hindexRootSlice
      indexRootChecksum := not_not.mp hindexRootChecksum
      indexRootAdmitted := ⟨indexRootValue, hindexRootAdmitted⟩
      indexRoot := (IndexRoot.decode_eq _).symm.trans hindexRoot
      source := hsource
      chunkTable := hchunkTable
      chunkTableCodec := not_not.mp hcodec
      blockSizes := fun block hblock =>
        (ResourceLimits.enforceIndexBlockSize_eq_ok_iff _).mp (hblocks block hblock)
      chunkTableSlice := htableSlice
      chunkTableChecksum := not_not.mp htableChecksum
      chunkEntries := hentries
      chunkSizes := fun entry hentry =>
        (ResourceLimits.enforceChunkSizes_eq_ok_iff _).mp (hchunks entry hentry)
      ranges := hranges
      dictionaries := (parseDictionariesUnder_default _ _ _ _ _ _).trans hdictionaries
      required := hrequired
      dense := hdense
      documents := (parseDocumentsUnder_default _ _ _ _ _ _).trans hdocuments }

end SkeletonParts

/-- The opener accepts exactly the bytes that follow its rules. -/
theorem openSkeletonDetailsWithLimits_eq_ok_iff {env : Env} {bytes : List UInt8}
    {limits : ResourceLimits} {details : SkeletonDetails} :
    openSkeletonDetailsWithLimits env bytes limits = .ok details ↔
      ∃ parts : SkeletonParts, parts.Follows env bytes limits .default ∧
        parts.details = details := by
  constructor
  · exact SkeletonParts.follows_of_open
  · rintro ⟨parts, hfollows, rfl⟩
    exact hfollows.opens

end Qzt
