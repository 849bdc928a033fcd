import Qzt.Cbor.RoundTrip
import Qzt.Container.FixedLaws
import Qzt.Writer.Planning

/-!
# The blocks of an assembled container

`assemble_container` lays the blocks out one behind the other and checks each against
the default limits.  `Assembly` names the blocks, its functions give the offsets and the
structures that refer to them, and `Assembly.Written` is what the writer checked.
-/

namespace Qzt

open Foundation

/-! ## Offsets the writer computes -/

theorem metadataOffsetOf_chunkTableOf {env : Env} {level : Int32} {parts : List (List UInt8)}
    (hcount : parts.length ≤ maxChunkCount) (h : ∀ part ∈ parts, Compresses env level part) :
    metadataOffsetOf (chunkTableOf env level parts) =
      .ok (headerLen + (chunkFrames env level parts).length) := by
  have hlen := length_chunkFrames_lt hcount h
  rcases List.eq_nil_or_concat parts with rfl | ⟨done, part, rfl⟩
  · rfl
  · rw [List.concat_eq_append] at *
    rw [metadataOffsetOf, chunkTableOf, mapWithHistory_concat, List.getLast?_concat]
    rw [chunkFrames_concat, List.length_append] at hlen
    simp only [chunkEntryOf]
    rw [checkedAdd_of_lt (by rw [headerLen]; omega), okOr_some, chunkFrames_concat,
      List.length_append, Nat.add_assoc]

/-- The footer that the fixed point returns states the size of the file it ends. -/
theorem fixedPointLoop_finalFileSize {containerId : ContainerId} {indexRoot metadata : BlockRef}
    {footerPayloadOffset fuel finalFileSize : Nat} {containerChecksum : Option Checksum}
    {payload : FooterPayload}
    (h : fixedPointLoop containerId indexRoot metadata footerPayloadOffset containerChecksum fuel
      finalFileSize = .ok payload) :
    ∃ bytes, payload.encode = .ok bytes ∧
      footerPayloadOffset + bytes.length + footerTrailerLen < 2 ^ 64 ∧
      payload = { containerId, indexRoot, metadata, footerFlags := 0, containerChecksum,
                  finalFileSize := footerPayloadOffset + bytes.length + footerTrailerLen } := by
  induction fuel generalizing finalFileSize with
  | zero => cases h
  | succ fuel ih =>
    simp only [fixedPointLoop, bind_eq_ok_iff, usizeToU64_eq_ok_iff, okOr_eq_ok_iff,
      Option.bind_eq_some_iff, checkedAdd_eq_some_iff] at h
    obtain ⟨bytes, hbytes, _, ⟨_, rfl⟩, next, ⟨_, ⟨_, rfl⟩, hlt, rfl⟩, hresult⟩ := h
    split at hresult
    · rename_i hfixed
      cases hresult
      exact ⟨bytes, hbytes, hlt, by rw [hfixed]⟩
    · exact ih hresult

/-! ## The blocks -/

/-- The blocks of a container. -/
structure Assembly where
  containerId : ContainerId
  level : Int32
  parts : List (List UInt8)
  metadata : Metadata
  dense : Option DenseLineIndex
  documents : Option DocumentIndex
  metadataBytes : List UInt8
  denseBytes : Option (List UInt8)
  documentBytes : Option (List UInt8)
  indexRootBytes : List UInt8
  footerPayloadBytes : List UInt8

namespace Assembly

variable (env : Env) (assembly : Assembly)

/-- The chunk table. -/
def entries : List ChunkEntry := chunkTableOf env assembly.level assembly.parts

/-- The encoded chunk table. -/
def tableBytes : List UInt8 := (assembly.entries env).flatMap ChunkEntry.encode

/-- The compressed chunks. -/
def frames : List UInt8 := chunkFrames env assembly.level assembly.parts

/-- Where the metadata begins. -/
def metadataOffset : Nat := headerLen + (assembly.frames env).length

/-- Where the dense line index begins, or would begin. -/
def denseOffset : Nat := assembly.metadataOffset env + assembly.metadataBytes.length

/-- Where the document index begins, or would begin. -/
def documentOffset : Nat := assembly.denseOffset env + (optionalBytes assembly.denseBytes).length

/-- Where the chunk table begins. -/
def tableOffset : Nat :=
  assembly.documentOffset env + (optionalBytes assembly.documentBytes).length

/-- Where the index root begins. -/
def indexRootOffset : Nat := assembly.tableOffset env + (assembly.tableBytes env).length

/-- Where the footer payload begins. -/
def footerOffset : Nat := assembly.indexRootOffset env + assembly.indexRootBytes.length

/-- The descriptor of the chunk table. -/
def tableBlock : BlockDescriptor :=
  .chunkTable (assembly.tableOffset env) (assembly.tableBytes env).length
    (Checksum.blake3 env (assembly.tableBytes env))

/-- The descriptor of the dense line index. -/
def denseBlock (bytes : List UInt8) : BlockDescriptor :=
  .denseLineIndex (assembly.denseOffset env) bytes.length (Checksum.blake3 env bytes)

/-- The descriptor of the document index. -/
def documentBlock (bytes : List UInt8) : BlockDescriptor :=
  .documentIndex (assembly.documentOffset env) bytes.length (Checksum.blake3 env bytes)

/-- The index root. -/
def indexRoot : IndexRoot where
  containerId := assembly.containerId
  blocks := [assembly.tableBlock env] ++
    (assembly.denseBytes.map (assembly.denseBlock env)).toList ++
    (assembly.documentBytes.map (assembly.documentBlock env)).toList
  originalSize := assembly.metadata.originalSize
  originalChecksum := assembly.metadata.originalChecksum
  chunkCount := (assembly.entries env).length
  lineCount := assembly.metadata.lineCount

/-- The header. -/
def header : Header where
  metadataOffset := assembly.metadataOffset env
  metadataSize := assembly.metadataBytes.length
  indexHintOffset := assembly.indexRootOffset env
  containerId := assembly.containerId

/-- Everything before the footer. -/
def prefixBytes : List UInt8 :=
  (assembly.header env).encode ++ (assembly.frames env ++ (assembly.metadataBytes ++
    (optionalBytes assembly.denseBytes ++ (optionalBytes assembly.documentBytes ++
      (assembly.tableBytes env ++ assembly.indexRootBytes)))))

/-- The footer payload. -/
def footerPayload : FooterPayload where
  containerId := assembly.containerId
  indexRoot := { offset := assembly.indexRootOffset env, size := assembly.indexRootBytes.length,
                 checksum := Checksum.blake3 env assembly.indexRootBytes }
  metadata := { offset := assembly.metadataOffset env, size := assembly.metadataBytes.length,
                checksum := Checksum.blake3 env assembly.metadataBytes }
  finalFileSize := assembly.footerOffset env + assembly.footerPayloadBytes.length +
    footerTrailerLen
  footerFlags := 0
  containerChecksum := some (Checksum.blake3 env (assembly.prefixBytes env))

/-- The footer trailer. -/
def trailer : FooterTrailer where
  footerPayloadOffset := assembly.footerOffset env
  footerPayloadSize := assembly.footerPayloadBytes.length
  footerPayloadChecksumBlake3 := (Checksum.blake3 env assembly.footerPayloadBytes).value

/-- The container. -/
def bytes : List UInt8 :=
  assembly.prefixBytes env ++ (assembly.footerPayloadBytes ++ (assembly.trailer env).encode)

/-- What the writer checked before it returned the container. -/
structure Written : Prop where
  metadata_encode : assembly.metadata.encode = .ok assembly.metadataBytes
  metadata_checked : checkWriterCborBlock assembly.metadataBytes = .ok ⟨⟩
  dense_encode : transposeMap DenseLineIndex.encode assembly.dense = .ok assembly.denseBytes
  dense_checked : checkSome checkDenseEncodedSize assembly.dense = .ok ⟨⟩
  documents_encode :
    transposeMap DocumentIndex.encode assembly.documents = .ok assembly.documentBytes
  documents_checked : checkSome checkWriterCborBlock assembly.documentBytes = .ok ⟨⟩
  indexRoot_encode : (assembly.indexRoot env).encode = .ok assembly.indexRootBytes
  indexRoot_checked : checkWriterCborBlock assembly.indexRootBytes = .ok ⟨⟩
  footer_encode : (assembly.footerPayload env).encode = .ok assembly.footerPayloadBytes
  footer_checked : checkWriterCborBlock assembly.footerPayloadBytes = .ok ⟨⟩
  size_lt :
    assembly.footerOffset env + assembly.footerPayloadBytes.length + footerTrailerLen < 2 ^ 64

end Assembly

/-- The metadata that `assemble_container` writes. -/
def writtenMetadata (env : Env) (containerId : ContainerId) (input : List UInt8)
    (parts : List (List UInt8)) (blocks : OptionalBlocks) : Metadata :=
  Metadata.forSourceWithOptions containerId input.length (Checksum.blake3 env input)
    (planOf parts).newlineMode.asStr (planOf parts).lineCount
    { zstdLevel := blocks.writerOptions.zstdLevel
      targetChunkSize := blocks.writerOptions.chunker.targetChunkSize
      maxChunkSize := blocks.writerOptions.chunker.maxChunkSize
      dictionaryMode := "none"
      profile := blocks.profile
      denseLineIndex := blocks.denseLineIndex.isSome
      documentIndex := blocks.documentIndex.isSome }

/-- A container that `assemble_container` returns is an assembly of its blocks. -/
theorem assembleContainer_eq_ok {env : Env} {input container : List UInt8}
    {containerId : ContainerId} {parts : List (List UInt8)} {blocks : OptionalBlocks}
    (hcount : parts.length ≤ maxChunkCount)
    (hcompress : ∀ part ∈ parts, Compresses env blocks.writerOptions.zstdLevel part)
    (h : assembleContainer env input containerId (planOf parts)
      (parts.map (chunkFrame env blocks.writerOptions.zstdLevel))
      (chunkTableOf env blocks.writerOptions.zstdLevel parts) blocks = .ok container) :
    ∃ assembly : Assembly, assembly.Written env ∧ container = assembly.bytes env ∧
      assembly.containerId = containerId ∧ assembly.level = blocks.writerOptions.zstdLevel ∧
      assembly.parts = parts ∧ assembly.dense = blocks.denseLineIndex ∧
      assembly.documents = blocks.documentIndex ∧
      assembly.metadata = writtenMetadata env containerId input parts blocks := by
  unfold assembleContainer at h
  obtain ⟨_, -, h⟩ := bind_eq_ok_iff.mp h
  rw [metadataOffsetOf_chunkTableOf hcount hcompress, ok_bind] at h
  obtain ⟨_, hsize, h⟩ := bind_eq_ok_iff.mp h
  obtain ⟨-, rfl⟩ := usizeToU64_eq_ok_iff.mp hsize
  obtain ⟨_, hsize, h⟩ := bind_eq_ok_iff.mp h
  obtain ⟨-, rfl⟩ := usizeToU64_eq_ok_iff.mp hsize
  obtain ⟨_, hsize, h⟩ := bind_eq_ok_iff.mp h
  obtain ⟨-, rfl⟩ := usizeToU64_eq_ok_iff.mp hsize
  obtain ⟨metadataBytes, hmetadata, h⟩ := bind_eq_ok_iff.mp h
  obtain ⟨_, hsize, h⟩ := bind_eq_ok_iff.mp h
  obtain ⟨-, rfl⟩ := usizeToU64_eq_ok_iff.mp hsize
  obtain ⟨⟨⟩, hmetadataChecked, h⟩ := bind_eq_ok_iff.mp h
  obtain ⟨⟨⟩, hdenseChecked, h⟩ := bind_eq_ok_iff.mp h
  obtain ⟨denseBytes, hdense, h⟩ := bind_eq_ok_iff.mp h
  obtain ⟨_, hoffset, h⟩ := bind_eq_ok_iff.mp h
  obtain ⟨-, rfl⟩ := checkedAdd_eq_some_iff.mp (okOr_eq_ok_iff.mp hoffset)
  obtain ⟨_, hsize, h⟩ := bind_eq_ok_iff.mp h
  obtain ⟨-, rfl⟩ := usizeToU64_eq_ok_iff.mp hsize
  obtain ⟨documentBytes, hdocuments, h⟩ := bind_eq_ok_iff.mp h
  obtain ⟨⟨⟩, hdocumentsChecked, h⟩ := bind_eq_ok_iff.mp h
  obtain ⟨_, hoffset, h⟩ := bind_eq_ok_iff.mp h
  obtain ⟨-, rfl⟩ := checkedAdd_eq_some_iff.mp (okOr_eq_ok_iff.mp hoffset)
  obtain ⟨_, hsize, h⟩ := bind_eq_ok_iff.mp h
  obtain ⟨-, rfl⟩ := usizeToU64_eq_ok_iff.mp hsize
  obtain ⟨_, hoffset, h⟩ := bind_eq_ok_iff.mp h
  obtain ⟨-, rfl⟩ := checkedAdd_eq_some_iff.mp (okOr_eq_ok_iff.mp hoffset)
  obtain ⟨_, hsize, h⟩ := bind_eq_ok_iff.mp h
  obtain ⟨-, rfl⟩ := usizeToU64_eq_ok_iff.mp hsize
  obtain ⟨_, hsize, h⟩ := bind_eq_ok_iff.mp h
  obtain ⟨-, rfl⟩ := usizeToU64_eq_ok_iff.mp hsize
  obtain ⟨indexRootBytes, hindexRoot, h⟩ := bind_eq_ok_iff.mp h
  obtain ⟨⟨⟩, hindexRootChecked, h⟩ := bind_eq_ok_iff.mp h
  obtain ⟨_, hoffset, h⟩ := bind_eq_ok_iff.mp h
  obtain ⟨-, rfl⟩ := checkedAdd_eq_some_iff.mp (okOr_eq_ok_iff.mp hoffset)
  obtain ⟨_, hsize, h⟩ := bind_eq_ok_iff.mp h
  obtain ⟨-, rfl⟩ := usizeToU64_eq_ok_iff.mp hsize
  obtain ⟨_, hoffset, h⟩ := bind_eq_ok_iff.mp h
  obtain ⟨-, rfl⟩ := checkedAdd_eq_some_iff.mp (okOr_eq_ok_iff.mp hoffset)
  obtain ⟨payload, hpayload, h⟩ := bind_eq_ok_iff.mp h
  obtain ⟨footerBytes, hfooter, h⟩ := bind_eq_ok_iff.mp h
  obtain ⟨⟨⟩, hfooterChecked, h⟩ := bind_eq_ok_iff.mp h
  obtain ⟨_, hsize, h⟩ := bind_eq_ok_iff.mp h
  obtain ⟨-, rfl⟩ := usizeToU64_eq_ok_iff.mp hsize
  obtain rfl := Except.ok.inj h
  obtain ⟨footerBytes', hfooter', hlt, rfl⟩ := fixedPointLoop_finalFileSize hpayload
  obtain rfl : footerBytes = footerBytes' := by
    rw [hfooter, Except.ok.injEq] at hfooter'
    exact hfooter'
  exact ⟨{ containerId := containerId, level := blocks.writerOptions.zstdLevel, parts := parts
           metadata := writtenMetadata env containerId input parts blocks
           dense := blocks.denseLineIndex, documents := blocks.documentIndex
           metadataBytes := metadataBytes, denseBytes := denseBytes
           documentBytes := documentBytes, indexRootBytes := indexRootBytes
           footerPayloadBytes := footerBytes },
    ⟨hmetadata, hmetadataChecked, hdense, hdenseChecked, hdocuments, hdocumentsChecked,
      hindexRoot, hindexRootChecked, hfooter, hfooterChecked, hlt⟩, rfl, rfl, rfl, rfl, rfl, rfl,
    rfl⟩

/-! ## A layout around given blocks -/

/-- A text in given parts, laid out around any dense index, index root and footer payload. -/
def Assembly.ofText (env : Env) (containerId : ContainerId) (parts : List (List UInt8))
    (dense : Option DenseLineIndex) (indexRootBytes footerPayloadBytes : List UInt8) : Assembly :=
  let metadata := writtenMetadata env containerId parts.flatten parts
    { denseLineIndex := dense, documentIndex := none, profile := "core", writerOptions := .default }
  { containerId, level := WriterOptions.default.zstdLevel, parts, metadata, dense, documents := none
    metadataBytes := encodedForm (.map metadata.entries)
    denseBytes := dense.bind fun index => index.encode.toOption
    documentBytes := none, indexRootBytes, footerPayloadBytes }

/-- An empty text with its metadata, laid out around any index root and footer payload. -/
def Assembly.ofEmptyText (env : Env) (containerId : ContainerId)
    (indexRootBytes footerPayloadBytes : List UInt8) : Assembly :=
  .ofText env containerId [] none indexRootBytes footerPayloadBytes

/-- An identifier for empty texts. -/
def emptyTextId : ContainerId := ⟨List.replicate 16 7, rfl⟩

/-- The index root of an empty text. -/
def emptyIndexRoot (env : Env) : IndexRoot :=
  (Assembly.ofEmptyText env emptyTextId [] []).indexRoot env

end Qzt
