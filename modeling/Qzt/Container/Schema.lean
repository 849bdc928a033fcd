import Qzt.Container.Fixed

/-!
# CBOR schemas of the container blocks (`schema.rs`)

Footer payload, metadata, index root, dictionary block and document index, each with
its encoder and its closed-schema decoder.  The field accessors take the error of the
block they read, as in the source.
-/

namespace Qzt

open Foundation

/-! ## Names -/

/-- `SCHEMA_FOOTER`. -/
def schemaFooter : String := "qzt.footer.v1"
/-- `SCHEMA_METADATA`. -/
def schemaMetadata : String := "qzt.metadata.v1"
/-- `SCHEMA_INDEX_ROOT`. -/
def schemaIndexRoot : String := "qzt.index-root.v1"
/-- `SCHEMA_DICTIONARY`. -/
def schemaDictionary : String := "qzt.dictionary.v1"
/-- `SCHEMA_DOCUMENT_INDEX`. -/
def schemaDocumentIndex : String := "qzt.document-index.v1"
/-- `CHECKSUM_ALGORITHM_BLAKE3`. -/
def checksumAlgorithmBlake3 : String := "blake3"
/-- `CHUNK_TABLE_TYPE`. -/
def chunkTableType : String := "chunk_table"
/-- `CHUNK_TABLE_CODEC`. -/
def chunkTableCodec : String := "qzt-ctbl-fixed-v1"
/-- `DENSE_LINE_INDEX_TYPE`. -/
def denseLineIndexType : String := "dense_line_index"
/-- `DENSE_LINE_INDEX_CODEC`. -/
def denseLineIndexCodec : String := "qzt-line-delta-varint-v1"
/-- `DOCUMENT_INDEX_TYPE`. -/
def documentIndexType : String := "document_index"
/-- `DOCUMENT_INDEX_CODEC`. -/
def documentIndexCodec : String := "qzt-doc-index-cbor-v1"

/-! ## Checksums and references -/

/-- `Checksum`. -/
structure Checksum where
  algorithm : String
  value : Digest
  deriving DecidableEq

/-- `Checksum::from_raw_bytes`. -/
def Checksum.fromRawBytes (value : Digest) : Checksum where
  algorithm := checksumAlgorithmBlake3
  value := value

/-- `Checksum::blake3`. -/
def Checksum.blake3 (env : Env) (bytes : List UInt8) : Checksum where
  algorithm := checksumAlgorithmBlake3
  value := env.blake3.hash bytes

/-- `Checksum::from_hasher`. -/
def Checksum.fromHasher (env : Env) (hasher : env.blake3.Hasher) : Checksum where
  algorithm := checksumAlgorithmBlake3
  value := env.blake3.finalize hasher

/-- `BlockRef`. -/
structure BlockRef where
  offset : Nat
  size : Nat
  checksum : Checksum
  deriving DecidableEq

/-! ## Building values -/

/-- `text_pair`. -/
def textPair (key : String) (value : CborValue) : CborValue × CborValue :=
  (.text key, value)

/-- `u64_value`. -/
def u64Value (value : Nat) : CborValue :=
  .integer value

/-- `version_value`. -/
def versionValue : CborValue :=
  .array [.integer 0, .integer 1]

/-- `checksum_value`. -/
def checksumValue (checksum : Checksum) : CborValue :=
  .map [textPair "algorithm" (.text checksum.algorithm),
    textPair "value" (.bytes checksum.value.toList)]

/-- `block_ref_value`. -/
def blockRefValue (block : BlockRef) : CborValue :=
  .map [textPair "offset" (u64Value block.offset), textPair "size" (u64Value block.size),
    textPair "checksum" (checksumValue block.checksum)]

/-! ## Field accessors -/

/-- The entries of a map value. -/
abbrev CborMap := List (CborValue × CborValue)

/-- `as_map`. -/
def asMap (value : CborValue) (error : QztError) : Result CborMap :=
  match value with
  | .map entries => .ok entries
  | _ => .error error

/-- The value of an entry whose key is the text `key`. -/
def entryNamed (key : String) : CborValue × CborValue → Option CborValue
  | (.text text, value) => if text = key then some value else none
  | _ => none

/-- `field`. -/
def field (map : CborMap) (key : String) (error : QztError) : Result CborValue :=
  okOr error (map.findSome? (entryNamed key))

/-- `required_map`. -/
def requiredMap (map : CborMap) (key : String) (error : QztError) : Result CborMap := do
  asMap (← field map key error) error

/-- `required_array`. -/
def requiredArray (map : CborMap) (key : String) (error : QztError) : Result (List CborValue) := do
  match ← field map key error with
  | .array values => .ok values
  | _ => .error error

/-- `required_text`. -/
def requiredText (map : CborMap) (key : String) (error : QztError) : Result String := do
  match ← field map key error with
  | .text value => .ok value
  | _ => .error error

/-- `required_bool`. -/
def requiredBool (map : CborMap) (key : String) (error : QztError) : Result Bool := do
  match ← field map key error with
  | .bool value => .ok value
  | _ => .error error

/-- `required_u64_with_overflow`. -/
def requiredU64WithOverflow (map : CborMap) (key : String) (error overflowError : QztError) :
    Result Nat := do
  match ← field map key error with
  | .integer value =>
    if value < 0 then .error error
    else if value.toNat < 2 ^ 64 then .ok value.toNat
    else .error overflowError
  | _ => .error error

/-- `required_u64`. -/
def requiredU64 (map : CborMap) (key : String) (error : QztError) : Result Nat :=
  requiredU64WithOverflow map key error error

/-- `required_i32`. -/
def requiredI32 (map : CborMap) (key : String) (error : QztError) : Result Int32 := do
  match ← field map key error with
  | .integer value =>
    if -2147483648 ≤ value ∧ value < 2147483648 then .ok (Int32.ofInt value) else .error error
  | _ => .error error

/-- `required_bytes`. -/
def requiredBytes (map : CborMap) (key : String) (error : QztError) : Result (List UInt8) := do
  match ← field map key error with
  | .bytes bytes => .ok bytes
  | _ => .error error

/-- `required_bstr::<N>`. -/
def requiredBstr (n : Nat) (map : CborMap) (key : String) (error : QztError) :
    Result (List.Vector UInt8 n) := do
  match ← field map key error with
  | .bytes bytes => okOr error (tryIntoArray n bytes)
  | _ => .error error

/-- `required_bstr16`. -/
def requiredBstr16 (map : CborMap) (key : String) (error : QztError) : Result ContainerId :=
  requiredBstr 16 map key error

/-- `required_bstr32`. -/
def requiredBstr32 (map : CborMap) (key : String) (error : QztError) : Result Digest :=
  requiredBstr 32 map key error

/-- One key of `reject_unknown_keys`. -/
def rejectUnknownKey (allowed : List String) (error : QztError) (entry : CborValue × CborValue) :
    Result Unit :=
  match entry.1 with
  | .text key => rejectIf (key ∉ allowed) error
  | _ => .error error

/-- `reject_unknown_keys`. -/
def rejectUnknownKeys (map : CborMap) (allowed : List String) (error : QztError) : Result Unit :=
  checkAll (rejectUnknownKey allowed error) map

/-- `required_checksum`. -/
def requiredChecksum (map : CborMap) (key : String) (error : QztError) : Result Checksum := do
  let checksum ← requiredMap map key error
  rejectUnknownKeys checksum ["algorithm", "value"] error
  let algorithm ← requiredText checksum "algorithm" error
  rejectIf (algorithm ≠ checksumAlgorithmBlake3) error
  let value ← requiredBstr32 checksum "value" error
  return .fromRawBytes value

/-- `optional_checksum`. -/
def optionalChecksum (map : CborMap) (key : String) (error : QztError) :
    Result (Option Checksum) :=
  if (map.findSome? (entryNamed key)).isSome then do
    let checksum ← requiredChecksum map key error
    return some checksum
  else
    .ok none

/-- `required_block_ref`. -/
def requiredBlockRef (map : CborMap) (key : String) (error : QztError) : Result BlockRef := do
  let block ← requiredMap map key error
  rejectUnknownKeys block ["offset", "size", "checksum"] error
  let offset ← requiredU64 block "offset" error
  let size ← requiredU64 block "size" error
  let checksum ← requiredChecksum block "checksum" error
  return { offset, size, checksum }

/-- `expect_text_field`. -/
def expectTextField (map : CborMap) (key expected : String) (error : QztError) : Result Unit := do
  rejectIf ((← requiredText map key error) ≠ expected) error

/-- `expect_bool_field`. -/
def expectBoolField (map : CborMap) (key : String) (expected : Bool) (error : QztError) :
    Result Unit := do
  rejectIf ((← requiredBool map key error) ≠ expected) error

/-- `expect_version_field`. -/
def expectVersionField (map : CborMap) (error : QztError) : Result Unit := do
  match ← field map "format_version" error with
  | .array [.integer 0, .integer 1] => .ok ⟨⟩
  | _ => .error error

/-- `decode_prologue` behind the CBOR validation. -/
def checkPrologue (value : CborValue) (allowedKeys : List String) (expectedSchema : String)
    (error : QztError) : Result Unit := do
  let map ← asMap value error
  rejectUnknownKeys map allowedKeys error
  expectTextField map "schema" expectedSchema error
  expectVersionField map error

/-- `decode_prologue`. -/
def decodePrologue (bytes : List UInt8) (allowedKeys : List String) (expectedSchema : String)
    (error : QztError) : Result CborValue := do
  let value ← validateDeterministic bytes
  checkPrologue value allowedKeys expectedSchema error
  return value

/-! ## Footer payload -/

/-- `FooterPayload`. -/
structure FooterPayload where
  containerId : ContainerId
  indexRoot : BlockRef
  metadata : BlockRef
  finalFileSize : Nat
  footerFlags : Nat
  containerChecksum : Option Checksum
  deriving DecidableEq

/-- The entries `FooterPayload::encode` builds. -/
def FooterPayload.entries (self : FooterPayload) : CborMap :=
  [textPair "schema" (.text schemaFooter),
    textPair "format_version" versionValue,
    textPair "container_id" (.bytes self.containerId.toList),
    textPair "index_root" (blockRefValue self.indexRoot),
    textPair "metadata" (blockRefValue self.metadata),
    textPair "final_file_size" (u64Value self.finalFileSize),
    textPair "footer_flags" (u64Value self.footerFlags)] ++
  match self.containerChecksum with
  | some checksum => [textPair "container_checksum" (checksumValue checksum)]
  | none => []

/-- `FooterPayload::encode`. -/
def FooterPayload.encode (self : FooterPayload) : Result (List UInt8) :=
  encodeDeterministic (.map self.entries)

/-- The keys of a footer payload. -/
def footerKeys : List String :=
  ["schema", "format_version", "container_id", "index_root", "metadata", "final_file_size",
    "footer_flags", "created_at_unix_ms", "writer", "container_checksum"]

/-- `FooterPayload::decode` behind the prologue. -/
def FooterPayload.read (value : CborValue) : Result FooterPayload := do
  let map ← asMap value .invalidFooterPayload
  let footerFlags ← requiredU64 map "footer_flags" .invalidFooterPayload
  rejectIf (footerFlags ≠ 0) .invalidFlags
  let containerId ← requiredBstr16 map "container_id" .invalidFooterPayload
  let indexRoot ← requiredBlockRef map "index_root" .invalidFooterPayload
  let metadata ← requiredBlockRef map "metadata" .invalidFooterPayload
  let finalFileSize ← requiredU64 map "final_file_size" .invalidFooterPayload
  let containerChecksum ← optionalChecksum map "container_checksum" .invalidFooterPayload
  return { containerId, indexRoot, metadata, finalFileSize, footerFlags, containerChecksum }

/-- `FooterPayload::decode`. -/
def FooterPayload.decode (bytes : List UInt8) : Result FooterPayload := do
  let value ← decodePrologue bytes footerKeys schemaFooter .invalidFooterPayload
  FooterPayload.read value

/-! ## Metadata -/

/-- `Metadata`. -/
structure Metadata where
  containerId : ContainerId
  originalSize : Nat
  originalChecksum : Checksum
  newlineMode : String
  lineCount : Nat
  zstdLevel : Int32
  targetChunkSize : Nat
  maxChunkSize : Nat
  dictionaryMode : String
  profile : String
  denseLineIndex : Bool
  documentIndex : Bool
  deriving DecidableEq

namespace Metadata

/-- The `identity` map. -/
def identityEntries (self : Metadata) : CborMap :=
  [textPair "name" .null,
    textPair "profile" (.text self.profile),
    textPair "created_by" (.text "qzt"),
    textPair "created_at_unix_ms" .null]

/-- The `source` map. -/
def sourceEntries (self : Metadata) : CborMap :=
  [textPair "media_type" (.text "text"),
    textPair "encoding" (.text "utf-8"),
    textPair "original_size" (u64Value self.originalSize),
    textPair "original_checksum" (checksumValue self.originalChecksum),
    textPair "newline_mode" (.text self.newlineMode),
    textPair "line_count" (u64Value self.lineCount)]

/-- The `compression` map. -/
def compressionEntries (self : Metadata) : CborMap :=
  [textPair "codec" (.text "zstd"),
    textPair "zstd_level" (.integer self.zstdLevel.toInt),
    textPair "independent_frames" (.bool true),
    textPair "zstd_frame_checksum" (.bool false),
    textPair "dictionary_mode" (.text self.dictionaryMode)]

/-- The `chunking` map. -/
def chunkingEntries (self : Metadata) : CborMap :=
  [textPair "target_chunk_size" (u64Value self.targetChunkSize),
    textPair "max_chunk_size" (u64Value self.maxChunkSize),
    textPair "boundary" (.text "line-preferred"),
    textPair "utf8_boundary_required" (.bool true)]

/-- The `indexes` map. -/
def indexesEntries (self : Metadata) : CborMap :=
  [textPair "chunk_table" (.bool true),
    textPair "sparse_line_index" (.bool true),
    textPair "dense_line_index" (.bool self.denseLineIndex),
    textPair "document_index" (.bool self.documentIndex),
    textPair "token_index" (.bool false),
    textPair "ngram_index" (.bool false),
    textPair "vector_index" (.bool false)]

/-- The `integrity` map. -/
def integrityEntries : CborMap :=
  [textPair "compressed_chunk_checksum" (.text checksumAlgorithmBlake3),
    textPair "uncompressed_chunk_checksum" (.text checksumAlgorithmBlake3),
    textPair "index_checksum" (.text checksumAlgorithmBlake3)]

/-- The `compatibility` map. -/
def compatibilityEntries : CborMap :=
  [textPair "qzt_is_zst_stream" (.bool false),
    textPair "chunks_are_independent_zstd_frames" (.bool true)]

/-- The entries `Metadata::encode` builds. -/
def entries (self : Metadata) : CborMap :=
  [textPair "schema" (.text schemaMetadata),
    textPair "format" (.text "qzt"),
    textPair "format_version" versionValue,
    textPair "container_id" (.bytes self.containerId.toList),
    textPair "identity" (.map self.identityEntries),
    textPair "source" (.map self.sourceEntries),
    textPair "compression" (.map self.compressionEntries),
    textPair "chunking" (.map self.chunkingEntries),
    textPair "indexes" (.map self.indexesEntries),
    textPair "integrity" (.map integrityEntries),
    textPair "compatibility" (.map compatibilityEntries)]

/-- `Metadata::encode`. -/
def encode (self : Metadata) : Result (List UInt8) :=
  encodeDeterministic (.map self.entries)

/-- The key check of `Metadata::decode` on the `identity` map. -/
def checkIdentity (identity : CborMap) : Result Unit :=
  rejectUnknownKeys identity ["name", "profile", "created_by", "created_at_unix_ms"]
    .metadataInvalid

/-- The checks on the `source` map. -/
def checkSource (source : CborMap) : Result Unit := do
  rejectUnknownKeys source ["media_type", "encoding", "original_size", "original_checksum",
    "newline_mode", "line_count"] .metadataInvalid
  expectTextField source "media_type" "text" .metadataInvalid
  expectTextField source "encoding" "utf-8" .metadataInvalid

/-- The checks on the `compression` map. -/
def checkCompression (compression : CborMap) : Result Unit := do
  rejectUnknownKeys compression ["codec", "zstd_level", "independent_frames",
    "zstd_frame_checksum", "dictionary_mode"] .metadataInvalid
  expectTextField compression "codec" "zstd" .metadataInvalid
  expectBoolField compression "independent_frames" true .metadataInvalid
  expectBoolField compression "zstd_frame_checksum" false .metadataInvalid

/-- The checks on the `chunking` map. -/
def checkChunking (chunking : CborMap) : Result Unit := do
  rejectUnknownKeys chunking ["target_chunk_size", "max_chunk_size", "boundary",
    "utf8_boundary_required"] .metadataInvalid
  expectBoolField chunking "utf8_boundary_required" true .metadataInvalid
  expectTextField chunking "boundary" "line-preferred" .metadataInvalid

/-- The checks on the `indexes` map. -/
def checkIndexes (indexes : CborMap) : Result Unit := do
  rejectUnknownKeys indexes ["chunk_table", "sparse_line_index", "dense_line_index",
    "document_index", "token_index", "ngram_index", "vector_index"] .metadataInvalid
  expectBoolField indexes "chunk_table" true .metadataInvalid
  expectBoolField indexes "sparse_line_index" true .metadataInvalid
  expectBoolField indexes "token_index" false .metadataInvalid
  expectBoolField indexes "ngram_index" false .metadataInvalid
  expectBoolField indexes "vector_index" false .metadataInvalid

/-- The checks on the `integrity` map. -/
def checkIntegrity (integrity : CborMap) : Result Unit := do
  rejectUnknownKeys integrity ["compressed_chunk_checksum", "uncompressed_chunk_checksum",
    "index_checksum"] .metadataInvalid
  expectTextField integrity "compressed_chunk_checksum" checksumAlgorithmBlake3 .metadataInvalid
  expectTextField integrity "uncompressed_chunk_checksum" checksumAlgorithmBlake3 .metadataInvalid
  expectTextField integrity "index_checksum" checksumAlgorithmBlake3 .metadataInvalid

/-- The checks on the `compatibility` map. -/
def checkCompatibility (compatibility : CborMap) : Result Unit := do
  rejectUnknownKeys compatibility ["qzt_is_zst_stream", "chunks_are_independent_zstd_frames"]
    .metadataInvalid
  expectBoolField compatibility "qzt_is_zst_stream" false .metadataInvalid
  expectBoolField compatibility "chunks_are_independent_zstd_frames" true .metadataInvalid

/-- `Metadata::decode` behind the prologue. -/
def read (value : CborValue) : Result Metadata := do
  let map ← asMap value .metadataInvalid
  expectTextField map "format" "qzt" .metadataInvalid
  let identity ← requiredMap map "identity" .metadataInvalid
  checkIdentity identity
  let source ← requiredMap map "source" .metadataInvalid
  checkSource source
  let compression ← requiredMap map "compression" .metadataInvalid
  checkCompression compression
  let chunking ← requiredMap map "chunking" .metadataInvalid
  checkChunking chunking
  let indexes ← requiredMap map "indexes" .metadataInvalid
  checkIndexes indexes
  let integrity ← requiredMap map "integrity" .metadataInvalid
  checkIntegrity integrity
  let compatibility ← requiredMap map "compatibility" .metadataInvalid
  checkCompatibility compatibility
  let newlineMode ← requiredText source "newline_mode" .metadataInvalid
  rejectIf (newlineMode ∉ ["none", "lf", "crlf", "mixed"]) .metadataInvalid
  let dictionaryMode ← requiredText compression "dictionary_mode" .metadataInvalid
  rejectIf (dictionaryMode ∉ ["none", "embedded"]) .metadataInvalid
  let profile ← requiredText identity "profile" .metadataInvalid
  rejectIf (profile ∉ ["minimal", "core", "log", "archive", "memory"]) .metadataInvalid
  let zstdLevel ← requiredI32 compression "zstd_level" .metadataInvalid
  let targetChunkSize ← requiredU64 chunking "target_chunk_size" .metadataInvalid
  let maxChunkSize ← requiredU64 chunking "max_chunk_size" .metadataInvalid
  rejectIf (targetChunkSize = 0 ∨ maxChunkSize = 0 ∨ targetChunkSize > maxChunkSize)
    .metadataInvalid
  let containerId ← requiredBstr16 map "container_id" .metadataInvalid
  let originalSize ← requiredU64 source "original_size" .metadataInvalid
  let originalChecksum ← requiredChecksum source "original_checksum" .metadataInvalid
  let lineCount ← requiredU64 source "line_count" .metadataInvalid
  let denseLineIndex ← requiredBool indexes "dense_line_index" .metadataInvalid
  let documentIndex ← requiredBool indexes "document_index" .metadataInvalid
  return { containerId, originalSize, originalChecksum, newlineMode, lineCount, zstdLevel,
           targetChunkSize, maxChunkSize, dictionaryMode, profile, denseLineIndex, documentIndex }

/-- `Metadata::decode`. -/
def decode (bytes : List UInt8) : Result Metadata := do
  let value ← decodePrologue bytes ["schema", "format", "format_version", "container_id",
    "identity", "source", "compression", "chunking", "indexes", "integrity", "compatibility"]
    schemaMetadata .metadataInvalid
  read value

end Metadata

/-! ## Index root -/

/-- `BlockDescriptor`. -/
structure BlockDescriptor where
  blockType : String
  required : Bool
  offset : Nat
  size : Nat
  codec : String
  checksum : Checksum
  flags : Nat
  deriving DecidableEq

namespace BlockDescriptor

/-- `BlockDescriptor::new`. -/
def new (blockType : String) (required : Bool) (codec : String) (offset size : Nat)
    (checksum : Checksum) : BlockDescriptor :=
  { blockType, required, offset, size, codec, checksum, flags := 0 }

/-- `BlockDescriptor::chunk_table`. -/
def chunkTable (offset size : Nat) (checksum : Checksum) : BlockDescriptor :=
  new chunkTableType true chunkTableCodec offset size checksum

/-- `BlockDescriptor::dense_line_index`. -/
def denseLineIndex (offset size : Nat) (checksum : Checksum) : BlockDescriptor :=
  new denseLineIndexType false denseLineIndexCodec offset size checksum

/-- `BlockDescriptor::document_index`. -/
def documentIndex (offset size : Nat) (checksum : Checksum) : BlockDescriptor :=
  new documentIndexType false documentIndexCodec offset size checksum

/-- The entries of `block_descriptor_value`. -/
def entries (block : BlockDescriptor) : CborMap :=
  [textPair "type" (.text block.blockType),
    textPair "required" (.bool block.required),
    textPair "offset" (u64Value block.offset),
    textPair "size" (u64Value block.size),
    textPair "codec" (.text block.codec),
    textPair "checksum" (checksumValue block.checksum),
    textPair "flags" (u64Value block.flags)]

/-- `block_descriptor_value`. -/
def value (block : BlockDescriptor) : CborValue :=
  .map block.entries

/-- `decode_block_descriptor`. -/
def decode (value : CborValue) : Result BlockDescriptor := do
  let map ← asMap value .containerCorrupt
  rejectUnknownKeys map ["type", "required", "offset", "size", "codec", "checksum", "flags"]
    .containerCorrupt
  let blockType ← requiredText map "type" .containerCorrupt
  let required ← requiredBool map "required" .containerCorrupt
  let flags ← requiredU64 map "flags" .containerCorrupt
  rejectIf (flags ≠ 0) .invalidFlags
  rejectIf (required = true ∧ blockType ≠ chunkTableType) .unknownRequiredBlock
  let offset ← requiredU64 map "offset" .containerCorrupt
  let size ← requiredU64 map "size" .containerCorrupt
  let codec ← requiredText map "codec" .containerCorrupt
  let checksum ← requiredChecksum map "checksum" .containerCorrupt
  return { blockType, required, offset, size, codec, checksum, flags }

/-- The required chunk table descriptor. -/
def isRequiredChunkTable (block : BlockDescriptor) : Bool :=
  block.required && block.blockType == chunkTableType

end BlockDescriptor

/-- `IndexRoot`. -/
structure IndexRoot where
  containerId : ContainerId
  blocks : List BlockDescriptor
  originalSize : Nat
  originalChecksum : Checksum
  chunkCount : Nat
  lineCount : Nat
  deriving DecidableEq

namespace IndexRoot

/-- The `content` map. -/
def contentEntries (self : IndexRoot) : CborMap :=
  [textPair "original_size" (u64Value self.originalSize),
    textPair "original_checksum" (checksumValue self.originalChecksum),
    textPair "chunk_count" (u64Value self.chunkCount),
    textPair "line_count" (u64Value self.lineCount)]

/-- The entries `IndexRoot::encode` builds. -/
def entries (self : IndexRoot) : CborMap :=
  [textPair "schema" (.text schemaIndexRoot),
    textPair "format_version" versionValue,
    textPair "container_id" (.bytes self.containerId.toList),
    textPair "blocks" (.array (self.blocks.map BlockDescriptor.value)),
    textPair "content" (.map self.contentEntries)]

/-- `IndexRoot::encode`. -/
def encode (self : IndexRoot) : Result (List UInt8) :=
  encodeDeterministic (.map self.entries)

/-- `IndexRoot::decode` behind the prologue. -/
def read (value : CborValue) : Result IndexRoot := do
  let map ← asMap value .containerCorrupt
  let blocks ← collect BlockDescriptor.decode (← requiredArray map "blocks" .containerCorrupt)
  let requiredChunkTables := blocks.countP BlockDescriptor.isRequiredChunkTable
  rejectIf (requiredChunkTables = 0) .missingRequiredBlock
  rejectIf (requiredChunkTables > 1) .containerCorrupt
  let content ← requiredMap map "content" .containerCorrupt
  rejectUnknownKeys content ["original_size", "original_checksum", "chunk_count", "line_count"]
    .containerCorrupt
  let containerId ← requiredBstr16 map "container_id" .containerCorrupt
  let originalSize ← requiredU64 content "original_size" .containerCorrupt
  let originalChecksum ← requiredChecksum content "original_checksum" .containerCorrupt
  let chunkCount ← requiredU64 content "chunk_count" .containerCorrupt
  let lineCount ← requiredU64 content "line_count" .containerCorrupt
  return { containerId, blocks, originalSize, originalChecksum, chunkCount, lineCount }

/-- `IndexRoot::decode`. -/
def decode (bytes : List UInt8) : Result IndexRoot := do
  let value ← decodePrologue bytes ["schema", "format_version", "container_id", "blocks",
    "content"] schemaIndexRoot .containerCorrupt
  read value

/-- `chunk_table_block`. -/
def chunkTableBlock (self : IndexRoot) : Result BlockDescriptor :=
  okOr .missingRequiredBlock (self.blocks.find? BlockDescriptor.isRequiredChunkTable)

end IndexRoot

/-- `validate_source_consistency`. -/
def validateSourceConsistency (metadata : Metadata) (indexRoot : IndexRoot) : Result Unit := do
  rejectIf (metadata.containerId ≠ indexRoot.containerId) .containerIdMismatch
  rejectIf (metadata.originalSize ≠ indexRoot.originalSize ∨
    metadata.originalChecksum ≠ indexRoot.originalChecksum ∨
    metadata.lineCount ≠ indexRoot.lineCount) .metadataInvalid

/-! ## Dictionaries -/

/-- `DictionaryEntry`. -/
structure DictionaryEntry where
  dictionaryId : Nat
  codec : String
  bytes : List UInt8
  checksum : Checksum
  deriving DecidableEq

/-- `DictionaryBlock`. -/
structure DictionaryBlock where
  containerId : ContainerId
  dictionaries : List DictionaryEntry
  deriving DecidableEq

/-- `decode_dictionary_entry`. -/
def DictionaryEntry.decode (env : Env) (value : CborValue) (maxDictionarySize : Nat) :
    Result DictionaryEntry := do
  let map ← asMap value .containerCorrupt
  rejectUnknownKeys map ["dictionary_id", "codec", "bytes", "checksum"] .containerCorrupt
  let dictionaryId ← requiredU64 map "dictionary_id" .containerCorrupt
  rejectIf (dictionaryId ≥ 2 ^ 32) .containerCorrupt
  rejectIf (dictionaryId = 0) .containerCorrupt
  let codec ← requiredText map "codec" .containerCorrupt
  rejectIf (codec ≠ "zstd") .containerCorrupt
  let bytes ← requiredBytes map "bytes" .containerCorrupt
  rejectIf ((← usizeToU64 bytes.length) > maxDictionarySize) .resourceLimitExceeded
  let checksum ← requiredChecksum map "checksum" .containerCorrupt
  rejectIf (Checksum.blake3 env bytes ≠ checksum) .dictionaryChecksumMismatch
  return { dictionaryId, codec, bytes, checksum }

/-- The loop of `DictionaryBlock::decode_with_limits`: no identifier twice. -/
def decodeDictionaries (env : Env) (maxDictionarySize : Nat) :
    List CborValue → List Nat → Result (List DictionaryEntry)
  | [], _ => .ok []
  | dictionary :: dictionaries, seen => do
    let entry ← DictionaryEntry.decode env dictionary maxDictionarySize
    rejectIf (entry.dictionaryId ∈ seen) .containerCorrupt
    let rest ← decodeDictionaries env maxDictionarySize dictionaries (entry.dictionaryId :: seen)
    return entry :: rest

/-- `DictionaryBlock::decode_with_limits` behind the prologue. -/
def DictionaryBlock.read (env : Env) (maxDictionarySize : Nat) (value : CborValue) :
    Result DictionaryBlock := do
  let map ← asMap value .containerCorrupt
  let values ← requiredArray map "dictionaries" .containerCorrupt
  let dictionaries ← decodeDictionaries env maxDictionarySize values []
  let containerId ← requiredBstr16 map "container_id" .containerCorrupt
  return { containerId, dictionaries }

/-- `DictionaryBlock::decode_with_limits`. -/
def DictionaryBlock.decodeWithLimits (env : Env) (bytes : List UInt8) (maxDictionarySize : Nat) :
    Result DictionaryBlock := do
  let value ← decodePrologue bytes ["schema", "format_version", "container_id", "dictionaries"]
    schemaDictionary .containerCorrupt
  DictionaryBlock.read env maxDictionarySize value

/-! ## Document index -/

/-- `DocumentEntry`. -/
structure DocumentEntry where
  docId : String
  docIdHash : ContainerId
  logicalOffset : Nat
  byteLength : Nat
  firstLine : Nat
  lineCount : Nat
  chunkStart : Nat
  chunkEnd : Nat
  checksum : Checksum
  deriving DecidableEq

/-- `DocumentIndex`. -/
structure DocumentIndex where
  containerId : ContainerId
  documents : List DocumentEntry
  deriving DecidableEq

/-- The first 16 bytes of a digest. -/
def digestPrefix16 (digest : Digest) : ContainerId :=
  ⟨digest.toList.take 16, by simp⟩

namespace DocumentEntry

/-- `DocumentEntry::new`. -/
def new (env : Env) (docId : String)
    (logicalOffset byteLength firstLine lineCount chunkStart chunkEnd : Nat)
    (checksum : Checksum) : DocumentEntry :=
  { docId, docIdHash := digestPrefix16 (env.blake3.hash (textBytes docId)), logicalOffset,
    byteLength, firstLine, lineCount, chunkStart, chunkEnd, checksum }

/-- The entries of `document_entry_value`. -/
def entries (entry : DocumentEntry) : CborMap :=
  [textPair "doc_id" (.text entry.docId),
    textPair "doc_id_hash" (.bytes entry.docIdHash.toList),
    textPair "logical_offset" (u64Value entry.logicalOffset),
    textPair "byte_length" (u64Value entry.byteLength),
    textPair "first_line" (u64Value entry.firstLine),
    textPair "line_count" (u64Value entry.lineCount),
    textPair "chunk_start" (u64Value entry.chunkStart),
    textPair "chunk_end" (u64Value entry.chunkEnd),
    textPair "checksum" (checksumValue entry.checksum),
    textPair "metadata" (.map [])]

/-- `document_entry_value`. -/
def value (entry : DocumentEntry) : CborValue :=
  .map entry.entries

/-- `decode_document_entry`. -/
def decode (value : CborValue) : Result DocumentEntry := do
  let map ← asMap value .containerCorrupt
  rejectUnknownKeys map ["doc_id", "doc_id_hash", "logical_offset", "byte_length", "first_line",
    "line_count", "chunk_start", "chunk_end", "checksum", "metadata"] .containerCorrupt
  let _metadata ← requiredMap map "metadata" .containerCorrupt
  let docId ← requiredText map "doc_id" .containerCorrupt
  let docIdHash ← requiredBstr16 map "doc_id_hash" .containerCorrupt
  let logicalOffset ← requiredU64 map "logical_offset" .containerCorrupt
  let byteLength ← requiredU64 map "byte_length" .containerCorrupt
  let firstLine ← requiredU64 map "first_line" .containerCorrupt
  let lineCount ← requiredU64 map "line_count" .containerCorrupt
  let chunkStart ← requiredU64 map "chunk_start" .containerCorrupt
  let chunkEnd ← requiredU64 map "chunk_end" .containerCorrupt
  let checksum ← requiredChecksum map "checksum" .containerCorrupt
  return { docId, docIdHash, logicalOffset, byteLength, firstLine, lineCount, chunkStart,
           chunkEnd, checksum }

end DocumentEntry

namespace DocumentIndex

/-- The entries of `value_with_documents`. -/
def entriesWithDocuments (self : DocumentIndex) (documents : List CborValue) : CborMap :=
  [textPair "schema" (.text schemaDocumentIndex),
    textPair "format_version" versionValue,
    textPair "container_id" (.bytes self.containerId.toList),
    textPair "documents" (.array documents)]

/-- `value_with_documents`. -/
def valueWithDocuments (self : DocumentIndex) (documents : List CborValue) : CborValue :=
  .map (self.entriesWithDocuments documents)

/-- The identifier loop of `preflight_document_ids`. -/
def preflightAllocation (limits : ResourceLimits) : List String → Nat → Result Unit
  | [], _ => .ok ⟨⟩
  | id :: ids, allocation => do
    let allocation ← okOr .resourceLimitExceeded
      (checkedAdd allocation (← usizeToU64 (textBytes id).length))
    rejectIf (allocation > limits.maxCborAllocation) .resourceLimitExceeded
    preflightAllocation limits ids allocation

/-- `preflight_document_ids`. -/
def preflightDocumentIds (env : Env) (ids : List String) (limits : ResourceLimits) :
    Result Unit := do
  let count ← usizeToU64 ids.length
  let empty : DocumentIndex := { containerId := List.Vector.replicate 16 0, documents := [] }
  let base ← measureValue (empty.valueWithDocuments [])
  let sample := DocumentEntry.new env "" 0 0 0 0 0 0 (Checksum.blake3 env [])
  let perDocument ← measureValue sample.value
  let items ← okOr .resourceLimitExceeded
    ((checkedMul perDocument.items count).bind (checkedAdd · base.items))
  rejectIf (items > limits.maxCborItems) .resourceLimitExceeded
  let fixedAllocation ← okOr .resourceLimitExceeded
    ((checkedMul perDocument.allocation count).bind (checkedAdd · base.allocation))
  preflightAllocation limits ids fixedAllocation

/-- The document loop of `validate_for_writer`. -/
def validateDocuments (limits : ResourceLimits) : List DocumentEntry → CborUsage → Result Unit
  | [], _ => .ok ⟨⟩
  | document :: documents, usage => do
    rejectIf ((← usizeToU64 (textBytes document.docId).length) >
      limits.maxCborAllocation - usage.allocation) .resourceLimitExceeded
    let usage ← usage.add (← measureValue document.value)
    usage.enforce limits.cborLimits limits.maxIndexBlockSize
    validateDocuments limits documents usage

/-- `validate_for_writer`. -/
def validateForWriter (self : DocumentIndex) (limits : ResourceLimits) : Result Unit := do
  let count ← usizeToU64 self.documents.length
  rejectIf (count > limits.maxCborItems) .resourceLimitExceeded
  let usage ← measureValue (self.valueWithDocuments [])
  let encodedBytes ← okOr .resourceLimitExceeded
    (checkedAdd usage.encodedBytes (headLen count - headLen 0))
  let usage := { usage with encodedBytes }
  usage.enforce limits.cborLimits limits.maxIndexBlockSize
  validateDocuments limits self.documents usage

/-- `validate_unique_doc_ids`. -/
def validateUniqueDocIds (self : DocumentIndex) : Result Unit :=
  rejectIf (¬ (self.documents.map DocumentEntry.docId).Nodup) .duplicateDocumentId

/-- `DocumentIndex::encode`. -/
def encode (self : DocumentIndex) : Result (List UInt8) := do
  self.validateUniqueDocIds
  encodeDeterministic (self.valueWithDocuments (self.documents.map DocumentEntry.value))

/-- `DocumentIndex::decode` behind the prologue. -/
def read (value : CborValue) : Result DocumentIndex := do
  let map ← asMap value .containerCorrupt
  let documents ← collect DocumentEntry.decode (← requiredArray map "documents" .containerCorrupt)
  let containerId ← requiredBstr16 map "container_id" .containerCorrupt
  let index : DocumentIndex := { containerId, documents }
  rejectIf (¬ (documents.map DocumentEntry.docId).Nodup) .containerCorrupt
  return index

/-- `DocumentIndex::decode`. -/
def decode (bytes : List UInt8) : Result DocumentIndex := do
  let value ← decodePrologue bytes ["schema", "format_version", "container_id", "documents"]
    schemaDocumentIndex .containerCorrupt
  read value

end DocumentIndex

end Qzt
