import Qzt.Container.Schema

/-!
# The schemas of the format specification

What `QZT_v0.1_Core_Spec.md` says of the CBOR blocks, as conditions on values: the required and
the optional keys of every map, and the type of each (sections 10, 11, 18 and 28).  Core schemas
are closed (section 7).  These definitions are the specification's, not the decoders'.
-/

namespace Qzt.Spec

/-- What a value has to be. -/
abbrev FieldType := CborValue → Prop

def isText : FieldType := fun value => ∃ text, value = .text text

def isBool : FieldType := fun value => ∃ bool, value = .bool bool

def isU64 : FieldType := fun value => ∃ n : Nat, n < 2 ^ 64 ∧ value = .integer n

def isI32 : FieldType := fun value => ∃ i : Int, (-2 ^ 31 ≤ i ∧ i < 2 ^ 31) ∧ value = .integer i

def isBstr (length : Nat) : FieldType := fun value => ∃ bytes, bytes.length = length ∧
  value = .bytes bytes

def isMap : FieldType := fun value => ∃ entries, value = .map entries

def isOneOf (texts : List String) : FieldType := fun value => ∃ text ∈ texts, value = .text text

def isConst (const : CborValue) : FieldType := fun value => value = const

def orNull (type : FieldType) : FieldType := fun value => value = .null ∨ type value

def arrayOf (type : FieldType) : FieldType := fun value => ∃ values, value = .array values ∧
  ∀ item ∈ values, type item

/-- A closed map: every required key is there, every key that is there is known, and has its type. -/
structure IsRecord (required optional : List (String × FieldType)) (map : CborMap) : Prop where
  present : ∀ field ∈ required, ∃ value, (.text field.1, value) ∈ map
  typed : ∀ field ∈ required ++ optional, ∀ value, (.text field.1, value) ∈ map → field.2 value
  closed : ∀ entry ∈ map, ∃ field ∈ required ++ optional, entry.1 = .text field.1

def record (required optional : List (String × FieldType)) : FieldType := fun value =>
  ∃ map, value = .map map ∧ IsRecord required optional map

/-! ## The schemas -/

def version : FieldType := isConst (.array [.integer 0, .integer 1])

def checksum : FieldType :=
  record [("algorithm", isConst (.text "blake3")), ("value", isBstr 32)] []

def blockRef : FieldType :=
  record [("offset", isU64), ("size", isU64), ("checksum", checksum)] []

/-- Section 10. -/
def footerPayload : FieldType :=
  record
    [("schema", isConst (.text "qzt.footer.v1")), ("format_version", version),
      ("container_id", isBstr 16), ("index_root", blockRef), ("metadata", blockRef),
      ("final_file_size", isU64), ("footer_flags", isU64)]
    [("created_at_unix_ms", isU64), ("writer", isText), ("container_checksum", checksum)]

def identity : FieldType :=
  record
    [("name", orNull isText), ("profile", isOneOf ["minimal", "core", "log", "archive", "memory"]),
      ("created_by", isText), ("created_at_unix_ms", orNull isU64)] []

def source : FieldType :=
  record
    [("media_type", isConst (.text "text")), ("encoding", isConst (.text "utf-8")),
      ("original_size", isU64), ("original_checksum", checksum),
      ("newline_mode", isOneOf ["lf", "crlf", "mixed", "none"]), ("line_count", isU64)] []

def compression : FieldType :=
  record
    [("codec", isConst (.text "zstd")), ("zstd_level", isI32),
      ("independent_frames", isConst (.bool true)), ("zstd_frame_checksum", isBool),
      ("dictionary_mode", isOneOf ["none", "embedded"])] []

def chunking : FieldType :=
  record
    [("target_chunk_size", isU64), ("max_chunk_size", isU64),
      ("boundary", isOneOf ["line-preferred", "document-then-line", "byte-window"]),
      ("utf8_boundary_required", isConst (.bool true))] []

def indexes : FieldType :=
  record
    [("chunk_table", isConst (.bool true)), ("sparse_line_index", isConst (.bool true)),
      ("dense_line_index", isBool), ("document_index", isBool), ("token_index", isBool),
      ("ngram_index", isBool), ("vector_index", isConst (.bool false))] []

def integrity : FieldType :=
  record
    [("compressed_chunk_checksum", isConst (.text "blake3")),
      ("uncompressed_chunk_checksum", isConst (.text "blake3")),
      ("index_checksum", isConst (.text "blake3"))] []

def compatibility : FieldType :=
  record
    [("qzt_is_zst_stream", isConst (.bool false)),
      ("chunks_are_independent_zstd_frames", isConst (.bool true))] []

/-- Section 11. -/
def metadata : FieldType :=
  record
    [("schema", isConst (.text "qzt.metadata.v1")), ("format", isConst (.text "qzt")),
      ("format_version", version), ("container_id", isBstr 16), ("identity", identity),
      ("source", source), ("compression", compression), ("chunking", chunking),
      ("indexes", indexes), ("integrity", integrity), ("compatibility", compatibility)] []

def blockDescriptor : FieldType :=
  record
    [("type", isText), ("required", isBool), ("offset", isU64), ("size", isU64),
      ("codec", isText), ("checksum", checksum), ("flags", isU64)] []

def content : FieldType :=
  record
    [("original_size", isU64), ("original_checksum", checksum), ("chunk_count", isU64),
      ("line_count", isU64)] []

/-- Section 18. -/
def indexRoot : FieldType :=
  record
    [("schema", isConst (.text "qzt.index-root.v1")), ("format_version", version),
      ("container_id", isBstr 16), ("blocks", arrayOf blockDescriptor), ("content", content)] []

def documentEntry : FieldType :=
  record
    [("doc_id", isText), ("doc_id_hash", isBstr 16), ("logical_offset", isU64),
      ("byte_length", isU64), ("first_line", isU64), ("line_count", isU64),
      ("chunk_start", isU64), ("chunk_end", isU64), ("checksum", checksum),
      ("metadata", isMap)] []

/-- Section 28. -/
def documentIndex : FieldType :=
  record
    [("schema", isConst (.text "qzt.document-index.v1")), ("format_version", version),
      ("container_id", isBstr 16), ("documents", arrayOf documentEntry)] []

/-! ## The four decoders -/

/-- The CBOR blocks of a container. -/
inductive Block where
  | footerPayload
  | metadata
  | indexRoot
  | documentIndex
  deriving DecidableEq, Repr

/-- The specified type of a block. -/
def Block.schema : Block → FieldType
  | .footerPayload => Spec.footerPayload
  | .metadata => Spec.metadata
  | .indexRoot => Spec.indexRoot
  | .documentIndex => Spec.documentIndex

/-- `decode` accepts the bytes. -/
def Block.Accepts : Block → List UInt8 → Prop
  | .footerPayload, bytes => ∃ payload, FooterPayload.decode bytes = .ok payload
  | .metadata, bytes => ∃ metadata, Metadata.decode bytes = .ok metadata
  | .indexRoot, bytes => ∃ root, IndexRoot.decode bytes = .ok root
  | .documentIndex, bytes => ∃ index, DocumentIndex.decode bytes = .ok index

/-- The bytes are the encoding of a value as specified. -/
def Block.Conforms (block : Block) (bytes : List UInt8) : Prop :=
  ∃ value, validateDeterministic bytes = .ok value ∧ block.schema value

/-! ## Fields that no decoder reads -/

/-- A key of a map with a value of the type. -/
def HasField (map : CborMap) (key : String) (type : FieldType) : Prop :=
  ∃ value, (.text key, value) ∈ map ∧ type value

/-- A key that has the type wherever it is. -/
def FieldTyped (map : CborMap) (key : String) (type : FieldType) : Prop :=
  ∀ value, (.text key, value) ∈ map → type value

/-- The optional fields of a footer payload whose types are not checked. -/
def UnreadFooterFields (value : CborValue) : Prop :=
  ∀ map, value = .map map →
    FieldTyped map "created_at_unix_ms" isU64 ∧ FieldTyped map "writer" isText

/-- The required fields of the identity that are not read. -/
def UnreadIdentityFields (value : CborValue) : Prop :=
  ∀ map identity, value = .map map → (.text "identity", .map identity) ∈ map →
    HasField identity "name" (orNull isText) ∧ HasField identity "created_by" isText ∧
      HasField identity "created_at_unix_ms" (orNull isU64)

/-- The fields that the decoder of a block does not read are as specified. -/
def Block.unread : Block → FieldType
  | .footerPayload => UnreadFooterFields
  | .metadata => UnreadIdentityFields
  | .indexRoot | .documentIndex => fun _ => True

def Block.UnreadTyped (block : Block) (bytes : List UInt8) : Prop :=
  ∀ value, validateDeterministic bytes = .ok value → block.unread value

end Qzt.Spec
