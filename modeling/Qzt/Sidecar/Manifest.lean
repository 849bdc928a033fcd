import Qzt.Search.Index

/-!
# The sidecar manifest (`sidecar.rs`)

Limits, encodings and the manifest of a QZI sidecar.  The manifest is one deterministic
CBOR map that binds the sidecar to its container and places the three sections.
-/

namespace Qzt.Sidecar

open Foundation

/-- `SIDECAR_MAGIC`. -/
def sidecarMagic : List UInt8 :=
  [0x51, 0x5a, 0x49, 0x53, 0x49, 0x44, 0x45, 0x31]

/-- `HEADER_LEN`. -/
def sidecarHeaderLen : Nat := 16

/-- `SidecarLimits`. -/
structure SidecarLimits where
  maxManifestSize : Nat
  maxTermsSize : Nat
  maxTermCount : Nat
  maxGranuleCount : Nat
  maxPostingsSize : Nat
  maxPostingListSize : Nat
  maxPostingBytesPerQuery : Nat
  maxDecodedPostingIds : Nat
  deriving DecidableEq, Repr

/-- `SidecarLimits::default`. -/
def SidecarLimits.default : SidecarLimits where
  maxManifestSize := 16 * 1024 * 1024
  maxTermsSize := 64 * 1024 * 1024
  maxTermCount := 2000000
  maxGranuleCount := 10000000
  maxPostingsSize := 256 * 1024 * 1024
  maxPostingListSize := 64 * 1024 * 1024
  maxPostingBytesPerQuery := 128 * 1024 * 1024
  maxDecodedPostingIds := 10000000

/-- `SidecarLimits::reconstruction_limits`. -/
def SidecarLimits.reconstructionLimits (self : SidecarLimits) : IndexBuildLimits where
  maxGranules := self.maxGranuleCount
  maxDistinctKeys := self.maxTermCount
  maxPostingIds := self.maxDecodedPostingIds
  maxKeyBytes := self.maxTermsSize
  maxEncodedBytes := 2 ^ 64 - 1

/-! ## Encodings -/

/-- `GranuleEncoding`. -/
inductive GranuleEncoding where
  | legacyV1
  | lineImpliedV2
  deriving DecidableEq, Repr

/-- `GranuleEncoding::record_len`. -/
def GranuleEncoding.recordLen : GranuleEncoding → Nat
  | .legacyV1 => 56
  | .lineImpliedV2 => 20

/-- `GranuleEncoding::manifest_name`. -/
def GranuleEncoding.manifestName : GranuleEncoding → String
  | .legacyV1 => "legacy-v1"
  | .lineImpliedV2 => "line-implied-v2"

/-- `TermEncoding`. -/
inductive TermEncoding where
  | legacyV1
  | compactV2
  deriving DecidableEq, Repr

/-- `TermEncoding::manifest_name`. -/
def TermEncoding.manifestName : TermEncoding → String
  | .legacyV1 => "legacy-v1"
  | .compactV2 => "key-posting-varint-v2"

/-- `SidecarFormatVersion`. -/
inductive SidecarFormatVersion where
  | v1
  | v2
  deriving DecidableEq, Repr

/-- `SidecarFormatVersion::schema_name`. -/
def SidecarFormatVersion.schemaName : SidecarFormatVersion → String
  | .v1 => "qzt.sidecar.v1"
  | .v2 => "qzt.sidecar.v2"

/-! ## The manifest -/

/-- `SectionRef`. -/
structure SectionRef where
  offset : Nat
  size : Nat
  checksum : Checksum
  deriving DecidableEq

/-- `SidecarManifest`. -/
structure SidecarManifest where
  sourceContainerId : ContainerId
  sourceOriginalChecksum : Checksum
  sourceQztFooterChecksum : Checksum
  indexType : String
  ngramN : Option Nat
  complete : Bool
  highDfPerMillion : Nat
  indexSizeBytes : Nat
  sourceSizeBytes : Nat
  formatVersion : SidecarFormatVersion
  granuleEncoding : GranuleEncoding
  termEncoding : TermEncoding
  granules : SectionRef
  terms : SectionRef
  postings : SectionRef
  deriving DecidableEq

/-- `section_ref_value`. -/
def sectionRefValue (sectionRef : SectionRef) : CborValue :=
  .map [textPair "offset" (.integer sectionRef.offset), textPair "size" (.integer sectionRef.size),
    textPair "checksum" (checksumValue sectionRef.checksum)]

/-- `encode_manifest`. -/
def encodeManifest (manifest : SidecarManifest) : Result (List UInt8) :=
  encodeDeterministic (.map [
    textPair "schema" (.text manifest.formatVersion.schemaName),
    textPair "source_container_id" (.bytes manifest.sourceContainerId.toList),
    textPair "source_format_version" (.array [.integer 0, .integer 1]),
    textPair "source_original_checksum" (checksumValue manifest.sourceOriginalChecksum),
    textPair "source_qzt_footer_checksum" (checksumValue manifest.sourceQztFooterChecksum),
    textPair "index_type" (.text manifest.indexType),
    textPair "ngram_n" (match manifest.ngramN with
      | none => .null
      | some n => .integer n),
    textPair "complete" (.bool manifest.complete),
    textPair "high_df_per_million" (.integer manifest.highDfPerMillion),
    textPair "granule_encoding" (.text manifest.granuleEncoding.manifestName),
    textPair "term_encoding" (.text manifest.termEncoding.manifestName),
    textPair "index_manifest" (.map [
      textPair "schema" (.text "qzt.search-index.v1"),
      textPair "kind" (.text manifest.indexType),
      textPair "posting_granularity" (.text "line"),
      textPair "index_size_bytes" (.integer manifest.indexSizeBytes),
      textPair "source_size_bytes" (.integer manifest.sourceSizeBytes)]),
    textPair "sections" (.map [
      textPair "granules" (sectionRefValue manifest.granules),
      textPair "terms" (sectionRefValue manifest.terms),
      textPair "postings" (sectionRefValue manifest.postings)])])

/-- `parse_format_version_component`. -/
def parseFormatVersionComponent : CborValue → Result Nat
  | .integer value =>
    if 0 ≤ value ∧ value < 65536 then .ok value.toNat else .error .containerCorrupt
  | _ => .error .containerCorrupt

/-- `expect_source_format_version`. -/
def expectSourceFormatVersion (map : CborMap) : Result Unit := do
  match ← field map "source_format_version" .containerCorrupt with
  | .array [first, second] =>
    let major ← parseFormatVersionComponent first
    let minor ← parseFormatVersionComponent second
    rejectIf (major ≠ majorVersion ∨ minor ≠ minorVersion) .unsupportedVersion
  | _ => .error .containerCorrupt

/-- `section_ref_from`. -/
def sectionRefFrom (map : CborMap) (key : String) : Result SectionRef := do
  let sectionMap ← asMap (← field map key .containerCorrupt) .containerCorrupt
  let offset ← requiredU64WithOverflow sectionMap "offset" .containerCorrupt .resourceLimitExceeded
  let size ← requiredU64WithOverflow sectionMap "size" .containerCorrupt .resourceLimitExceeded
  let checksum ← requiredChecksum sectionMap "checksum" .containerCorrupt
  return { offset, size, checksum }

/-- The `ngram_n` field. -/
def ngramNFrom (map : CborMap) : Result (Option Nat) := do
  match ← field map "ngram_n" .containerCorrupt with
  | .null => .ok none
  | .integer value =>
    if 0 ≤ value then
      if value.toNat < 2 ^ 64 then .ok (some value.toNat) else .error .resourceLimitExceeded
    else
      .error .containerCorrupt
  | _ => .error .containerCorrupt

/-- The encodings a format version allows. -/
def encodingsFrom (map : CborMap) (formatVersion : SidecarFormatVersion) :
    Result (GranuleEncoding × TermEncoding) :=
  let granuleField := map.findSome? (entryNamed "granule_encoding")
  let termField := map.findSome? (entryNamed "term_encoding")
  match formatVersion with
  | .v1 =>
    if granuleField.isNone ∧ termField.isNone then .ok (.legacyV1, .legacyV1)
    else .error .containerCorrupt
  | .v2 => do
    let granuleEncoding ← match granuleField with
      | some (.text value) =>
        if value = "legacy-v1" then .ok .legacyV1
        else if value = "line-implied-v2" then .ok .lineImpliedV2
        else .error .containerCorrupt
      | _ => .error .containerCorrupt
    match termField with
    | some (.text value) =>
      if value = "key-posting-varint-v2" then .ok (granuleEncoding, .compactV2)
      else .error .containerCorrupt
    | _ => .error .containerCorrupt

/-- The `schema` field. -/
def formatVersionFrom (map : CborMap) : Result SidecarFormatVersion := do
  let schema ← requiredText map "schema" .containerCorrupt
  if schema = "qzt.sidecar.v1" then .ok .v1
  else if schema = "qzt.sidecar.v2" then .ok .v2
  else .error .containerCorrupt

/-- `decode_manifest`. -/
def decodeManifest (bytes : List UInt8) : Result SidecarManifest := do
  let value ← validateDeterministic bytes
  let map ← asMap value .containerCorrupt
  let formatVersion ← formatVersionFrom map
  expectSourceFormatVersion map
  let sourceContainerId ← requiredBstr16 map "source_container_id" .containerCorrupt
  let sourceOriginalChecksum ← requiredChecksum map "source_original_checksum" .containerCorrupt
  let sourceQztFooterChecksum ← requiredChecksum map "source_qzt_footer_checksum" .containerCorrupt
  let indexType ← requiredText map "index_type" .containerCorrupt
  let ngramN ← ngramNFrom map
  let complete ← requiredBool map "complete" .containerCorrupt
  let highDfPerMillion ←
    requiredU64WithOverflow map "high_df_per_million" .containerCorrupt .resourceLimitExceeded
  rejectIf (highDfPerMillion ≥ 2 ^ 32) .resourceLimitExceeded
  let (granuleEncoding, termEncoding) ← encodingsFrom map formatVersion
  let indexManifest ← asMap (← field map "index_manifest" .containerCorrupt) .containerCorrupt
  rejectIf ((← requiredText indexManifest "schema" .containerCorrupt) ≠ "qzt.search-index.v1")
    .containerCorrupt
  rejectIf ((← requiredText indexManifest "kind" .containerCorrupt) ≠ indexType) .containerCorrupt
  rejectIf ((← requiredText indexManifest "posting_granularity" .containerCorrupt) ≠ "line")
    .containerCorrupt
  let indexSizeBytes ←
    requiredU64WithOverflow indexManifest "index_size_bytes" .containerCorrupt .resourceLimitExceeded
  let sourceSizeBytes ←
    requiredU64WithOverflow indexManifest "source_size_bytes" .containerCorrupt .resourceLimitExceeded
  let sections ← asMap (← field map "sections" .containerCorrupt) .containerCorrupt
  let granules ← sectionRefFrom sections "granules"
  let terms ← sectionRefFrom sections "terms"
  let postings ← sectionRefFrom sections "postings"
  return { sourceContainerId, sourceOriginalChecksum, sourceQztFooterChecksum, indexType, ngramN,
           complete, highDfPerMillion, indexSizeBytes, sourceSizeBytes, formatVersion,
           granuleEncoding, termEncoding, granules, terms, postings }

/-! ## Checks on the manifest -/

/-- `validate_manifest_layout`. -/
def validateManifestLayout (manifest : SidecarManifest) (payloadSize : Nat) : Result Unit := do
  let termsOffset := manifest.granules.size
  let postingsOffset ← okOr .resourceLimitExceeded (checkedAdd termsOffset manifest.terms.size)
  let expectedSize ← okOr .resourceLimitExceeded (checkedAdd postingsOffset manifest.postings.size)
  rejectIf (manifest.granules.offset ≠ 0 ∨ manifest.terms.offset ≠ termsOffset ∨
    manifest.postings.offset ≠ postingsOffset ∨ manifest.indexSizeBytes ≠ expectedSize)
    .containerCorrupt
  rejectIf (payloadSize < expectedSize) .unexpectedEof
  rejectIf (payloadSize > expectedSize) .containerCorrupt

/-- `validate_manifest_resource_limits`. -/
def validateManifestResourceLimits (manifest : SidecarManifest) (limits : SidecarLimits) :
    Result Unit := do
  let records ← okOr .resourceLimitExceeded
    (checkedMul limits.maxGranuleCount manifest.granuleEncoding.recordLen)
  let maximumGranulesSize ← okOr .resourceLimitExceeded (checkedAdd records 8)
  rejectIf (manifest.granules.size > maximumGranulesSize) .resourceLimitExceeded
  rejectIf (manifest.terms.size > limits.maxTermsSize) .resourceLimitExceeded
  rejectIf (manifest.postings.size > limits.maxPostingsSize) .resourceLimitExceeded

end Qzt.Sidecar
