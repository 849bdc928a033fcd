import Qzt.Reader.Agreement
import Qzt.Sidecar.Sections

/-!
# Building and opening a sidecar (`sidecar.rs`)

A sidecar is a header, the manifest and the three sections.  `QziSidecar` decodes every
section; `QziFileSidecar` keeps the term dictionary and fetches the rest per query.
-/

namespace Qzt.Sidecar

open Foundation

/-! ## Building -/

/-- `SidecarIndexKind`. -/
inductive SidecarIndexKind where
  | token
  | ngram (n : Nat)
  deriving DecidableEq, Repr

/-- `SidecarBuildOptions`. -/
structure SidecarBuildOptions where
  maxLineBytes : Nat := 16 * 1024 * 1024
  limits : IndexBuildLimits := .default
  deriving DecidableEq, Repr

/-- What the two kinds of build hand to the encoder. -/
structure SidecarParts where
  indexType : String
  ngramN : Option Nat
  complete : Bool
  highDfPerMillion : Nat
  granules : List SearchGranule
  terms : List TermDictionaryEntry
  postings : List (List Nat)
  deriving DecidableEq

/-- The index build of `build_search_sidecar_from_file_with_options`. -/
def buildParts (env : Env) (reader : QztFileReader) (kind : SidecarIndexKind)
    (options : SidecarBuildOptions) : Result SidecarParts :=
  match kind with
  | .token => do
    let index ← RawTokenIndex.buildFromFile env reader
      { maxLineBytes := options.maxLineBytes, limits := options.limits }
    return { indexType := "token", ngramN := none, complete := index.complete,
             highDfPerMillion := 200000, granules := index.granules, terms := index.terms,
             postings := index.postings }
  | .ngram n => do
    let index ← RawNgramIndex.buildFromFile env reader
      { maxLineBytes := options.maxLineBytes, limits := options.limits, n }
    return { indexType := "ngram", ngramN := some n, complete := index.complete,
             highDfPerMillion := index.plannerConfig.highDfPerMillion, granules := index.granules,
             terms := index.terms, postings := index.postings }

/-- `build_search_sidecar_from_file_with_options`. -/
def buildSearchSidecarFromFileWithOptions (env : Env) (reader : QztFileReader)
    (kind : SidecarIndexKind) (options : SidecarBuildOptions) : Result (List UInt8) := do
  let details := reader.details
  let footerChecksum ← reader.footerChecksum env
  let parts ← buildParts env reader kind options
  let granuleEncoding : GranuleEncoding :=
    if compactLineGranulesSupported 0 parts.granules then .lineImpliedV2 else .legacyV1
  checkBuildSectionSize parts.granules parts.terms parts.postings granuleEncoding
    options.limits.maxEncodedBytes
  let granuleBytes ← encodeGranules parts.granules granuleEncoding
  let postingBytes ← encodePostingSection parts.postings
  let termBytes ← encodeTerms parts.terms .compactV2
  let termsOffset ← usizeToU64 granuleBytes.length
  let termsSize ← usizeToU64 termBytes.length
  let postingsOffset ← okOr .resourceLimitExceeded (checkedAdd termsOffset termsSize)
  let postingsSize ← usizeToU64 postingBytes.length
  let indexSizeBytes ← okOr .resourceLimitExceeded (checkedAdd postingsOffset postingsSize)
  let manifestBytes ← encodeManifest
    { sourceContainerId := details.summary.containerId
      sourceOriginalChecksum := details.metadata.originalChecksum
      sourceQztFooterChecksum := footerChecksum
      indexType := parts.indexType
      ngramN := parts.ngramN
      complete := parts.complete
      highDfPerMillion := parts.highDfPerMillion
      indexSizeBytes
      sourceSizeBytes := details.summary.originalSize
      formatVersion := .v2
      granuleEncoding
      termEncoding := .compactV2
      granules := ⟨0, termsOffset, Checksum.blake3 env granuleBytes⟩
      terms := ⟨termsOffset, termsSize, Checksum.blake3 env termBytes⟩
      postings := ⟨postingsOffset, postingsSize, Checksum.blake3 env postingBytes⟩ }
  let size ← okOr .resourceLimitExceeded (checkedAdd sidecarHeaderLen manifestBytes.length)
  let size ← okOr .resourceLimitExceeded (checkedAdd size granuleBytes.length)
  let size ← okOr .resourceLimitExceeded (checkedAdd size termBytes.length)
  let _ ← okOr .resourceLimitExceeded (checkedAdd size postingBytes.length)
  let manifestSize ← usizeToU64 manifestBytes.length
  return sidecarMagic ++ leBytes 8 manifestSize ++ manifestBytes ++ granuleBytes ++ termBytes ++
    postingBytes

/-- `build_search_sidecar_from_file`. -/
def buildSearchSidecarFromFile (env : Env) (reader : QztFileReader) (kind : SidecarIndexKind) :
    Result (List UInt8) :=
  buildSearchSidecarFromFileWithOptions env reader kind {}

/-! ## Binding to the source -/

/-- The first comparisons of a manifest with the container it is opened for. -/
def checkSource (manifest : SidecarManifest) (details : SkeletonDetails) : Result Unit := do
  rejectIf (manifest.sourceContainerId ≠ details.summary.containerId) .containerIdMismatch
  rejectIf (manifest.sourceOriginalChecksum ≠ details.metadata.originalChecksum) .containerCorrupt

/-- The comparisons that follow once the footer checksum is known. -/
def checkSourceFooter (manifest : SidecarManifest) (details : SkeletonDetails)
    (footerChecksum : Checksum) : Result Unit := do
  rejectIf (manifest.sourceQztFooterChecksum ≠ footerChecksum) .containerCorrupt
  rejectIf (manifest.sourceSizeBytes ≠ details.summary.originalSize) .containerCorrupt

/-- `validate_reader_binding`. -/
def validateReaderBinding (manifest : SidecarManifest) (details : SkeletonDetails)
    (footerChecksum : Checksum) : Result Unit := do
  rejectIf (manifest.sourceContainerId ≠ details.summary.containerId) .containerIdMismatch
  rejectIf (manifest.sourceOriginalChecksum ≠ details.metadata.originalChecksum ∨
    manifest.sourceQztFooterChecksum ≠ footerChecksum ∨
    manifest.sourceSizeBytes ≠ details.summary.originalSize) .containerCorrupt

/-- `qzt_footer_checksum`. -/
def qztFooterChecksum (env : Env) (qztBytes : List UInt8) (footerPayloadOffset : Nat) :
    Result Checksum := do
  let start ← u64ToUsize footerPayloadOffset
  let stop ← okOr .invalidFooterTrailer (checkedSub qztBytes.length footerTrailerLen)
  let footer ← okOr .unexpectedEof (getRange? qztBytes start stop)
  return Checksum.blake3 env footer

/-! ## The decoded sidecar -/

/-- `SidecarSearchIndex`. -/
inductive SidecarSearchIndex where
  | token (index : RawTokenIndex)
  | ngram (index : RawNgramIndex)
  deriving DecidableEq

/-- `QziSidecar`. -/
structure QziSidecar where
  manifest : SidecarManifest
  index : SidecarSearchIndex
  deriving DecidableEq

/-- `section_slice`. -/
def sectionSlice (env : Env) (bytes : List UInt8) (sectionBase : Nat) (sectionRef : SectionRef) :
    Result (List UInt8) := do
  let start ← okOr .resourceLimitExceeded (checkedAdd sectionBase (← u64ToUsize sectionRef.offset))
  let stop ← okOr .resourceLimitExceeded (checkedAdd start (← u64ToUsize sectionRef.size))
  let found ← okOr .unexpectedEof (getRange? bytes start stop)
  rejectIf (Checksum.blake3 env found ≠ sectionRef.checksum) .containerCorrupt
  return found

/-- The manifest of a sidecar in memory and the offset behind it. -/
def readManifest (sidecarBytes : List UInt8) (limits : SidecarLimits) :
    Result (SidecarManifest × Nat) := do
  rejectIf (sidecarBytes.length < sidecarHeaderLen ∨ sidecarBytes.take 8 ≠ sidecarMagic)
    .invalidHeader
  let manifestSize ← readLe 8 (slice sidecarBytes 8 8)
  rejectIf (manifestSize > limits.maxManifestSize) .resourceLimitExceeded
  let manifestSize ← u64ToUsize manifestSize
  let manifestEnd ← okOr .resourceLimitExceeded (checkedAdd sidecarHeaderLen manifestSize)
  let manifestBytes ← okOr .unexpectedEof (getRange? sidecarBytes sidecarHeaderLen manifestEnd)
  let manifest ← decodeManifest manifestBytes
  return (manifest, manifestEnd)

/-- The index that the decoded sections make up. -/
def restoreIndex (manifest : SidecarManifest) (granules : List SearchGranule)
    (terms : List TermDictionaryEntry) (postings : List (List Nat)) (limits : SidecarLimits) :
    Result SidecarSearchIndex :=
  if manifest.indexType = "token" then do
    let index ← RawTokenIndex.fromParts manifest.sourceContainerId manifest.sourceSizeBytes granules
      terms postings limits.reconstructionLimits
    return .token { index with complete := manifest.complete }
  else if manifest.indexType = "ngram" then do
    let n ← okOr .containerCorrupt manifest.ngramN
    let index ← RawNgramIndex.fromParts manifest.sourceContainerId manifest.sourceSizeBytes granules
      terms postings { n, complete := manifest.complete,
                       highDfPerMillion := manifest.highDfPerMillion,
                       limits := limits.reconstructionLimits }
    return .ngram index
  else
    .error .containerCorrupt

/-- The sections of a sidecar in memory, decoded and checked. -/
def openSections (env : Env) (sidecarBytes : List UInt8) (manifest : SidecarManifest)
    (sectionBase : Nat) (details : SkeletonDetails) (limits : SidecarLimits) :
    Result SidecarSearchIndex := do
  validateManifestLayout manifest (← usizeToU64 (sidecarBytes.length - sectionBase))
  let granuleBytes ← sectionSlice env sidecarBytes sectionBase manifest.granules
  let termBytes ← sectionSlice env sidecarBytes sectionBase manifest.terms
  let postingBytes ← sectionSlice env sidecarBytes sectionBase manifest.postings
  let granules ← decodeGranules granuleBytes manifest.granuleEncoding limits
  checkAll (fun granule =>
    validateGranuleChunkSpan granule details.chunkEntries details.summary.originalSize) granules
  let terms ← decodeTerms env termBytes manifest.termEncoding limits
  validateFileTermDictionary env terms manifest.postings.size manifest.termEncoding
    (← usizeToU64 granules.length)
  let postings ← decodePostingSection postingBytes terms limits
  validateDecodedPostings terms postings granules.length
  restoreIndex manifest granules terms postings limits

/-- `QziSidecar::open_with_limits`. -/
def QziSidecar.openWithLimits (env : Env) (qztBytes sidecarBytes : List UInt8)
    (limits : SidecarLimits) : Result QziSidecar := do
  let (manifest, manifestEnd) ← readManifest sidecarBytes limits
  validateManifestResourceLimits manifest limits
  let details ← openSkeletonDetails env qztBytes
  checkSource manifest details
  checkSourceFooter manifest details (← qztFooterChecksum env qztBytes details.footerPayloadOffset)
  let index ← openSections env sidecarBytes manifest manifestEnd details limits
  return { manifest, index }

/-- `QziSidecar::open`. -/
def QziSidecar.open (env : Env) (qztBytes sidecarBytes : List UInt8) : Result QziSidecar :=
  QziSidecar.openWithLimits env qztBytes sidecarBytes .default

/-! ## The sidecar over a positioned source -/

/-- `QziFileSidecar`. -/
structure QziFileSidecar where
  manifest : SidecarManifest
  source : ReadAt
  sectionBase : Nat
  granuleCount : Nat
  terms : List TermDictionaryEntry
  limits : SidecarLimits

/-- `read_vec`. -/
def readVec (source : ReadAt) (offset size : Nat) : Result (List UInt8) := do
  let len ← u64ToUsize size
  readExactAtQzt source offset len

/-- `verify_section_checksum`. -/
def verifySectionChecksum (env : Env) (source : ReadAt) (len sectionBase : Nat)
    (sectionRef : SectionRef) : Result Unit := do
  let start ← okOr .resourceLimitExceeded (checkedAdd sectionBase sectionRef.offset)
  let stop ← okOr .resourceLimitExceeded (checkedAdd start sectionRef.size)
  rejectIf (stop > len) .unexpectedEof
  match hashReadAtRange env source start sectionRef.size with
  | .ok hasher =>
    rejectIf (Checksum.fromHasher env hasher ≠ sectionRef.checksum) .containerCorrupt
  | .error kind => .error (readAtError kind)

/-- The manifest of a sidecar behind a positioned source and the offset behind it. -/
def readManifestAt (source : ReadAt) (len : Nat) (limits : SidecarLimits) :
    Result (SidecarManifest × Nat) := do
  rejectIf (len < sidecarHeaderLen) .invalidHeader
  let header ← readExactAtQzt source 0 sidecarHeaderLen
  rejectIf (header.take 8 ≠ sidecarMagic) .invalidHeader
  let manifestSize ← readLe 8 (slice header 8 8)
  rejectIf (manifestSize > limits.maxManifestSize) .resourceLimitExceeded
  let manifestEnd ← okOr .resourceLimitExceeded (checkedAdd sidecarHeaderLen manifestSize)
  rejectIf (manifestEnd > len) .unexpectedEof
  let manifestBytes ← readVec source sidecarHeaderLen manifestSize
  let manifest ← decodeManifest manifestBytes
  return (manifest, manifestEnd)

/-- The check of `index_type`. -/
def checkIndexType (manifest : SidecarManifest) : Result Unit :=
  if manifest.indexType = "token" then .ok ⟨⟩
  else if manifest.indexType = "ngram" then do
    let n ← okOr .containerCorrupt manifest.ngramN
    rejectIf (n = 0) .containerCorrupt
  else
    .error .containerCorrupt

/-- The number of granules that the granule section declares. -/
def readGranuleCount (source : ReadAt) (manifest : SidecarManifest) (sectionBase : Nat)
    (limits : SidecarLimits) : Result Nat := do
  rejectIf (manifest.granules.size < 8) .containerCorrupt
  let granuleSectionOffset ← okOr .resourceLimitExceeded
    (checkedAdd sectionBase manifest.granules.offset)
  let countBytes ← readVec source granuleSectionOffset 8
  let granuleCount ← readLe 8 countBytes
  rejectIf (granuleCount > limits.maxGranuleCount) .resourceLimitExceeded
  let records ← okOr .resourceLimitExceeded
    (checkedMul granuleCount manifest.granuleEncoding.recordLen)
  let expectedGranuleSize ← okOr .resourceLimitExceeded (checkedAdd records 8)
  rejectIf (expectedGranuleSize ≠ manifest.granules.size) .containerCorrupt
  return granuleCount

/-- The sections of a sidecar behind a positioned source: the granule count and the terms. -/
def openSectionsAt (env : Env) (source : ReadAt) (len : Nat) (manifest : SidecarManifest)
    (sectionBase : Nat) (limits : SidecarLimits) : Result (Nat × List TermDictionaryEntry) := do
  validateManifestLayout manifest (len - sectionBase)
  checkAll (verifySectionChecksum env source len sectionBase)
    [manifest.granules, manifest.terms, manifest.postings]
  let granuleCount ← readGranuleCount source manifest sectionBase limits
  let termsOffset ← okOr .resourceLimitExceeded (checkedAdd sectionBase manifest.terms.offset)
  let termBytes ← readVec source termsOffset manifest.terms.size
  let terms ← decodeTerms env termBytes manifest.termEncoding limits
  validateFileTermDictionary env terms manifest.postings.size manifest.termEncoding granuleCount
  return (granuleCount, terms)

/-- `QziFileSidecar::open_read_at_with_limits`. -/
def QziFileSidecar.openReadAtWithLimits (env : Env) (source : ReadAt) (len : Nat)
    (container : QztFileReader) (limits : SidecarLimits) : Result QziFileSidecar := do
  let (manifest, manifestEnd) ← readManifestAt source len limits
  validateManifestResourceLimits manifest limits
  checkSource manifest container.details
  checkSourceFooter manifest container.details (← container.footerChecksum env)
  checkIndexType manifest
  let (granuleCount, terms) ← openSectionsAt env source len manifest manifestEnd limits
  return { manifest, source, sectionBase := manifestEnd, granuleCount, terms, limits }

/-- `QziFileSidecar::open_read_at`. -/
def QziFileSidecar.openReadAt (env : Env) (source : ReadAt) (len : Nat)
    (container : QztFileReader) : Result QziFileSidecar :=
  QziFileSidecar.openReadAtWithLimits env source len container .default

end Qzt.Sidecar
