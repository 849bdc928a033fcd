import Qzt.Sidecar.Limits
import Qzt.Sidecar.ManifestRoundTrip
import Qzt.Sidecar.Openers
import Qzt.Sidecar.Written

/-!
# Build, then open

The sidecar of a container opens for it, in memory and behind a source, and the index that is
restored is the one that is built from the container.  Every limit of the openers is above
what the limits of the build let through.
-/

namespace Qzt.Sidecar

open Foundation

/-! ## The index of a kind -/

section Kind

variable {env : Env} {reader : QztFileReader} {kind : SidecarIndexKind}

/-- The index that is built from a container, with the options of a sidecar build. -/
def SidecarIndexKind.buildIndex (env : Env) (reader : QztFileReader) (kind : SidecarIndexKind)
    (options : SidecarBuildOptions) : Result SidecarSearchIndex :=
  match kind with
  | .token => do
    let index ← RawTokenIndex.buildFromFile env reader
      { maxLineBytes := options.maxLineBytes, limits := options.limits }
    return .token index
  | .ngram n => do
    let index ← RawNgramIndex.buildFromFile env reader
      { maxLineBytes := options.maxLineBytes, limits := options.limits, n }
    return .ngram index

/-- The index that the encoded parts of a build make up. -/
def SidecarIndexKind.index (kind : SidecarIndexKind) (details : SkeletonDetails)
    (built : List SearchGranule × EncodedPostingLists × List (List Nat)) : SidecarSearchIndex :=
  match kind with
  | .token => .token
    { containerId := details.summary.containerId
      sourceSizeBytes := details.summary.originalSize
      source := .rawUtf8, postingGranularity := .line, complete := true
      granules := built.1, terms := built.2.1.terms, postings := built.2.2
      encodedPostings := built.2.1.postings }
  | .ngram n => .ngram
    { containerId := details.summary.containerId
      sourceSizeBytes := details.summary.originalSize
      source := .rawUtf8, postingGranularity := .line, complete := true
      declaration := { n, unit := .unicodeScalar, normalization := "none", caseFold := false,
                       boundaryMode := "adjacent_decode", boundaryWindowBytes := 4096 }
      plannerConfig := { highDfPerMillion := 200000 }
      granules := built.1, terms := built.2.1.terms, postings := built.2.2
      skipData := built.2.1.skips, encodedPostings := built.2.1.postings }

theorem SidecarIndexKind.buildIndex_eq (env : Env) (reader : QztFileReader)
    (hkind : kind ≠ .ngram 0) (options : SidecarBuildOptions) :
    kind.buildIndex env reader options = (do
      let built ← buildEncoded env reader.details.chunkEntries reader.details.summary.originalSize
        options.maxLineBytes options.limits (reader.decodeEntry env) kind.keys kind.withSkips
      return kind.index reader.details built) := by
  cases kind with
  | token =>
    simp only [buildIndex, RawTokenIndex.buildFromFile, RawTokenIndex.fromParts_eq, buildEncoded,
      bind_assoc, pure_eq_ok, ok_bind]
    rfl
  | ngram n =>
    have hn : n ≠ 0 := by
      rintro rfl
      exact hkind rfl
    have hparts := fun containerId size granules terms postings =>
      @RawNgramIndex.fromParts_eq containerId size granules terms postings
        { maxLineBytes := options.maxLineBytes, limits := options.limits, n } hn
    simp only [buildIndex, RawNgramIndex.buildFromFile, hparts, rejectIf_of_not hn, buildEncoded,
      bind_assoc, pure_eq_ok, ok_bind]
    rfl

theorem SidecarIndexKind.keys_ne (hkind : kind ≠ .ngram 0) : kind.keys ≠ .ngram 0 := by
  cases kind with
  | token => exact (nomatch ·)
  | ngram n => exact fun h => hkind (congrArg _ (BuildKeys.ngram.inj h))

/-- There is no index of empty n-grams. -/
theorem ne_of_buildParts {options : SidecarBuildOptions} {parts : SidecarParts}
    (h : buildParts env reader kind options = .ok parts) : kind ≠ .ngram 0 := by
  rintro rfl
  cases h

end Kind

/-! ## The file -/

section Written

variable {env : Env} {details : SkeletonDetails} {footerChecksum : Checksum} {parts : SidecarParts}
  {file : SidecarFile} {sidecarBytes : List UInt8}

/-- The manifest of the sections. -/
def writtenManifest (env : Env) (details : SkeletonDetails) (footerChecksum : Checksum)
    (parts : SidecarParts) (file : SidecarFile) : SidecarManifest where
  sourceContainerId := details.summary.containerId
  sourceOriginalChecksum := details.metadata.originalChecksum
  sourceQztFooterChecksum := footerChecksum
  indexType := parts.indexType
  ngramN := parts.ngramN
  complete := parts.complete
  highDfPerMillion := parts.highDfPerMillion
  indexSizeBytes := file.granuleBytes.length + file.termBytes.length + file.postingBytes.length
  sourceSizeBytes := details.summary.originalSize
  formatVersion := .v2
  granuleEncoding := granuleEncodingOf parts.granules
  termEncoding := .compactV2
  granules := ⟨0, file.granuleBytes.length, Checksum.blake3 env file.granuleBytes⟩
  terms := ⟨file.granuleBytes.length, file.termBytes.length, Checksum.blake3 env file.termBytes⟩
  postings := ⟨file.granuleBytes.length + file.termBytes.length, file.postingBytes.length,
    Checksum.blake3 env file.postingBytes⟩

/-- The encoders have written the parts of the file. -/
structure WrittenFile (env : Env) (details : SkeletonDetails) (footerChecksum : Checksum)
    (parts : SidecarParts) (file : SidecarFile) : Prop where
  granules : encodeGranules parts.granules (granuleEncodingOf parts.granules) =
    .ok file.granuleBytes
  terms : encodeTerms parts.terms .compactV2 = .ok file.termBytes
  postings : encodePostingSection parts.postings = .ok file.postingBytes
  manifest : encodeManifest (writtenManifest env details footerChecksum parts file) =
    .ok file.manifestBytes
  word : file.bytes.length < 2 ^ 64

theorem writtenFile_of_assembleSidecar
    (h : assembleSidecar env details footerChecksum parts (granuleEncodingOf parts.granules) =
      .ok sidecarBytes) :
    ∃ file : SidecarFile, sidecarBytes = file.bytes ∧
      WrittenFile env details footerChecksum parts file := by
  unfold assembleSidecar at h
  obtain ⟨granuleBytes, hgranules, h⟩ := bind_eq_ok_iff.mp h
  obtain ⟨postingBytes, hpostings, h⟩ := bind_eq_ok_iff.mp h
  obtain ⟨termBytes, hterms, h⟩ := bind_eq_ok_iff.mp h
  obtain ⟨_, hgranulesSize, h⟩ := bind_eq_ok_iff.mp h
  obtain ⟨_, htermsSize, h⟩ := bind_eq_ok_iff.mp h
  obtain ⟨_, hpostingsOffset, h⟩ := bind_eq_ok_iff.mp h
  obtain ⟨_, hpostingsSize, h⟩ := bind_eq_ok_iff.mp h
  obtain ⟨_, hindexSize, h⟩ := bind_eq_ok_iff.mp h
  obtain ⟨manifestBytes, hmanifest, h⟩ := bind_eq_ok_iff.mp h
  obtain ⟨_, hfirst, h⟩ := bind_eq_ok_iff.mp h
  obtain ⟨_, hsecond, h⟩ := bind_eq_ok_iff.mp h
  obtain ⟨_, hthird, h⟩ := bind_eq_ok_iff.mp h
  obtain ⟨_, htotal, h⟩ := bind_eq_ok_iff.mp h
  obtain ⟨_, hmanifestSize, h⟩ := bind_eq_ok_iff.mp h
  obtain rfl := Except.ok.inj h
  obtain ⟨-, rfl⟩ := usizeToU64_eq_ok_iff.mp hgranulesSize
  obtain ⟨-, rfl⟩ := usizeToU64_eq_ok_iff.mp htermsSize
  obtain ⟨-, rfl⟩ := usizeToU64_eq_ok_iff.mp hpostingsSize
  obtain ⟨-, rfl⟩ := usizeToU64_eq_ok_iff.mp hmanifestSize
  rw [okOr_eq_ok_iff, checkedAdd_eq_some_iff] at hpostingsOffset hindexSize
  rw [okOr_eq_ok_iff, checkedAdd_eq_some_iff] at hfirst hsecond hthird htotal
  obtain ⟨-, rfl⟩ := hpostingsOffset
  obtain ⟨-, rfl⟩ := hindexSize
  obtain ⟨-, rfl⟩ := hfirst
  obtain ⟨-, rfl⟩ := hsecond
  obtain ⟨-, rfl⟩ := hthird
  have hsum := htotal.1
  refine ⟨⟨manifestBytes, granuleBytes, termBytes, postingBytes⟩, rfl, hgranules, hterms, hpostings,
    hmanifest, ?_⟩
  rw [SidecarFile.length_bytes, SidecarFile.sectionBase]
  dsimp only
  omega

/-- The width of the n-grams was encoded, so it is a machine word. -/
theorem ngramN_lt_of_encodeManifest {manifest : SidecarManifest} {bytes : List UInt8}
    (h : encodeManifest manifest = .ok bytes) : ∀ n ∈ manifest.ngramN, n < 2 ^ 64 := by
  intro n hn
  rw [encodeManifest_entries, encodeDeterministic, encodeValue] at h
  obtain ⟨_, -, h⟩ := bind_eq_ok_iff.mp h
  obtain ⟨encoded, hentries, -⟩ := bind_eq_ok_iff.mp h
  have hmem : textPair "ngram_n" (ngramNValue manifest.ngramN) ∈ manifestEntries manifest := by
    simp [manifestEntries]
  have hencodes : ∃ entryBytes, EncodesEntry
      (textPair "ngram_n" (ngramNValue manifest.ngramN)) entryBytes := by
    obtain ⟨position, hposition⟩ := List.mem_iff_getElem?.mp hmem
    have hall := encodeEntries_eq_ok hentries
    have hlt := (List.getElem?_eq_some_iff.mp hposition).1
    have hlt' : position < encoded.length := hall.length_eq ▸ hlt
    have hget := List.getElem?_eq_getElem hlt'
    have hzip : ((manifestEntries manifest).zip encoded)[position]? =
        some (textPair "ngram_n" (ngramNValue manifest.ngramN), encoded[position]) :=
      List.getElem?_zip_eq_some.mpr ⟨hposition, hget⟩
    exact ⟨_, (List.forall₂_iff_zip.mp hall).2 (List.mem_of_getElem? hzip)⟩
  obtain ⟨entryBytes, -, hvalue⟩ := hencodes
  rw [hn] at hvalue
  change encodeValue (.integer (n : Int)) = _ at hvalue
  rw [encodeValue] at hvalue
  obtain ⟨_, hargument, -⟩ := bind_eq_ok_iff.mp hvalue
  rw [okOr_eq_ok_iff, integerArgument, if_pos (Int.natCast_nonneg n), Int.toNat_natCast] at hargument
  by_contra hge
  rw [if_neg hge] at hargument
  cases hargument

end Written

/-! ## The limits -/

/-- The limits of an opener are above what a build lets through. -/
structure SidecarLimits.Cover (opener : SidecarLimits) (limits : IndexBuildLimits) : Prop where
  granules : limits.maxGranules ≤ opener.maxGranuleCount
  keys : limits.maxDistinctKeys ≤ opener.maxTermCount
  postingIds : limits.maxPostingIds ≤ opener.maxDecodedPostingIds
  terms : limits.maxKeyBytes + 30 * limits.maxDistinctKeys + 8 ≤ opener.maxTermsSize
  postings : limits.maxEncodedBytes ≤ opener.maxPostingsSize
  lists : 10 * limits.maxGranules ≤ opener.maxPostingListSize
  manifest : 2 ^ 16 ≤ opener.maxManifestSize
  records : opener.maxGranuleCount * 56 + 8 < 2 ^ 64
  termCount : opener.maxTermCount < 2 ^ 64
  termsSize : opener.maxTermsSize < 2 ^ 64
  postingsSize : opener.maxPostingsSize < 2 ^ 64
  decodedPostingIds : opener.maxDecodedPostingIds < 2 ^ 64

theorem cover_default : SidecarLimits.default.Cover .default := by
  constructor <;> decide

theorem SidecarLimits.Cover.sized {opener : SidecarLimits} {limits : IndexBuildLimits}
    (h : opener.Cover limits) : limits.Sized ∧ opener.reconstructionLimits.Sized := by
  obtain ⟨hgranules, hkeys, hids, hterms, hpostings, -, -, hrecords, htermCount, htermsSize,
    hpostingsSize, hdecoded⟩ := h
  refine ⟨⟨by omega, by omega, by omega, by omega, by omega⟩, ?_, htermCount, hdecoded, htermsSize,
    Nat.sub_lt (Nat.two_pow_pos 64) Nat.one_pos⟩
  change opener.maxGranuleCount < 2 ^ 64
  omega

/-! ## The sections -/

/-- A build has indexed the text of the container. -/
structure BuiltOver (env : Env) (details : SkeletonDetails) (kind : SidecarIndexKind)
    (limits : IndexBuildLimits) (text : List UInt8)
    (built : List SearchGranule × EncodedPostingLists × List (List Nat)) (map : PostingMap) :
    Prop where
  layout : Layout details.chunkEntries text.length
  size : details.summary.originalSize = text.length
  indexes : IndexesLines details.chunkEntries kind.keys (lines text)
    (lineGranules details.chunkEntries text) map
  granules : built.1 = lineGranules details.chunkEntries text
  postings : built.2.2 = map.map Prod.snd
  encoded : encodeParts text.length (lineGranules details.chunkEntries text)
    (map.map fun pair => blankTerm env pair.1) (map.map Prod.snd) limits kind.withSkips =
      .ok built.2.1

theorem builtOver_of_buildEncoded {env : Env} {bytes : List UInt8} (served : FaithfulSource bytes)
    {details : SkeletonDetails} {readerLimits : ResourceLimits}
    (hopen : openSkeletonDetailsWithLimits env bytes readerLimits = .ok details)
    {kind : SidecarIndexKind} {maxLineBytes : Nat} {limits : IndexBuildLimits}
    {built : List SearchGranule × EncodedPostingLists × List (List Nat)}
    (h : buildEncoded env details.chunkEntries details.summary.originalSize maxLineBytes limits
      ((served.fileReader details).decodeEntry env) kind.keys kind.withSkips = .ok built) :
    ∃ text map, BuiltOver env details kind limits text built map := by
  have hcuts := cutsInto_of_open served hopen
  have hsize : details.summary.originalSize =
      (originalText ((served.fileReader details).decodeEntry env) details.chunkEntries).length :=
    (openSkeletonDetailsWithLimits_opened hopen).layout.total.symm.trans hcuts.layout.total
  rw [hsize] at h
  obtain ⟨parts, hbuild, h⟩ := bind_eq_ok_iff.mp h
  obtain ⟨map, hindexes, rfl⟩ := buildEncoded_indexes hcuts hbuild
  obtain ⟨encoded, hencoded, hbuilt⟩ := bind_eq_ok_iff.mp h
  cases hbuilt
  exact ⟨_, map, hcuts.layout, hsize, hindexes, rfl, rfl, hencoded⟩

section Sections

variable {env : Env} {details : SkeletonDetails} {kind : SidecarIndexKind}
  {limits : IndexBuildLimits} {opener : SidecarLimits} {text : List UInt8}
  {built : List SearchGranule × EncodedPostingLists × List (List Nat)} {map : PostingMap}
  {footerChecksum : Checksum} {file : SidecarFile}

theorem postings_of_encodePostingSection {postings : List (List Nat)} {bytes : List UInt8}
    (hincreases : ∀ list ∈ postings, IncreasesFrom none list)
    (h : encodePostingSection postings = .ok bytes) :
    bytes = (postings.map postingBytes).flatten := by
  have hlists : collect encodeDeltaVarintU64 postings = .ok (postings.map postingBytes) :=
    collect_of_forall fun list hlist => encodeDeltas_eq (hincreases list hlist)
  rw [encodePostingSection, hlists] at h
  exact (Except.ok.inj h).symm

variable (hbuilt : BuiltOver env details kind limits text built map)
  (hcover : opener.Cover limits) (hkind : kind ≠ .ngram 0)
  (hfile : WrittenFile env details footerChecksum (kind.parts built) file)
include hbuilt hcover hkind hfile

/-- The three sections are decoded to the parts of the build. -/
theorem decodes_of_built :
    decodeGranules file.granuleBytes (granuleEncodingOf built.1) opener = .ok built.1 ∧
    decodeTerms env file.termBytes .compactV2 opener = .ok (restoredTerms env 0 map) ∧
    decodePostingSection file.postingBytes (restoredTerms env 0 map) opener = .ok built.2.2 := by
  obtain ⟨hgranulesEq, htermsEq, hpostingsEq⟩ := kind.parts_sections built
  have hmode := kind.keys_ne hkind
  obtain ⟨hwithin, hwritten⟩ := within_of_encodeParts hbuilt.layout hcover.sized.1 hbuilt.indexes
    hbuilt.encoded
  have hmap := hwithin.writable hcover.sized.1 hbuilt.layout hmode hbuilt.indexes
  have hlength := file.length_bytes
  have hword := hfile.word
  have hgranules := hfile.granules
  have hterms := hfile.terms
  have hpostings := hfile.postings
  rw [hgranulesEq] at hgranules
  rw [htermsEq] at hterms
  rw [hpostingsEq, hbuilt.postings] at hpostings
  have hcount : built.1.length = (lines text).length := by
    rw [hbuilt.granules]
    exact hbuilt.indexes.length
  refine ⟨?_, ?_, ?_⟩
  · apply decodeGranules_encodeGranules _ hgranules _ _ (by omega)
    · intro position granule hgranule
      rw [hbuilt.granules] at hgranule
      exact (placedGranule hbuilt.layout hgranule).inLine hbuilt.layout.size_lt
    · exact length_of_encodeGranules hgranules
    · have hle := hwithin.granules
      have hmost := hcover.granules
      omega
  · have hrecords := encodeTerms_written hwritten hterms
    have hsum := length_termRecords_le hmap
    have hkeys := hwithin.keys
    have hkeyBytes := hwithin.keyBytes
    have htermsSize := hcover.terms
    have hmost := hcover.keys
    refine decodeTerms_of_records env hmap hrecords ?_ (by omega) (by omega)
    rw [← hrecords, List.length_append, length_leBytes]
    omega
  · have hbytes := postings_of_encodePostingSection (hbuilt.indexes.increases hbuilt.layout) hpostings
    have hextent : file.postingBytes.length =
        (map.map fun pair => (postingBytes pair.2).length).sum := by
      rw [hbytes, List.length_flatten, List.map_map, List.map_map]
      rfl
    have hle := hwithin.postingBytes
    have hids := hwithin.postingIds
    have hmost := hcover.postings
    have hmostIds := hcover.postingIds
    rw [decodePostingSection, usizeToU64_of_lt (by omega), ok_bind, rejectIf_of_not (by omega),
      ok_bind, hbuilt.postings]
    apply decodePostingLoop_restoredTerms hmap _ (by omega) (by omega)
    · rw [hbytes, List.map_map]
      exact standsAt_self _
    · intro pair hpair
      have hkey := keyInText hbuilt.layout hmode hbuilt.indexes hpair
      have hlist : (postingBytes pair.2).length ≤ 10 * pair.2.length :=
        length_deltaBytes_le hkey.increases
      have hlines := hkey.length
      have hgranuleLimit := hwithin.granules
      have hlists := hcover.lists
      omega

/-- The sections are within the limits of the opener. -/
theorem resources_of_built : validateManifestResourceLimits
    (writtenManifest env details footerChecksum (kind.parts built) file) opener = .ok ⟨⟩ := by
  obtain ⟨hgranulesEq, -, -⟩ := kind.parts_sections built
  obtain ⟨hgranules, hterms, hpostings⟩ := decodes_of_built hbuilt hcover hkind hfile
  obtain ⟨⟨-, hencoded⟩, -, hcount⟩ := decodeGranules_iff.mp hgranules
  have hlength := length_of_encodeGranules hencoded
  simp only [decodeTerms, decodePostingSection, bind_eq_ok_iff, usizeToU64_eq_ok_iff,
    rejectIf_eq_ok_iff] at hterms hpostings
  obtain ⟨_, ⟨-, rfl⟩, _, htermsSize, -⟩ := hterms
  obtain ⟨_, ⟨-, rfl⟩, _, hpostingsSize, -⟩ := hpostings
  have hrecords := hcover.records
  have hrecord : (granuleEncodingOf built.1).recordLen ≤ 56 := by
    cases granuleEncodingOf built.1 <;> decide
  have hmost : opener.maxGranuleCount * (granuleEncodingOf built.1).recordLen ≤
      opener.maxGranuleCount * 56 := Nat.mul_le_mul_left _ hrecord
  have hsize : built.1.length * (granuleEncodingOf built.1).recordLen ≤
      opener.maxGranuleCount * (granuleEncodingOf built.1).recordLen :=
    Nat.mul_le_mul_right _ hcount
  rw [validateManifestResourceLimits, writtenManifest, hgranulesEq]
  dsimp only
  rw [checkedMul_of_lt (by omega), okOr_some, ok_bind, checkedAdd_of_lt (by omega), okOr_some,
    ok_bind, rejectIf_of_not (by omega), ok_bind, rejectIf_of_not htermsSize, ok_bind,
    rejectIf_of_not hpostingsSize]

omit hkind in
/-- The manifest that was written is read back. -/
theorem decodeManifest_of_built
    (hsource : details.metadata.originalChecksum.algorithm = checksumAlgorithmBlake3)
    (hfooter : footerChecksum.algorithm = checksumAlgorithmBlake3) :
    decodeManifest file.manifestBytes =
        .ok (writtenManifest env details footerChecksum (kind.parts built) file) ∧
      file.manifestBytes.length ≤ opener.maxManifestSize := by
  obtain ⟨htype, hhigh⟩ := kind.parts_header built
  have hlength := file.length_bytes
  have hword := hfile.word
  have hsize := hbuilt.size
  have htext := hbuilt.layout.size_lt
  have hmost := hcover.manifest
  have hhighDf : (writtenManifest env details footerChecksum (kind.parts built)
      file).highDfPerMillion < 2 ^ 32 := by
    rw [writtenManifest]
    dsimp only
    rw [hhigh]
    decide
  have hsized : (writtenManifest env details footerChecksum (kind.parts built) file).Sized :=
    { sourceOriginalChecksum := hsource
      sourceQztFooterChecksum := hfooter
      indexType := htype
      ngramN := ngramN_lt_of_encodeManifest hfile.manifest
      highDfPerMillion := Nat.lt_of_lt_of_le hhighDf (by decide)
      indexSizeBytes := by
        rw [writtenManifest]
        dsimp only
        omega
      sourceSizeBytes := by
        rw [writtenManifest]
        dsimp only
        omega
      granules := ⟨Nat.two_pow_pos 64, by rw [writtenManifest]; dsimp only; omega, rfl⟩
      terms := ⟨by rw [writtenManifest]; dsimp only; omega,
        by rw [writtenManifest]; dsimp only; omega, rfl⟩
      postings := ⟨by rw [writtenManifest]; dsimp only; omega,
        by rw [writtenManifest]; dsimp only; omega, rfl⟩ }
  have hdecodes := decodeManifest_encodeManifest hsized rfl rfl
    hhighDf hfile.manifest
  have hshort := length_of_encodeManifest hsized.by (Nat.le_refl 32) (by decide) hfile.manifest
  exact ⟨hdecodes, by omega⟩

/-- The opener reads from the file what was built. -/
theorem sectionsRead_of_built
    (hsource : details.metadata.originalChecksum.algorithm = checksumAlgorithmBlake3)
    (hfooter : footerChecksum.algorithm = checksumAlgorithmBlake3) :
    SectionsRead env file (writtenManifest env details footerChecksum (kind.parts built) file)
      details opener built.1 (restoredTerms env 0 map) built.2.2 := by
  obtain ⟨hgranulesEq, -, hpostingsEq⟩ := kind.parts_sections built
  have hmode := kind.keys_ne hkind
  obtain ⟨hgranules, hterms, hpostings⟩ := decodes_of_built hbuilt hcover hkind hfile
  obtain ⟨hwithin, -⟩ := within_of_encodeParts hbuilt.layout hcover.sized.1 hbuilt.indexes
    hbuilt.encoded
  have hmap := hwithin.writable hcover.sized.1 hbuilt.layout hmode hbuilt.indexes
  have hincreases := hbuilt.indexes.increases hbuilt.layout
  have hwritten := hfile.postings
  rw [hpostingsEq, hbuilt.postings] at hwritten
  have hextent : file.postingBytes.length =
      (map.map fun pair => (postingBytes pair.2).length).sum := by
    rw [postings_of_encodePostingSection hincreases hwritten, List.length_flatten, List.map_map,
      List.map_map]
    rfl
  have hcount : built.1.length = (lines text).length := by
    rw [hbuilt.granules]
    exact hbuilt.indexes.length
  have hword : built.1.length < 2 ^ 64 := by
    rw [hbuilt.granules]
    exact hbuilt.indexes.granules_length_lt hbuilt.layout
  refine
    { describes := ⟨(decodeManifest_of_built hbuilt hcover hfile hsource hfooter).1,
        ⟨rfl, rfl⟩, ⟨rfl, rfl⟩, ⟨rfl, rfl⟩⟩
      indexSize := rfl
      checksums := ⟨rfl, rfl, rfl⟩
      granuleSection := ?_
      spans := ?_
      termSection := hterms
      dictionary := ?_
      postingSection := hpostings
      decoded := ?_ }
  · rw [writtenManifest, hgranulesEq]
    exact hgranules
  · intro granule hgranule
    rw [hbuilt.granules] at hgranule
    obtain ⟨position, hposition⟩ := List.mem_iff_getElem?.mp hgranule
    rw [hbuilt.size]
    exact (placedGranule hbuilt.layout hposition).validates hbuilt.layout.size_lt
  · change validateFileTermDictionary env _ file.postingBytes.length .compactV2 _ = _
    rw [hextent, hcount]
    exact validateFileTermDictionary_restoredTerms hmap fun pair hpair =>
      (keyInText hbuilt.layout hmode hbuilt.indexes hpair).length
  · rw [hbuilt.postings]
    apply validateDecodedPostings_restoredTerms hword
    · exact fun pair hpair => (hmap.lists pair hpair).2.2
    · rw [hcount]
      exact fun pair hpair => (keyInText hbuilt.layout hmode hbuilt.indexes hpair).inside

omit hfile in
/-- The restored index is the one that was built. -/
theorem restoreIndex_of_built :
    restoreIndex (writtenManifest env details footerChecksum (kind.parts built) file) built.1
      (restoredTerms env 0 map) built.2.2 opener = .ok (kind.index details built) := by
  obtain ⟨hsized, hreconstruction⟩ := hcover.sized
  have hkeys := hcover.terms
  have hencodedBytes := hsized.maxEncodedBytes
  have hencoded := @encodeParts_restoredTerms env map 0 details.chunkEntries kind.keys text
    hbuilt.layout hbuilt.indexes limits opener.reconstructionLimits hsized hreconstruction
    hcover.granules hcover.keys hcover.postingIds (show _ ≤ opener.maxTermsSize by omega)
    (show _ ≤ 2 ^ 64 - 1 by omega) kind.withSkips built.2.1 hbuilt.encoded
  rw [← hbuilt.granules, ← hbuilt.postings, ← hbuilt.size] at hencoded
  cases kind with
  | token =>
    change encodeParts _ _ _ _ _ false = _ at hencoded
    change (RawTokenIndex.fromParts _ details.summary.originalSize _ _ _ _ >>= _) = _
    rw [RawTokenIndex.fromParts_eq, hencoded]
    rfl
  | ngram n =>
    have hn : n ≠ 0 := by
      rintro rfl
      exact hkind rfl
    change encodeParts _ _ _ _ _ true = _ at hencoded
    change (RawNgramIndex.fromParts _ details.summary.originalSize _ _ _ _ >>= _) = _
    rw [RawNgramIndex.fromParts_eq _ _ _ _ _ hn]
    dsimp only
    rw [hencoded]
    rfl

end Sections

/-! ## The openers -/

section Build

variable {env : Env} {bytes : List UInt8} {details : SkeletonDetails} {kind : SidecarIndexKind}
  {options : SidecarBuildOptions} {opener : SidecarLimits}

/-- What a build writes passes every check of an opener whose limits cover those of the build. -/
theorem follows_of_build (served : FaithfulSource bytes)
    (hopen : openSkeletonDetails env bytes = .ok details) (hcover : opener.Cover options.limits)
    {sidecarBytes : List UInt8}
    (h : buildSearchSidecarFromFileWithOptions env (served.fileReader details) kind options =
      .ok sidecarBytes) :
    ∃ (parts : OpenedParts) (sidecar : QziSidecar), sidecarBytes = parts.file.bytes ∧
      parts.details = details ∧ parts.file.bytes.length < 2 ^ 64 ∧
      parts.Follows env bytes opener sidecar ∧
      kind.buildIndex env (served.fileReader details) options = .ok sidecar.index := by
  rw [buildSearchSidecarFromFileWithOptions_eq] at h
  obtain ⟨checksum, hchecksum, h⟩ := bind_eq_ok_iff.mp h
  obtain ⟨built, hparts, h⟩ := bind_eq_ok_iff.mp h
  obtain ⟨_, -, hassemble⟩ := bind_eq_ok_iff.mp h
  have hkind := ne_of_buildParts hparts
  rw [buildParts_eq _ _ hkind] at hparts
  obtain ⟨built, hbuild, hparts⟩ := bind_eq_ok_iff.mp hparts
  obtain rfl := Except.ok.inj hparts
  obtain ⟨text, map, hbuilt⟩ := builtOver_of_buildEncoded served hopen hbuild
  obtain ⟨file, rfl, hfile⟩ := writtenFile_of_assembleSidecar hassemble
  have hsource : details.metadata.originalChecksum.algorithm = checksumAlgorithmBlake3 := by
    obtain ⟨parts, hfollows, rfl⟩ := SkeletonParts.follows_of_open hopen
    exact originalChecksum_algorithm hfollows
  have hfooter : checksum.algorithm = checksumAlgorithmBlake3 := by
    obtain ⟨other, hother, halgorithm⟩ := footerChecksum_eq served hopen
    rwa [Except.ok.inj (hchecksum.symm.trans hother)]
  obtain ⟨-, hmanifestSize⟩ :=
    decodeManifest_of_built hbuilt hcover hfile hsource hfooter
  refine ⟨⟨file, details, checksum, built.1, restoredTerms env 0 map, built.2.2⟩,
    ⟨writtenManifest env details checksum (kind.parts built) file, kind.index details built⟩,
    rfl, rfl, hfile.word, ?_, ?_⟩
  · exact
      { details := hopen
        footerChecksum := (qztFooterChecksum_iff served).mpr hchecksum
        source := by
          simp only [checkSource, bind_eq_ok_iff, rejectIf_eq_ok_iff, ne_eq, not_not]
          exact ⟨⟨⟩, rfl, rfl⟩
        sourceFooter := by
          simp only [checkSourceFooter, bind_eq_ok_iff, rejectIf_eq_ok_iff, ne_eq, not_not]
          exact ⟨⟨⟩, rfl, rfl⟩
        manifestSize := hmanifestSize
        resources := resources_of_built hbuilt hcover hkind hfile
        sections := sectionsRead_of_built hbuilt hcover hkind hfile hsource hfooter
        index := restoreIndex_of_built hbuilt hcover hkind }
  · rw [SidecarIndexKind.buildIndex_eq _ _ hkind, hbuild]
    rfl

/-- Build, then open.  For every container that opens with the default limits and every kind of
index, the sidecar that a build with the default options returns opens for the container, in
memory and behind every source of its bytes, and the index that is restored is the one that is
built from the container. -/
theorem buildThenOpen_lossless {reader : QztFileReader} (served : FaithfulSource bytes)
    (hopen : QztFileReader.openReadAt env served.source served.len = .ok reader)
    (kind : SidecarIndexKind) {sidecarBytes : List UInt8}
    (h : buildSearchSidecarFromFile env reader kind = .ok sidecarBytes) :
    ∃ sidecar, QziSidecar.open env bytes sidecarBytes = .ok sidecar ∧
      kind.buildIndex env reader {} = .ok sidecar.index ∧
      ∀ sidecarSource : FaithfulSource sidecarBytes, ∃ fileSidecar,
        QziFileSidecar.openReadAt env sidecarSource.source sidecarSource.len reader =
          .ok fileSidecar := by
  rw [QztFileReader.openReadAt, QztFileReader.openReadAtWithLimits,
    served.openSkeletonDetailsReadAt_eq] at hopen
  obtain ⟨details, hdetails, hreader⟩ := bind_eq_ok_iff.mp hopen
  obtain rfl : served.fileReader details = reader := Except.ok.inj hreader
  obtain ⟨parts, sidecar, rfl, rfl, hword, hfollows, hindex⟩ :=
    follows_of_build served hdetails cover_default h
  refine ⟨sidecar, hfollows.opens hword, hindex, ?_⟩
  intro sidecarSource
  refine ⟨parts.fileSidecar sidecar sidecarSource.source .default, ?_⟩
  exact hfollows.opensAt served ⟨rfl, rfl, rfl, rfl⟩ sidecarSource

end Build

set_option maxRecDepth 100000 in
theorem tokenSidecar_staleContainer :
    staleContainer.length < 2 ^ 64 ∧ (tokenSidecar staleContainer).isOk = true := by
  decide +kernel

/-- The token sidecar of three lines. -/
theorem buildThenOpen_lossless_staleContainer : ∃ reader sidecarBytes sidecar,
    QztFileReader.openReadAt Reference.env (memorySource staleContainer) staleContainer.length =
      .ok reader ∧
    buildSearchSidecarFromFile Reference.env reader .token = .ok sidecarBytes ∧
    QziSidecar.open Reference.env staleContainer sidecarBytes = .ok sidecar ∧
    SidecarIndexKind.token.buildIndex Reference.env reader {} = .ok sidecar.index := by
  obtain ⟨hlt, hok⟩ := tokenSidecar_staleContainer
  cases hrun : tokenSidecar staleContainer with
  | error e =>
    rw [hrun] at hok
    cases hok
  | ok sidecarBytes =>
    rw [tokenSidecar] at hrun
    obtain ⟨reader, hreader, hbuild⟩ := bind_eq_ok_iff.mp hrun
    obtain ⟨sidecar, hsidecar, hindex, -⟩ :=
      buildThenOpen_lossless (servedInMemory staleContainer hlt) hreader .token hbuild
    exact ⟨reader, sidecarBytes, sidecar, hreader, hbuild, hsidecar, hindex⟩

end Qzt.Sidecar
