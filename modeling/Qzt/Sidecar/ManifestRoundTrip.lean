import Qzt.Container.SchemaRoundTrips
import Qzt.Sidecar.ManifestLaws

/-!
# The manifest is read back

A manifest of the current format is decoded from its own encoding.  It is small, so the
default limits of the CBOR parser admit it whatever it says.
-/

namespace Qzt.Sidecar

open Foundation

section Manifest

variable {manifest : SidecarManifest} {keys : List String} {entries map : CborMap}

/-- The nested maps of a manifest end with the checksums of its sections. -/
theorem depth_manifestEntries (manifest : SidecarManifest) :
    (CborValue.map (manifestEntries manifest)).depth ≤ maxNestingDepth := by
  have hngram : (ngramNValue manifest.ngramN).depth = 0 := by
    cases manifest.ngramN <;> rfl
  simp only [manifestEntries, indexManifestEntries, sectionEntries, sectionRefValue, textPair,
    checksumValue, CborValue.depth, depthEntries, depthValues, hngram]
  decide

theorem withinDefaults_manifestEntries (h : manifest.Sized) :
    (CborValue.map (manifestEntries manifest)).WithinDefaults := by
  have hsmall := (small_manifestEntries h.by (Nat.le_refl 32) (by decide)).size
  have hdepth := depth_manifestEntries manifest
  have hitems := usage_items_le (.map (manifestEntries manifest))
  have hallocation := usage_allocation_le (.map (manifestEntries manifest))
  have hmost : ((CborValue.map (manifestEntries manifest)).depth + 1) *
      (CborValue.map (manifestEntries manifest)).usage.encodedBytes ≤ 65 * 33094 :=
    Nat.mul_le_mul (Nat.succ_le_succ hdepth) hsmall
  refine ⟨?_, ?_⟩
  · change _ ≤ 1000000
    omega
  · change _ ≤ 16 * 1024 * 1024
    omega

/-! ## Fields -/

theorem readMap_sectionRefFrom (h : ReadMap keys entries map) {key : String}
    {sectionRef : SectionRef} (hmem : textPair key (sectionRefValue sectionRef) ∈ entries)
    (hsized : sectionRef.Sized) : sectionRefFrom map key = .ok sectionRef := by
  obtain ⟨value, hfield, hsame⟩ := @ReadMap.field _ _ _ _ .containerCorrupt h _ hmem
  obtain ⟨read, rfl, hread⟩ := @Same.readMap ["offset", "size", "checksum"] _ _ hsame rfl (by decide)
  rw [sectionRefFrom, hfield, ok_bind, asMap, ok_bind,
    hread.requiredU64WithOverflow sectionRef.offset (by simp [u64Value]), ok_bind,
    hread.requiredU64WithOverflow sectionRef.size (by simp [u64Value]), ok_bind,
    hread.requiredChecksum sectionRef.checksum (by simp) hsized.checksum, ok_bind]
  rfl

theorem readMap_ngramNFrom (h : ReadMap keys entries map) {ngramN : Option Nat}
    (hmem : textPair "ngram_n" (ngramNValue ngramN) ∈ entries) : ngramNFrom map = .ok ngramN := by
  obtain ⟨value, hfield, hsame⟩ := @ReadMap.field _ _ _ _ .containerCorrupt h _ hmem
  cases ngramN with
  | none =>
    obtain rfl := hsame
    rw [ngramNFrom, hfield]
    rfl
  | some n =>
    obtain ⟨rfl, hlt⟩ := hsame
    rw [ngramNFrom, hfield, ok_bind]
    dsimp only
    rw [if_pos (by omega), if_pos (by omega), Int.toNat_natCast]

theorem readMap_expectSourceFormatVersion (h : ReadMap keys entries map)
    (hmem : textPair "source_format_version" (.array [.integer 0, .integer 1]) ∈ entries) :
    expectSourceFormatVersion map = .ok ⟨⟩ := by
  obtain ⟨_, hfield, reads, rfl, hsame⟩ := @ReadMap.field _ _ _ _ .containerCorrupt h _ hmem
  obtain ⟨_, _, rfl, ⟨rfl, -⟩, _, _, rfl, ⟨rfl, -⟩, rfl⟩ := hsame
  rw [expectSourceFormatVersion, hfield]
  rfl

theorem readMap_encodingsFrom (h : ReadMap keys entries map) {encoding : GranuleEncoding}
    (hgranule : textPair "granule_encoding" (.text encoding.manifestName) ∈ entries)
    (hterm : textPair "term_encoding" (.text TermEncoding.compactV2.manifestName) ∈ entries) :
    encodingsFrom map .v2 = .ok (encoding, .compactV2) := by
  obtain ⟨_, hfindGranule, rfl⟩ := h.lookup hgranule
  obtain ⟨_, hfindTerm, rfl⟩ := h.lookup hterm
  rw [encodingsFrom, hfindGranule, hfindTerm]
  cases encoding <;> rfl

/-! ## The manifest -/

/-- A manifest of the current format that the default limits cover is encoded, and decoded from
its encoding. -/
theorem decodeManifest_of_withinDefaults (hwords : manifest.InWords) (h : manifest.Blake3)
    (hversion : manifest.formatVersion = .v2) (hterms : manifest.termEncoding = .compactV2)
    (hlimits : (CborValue.map (manifestEntries manifest)).WithinDefaults) :
    ∃ bytes, encodeManifest manifest = .ok bytes ∧ decodeManifest bytes = .ok manifest := by
  obtain ⟨bytes, hencoded, hvalid⟩ := hlimits.validates (encodable_manifestEntries hwords h)
    (depth_manifestEntries manifest)
  refine ⟨bytes, hencoded, ?_⟩
  have hsized := manifest.sizedBy hwords h (Nat.le_refl _)
  have hsame := validateDeterministicWithLimits_same hencoded hvalid
  obtain ⟨map, hmap, hread⟩ := @Same.readMap manifestKeys _ _ hsame rfl (by decide)
  -- The nested maps.
  obtain ⟨indexValue, hindexField, hindexSame⟩ :=
    @ReadMap.field _ _ _ _ .containerCorrupt hread (.map (indexManifestEntries manifest))
      (show textPair "index_manifest" _ ∈ _ by simp [manifestEntries])
  obtain ⟨indexMap, rfl, hindex⟩ := @Same.readMap indexManifestKeys _ _ hindexSame rfl (by decide)
  obtain ⟨sectionsValue, hsectionsField, hsectionsSame⟩ :=
    @ReadMap.field _ _ _ _ .containerCorrupt hread (.map (sectionEntries manifest))
      (show textPair "sections" _ ∈ _ by simp [manifestEntries])
  obtain ⟨sectionsMap, rfl, hsections⟩ := @Same.readMap sectionKeys _ _ hsectionsSame rfl (by decide)
  have hschema : formatVersionFrom map = .ok manifest.formatVersion := by
    rw [formatVersionFrom, hread.requiredText manifest.formatVersion.schemaName
      (by simp [manifestEntries]), ok_bind, hversion]
    rfl
  have hencodings : encodingsFrom map manifest.formatVersion =
      .ok (manifest.granuleEncoding, manifest.termEncoding) := by
    rw [hversion, hterms]
    exact readMap_encodingsFrom hread (by simp [manifestEntries])
      (by simp [manifestEntries, hterms])
  rw [decodeManifest, hvalid, ok_bind, hmap, asMap, ok_bind, hschema, ok_bind,
    readMap_expectSourceFormatVersion hread (by simp [manifestEntries]), ok_bind, requiredBstr16,
    hread.requiredBstr manifest.sourceContainerId (by simp [manifestEntries]), ok_bind,
    hread.requiredChecksum manifest.sourceOriginalChecksum (by simp [manifestEntries])
      hsized.sourceOriginalChecksum, ok_bind,
    hread.requiredChecksum manifest.sourceQztFooterChecksum (by simp [manifestEntries])
      hsized.sourceQztFooterChecksum, ok_bind,
    hread.requiredText manifest.indexType (by simp [manifestEntries]), ok_bind,
    @readMap_ngramNFrom _ _ _ hread manifest.ngramN (by simp [manifestEntries]), ok_bind,
    hread.requiredBool manifest.complete (by simp [manifestEntries]), ok_bind,
    hread.requiredU64WithOverflow manifest.highDfPerMillion (by simp [manifestEntries, u64Value]),
    ok_bind, rejectIf_of_not (Nat.not_le.mpr hwords.highDfPerMillion), ok_bind, hencodings, ok_bind]
  dsimp only
  rw [hindexField, ok_bind, asMap, ok_bind,
    hindex.requiredText "qzt.search-index.v1" (by simp [indexManifestEntries]), ok_bind,
    rejectIf_of_not (not_not_intro rfl), ok_bind,
    hindex.requiredText manifest.indexType (by simp [indexManifestEntries]), ok_bind,
    rejectIf_of_not (not_not_intro rfl), ok_bind,
    hindex.requiredText "line" (by simp [indexManifestEntries]), ok_bind,
    rejectIf_of_not (not_not_intro rfl), ok_bind,
    hindex.requiredU64WithOverflow manifest.indexSizeBytes
      (by simp [indexManifestEntries, u64Value]), ok_bind,
    hindex.requiredU64WithOverflow manifest.sourceSizeBytes
      (by simp [indexManifestEntries, u64Value]), ok_bind,
    hsectionsField, ok_bind, asMap, ok_bind,
    readMap_sectionRefFrom hsections (by simp [sectionEntries]) hsized.granules, ok_bind,
    readMap_sectionRefFrom hsections (by simp [sectionEntries]) hsized.terms, ok_bind,
    readMap_sectionRefFrom hsections (by simp [sectionEntries]) hsized.postings, ok_bind]
  rfl

/-- A manifest of the current format is decoded from its encoding. -/
theorem decodeManifest_encodeManifest (h : manifest.Sized) (hversion : manifest.formatVersion = .v2)
    (hterms : manifest.termEncoding = .compactV2) (hhigh : manifest.highDfPerMillion < 2 ^ 32)
    {bytes : List UInt8} (hencode : encodeManifest manifest = .ok bytes) :
    decodeManifest bytes = .ok manifest := by
  have hwords : manifest.InWords := by
    refine ⟨Nat.lt_of_le_of_lt h.indexType (by decide), h.ngramN, hhigh, h.indexSizeBytes,
      h.sourceSizeBytes, ?_⟩
    simp only [List.forall_mem_cons, List.not_mem_nil, false_implies, implies_true, and_true]
    exact ⟨⟨h.granules.offset, h.granules.size⟩, ⟨h.terms.offset, h.terms.size⟩,
      ⟨h.postings.offset, h.postings.size⟩⟩
  have hblake3 : manifest.Blake3 := by
    simp only [SidecarManifest.Blake3, SidecarManifest.checksums, List.forall_mem_cons,
      List.not_mem_nil, false_implies, implies_true, and_true]
    exact ⟨h.sourceOriginalChecksum, h.sourceQztFooterChecksum, h.granules.checksum,
      h.terms.checksum, h.postings.checksum⟩
  obtain ⟨encoded, hencoded, hdecoded⟩ := decodeManifest_of_withinDefaults hwords hblake3 hversion
    hterms (withinDefaults_manifestEntries h)
  rw [hencode, Except.ok.injEq] at hencoded
  rwa [hencoded]

/-! ## Only such manifests are decoded -/

theorem algorithm_of_sectionRefFrom {key : String} {sectionRef : SectionRef}
    (h : sectionRefFrom map key = .ok sectionRef) :
    sectionRef.checksum.algorithm = checksumAlgorithmBlake3 := by
  simp only [sectionRefFrom, bind_eq_ok_iff, pure_eq_ok, Except.ok.injEq] at h
  obtain ⟨_, -, _, -, _, -, _, -, checksum, hchecksum, rfl⟩ := h
  exact algorithm_of_requiredChecksum hchecksum

/-- The checksums of a decoded manifest are BLAKE3 checksums. -/
theorem blake3_of_decodeManifest {bytes : List UInt8} (h : decodeManifest bytes = .ok manifest) :
    manifest.Blake3 := by
  simp only [decodeManifest, bind_eq_ok_iff, Prod.exists, pure_eq_ok, Except.ok.injEq] at h
  obtain ⟨_, -, _, -, _, -, _, -, _, -, original, horiginal, footer, hfooter, _, -, _, -, _, -, _, -,
    _, -, _, _, -, _, -, _, -, _, -, _, -, _, -, _, -, _, -, _, -, _, -, _, -, _, -, _, -, granules,
    hgranules, terms, hterms, postings, hpostings, rfl⟩ := h
  simp only [SidecarManifest.Blake3, SidecarManifest.checksums, List.forall_mem_cons,
    List.not_mem_nil, false_implies, implies_true, and_true]
  exact ⟨algorithm_of_requiredChecksum horiginal, algorithm_of_requiredChecksum hfooter,
    algorithm_of_sectionRefFrom hgranules, algorithm_of_sectionRefFrom hterms,
    algorithm_of_sectionRefFrom hpostings⟩

/-- The default limits cover a manifest that is decoded from its encoding. -/
theorem withinDefaults_of_decodeManifest (hwords : manifest.InWords) (h : manifest.Blake3)
    {bytes : List UInt8} (hencode : encodeManifest manifest = .ok bytes)
    (hword : bytes.length < 2 ^ 64) {found : SidecarManifest}
    (hdecode : decodeManifest bytes = .ok found) :
    (CborValue.map (manifestEntries manifest)).WithinDefaults := by
  have htrips := (encodable_manifestEntries hwords h).roundTrips
  obtain ⟨value, hvalid, -⟩ := bind_eq_ok_iff.mp hdecode
  rw [encodeManifest_entries, encodeDeterministic] at hencode
  rw [← encodedForm_eq hencode] at hword hvalid
  obtain ⟨hitems, hallocation⟩ :=
    htrips.usage_le_of_validates (depth_manifestEntries manifest) hword hvalid
  exact ⟨hitems, hallocation⟩

/-- The default limits bound the index type. -/
theorem indexType_le_of_withinDefaults
    (h : (CborValue.map (manifestEntries manifest)).WithinDefaults) :
    (textBytes manifest.indexType).length ≤ 16 * 1024 * 1024 := by
  have hmem : textPair "index_type" (.text manifest.indexType) ∈ manifestEntries manifest := by
    simp [manifestEntries]
  exact Nat.le_trans (allocation_le_of_mem_map hmem) h.allocation

end Manifest

end Qzt.Sidecar
