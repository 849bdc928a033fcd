import Qzt.Sidecar.Admission

/-!
# The size calculators agree

The size of an index is computed three times: by the encoders that write the sections, by
`check_build_section_size` before anything is written, and by `index_size_bytes` for the
metrics of a search.  On every index that the line builder produces they return one total,
and it is the size that the manifest states.
-/

namespace Qzt.Sidecar

open Foundation

/-! ## Saturating sums -/

theorem saturatingAdd_of_lt {a b : Nat} (h : a + b < 2 ^ 64) : saturatingAdd a b = a + b :=
  Nat.min_eq_left (by omega)

theorem saturatingMul_of_lt {a b : Nat} (h : a * b < 2 ^ 64) : saturatingMul a b = a * b :=
  Nat.min_eq_left (by omega)

/-- The term amounts of `index_size_bytes` do not saturate where their sum is a word. -/
theorem saturating_recordCost {terms : List TermDictionaryEntry}
    (h : (terms.map recordCost).sum < 2 ^ 64) :
    (terms.map fun term =>
      saturatingAdd (saturatingAdd (saturatingAdd term.key.length (varuintLen term.key.length))
        (varuintLen term.granuleFrequency)) (varuintLen term.postingSize)).sum =
      (terms.map recordCost).sum := by
  induction terms with
  | nil => rfl
  | cons term terms ih =>
    rw [List.map_cons, List.sum_cons] at h
    have hcost : recordCost term = term.key.length + varuintLen term.key.length +
        varuintLen term.granuleFrequency + varuintLen term.postingSize := rfl
    have hkey := @saturatingAdd_of_lt term.key.length (varuintLen term.key.length) (by omega)
    rw [List.map_cons, List.sum_cons, ih (by omega), List.map_cons, List.sum_cons, hkey]
    have hfrequency := @saturatingAdd_of_lt (term.key.length + varuintLen term.key.length)
      (varuintLen term.granuleFrequency) (by omega)
    rw [hfrequency, saturatingAdd_of_lt (by omega), hcost]

/-- The record length of the metric is that of the encoding. -/
theorem serializedGranuleBytes_eq {granules : List SearchGranule}
    (h : granules.length * (granuleEncodingOf granules).recordLen + 8 < 2 ^ 64) :
    serializedGranuleBytes granules =
      granules.length * (granuleEncodingOf granules).recordLen + 8 := by
  have hrecord : (if compactLineGranulesSupported 0 granules then 20 else 56) =
      (granuleEncodingOf granules).recordLen := by
    unfold granuleEncodingOf
    split <;> rfl
  rw [serializedGranuleBytes, hrecord, saturatingMul_of_lt (by omega),
    saturatingAdd_of_lt (by omega), Nat.add_comm]

/-! ## One total -/

/-- The encoders, the check before them and the metric of a search agree on `total`. -/
structure SizesAgree (granules : List SearchGranule) (terms : List TermDictionaryEntry)
    (postings : List (List Nat)) (encodedPostings : List (List UInt8)) (total : Nat) : Prop where
  sections : ∃ granuleBytes termBytes postingBytes,
    encodeGranules granules (granuleEncodingOf granules) = .ok granuleBytes ∧
    encodeTerms terms .compactV2 = .ok termBytes ∧
    encodePostingSection postings = .ok postingBytes ∧
    granuleBytes.length + termBytes.length + postingBytes.length = total
  check : ∀ limit < 2 ^ 64,
    checkBuildSectionSize granules terms postings (granuleEncodingOf granules) limit =
      if total ≤ limit then .ok ⟨⟩ else .error .resourceLimitExceeded
  metric : total < 2 ^ 64 → indexSizeBytes granules terms encodedPostings = total

section Built

variable {env : Env} {entries : List ChunkEntry} {text : List UInt8} {limits : IndexBuildLimits}
  {keys : BuildKeys} {built : List SearchGranule × EncodedPostingLists × List (List Nat)}
  {map : PostingMap}

/-- The terms of an index are few enough, and their keys short enough, to be counted. -/
theorem terms_of_built (hsized : limits.Sized)
    (h : BuiltFrom env entries keys text limits built map) :
    built.2.1.terms.length < 2 ^ 64 ∧ ∀ term ∈ built.2.1.terms, term.key.length < 2 ^ 64 := by
  have hkeys := h.written.keys
  rw [List.map_map] at hkeys
  constructor
  · have hlength := congrArg List.length hkeys
    have hcount := h.termCount
    have hword := hsized.maxDistinctKeys
    rw [List.length_map, List.length_map] at hlength
    omega
  · intro term hterm
    have hmem : term.key ∈ map.map Prod.fst := by
      have hkey := List.mem_map_of_mem hterm (f := TermDictionaryEntry.key)
      rwa [hkeys] at hkey
    obtain ⟨pair, hpair, hkey⟩ := List.mem_map.mp hmem
    have hle : pair.1.length ≤ (map.map fun pair => pair.1.length).sum :=
      List.single_le_sum (fun _ _ => Nat.zero_le _) _ (List.mem_map_of_mem hpair)
    have hbytes := h.keyBytes
    have hword := hsized.maxKeyBytes
    rw [← hkey]
    omega

/-- The calculators agree on what the line builder returns. -/
theorem sizesAgree_of_built (hlayout : Layout entries text.length) (hsized : limits.Sized)
    (h : BuiltFrom env entries keys text limits built map) :
    SizesAgree built.1 built.2.1.terms built.2.2 built.2.1.postings
      (sectionsSize entries keys text) := by
  have htotal := size_of_built h
  have hincreases := increases_of_built hlayout h
  rw [sum_termCost (length_of_built h)] at htotal
  refine ⟨?_, ?_, ?_⟩
  · obtain ⟨hcount, hkeys⟩ := terms_of_built hsized h
    obtain ⟨granuleBytes, hgranules, hgranulesLength⟩ :=
      encodeGranules_eq (granuleEncodingOf_fits (spans_of_built h)) (count_of_built hlayout h)
    obtain ⟨termBytes, hterms, htermsLength⟩ := encodeTerms_eq hcount hkeys
    obtain ⟨postingBytes, hpostings, hpostingsLength⟩ := encodePostingSection_eq hincreases
    refine ⟨granuleBytes, termBytes, postingBytes, hgranules, hterms, hpostings, ?_⟩
    omega
  · intro limit hlimit
    have hiff := @checkBuildSectionSize_eq_ok_iff limit built.1 built.2.1.terms built.2.2
      (granuleEncodingOf built.1) hincreases hlimit ⟨⟩
    rw [size_of_built h] at hiff
    split
    · rename_i hle
      exact hiff.mpr hle
    · rename_i hgt
      exact (failsOnlyWith_checkBuildSectionSize hincreases).eq_error fun u hok => hgt (hiff.mp hok)
  · intro hword
    have hencoded : (built.2.1.postings.map List.length).sum =
        (built.2.2.map fun list => (postingBytes list).length).sum := by
      rw [h.encoded, h.postings, List.map_map]
      rfl
    rw [indexSizeBytes, serializedGranuleBytes_eq (by omega), saturating_recordCost (by omega),
      hencoded]
    have hterms := @saturatingAdd_of_lt 8 (built.2.1.terms.map recordCost).sum (by omega)
    have hfront := @saturatingAdd_of_lt (built.1.length * (granuleEncodingOf built.1).recordLen + 8)
      (8 + (built.2.1.terms.map recordCost).sum) (by omega)
    rw [hterms, hfront, saturatingAdd_of_lt (by omega)]
    omega

end Built

/-! ## The metric of a search -/

section Metric

variable {details : SkeletonDetails} {query : String} {options : SearchOptions}
  {readRangeCached : RangeRead} {report : SearchReport}

/-- The end of a search keeps the index size that it was given. -/
theorem searchCandidates_indexSizeBytes {granules : List SearchGranule} {complete : Bool}
    {lists : List (List Nat)} {spansFor : SpanMatcher} {tokenBoundaries : Bool}
    {metrics : SearchMetrics} {planner : PlannerDecision}
    (h : searchCandidates granules complete details lists spansFor tokenBoundaries readRangeCached
      metrics planner options = .ok report) :
    report.metrics.indexSizeBytes = metrics.indexSizeBytes := by
  rw [searchCandidates] at h
  obtain ⟨candidates, -, h⟩ := bind_eq_ok_iff.mp h
  obtain ⟨candidateGranules, -, h⟩ := bind_eq_ok_iff.mp h
  obtain ⟨candidateChunks, -, h⟩ := bind_eq_ok_iff.mp h
  dsimp only at h
  split at h
  · cases h
    rfl
  · split at h
    · cases h
      rfl
    · obtain ⟨verification, -, h⟩ := bind_eq_ok_iff.mp h
      obtain ⟨verifiedMatches, -, h⟩ := bind_eq_ok_iff.mp h
      cases h
      rfl

theorem RawTokenIndex.searchImpl_indexSizeBytes {index : RawTokenIndex}
    (h : index.searchImpl details query options readRangeCached = .ok report) :
    report.metrics.indexSizeBytes =
      indexSizeBytes index.granules index.terms index.encodedPostings := by
  rw [RawTokenIndex.searchImpl] at h
  obtain ⟨queryKeys, -, h⟩ := bind_eq_ok_iff.mp h
  obtain ⟨termLookups, -, h⟩ := bind_eq_ok_iff.mp h
  dsimp only at h
  split at h
  · cases h
    rfl
  · obtain ⟨found, -, h⟩ := bind_eq_ok_iff.mp h
    split at h
    · cases h
      rfl
    · obtain ⟨_, -, h⟩ := bind_eq_ok_iff.mp h
      exact searchCandidates_indexSizeBytes h

theorem RawNgramIndex.searchImpl_indexSizeBytes {index : RawNgramIndex}
    (h : index.searchImpl details query options readRangeCached = .ok report) :
    report.metrics.indexSizeBytes =
      indexSizeBytes index.granules index.terms index.encodedPostings := by
  rw [RawNgramIndex.searchImpl] at h
  obtain ⟨queryKeys, -, h⟩ := bind_eq_ok_iff.mp h
  obtain ⟨termLookups, -, h⟩ := bind_eq_ok_iff.mp h
  dsimp only at h
  split at h
  · cases h
    rfl
  · obtain ⟨found, -, h⟩ := bind_eq_ok_iff.mp h
    split at h
    · cases h
      rfl
    · obtain ⟨postingBytesRead, -, h⟩ := bind_eq_ok_iff.mp h
      obtain ⟨_, -, h⟩ := bind_eq_ok_iff.mp h
      exact searchCandidates_indexSizeBytes h

end Metric

/-! ## The manifest -/

/-- The bytes of a sidecar begin with the encoding of the manifest. -/
def CarriesManifest (sidecar : List UInt8) (manifest : SidecarManifest) : Prop :=
  ∃ manifestBytes sections, encodeManifest manifest = .ok manifestBytes ∧
    sidecar = sidecarMagic ++ leBytes 8 manifestBytes.length ++ manifestBytes ++ sections

/-- The manifest that is written states the sum of the sections. -/
theorem assembleSidecar_states {env : Env} {details : SkeletonDetails} {footerChecksum : Checksum}
    {parts : SidecarParts} {encodedPostings : List (List UInt8)} {total : Nat}
    (hagree : SizesAgree parts.granules parts.terms parts.postings encodedPostings total)
    {sidecar : List UInt8}
    (h : assembleSidecar env details footerChecksum parts (granuleEncodingOf parts.granules) =
      .ok sidecar) :
    total < 2 ^ 64 ∧ ∃ manifest, CarriesManifest sidecar manifest ∧
      manifest.indexSizeBytes = total := by
  obtain ⟨granuleBytes, termBytes, postingBytes, hgranules, hterms, hpostings, rfl⟩ :=
    hagree.sections
  rw [assembleSidecar, hgranules, ok_bind, hpostings, ok_bind, hterms, ok_bind] at h
  obtain ⟨termsOffset, htermsOffset, h⟩ := bind_eq_ok_iff.mp h
  obtain ⟨termsSize, htermsSize, h⟩ := bind_eq_ok_iff.mp h
  obtain ⟨postingsOffset, hpostingsOffset, h⟩ := bind_eq_ok_iff.mp h
  obtain ⟨postingsSize, hpostingsSize, h⟩ := bind_eq_ok_iff.mp h
  obtain ⟨indexSizeBytes, hsize, h⟩ := bind_eq_ok_iff.mp h
  obtain ⟨manifestBytes, hmanifest, h⟩ := bind_eq_ok_iff.mp h
  iterate 4 obtain ⟨_, -, h⟩ := bind_eq_ok_iff.mp h
  obtain ⟨manifestSize, hmanifestSize, h⟩ := bind_eq_ok_iff.mp h
  cases h
  obtain ⟨-, rfl⟩ := usizeToU64_eq_ok_iff.mp htermsOffset
  obtain ⟨-, rfl⟩ := usizeToU64_eq_ok_iff.mp htermsSize
  obtain ⟨-, rfl⟩ := usizeToU64_eq_ok_iff.mp hpostingsSize
  obtain ⟨-, rfl⟩ := usizeToU64_eq_ok_iff.mp hmanifestSize
  rw [okOr_eq_ok_iff, checkedAdd_eq_some_iff] at hpostingsOffset hsize
  obtain ⟨-, rfl⟩ := hpostingsOffset
  obtain ⟨hword, rfl⟩ := hsize
  refine ⟨hword, _, ⟨manifestBytes, granuleBytes ++ termBytes ++ postingBytes, hmanifest, ?_⟩, rfl⟩
  simp only [List.append_assoc]

/-! ## The indexes -/

section Indexes

variable {env : Env} {bytes : List UInt8} {limits : ResourceLimits} {reader : QztFileReader}

/-- What an index and the sidecar of the same options say about their size. -/
structure IndexSizes (env : Env) (reader : QztFileReader) (kind : SidecarIndexKind)
    (options : SidecarBuildOptions) (granules : List SearchGranule)
    (terms : List TermDictionaryEntry) (postings : List (List Nat))
    (encodedPostings : List (List UInt8)) (total : Nat) : Prop where
  agree : SizesAgree granules terms postings encodedPostings total
  manifest : ∀ sidecar,
    buildSearchSidecarFromFileWithOptions env reader kind options = .ok sidecar →
      total < 2 ^ 64 ∧ ∃ manifest, CarriesManifest sidecar manifest ∧
        manifest.indexSizeBytes = total

/-- An index that the encoder was handed, over an opened container. -/
theorem indexSizes_of_built (served : FaithfulSource bytes) {details : SkeletonDetails}
    (hopen : openSkeletonDetailsWithLimits env bytes limits = .ok details)
    {kind : SidecarIndexKind} (hkind : kind ≠ .ngram 0) {options : SidecarBuildOptions}
    (hsized : options.limits.Sized)
    {built : List SearchGranule × EncodedPostingLists × List (List Nat)}
    (hbuilt : buildEncoded env details.chunkEntries details.summary.originalSize
      options.maxLineBytes options.limits ((served.fileReader details).decodeEntry env) kind.keys
      kind.withSkips = .ok built) :
    ∃ total, IndexSizes env (served.fileReader details) kind options built.1 built.2.1.terms
      built.2.2 built.2.1.postings total := by
  have hcuts := cutsInto_of_open served hopen
  have hsize : details.summary.originalSize =
      (originalText ((served.fileReader details).decodeEntry env) details.chunkEntries).length :=
    (openSkeletonDetailsWithLimits_opened hopen).layout.total.symm.trans hcuts.layout.total
  obtain ⟨checksum, -, hsidecar⟩ := buildSearchSidecar_steps served hopen hkind options
  rw [hbuilt, ok_bind] at hsidecar
  rw [hsize] at hbuilt
  obtain ⟨map, hfrom⟩ := builtFrom_of_buildEncoded hcuts hsized hbuilt
  have hagree := sizesAgree_of_built hcuts.layout hsized hfrom
  obtain ⟨hgranules, hterms, hpostings⟩ := kind.parts_sections built
  refine ⟨_, hagree, ?_⟩
  intro sidecar hok
  rw [hsidecar] at hok
  obtain ⟨_, -, hassemble⟩ := bind_eq_ok_iff.mp hok
  have hparts : SizesAgree (kind.parts built).granules (kind.parts built).terms
      (kind.parts built).postings built.2.1.postings
      (sectionsSize details.chunkEntries kind.keys
        (originalText ((served.fileReader details).decodeEntry env) details.chunkEntries)) := by
    rw [hgranules, hterms, hpostings]
    exact hagree
  exact assembleSidecar_states hparts hassemble

end Indexes

/-- A container and the token index that is built over it. -/
def openAndIndex (container : List UInt8) : Result (QztFileReader × RawTokenIndex) := do
  let reader ← QztFileReader.openReadAt Reference.env (memorySource container) container.length
  let index ← RawTokenIndex.buildFromFile Reference.env reader {}
  return (reader, index)

set_option maxRecDepth 100000 in
theorem openAndIndex_staleContainer :
    staleContainer.length < 2 ^ 64 ∧ (openAndIndex staleContainer).isOk = true := by
  decide +kernel

end Qzt.Sidecar
