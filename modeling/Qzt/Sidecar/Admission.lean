import Qzt.Container.Rules
import Qzt.Reader.Placement
import Qzt.Search.Lookup
import Qzt.Sidecar.Limits
import Qzt.Sidecar.ManifestLaws

/-!
# What a sidecar build admits

Behind the index comes its encoding.  The sections are measured before they are written,
and the measure is the length of what is written; the manifest has a few hundred bytes.
So a build is decided by the line limit, by the totals of the index and by the size of
its sections, and whatever it refuses it refuses with a resource limit.
-/

namespace Qzt.Sidecar

open Foundation

/-! ## The container -/

section Container

variable {env : Env} {bytes : List UInt8} {limits : ResourceLimits}

theorem indexRoot_algorithm_of_read {value : CborValue} {root : IndexRoot}
    (h : IndexRoot.read value = .ok root) :
    root.originalChecksum.algorithm = checksumAlgorithmBlake3 := by
  unfold IndexRoot.read at h
  iterate 9 obtain ⟨_, -, h⟩ := bind_eq_ok_iff.mp h
  obtain ⟨originalChecksum, hchecksum, h⟩ := bind_eq_ok_iff.mp h
  iterate 2 obtain ⟨_, -, h⟩ := bind_eq_ok_iff.mp h
  obtain rfl := Except.ok.inj h
  exact algorithm_of_requiredChecksum hchecksum

/-- The checksum of the source is a BLAKE3 checksum. -/
theorem originalChecksum_algorithm {parts : SkeletonParts} {cbor : CborLimits}
    (h : parts.Follows env bytes limits cbor) :
    parts.metadata.originalChecksum.algorithm = checksumAlgorithmBlake3 := by
  have hdecode := h.indexRoot
  simp only [BlockSchema.decodeUnder, bind_eq_ok_iff] at hdecode
  obtain ⟨value, -, _, -, hread⟩ := hdecode
  have hsource := h.source
  simp only [validateSourceConsistency, bind_eq_ok_iff, rejectIf_eq_ok_iff, not_or, ne_eq,
    not_not] at hsource
  obtain ⟨_, -, -, hsame, -⟩ := hsource
  rw [hsame]
  exact indexRoot_algorithm_of_read hread

theorem footerPayload_ne_nil {payload : List UInt8}
    (h : SkeletonParts.Admitted limits payload) : payload ≠ [] := by
  rintro rfl
  obtain ⟨value, hvalue⟩ := h
  obtain ⟨parsed, hparsed, -⟩ := bind_eq_ok_iff.mp hvalue
  rw [Parser.parseValue] at hparsed
  obtain ⟨items, -, hparsed⟩ := bind_eq_ok_iff.mp hparsed
  obtain ⟨_, hread, -⟩ := bind_eq_ok_iff.mp hparsed
  cases hread

/-- The footer of an opened container is hashed. -/
theorem footerChecksum_eq (served : FaithfulSource bytes) {details : SkeletonDetails}
    (hopen : openSkeletonDetailsWithLimits env bytes limits = .ok details) :
    ∃ checksum, (served.fileReader details).footerChecksum env = .ok checksum ∧
      checksum.algorithm = checksumAlgorithmBlake3 := by
  obtain ⟨parts, hfollows, rfl⟩ := SkeletonParts.follows_of_open hopen
  have hlength := hfollows.length
  have hslice := hfollows.footerSlice
  have hnonempty := footerPayload_ne_nil hfollows.footerAdmitted
  obtain ⟨hinside, -, htrailer⟩ := hfollows.ranges_disjoint.1
    ⟨parts.trailer.footerPayloadOffset, parts.trailer.footerPayloadSize⟩
    (List.mem_append_left _ (by simp))
  have hsize : 0 < parts.trailer.footerPayloadSize := by
    by_contra hzero
    simp only [slicePhysical, bind_eq_ok_iff, checkedPhysicalEnd_eq_ok_iff, rejectIf_eq_ok_iff,
      okOr_eq_ok_iff, getRange?_eq_some_iff] at hslice
    obtain ⟨_, ⟨-, rfl⟩, _, -, -, hpayload⟩ := hslice
    apply hnonempty
    rw [← hpayload, Nat.add_sub_cancel_left, Nat.eq_zero_of_not_pos hzero, slice_length_zero]
  simp only [PhysicalRange.Disjoint] at hinside htrailer
  have hlen : (served.fileReader parts.details).len = bytes.length := served.len_eq
  refine ⟨Checksum.blake3 env (slice bytes parts.trailer.footerPayloadOffset
    (bytes.length - footerTrailerLen - parts.trailer.footerPayloadOffset)), ?_, rfl⟩
  rw [QztFileReader.footerChecksum, hlen, checkedSub_of_le (by omega), okOr_some, ok_bind]
  refine served.hashPhysicalRange_eq parts.details ?_ (Nat.sub_le _ _)
  change parts.trailer.footerPayloadOffset ≤ bytes.length - footerTrailerLen
  omega

end Container

/-! ## The measure of the sections -/

section Measure

variable {limit : Nat} {amounts : List Nat} {pair : TermDictionaryEntry × List Nat}
  {pairs : List (TermDictionaryEntry × List Nat)}

theorem addSizes_eq_ok_iff (hlimit : limit < 2 ^ 64) {size result : Nat} (hsize : size ≤ limit) :
    addSizes limit amounts size = .ok result ↔
      size + amounts.sum ≤ limit ∧ result = size + amounts.sum := by
  induction amounts generalizing size with
  | nil =>
    rw [addSizes, Except.ok.injEq, List.sum_nil, Nat.add_zero, eq_comm]
    exact (and_iff_right hsize).symm
  | cons amount amounts ih =>
    simp only [addSizes, bind_eq_ok_iff, okOr_eq_ok_iff, checkedAdd_eq_some_iff,
      rejectIf_eq_ok_iff]
    rw [List.sum_cons, ← Nat.add_assoc]
    constructor
    · rintro ⟨_, ⟨-, rfl⟩, -, hle, hrest⟩
      exact (ih (Nat.le_of_not_lt hle)).mp hrest
    · rintro ⟨hle, hresult⟩
      refine ⟨_, ⟨by omega, rfl⟩, ⟨⟩, by omega, ?_⟩
      exact (ih (by omega)).mpr ⟨hle, hresult⟩

theorem failsOnlyWith_addSizes (size : Nat) :
    FailsOnlyWith .resourceLimitExceeded (addSizes limit amounts size) := by
  induction amounts generalizing size with
  | nil => exact failsOnlyWith_ok _
  | cons amount amounts ih =>
    refine failsOnlyWith_bind (failsOnlyWith_okOr _ _) fun size _ => ?_
    exact failsOnlyWith_bind (failsOnlyWith_rejectIf _) fun _ _ => ih size

/-- The bytes of one term and of its postings. -/
def termCost (pair : TermDictionaryEntry × List Nat) : Nat :=
  pair.1.key.length + varuintLen pair.1.key.length + varuintLen pair.1.granuleFrequency +
    varuintLen pair.1.postingSize + (postingBytes pair.2).length

theorem termCharges_eq_ok_iff (h : IncreasesFrom none pair.2) {charges : List Nat} :
    termCharges pair = .ok charges ↔
      pair.1.key.length < 2 ^ 64 ∧ (postingBytes pair.2).length < 2 ^ 64 ∧
        charges = [pair.1.key.length, varuintLen pair.1.key.length,
          varuintLen pair.1.granuleFrequency, varuintLen pair.1.postingSize,
          (postingBytes pair.2).length] := by
  simp only [termCharges, bind_eq_ok_iff, usizeToU64_eq_ok_iff, encodedDeltaVarintSize_eq_ok_iff h,
    pure_eq_ok, Except.ok.injEq]
  constructor
  · rintro ⟨_, ⟨hkey, rfl⟩, _, ⟨hlist, rfl⟩, rfl⟩
    exact ⟨hkey, hlist, rfl⟩
  · rintro ⟨hkey, hlist, rfl⟩
    exact ⟨_, ⟨hkey, rfl⟩, _, ⟨hlist, rfl⟩, rfl⟩

theorem addTermSizes_eq_ok_iff (hpairs : ∀ pair ∈ pairs, IncreasesFrom none pair.2)
    (hlimit : limit < 2 ^ 64) {size result : Nat} (hsize : size ≤ limit) :
    addTermSizes limit pairs size = .ok result ↔
      size + (pairs.map termCost).sum ≤ limit ∧ result = size + (pairs.map termCost).sum := by
  induction pairs generalizing size with
  | nil =>
    rw [addTermSizes, Except.ok.injEq, List.map_nil, List.sum_nil, Nat.add_zero, eq_comm]
    exact (and_iff_right hsize).symm
  | cons pair pairs ih =>
    rw [List.forall_mem_cons] at hpairs
    simp only [addTermSizes, bind_eq_ok_iff, termCharges_eq_ok_iff hpairs.1]
    rw [List.map_cons, List.sum_cons, ← Nat.add_assoc]
    have hsum : [pair.1.key.length, varuintLen pair.1.key.length,
        varuintLen pair.1.granuleFrequency, varuintLen pair.1.postingSize,
        (postingBytes pair.2).length].sum = termCost pair := by
      simp only [List.sum_cons, List.sum_nil, termCost]
      omega
    constructor
    · rintro ⟨_, ⟨-, -, rfl⟩, next, hcharges, hrest⟩
      rw [addSizes_eq_ok_iff hlimit hsize, hsum] at hcharges
      obtain ⟨hle, rfl⟩ := hcharges
      exact (ih hpairs.2 hle).mp hrest
    · rintro ⟨hle, hresult⟩
      have hcost : termCost pair < 2 ^ 64 := by omega
      unfold termCost at hcost
      refine ⟨_, ⟨by omega, by omega, rfl⟩, size + termCost pair, ?_, ?_⟩
      · rw [addSizes_eq_ok_iff hlimit hsize, hsum]
        exact ⟨by omega, rfl⟩
      · exact (ih hpairs.2 (by omega)).mpr ⟨hle, hresult⟩

theorem failsOnlyWith_addTermSizes (hpairs : ∀ pair ∈ pairs, IncreasesFrom none pair.2)
    (size : Nat) : FailsOnlyWith .resourceLimitExceeded (addTermSizes limit pairs size) := by
  induction pairs generalizing size with
  | nil => exact failsOnlyWith_ok _
  | cons pair pairs ih =>
    rw [List.forall_mem_cons] at hpairs
    refine failsOnlyWith_bind ?_ fun charges _ => ?_
    · refine failsOnlyWith_bind (failsOnlyWith_usizeToU64 _) fun length _ => ?_
      exact failsOnlyWith_bind (failsOnlyWith_deltasSize hpairs.1 0) fun _ _ => failsOnlyWith_ok _
    · exact failsOnlyWith_bind (failsOnlyWith_addSizes size) fun size _ => ih hpairs.2 size

variable {granules : List SearchGranule} {terms : List TermDictionaryEntry}
  {postings : List (List Nat)} {encoding : GranuleEncoding}

/-- The sections are admitted exactly when together they are within the limit. -/
theorem checkBuildSectionSize_eq_ok_iff
    (hpostings : ∀ list ∈ postings, IncreasesFrom none list) (hlimit : limit < 2 ^ 64) {u : Unit} :
    checkBuildSectionSize granules terms postings encoding limit = .ok u ↔
      granules.length * encoding.recordLen + 16 + ((terms.zip postings).map termCost).sum ≤
        limit := by
  have hpairs : ∀ pair ∈ terms.zip postings, IncreasesFrom none pair.2 :=
    fun pair hpair => hpostings _ (List.of_mem_zip hpair).2
  have hrecord : 0 < encoding.recordLen := by
    cases encoding <;> decide
  simp only [checkBuildSectionSize, addSizes, bind_eq_ok_iff, usizeToU64_eq_ok_iff, okOr_eq_ok_iff,
    checkedMul_eq_some_iff, checkedAdd_eq_some_iff, rejectIf_eq_ok_iff, Nat.add_zero]
  constructor
  · rintro ⟨_, ⟨-, rfl⟩, _, ⟨-, rfl⟩, _, ⟨-, rfl⟩, _, ⟨_, ⟨-, rfl⟩, -, hle, hsame⟩, _, hterms, -⟩
    cases hsame
    rw [addTermSizes_eq_ok_iff hpairs hlimit (Nat.le_of_not_lt hle)] at hterms
    exact hterms.1
  · intro hle
    have hcount := Nat.le_mul_of_pos_right granules.length hrecord
    refine ⟨_, ⟨by omega, rfl⟩, _, ⟨by omega, rfl⟩, _, ⟨by omega, rfl⟩, _,
      ⟨_, ⟨by omega, rfl⟩, ⟨⟩, by omega, rfl⟩,
      _, (addTermSizes_eq_ok_iff hpairs hlimit (by omega)).mpr ⟨hle, rfl⟩, rfl⟩

theorem failsOnlyWith_checkBuildSectionSize
    (hpostings : ∀ list ∈ postings, IncreasesFrom none list) :
    FailsOnlyWith .resourceLimitExceeded
      (checkBuildSectionSize granules terms postings encoding limit) := by
  have hpairs : ∀ pair ∈ terms.zip postings, IncreasesFrom none pair.2 :=
    fun pair hpair => hpostings _ (List.of_mem_zip hpair).2
  refine failsOnlyWith_bind (failsOnlyWith_usizeToU64 _) fun count _ => ?_
  refine failsOnlyWith_bind (failsOnlyWith_okOr _ _) fun records _ => ?_
  refine failsOnlyWith_bind (failsOnlyWith_okOr _ _) fun size _ => ?_
  refine failsOnlyWith_bind (failsOnlyWith_addSizes size) fun size _ => ?_
  exact failsOnlyWith_bind (failsOnlyWith_addTermSizes hpairs size) fun _ _ => failsOnlyWith_ok _

end Measure

/-! ## The sections -/

section Sections

variable {encoding : GranuleEncoding} {granules : List SearchGranule}
  {terms : List TermDictionaryEntry} {postings : List (List Nat)}

/-- A granule fits the records of an encoding. -/
def FitsRecord (encoding : GranuleEncoding) (granule : SearchGranule) : Prop :=
  granule.chunkStart ≤ granule.chunkEnd ∧
    (encoding = .lineImpliedV2 → granule.byteLength < 2 ^ 32 ∧ granule.chunkStart < 2 ^ 32 ∧
      granule.chunkEnd - granule.chunkStart < 2 ^ 32)

theorem fitsRecord_of_supported {index : Nat}
    (h : compactLineGranulesSupported index granules = true)
    (hspans : ∀ granule ∈ granules, granule.chunkStart ≤ granule.chunkEnd) :
    ∀ granule ∈ granules, FitsRecord .lineImpliedV2 granule := by
  induction granules generalizing index with
  | nil => exact fun granule hgranule => absurd hgranule List.not_mem_nil
  | cons granule granules ih =>
    rw [compactLineGranulesSupported, Bool.and_eq_true, decide_eq_true_eq] at h
    rw [List.forall_mem_cons] at hspans ⊢
    exact ⟨⟨hspans.1, fun _ => h.1.2.2.2⟩, ih h.2 hspans.2⟩

theorem encodeGranule_eq {granule : SearchGranule} (h : FitsRecord encoding granule) :
    ∃ record, encodeGranule encoding granule = .ok record ∧ record.length = encoding.recordLen := by
  cases encoding with
  | legacyV1 =>
    refine ⟨_, rfl, ?_⟩
    simp only [List.length_append, length_leBytes]
    rfl
  | lineImpliedV2 =>
    obtain ⟨hspan, hfits⟩ := h
    obtain ⟨hlength, hstart, hwidth⟩ := hfits rfl
    refine ⟨leBytes 8 granule.logicalOffset ++ leBytes 4 granule.byteLength ++
      leBytes 4 granule.chunkStart ++ leBytes 4 (granule.chunkEnd - granule.chunkStart), ?_, ?_⟩
    · rw [encodeGranule, rejectIf_of_not (by omega), ok_bind, rejectIf_of_not (by omega), ok_bind,
        checkedSub_of_le hspan, okOr_some, ok_bind, rejectIf_of_not (by omega)]
      rfl
    · simp only [List.length_append, length_leBytes]
      rfl

theorem collect_encodeGranule (h : ∀ granule ∈ granules, FitsRecord encoding granule) :
    ∃ records, collect (encodeGranule encoding) granules = .ok records ∧
      records.flatten.length = granules.length * encoding.recordLen := by
  induction granules with
  | nil => exact ⟨[], rfl, by rw [List.length_nil, Nat.zero_mul]; rfl⟩
  | cons granule granules ih =>
    rw [List.forall_mem_cons] at h
    obtain ⟨record, hrecord, hlength⟩ := encodeGranule_eq h.1
    obtain ⟨records, hrecords, hlengths⟩ := ih h.2
    refine ⟨record :: records, ?_, ?_⟩
    · rw [collect, hrecord, ok_bind, hrecords]
      rfl
    · rw [List.flatten_cons, List.length_append, hlength, hlengths, List.length_cons,
        Nat.succ_mul, Nat.add_comm]

/-- The granule section has the size that was measured. -/
theorem encodeGranules_eq (h : ∀ granule ∈ granules, FitsRecord encoding granule)
    (hcount : granules.length < 2 ^ 64) :
    ∃ bytes, encodeGranules granules encoding = .ok bytes ∧
      bytes.length = granules.length * encoding.recordLen + 8 := by
  obtain ⟨records, hrecords, hlength⟩ := collect_encodeGranule h
  refine ⟨leBytes 8 granules.length ++ records.flatten, ?_, ?_⟩
  · rw [encodeGranules, usizeToU64_of_lt hcount, ok_bind, hrecords]
    rfl
  · rw [List.length_append, length_leBytes, hlength, Nat.add_comm]

theorem encodePostingSection_eq (h : ∀ list ∈ postings, IncreasesFrom none list) :
    ∃ bytes, encodePostingSection postings = .ok bytes ∧
      bytes.length = (postings.map fun list => (postingBytes list).length).sum := by
  have hlists : collect encodeDeltaVarintU64 postings = .ok (postings.map postingBytes) :=
    collect_of_forall fun list hlist => encodeDeltas_eq (h list hlist)
  refine ⟨(postings.map postingBytes).flatten, ?_, ?_⟩
  · rw [encodePostingSection, hlists]
    rfl
  · rw [List.length_flatten, List.map_map]
    rfl

/-- The bytes of a compact term record. -/
def recordCost (term : TermDictionaryEntry) : Nat :=
  term.key.length + varuintLen term.key.length + varuintLen term.granuleFrequency +
    varuintLen term.postingSize

theorem encodeTerms_eq (hcount : terms.length < 2 ^ 64)
    (hkeys : ∀ term ∈ terms, term.key.length < 2 ^ 64) :
    ∃ bytes, encodeTerms terms .compactV2 = .ok bytes ∧
      bytes.length = (terms.map recordCost).sum + 8 := by
  have hcheck : checkAll (fun term => do
      let _ ← usizeToU64 (TermDictionaryEntry.key term).length : TermDictionaryEntry → Result Unit)
      terms = .ok ⟨⟩ := by
    rw [checkAll_eq_ok_iff]
    intro term hterm
    rw [usizeToU64_of_lt (hkeys term hterm)]
    rfl
  refine ⟨leBytes 8 terms.length ++ (terms.map (encodeTerm .compactV2)).flatten, ?_, ?_⟩
  · rw [encodeTerms, usizeToU64_of_lt hcount, ok_bind, hcheck]
    rfl
  · rw [List.length_append, length_leBytes, List.length_flatten, List.map_map, Nat.add_comm]
    congr 2
    refine List.map_congr_left fun term _ => ?_
    simp only [Function.comp_apply, encodeTerm, List.length_append, recordCost, varuintLen,
      leb128Length, writeVaruint]
    omega

/-- What is measured for the terms is the size of their section and of their postings. -/
theorem sum_termCost (hlength : terms.length = postings.length) :
    ((terms.zip postings).map termCost).sum = (terms.map recordCost).sum +
      (postings.map fun list => (postingBytes list).length).sum := by
  induction terms generalizing postings with
  | nil =>
    obtain rfl := List.length_eq_zero_iff.mp hlength.symm
    rfl
  | cons term terms ih =>
    cases postings with
    | nil => cases hlength
    | cons list postings =>
      simp only [List.zip_cons_cons, List.map_cons, List.sum_cons, ih (Nat.succ.inj hlength),
        termCost, recordCost]
      omega

end Sections

/-! ## The sidecar -/

/-- What `build_search_sidecar_from_file_with_options` writes once the sections are admitted. -/
def assembleSidecar (env : Env) (details : SkeletonDetails) (footerChecksum : Checksum)
    (parts : SidecarParts) (granuleEncoding : GranuleEncoding) : Result (List UInt8) := do
  let granuleBytes ← encodeGranules parts.granules granuleEncoding
  let postingBytes ← encodePostingSection parts.postings
  let termBytes ← encodeTerms parts.terms .compactV2
  let termsOffset ← usizeToU64 granuleBytes.length
  let termsSize ← usizeToU64 termBytes.length
  let postingsOffset ← okOr .resourceLimitExceeded (checkedAdd termsOffset termsSize)
  let postingsSize ← usizeToU64 postingBytes.length
  let indexSizeBytes ← okOr .resourceLimitExceeded (checkedAdd postingsOffset postingsSize)
  let manifestBytes ← encodeManifest
    { sourceContainerId := details.summary.containerId
      sourceOriginalChecksum := details.metadata.originalChecksum
      sourceQztFooterChecksum := footerChecksum
      indexType := parts.indexType
      ngramN := parts.ngramN
      complete := parts.complete
      highDfPerMillion := parts.highDfPerMillion
      indexSizeBytes
      sourceSizeBytes := details.summary.originalSize
      formatVersion := .v2
      granuleEncoding
      termEncoding := .compactV2
      granules := ⟨0, termsOffset, Checksum.blake3 env granuleBytes⟩
      terms := ⟨termsOffset, termsSize, Checksum.blake3 env termBytes⟩
      postings := ⟨postingsOffset, postingsSize, Checksum.blake3 env postingBytes⟩ }
  let size ← okOr .resourceLimitExceeded (checkedAdd sidecarHeaderLen manifestBytes.length)
  let size ← okOr .resourceLimitExceeded (checkedAdd size granuleBytes.length)
  let size ← okOr .resourceLimitExceeded (checkedAdd size termBytes.length)
  let _ ← okOr .resourceLimitExceeded (checkedAdd size postingBytes.length)
  let manifestSize ← usizeToU64 manifestBytes.length
  return sidecarMagic ++ leBytes 8 manifestSize ++ manifestBytes ++ granuleBytes ++ termBytes ++
    postingBytes

/-- The granule encoding that the granules allow. -/
def granuleEncodingOf (granules : List SearchGranule) : GranuleEncoding :=
  if compactLineGranulesSupported 0 granules then .lineImpliedV2 else .legacyV1

theorem buildSearchSidecarFromFileWithOptions_eq (env : Env) (reader : QztFileReader)
    (kind : SidecarIndexKind) (options : SidecarBuildOptions) :
    buildSearchSidecarFromFileWithOptions env reader kind options = (do
      let footerChecksum ← reader.footerChecksum env
      let parts ← buildParts env reader kind options
      checkBuildSectionSize parts.granules parts.terms parts.postings
        (granuleEncodingOf parts.granules) options.limits.maxEncodedBytes
      assembleSidecar env reader.details footerChecksum parts
        (granuleEncodingOf parts.granules)) :=
  rfl

/-- Parts that the encoders accept. -/
structure SidecarParts.Writable (parts : SidecarParts) : Prop where
  indexType : (textBytes parts.indexType).length ≤ 32
  ngramN : ∀ n ∈ parts.ngramN, n < 2 ^ 64
  highDfPerMillion : parts.highDfPerMillion < 2 ^ 64
  spans : ∀ granule ∈ parts.granules, granule.chunkStart ≤ granule.chunkEnd
  count : parts.granules.length < 2 ^ 64
  length : parts.terms.length = parts.postings.length
  increases : ∀ list ∈ parts.postings, IncreasesFrom none list

/-- The bytes of the three sections. -/
def SidecarParts.size (parts : SidecarParts) : Nat :=
  parts.granules.length * (granuleEncodingOf parts.granules).recordLen + 16 +
    ((parts.terms.zip parts.postings).map termCost).sum

theorem length_le_sum_recordCost (terms : List TermDictionaryEntry) :
    terms.length ≤ (terms.map recordCost).sum := by
  induction terms with
  | nil => exact Nat.zero_le _
  | cons term terms ih =>
    have hpos : 0 < varuintLen term.key.length := length_leb128_pos _
    rw [List.length_cons, List.map_cons, List.sum_cons, recordCost]
    omega

theorem granuleEncodingOf_fits {granules : List SearchGranule}
    (h : ∀ granule ∈ granules, granule.chunkStart ≤ granule.chunkEnd) :
    ∀ granule ∈ granules, FitsRecord (granuleEncodingOf granules) granule := by
  unfold granuleEncodingOf
  split
  · rename_i hsupported
    exact fitsRecord_of_supported hsupported h
  · intro granule hgranule
    exact ⟨h granule hgranule, fun hencoding => by cases hencoding⟩

/-- Sections that fit into memory are written. -/
theorem assembleSidecar_eq (env : Env) {details : SkeletonDetails} {footerChecksum : Checksum}
    {parts : SidecarParts}
    (hsource : details.metadata.originalChecksum.algorithm = checksumAlgorithmBlake3)
    (hfooter : footerChecksum.algorithm = checksumAlgorithmBlake3)
    (hsize : details.summary.originalSize < 2 ^ 64) (hparts : parts.Writable)
    (hmemory : parts.size < 2 ^ 63) :
    ∃ sidecar, assembleSidecar env details footerChecksum parts
      (granuleEncodingOf parts.granules) = .ok sidecar := by
  have hsum := sum_termCost hparts.length
  have hterms := length_le_sum_recordCost parts.terms
  unfold SidecarParts.size at hmemory
  have hkeys : ∀ term ∈ parts.terms, term.key.length < 2 ^ 64 := by
    intro term hterm
    have hle : recordCost term ≤ (parts.terms.map recordCost).sum :=
      List.single_le_sum (fun _ _ => Nat.zero_le _) _ (List.mem_map_of_mem hterm)
    have hkey : term.key.length ≤ recordCost term := by
      unfold recordCost
      omega
    omega
  obtain ⟨granuleBytes, hgranules, hgranulesLength⟩ :=
    encodeGranules_eq (granuleEncodingOf_fits hparts.spans) hparts.count
  obtain ⟨postingBytes, hpostings, hpostingsLength⟩ := encodePostingSection_eq hparts.increases
  obtain ⟨termBytes, htermBytes, htermsLength⟩ :=
    encodeTerms_eq (show parts.terms.length < 2 ^ 64 by omega) hkeys
  rw [assembleSidecar, hgranules, ok_bind, hpostings, ok_bind, htermBytes, ok_bind,
    usizeToU64_of_lt (by omega), ok_bind, usizeToU64_of_lt (by omega), ok_bind,
    checkedAdd_of_lt (by omega), okOr_some, ok_bind, usizeToU64_of_lt (by omega), ok_bind,
    checkedAdd_of_lt (by omega), okOr_some, ok_bind]
  obtain ⟨manifestBytes, hmanifest, hmanifestLength⟩ := @encodeManifest_eq
    { sourceContainerId := details.summary.containerId
      sourceOriginalChecksum := details.metadata.originalChecksum
      sourceQztFooterChecksum := footerChecksum
      indexType := parts.indexType
      ngramN := parts.ngramN
      complete := parts.complete
      highDfPerMillion := parts.highDfPerMillion
      indexSizeBytes := granuleBytes.length + termBytes.length + postingBytes.length
      sourceSizeBytes := details.summary.originalSize
      formatVersion := .v2
      granuleEncoding := granuleEncodingOf parts.granules
      termEncoding := .compactV2
      granules := ⟨0, granuleBytes.length, Checksum.blake3 env granuleBytes⟩
      terms := ⟨granuleBytes.length, termBytes.length, Checksum.blake3 env termBytes⟩
      postings := ⟨granuleBytes.length + termBytes.length, postingBytes.length,
        Checksum.blake3 env postingBytes⟩ }
    { sourceOriginalChecksum := hsource
      sourceQztFooterChecksum := hfooter
      indexType := hparts.indexType
      ngramN := hparts.ngramN
      highDfPerMillion := hparts.highDfPerMillion
      indexSizeBytes := by dsimp only; omega
      sourceSizeBytes := hsize
      granules := ⟨by dsimp only; omega, by dsimp only; omega, rfl⟩
      terms := ⟨by dsimp only; omega, by dsimp only; omega, rfl⟩
      postings := ⟨by dsimp only; omega, by dsimp only; omega, rfl⟩ }
  have hheader : sidecarHeaderLen = 16 := rfl
  rw [hmanifest, ok_bind, checkedAdd_of_lt (by omega), okOr_some, ok_bind,
    checkedAdd_of_lt (by omega), okOr_some, ok_bind, checkedAdd_of_lt (by omega), okOr_some,
    ok_bind, checkedAdd_of_lt (by omega), okOr_some, ok_bind, usizeToU64_of_lt (by omega), ok_bind]
  exact ⟨_, rfl⟩

/-! ## Admission -/

/-- The keys of a kind of index. -/
def SidecarIndexKind.keys : SidecarIndexKind → BuildKeys
  | .token => .token
  | .ngram n => .ngram n

/-- The lists of an n-gram index have skip points. -/
def SidecarIndexKind.withSkips : SidecarIndexKind → Bool
  | .token => false
  | .ngram _ => true

/-- The bytes of the granule section of a text. -/
def granuleSectionSize (entries : List ChunkEntry) (text : List UInt8) : Nat :=
  8 + (lines text).length * (granuleEncodingOf (lineGranules entries text)).recordLen

/-- The bytes of the term section: every key with its length, the number of its lines and the size
of its posting list. -/
def termSectionSize (keys : BuildKeys) (text : List UInt8) : Nat :=
  8 + keySum keys (lines text) fun key list => varuintLen key.length + key.length +
    varuintLen list.length + varuintLen (postingBytes list).length

/-- The bytes of the posting section. -/
def postingSectionSize (keys : BuildKeys) (text : List UInt8) : Nat :=
  keySum keys (lines text) fun _ list => (postingBytes list).length

/-- The bytes of the three sections. -/
def sectionsSize (entries : List ChunkEntry) (keys : BuildKeys) (text : List UInt8) : Nat :=
  granuleSectionSize entries text + termSectionSize keys text + postingSectionSize keys text

/-- The text is within every limit of a sidecar build. -/
structure SidecarBuildOptions.Admit (options : SidecarBuildOptions) (kind : SidecarIndexKind)
    (entries : List ChunkEntry) (text : List UInt8) : Prop where
  lineBytes : ∀ line ∈ lines text, line.length ≤ options.maxLineBytes
  granules : (lines text).length ≤ options.limits.maxGranules
  distinctKeys : (textKeys kind.keys (lines text)).length ≤ options.limits.maxDistinctKeys
  keyBytes : ((textKeys kind.keys (lines text)).map List.length).sum ≤ options.limits.maxKeyBytes
  postingIds : ((textKeys kind.keys (lines text)).map fun key =>
    (postingsOf kind.keys (lines text) key).length).sum ≤ options.limits.maxPostingIds
  encodedPostings : keySum kind.keys (lines text) (fun _ list =>
    (postingBytes list).length + skipBytes kind.withSkips list) ≤ options.limits.maxEncodedBytes
  sections : sectionsSize entries kind.keys text ≤ options.limits.maxEncodedBytes

theorem SidecarBuildOptions.admit_iff {options : SidecarBuildOptions} {kind : SidecarIndexKind}
    {entries : List ChunkEntry} {text : List UInt8} :
    options.Admit kind entries text ↔
      options.limits.AdmitIndex options.maxLineBytes kind.keys kind.withSkips (lines text) ∧
        sectionsSize entries kind.keys text ≤ options.limits.maxEncodedBytes := by
  constructor
  · intro h
    exact ⟨⟨⟨h.lineBytes, h.granules, h.distinctKeys, h.keyBytes, h.postingIds⟩,
      h.encodedPostings⟩, h.sections⟩
  · rintro ⟨⟨hcover, hencoded⟩, hsections⟩
    exact ⟨hcover.lineBytes, hcover.granules, hcover.distinctKeys, hcover.keyBytes,
      hcover.postingIds, hencoded, hsections⟩

/-- What a build of either kind hands to the encoder. -/
def SidecarIndexKind.parts (kind : SidecarIndexKind)
    (built : List SearchGranule × EncodedPostingLists × List (List Nat)) : SidecarParts :=
  match kind with
  | .token =>
    { indexType := "token", ngramN := none, complete := true, highDfPerMillion := 200000
      granules := built.1, terms := built.2.1.terms, postings := built.2.2 }
  | .ngram n =>
    { indexType := "ngram", ngramN := some n, complete := true, highDfPerMillion := 200000
      granules := built.1, terms := built.2.1.terms, postings := built.2.2 }

theorem SidecarIndexKind.parts_sections (kind : SidecarIndexKind)
    (built : List SearchGranule × EncodedPostingLists × List (List Nat)) :
    (kind.parts built).granules = built.1 ∧ (kind.parts built).terms = built.2.1.terms ∧
      (kind.parts built).postings = built.2.2 := by
  cases kind <;> exact ⟨rfl, rfl, rfl⟩

theorem SidecarIndexKind.parts_header (kind : SidecarIndexKind)
    (built : List SearchGranule × EncodedPostingLists × List (List Nat)) :
    (textBytes (kind.parts built).indexType).length ≤ 32 ∧
      (kind.parts built).highDfPerMillion = 200000 := by
  have htoken : (textBytes "token").length ≤ 32 := by decide
  have hngram : (textBytes "ngram").length ≤ 32 := by decide
  cases kind with
  | token => exact ⟨htoken, rfl⟩
  | ngram n => exact ⟨hngram, rfl⟩

theorem buildParts_eq (env : Env) (reader : QztFileReader) {kind : SidecarIndexKind}
    (hkind : kind ≠ .ngram 0) (options : SidecarBuildOptions) :
    buildParts env reader kind options = (do
      let built ← buildEncoded env reader.details.chunkEntries reader.details.summary.originalSize
        options.maxLineBytes options.limits (reader.decodeEntry env) kind.keys kind.withSkips
      return kind.parts built) := by
  cases kind with
  | token =>
    simp only [buildParts, RawTokenIndex.buildFromFile, RawTokenIndex.fromParts_eq, buildEncoded,
      bind_assoc, pure_eq_ok, ok_bind]
    rfl
  | ngram n =>
    have hn : n ≠ 0 := by
      rintro rfl
      exact hkind rfl
    have hparts := fun containerId size granules terms postings =>
      @RawNgramIndex.fromParts_eq containerId size granules terms postings
        { maxLineBytes := options.maxLineBytes, limits := options.limits, n } hn
    simp only [buildParts, RawNgramIndex.buildFromFile, hparts, rejectIf_of_not hn, buildEncoded,
      bind_assoc, pure_eq_ok, ok_bind]
    rfl

/-- The cost of a key and its list in the sections behind the granules. -/
def keyCost (key : List UInt8) (list : List Nat) : Nat :=
  key.length + varuintLen key.length + varuintLen list.length +
    varuintLen (postingBytes list).length + (postingBytes list).length

theorem keySum_add (mode : BuildKeys) (lines : List (List UInt8))
    (left right : List UInt8 → List Nat → Nat) :
    keySum mode lines (fun key list => left key list + right key list) =
      keySum mode lines left + keySum mode lines right := by
  unfold keySum
  induction textKeys mode lines with
  | nil => rfl
  | cons key keys ih =>
    simp only [List.map_cons, List.sum_cons, ih]
    omega

theorem sectionsSize_eq (entries : List ChunkEntry) (keys : BuildKeys) (text : List UInt8) :
    sectionsSize entries keys text =
      (lines text).length * (granuleEncodingOf (lineGranules entries text)).recordLen + 16 +
        keySum keys (lines text) keyCost := by
  have hcost : keySum keys (lines text) keyCost = keySum keys (lines text) (fun key list =>
      (varuintLen key.length + key.length + varuintLen list.length +
        varuintLen (postingBytes list).length) + (postingBytes list).length) := by
    congr 1
    funext key list
    unfold keyCost
    omega
  rw [hcost, keySum_add, sectionsSize, granuleSectionSize, termSectionSize, postingSectionSize]
  omega

/-- What is measured for the written terms of a map. -/
theorem sum_termCost_written {env : Env} {map : PostingMap} {written : List TermDictionaryEntry}
    (h : WrittenTerms (map.map fun pair => blankTerm env pair.1) (map.map Prod.snd) written) :
    ((written.zip (map.map Prod.snd)).map termCost).sum = mapSum keyCost map := by
  obtain ⟨hkeys, hfrequency, hsize⟩ := h
  induction map generalizing written with
  | nil =>
    rw [List.map_nil, List.map_nil, List.map_eq_nil_iff] at hkeys
    rw [hkeys]
    rfl
  | cons pair map ih =>
    cases written with
    | nil => cases hkeys
    | cons term written =>
      simp only [List.map_cons, List.cons.injEq] at hkeys hfrequency hsize
      have hrest := ih hkeys.2 hfrequency.2 hsize.2
      simp only [List.map_cons, List.zip_cons_cons, List.sum_cons, hrest, mapSum]
      rw [termCost, keyCost, hkeys.1, hfrequency.1, hsize.1]
      rfl

section Build

variable {env : Env} {bytes : List UInt8} {limits : ResourceLimits} {reader : QztFileReader}
  {kind : SidecarIndexKind} {options : SidecarBuildOptions}

section Built

variable {entries : List ChunkEntry} {text : List UInt8} {buildLimits : IndexBuildLimits}
  {keys : BuildKeys} {built : List SearchGranule × EncodedPostingLists × List (List Nat)}
  {map : PostingMap} (hlayout : Layout entries text.length)
  (h : BuiltFrom env entries keys text buildLimits built map)
include h

theorem length_of_built : built.2.1.terms.length = built.2.2.length := by
  have hlength := congrArg List.length h.written.keys
  simp only [List.length_map] at hlength
  rw [h.postings, List.length_map]
  exact hlength

/-- A line starts in the chunk before the end of its span. -/
theorem spans_of_built : ∀ granule ∈ built.1, granule.chunkStart ≤ granule.chunkEnd := by
  rw [h.granules]
  intro granule hgranule
  obtain ⟨index, hindex, rfl⟩ := List.mem_map.mp hgranule
  have hlt := List.mem_range.mp hindex
  obtain ⟨-, -, hne⟩ := slice_line (List.getElem?_eq_getElem hlt)
  have hpos := List.length_pos_of_ne_nil hne
  rw [lineGranule]
  dsimp only
  rw [List.getD_eq_getElem _ _ hlt]
  exact Nat.le_succ_of_le (weightIndex_mono _ (by omega))

/-- The measure of the sections, from the text alone. -/
theorem size_of_built :
    built.1.length * (granuleEncodingOf built.1).recordLen + 16 +
      ((built.2.1.terms.zip built.2.2).map termCost).sum = sectionsSize entries keys text := by
  rw [h.granules, h.postings, sum_termCost_written h.written, h.indexes.mapSum_eq, sectionsSize_eq,
    h.indexes.length]

include hlayout

theorem count_of_built : built.1.length < 2 ^ 64 := by
  rw [h.granules]
  exact h.indexes.granules_length_lt hlayout

theorem increases_of_built : ∀ list ∈ built.2.2, IncreasesFrom none list := by
  rw [h.postings]
  exact h.indexes.increases hlayout

end Built

/-- The parts of an admitted index, and what their sections measure. -/
theorem parts_of_admits {entries : List ChunkEntry} {text : List UInt8} {decode : DecodeEntry}
    (hcuts : CutsInto entries decode text)
    (hdecodes : ∀ entry ∈ entries, ∃ part, decode entry = .ok part ∧
      (fromUtf8 part).isSome = true)
    (hn : ∀ n, kind = .ngram n → n < 2 ^ 64) (hsized : options.limits.Sized)
    (hword : options.maxLineBytes < 2 ^ 64)
    (hadmitted : options.limits.AdmitIndex options.maxLineBytes kind.keys kind.withSkips
      (lines text)) :
    ∃ built, buildEncoded env entries text.length options.maxLineBytes options.limits decode
        kind.keys kind.withSkips = .ok built ∧
      (kind.parts built).Writable ∧
      (kind.parts built).size = sectionsSize entries kind.keys text := by
  obtain ⟨_, encoded, hbuilt, -⟩ := @buildEncoded_of_admits env entries
    kind.keys text _ _ kind.withSkips _ hcuts hdecodes hsized hword hadmitted
  obtain ⟨map, hfrom⟩ := builtFrom_of_buildEncoded hcuts hsized hbuilt
  refine ⟨_, hbuilt, ?_, ?_⟩
  · obtain ⟨hgranules, hterms, hpostings⟩ := kind.parts_sections _
    obtain ⟨htype, hhighDf⟩ := kind.parts_header _
    refine
      { indexType := htype
        ngramN := ?_
        highDfPerMillion := by rw [hhighDf]; decide
        spans := hgranules ▸ spans_of_built hfrom
        count := hgranules ▸ count_of_built hcuts.layout hfrom
        length := by rw [hterms, hpostings]; exact length_of_built hfrom
        increases := hpostings ▸ increases_of_built hcuts.layout hfrom }
    cases kind with
    | token => exact fun n hmem => nomatch hmem
    | ngram width =>
      intro n hmem
      exact hn n (congrArg SidecarIndexKind.ngram (Option.some.inj hmem))
  · obtain ⟨hgranules, hterms, hpostings⟩ := kind.parts_sections _
    rw [SidecarParts.size, hgranules, hterms, hpostings]
    exact size_of_built hfrom

section Opened

variable (served : FaithfulSource bytes) {details : SkeletonDetails}
  (hopen : openSkeletonDetailsWithLimits env bytes limits = .ok details)
include hopen

/-- The checksum of the footer is there, so a build is the index, the check and the writing. -/
theorem buildSearchSidecar_steps (hkind : kind ≠ .ngram 0) (options : SidecarBuildOptions) :
    ∃ checksum : Checksum, checksum.algorithm = checksumAlgorithmBlake3 ∧
      buildSearchSidecarFromFileWithOptions env (served.fileReader details) kind options = (do
        let built ← buildEncoded env details.chunkEntries details.summary.originalSize
          options.maxLineBytes options.limits ((served.fileReader details).decodeEntry env)
          kind.keys kind.withSkips
        checkBuildSectionSize (kind.parts built).granules (kind.parts built).terms
          (kind.parts built).postings (granuleEncodingOf (kind.parts built).granules)
          options.limits.maxEncodedBytes
        assembleSidecar env details checksum (kind.parts built)
          (granuleEncodingOf (kind.parts built).granules)) := by
  obtain ⟨checksum, hchecksum, halgorithm⟩ := footerChecksum_eq served hopen
  refine ⟨checksum, halgorithm, ?_⟩
  rw [buildSearchSidecarFromFileWithOptions_eq, hchecksum, ok_bind, buildParts_eq _ _ hkind,
    bind_assoc]
  rfl

variable {text : List UInt8}
  (hcuts : CutsInto details.chunkEntries ((served.fileReader details).decodeEntry env) text)
  (hdecodes : ∀ entry ∈ details.chunkEntries, ∃ part,
    (served.fileReader details).decodeEntry env entry = .ok part ∧ (fromUtf8 part).isSome = true)
  (hkind : kind ≠ .ngram 0) (hn : ∀ n, kind = .ngram n → n < 2 ^ 64)
  (hsized : options.limits.Sized) (hword : options.maxLineBytes < 2 ^ 64)
include hcuts hdecodes hkind hn hsized hword

/-- A text above one of the limits is refused. -/
theorem buildSearchSidecar_of_not_admits
    (hnot : ¬ options.Admit kind details.chunkEntries text) :
    buildSearchSidecarFromFileWithOptions env (served.fileReader details) kind options =
      .error .resourceLimitExceeded := by
  have hsize : details.summary.originalSize = text.length :=
    (openSkeletonDetailsWithLimits_opened hopen).layout.total.symm.trans hcuts.layout.total
  obtain ⟨checksum, -, hbuild⟩ := buildSearchSidecar_steps served hopen hkind options
  rw [SidecarBuildOptions.admit_iff] at hnot
  rw [hbuild, hsize]
  by_cases hadmitted : options.limits.AdmitIndex options.maxLineBytes kind.keys kind.withSkips
      (lines text)
  · obtain ⟨built, hbuilt, hwritable, hmeasure⟩ :=
      @parts_of_admits env kind options _ _ _ hcuts hdecodes hn hsized hword hadmitted
    rw [hbuilt, ok_bind, (failsOnlyWith_checkBuildSectionSize hwritable.increases).eq_error]
    · rfl
    · intro u hcheck
      rw [checkBuildSectionSize_eq_ok_iff hwritable.increases hsized.maxEncodedBytes] at hcheck
      exact hnot ⟨hadmitted, hmeasure ▸ hcheck⟩
  · rw [(failsOnlyWith_buildEncoded hcuts hdecodes hsized).eq_error]
    · rfl
    · intro built hbuilt
      exact hadmitted (admits_of_buildEncoded hcuts hdecodes hsized hbuilt)

/-- A text within the limits is built, if its sections fit into memory. -/
theorem buildSearchSidecar_of_admits (hadmitted : options.Admit kind details.chunkEntries text)
    (hmemory : sectionsSize details.chunkEntries kind.keys text < 2 ^ 63) :
    ∃ sidecar, buildSearchSidecarFromFileWithOptions env (served.fileReader details) kind options =
      .ok sidecar := by
  have hopened := openSkeletonDetailsWithLimits_opened hopen
  have hsize : details.summary.originalSize = text.length :=
    hopened.layout.total.symm.trans hcuts.layout.total
  have hsource : details.metadata.originalChecksum.algorithm = checksumAlgorithmBlake3 := by
    obtain ⟨parts, hfollows, rfl⟩ := SkeletonParts.follows_of_open hopen
    exact originalChecksum_algorithm hfollows
  obtain ⟨checksum, halgorithm, hbuild⟩ := buildSearchSidecar_steps served hopen hkind options
  obtain ⟨hindex, hsections⟩ := SidecarBuildOptions.admit_iff.mp hadmitted
  obtain ⟨built, hbuilt, hwritable, hmeasure⟩ :=
    @parts_of_admits env kind options _ _ _ hcuts hdecodes hn hsized hword hindex
  have hcheck := (checkBuildSectionSize_eq_ok_iff hwritable.increases hsized.maxEncodedBytes
    (u := ⟨⟩)).mpr (show (kind.parts built).size ≤ _ from hmeasure ▸ hsections)
  obtain ⟨sidecar, hsidecar⟩ := assembleSidecar_eq env hsource halgorithm hopened.layout.size_lt
    hwritable (hmeasure ▸ hmemory)
  rw [hbuild, hsize, hbuilt, ok_bind, hcheck, ok_bind]
  exact ⟨sidecar, hsidecar⟩

end Opened

/-- Admission is exact and inclusive.  Over every container that opens and whose chunks decode to
text, for every kind of index and all options, a build succeeds exactly when the text is within
every limit, and otherwise fails with a resource limit.  The sections are vectors in memory, so
together they have less than `2^63` bytes. -/
theorem buildSearchSidecar_admission (served : FaithfulSource bytes)
    (hopen : QztFileReader.openReadAtWithLimits env served.source served.len limits = .ok reader)
    (hdecodes : ∀ entry ∈ reader.details.chunkEntries, ∃ part,
      reader.decodeEntry env entry = .ok part ∧ (fromUtf8 part).isSome = true)
    (hkind : kind ≠ .ngram 0) (hn : ∀ n, kind = .ngram n → n < 2 ^ 64)
    (hsized : options.limits.Sized) (hword : options.maxLineBytes < 2 ^ 64)
    (hmemory : sectionsSize reader.details.chunkEntries kind.keys
      (originalText (reader.decodeEntry env) reader.details.chunkEntries) < 2 ^ 63) :
    ((∃ sidecar, buildSearchSidecarFromFileWithOptions env reader kind options = .ok sidecar) ↔
      options.Admit kind reader.details.chunkEntries
        (originalText (reader.decodeEntry env) reader.details.chunkEntries)) ∧
    (¬ options.Admit kind reader.details.chunkEntries
        (originalText (reader.decodeEntry env) reader.details.chunkEntries) →
      buildSearchSidecarFromFileWithOptions env reader kind options =
        .error .resourceLimitExceeded) := by
  rw [QztFileReader.openReadAtWithLimits, served.openSkeletonDetailsReadAt_eq] at hopen
  obtain ⟨details, hdetails, hreader⟩ := bind_eq_ok_iff.mp hopen
  obtain rfl : served.fileReader details = reader := Except.ok.inj hreader
  have hcuts := cutsInto_of_open served hdetails
  have herror := buildSearchSidecar_of_not_admits served hdetails hcuts hdecodes hkind hn hsized hword
  refine ⟨⟨?_, ?_⟩, herror⟩
  · rintro ⟨sidecar, hok⟩
    by_contra hnot
    rw [herror hnot] at hok
    cases hok
  · intro hadmitted
    exact buildSearchSidecar_of_admits served hdetails hcuts hdecodes hkind hn hsized hword hadmitted
      hmemory

end Build

/-- Whether a chunk decodes to text. -/
def decodesToText (decode : DecodeEntry) (entry : ChunkEntry) : Bool :=
  match decode entry with
  | .ok part => (fromUtf8 part).isSome
  | .error _ => false

theorem decodesToText_eq_true {decode : DecodeEntry} {entry : ChunkEntry}
    (h : decodesToText decode entry = true) :
    ∃ part, decode entry = .ok part ∧ (fromUtf8 part).isSome = true := by
  unfold decodesToText at h
  split at h
  · rename_i part hdecode
    exact ⟨part, hdecode, h⟩
  · cases h

/-- The default options but for the bytes of the sections. -/
def roomFor (maxEncodedBytes : Nat) : SidecarBuildOptions where
  limits := { IndexBuildLimits.default with maxEncodedBytes }

/-- What the law says about a container is decided by these values. -/
def tokenAdmission (container : List UInt8) :
    Result (Bool × Nat × Option QztError × Option QztError) := do
  let reader ← QztFileReader.openReadAt Reference.env (memorySource container) container.length
  let decode := reader.decodeEntry Reference.env
  let size := sectionsSize reader.details.chunkEntries .token
    (originalText decode reader.details.chunkEntries)
  return (reader.details.chunkEntries.all (decodesToText decode), size,
    failureOf (buildSearchSidecarFromFileWithOptions Reference.env reader .token (roomFor 102)),
    failureOf (buildSearchSidecarFromFileWithOptions Reference.env reader .token (roomFor 101)))

set_option maxRecDepth 100000 in
/-- The sections of the three lines have 102 bytes. -/
theorem tokenAdmission_staleContainer : staleContainer.length < 2 ^ 64 ∧
    tokenAdmission staleContainer = .ok (true, 102, none, some .resourceLimitExceeded) := by
  decide +kernel

theorem roomFor_sized {maxEncodedBytes : Nat} (h : maxEncodedBytes < 2 ^ 64) :
    (roomFor maxEncodedBytes).limits.Sized :=
  ⟨(by decide : 1000000 < 2 ^ 64), (by decide : 262144 < 2 ^ 64), (by decide : 8000000 < 2 ^ 64),
    (by decide : 16 * 1024 * 1024 < 2 ^ 64), h⟩

/-- With 102 bytes for the sections the lines are admitted, with 101 they are not. -/
theorem buildSearchSidecar_admission_staleContainer : ∃ reader,
    QztFileReader.openReadAt Reference.env (memorySource staleContainer) staleContainer.length =
      .ok reader ∧
    (roomFor 102).Admit .token reader.details.chunkEntries
      (originalText (reader.decodeEntry Reference.env) reader.details.chunkEntries) ∧
    ¬ (roomFor 101).Admit .token reader.details.chunkEntries
      (originalText (reader.decodeEntry Reference.env) reader.details.chunkEntries) ∧
    buildSearchSidecarFromFileWithOptions Reference.env reader .token (roomFor 101) =
      .error .resourceLimitExceeded := by
  obtain ⟨hlt, hrun⟩ := tokenAdmission_staleContainer
  unfold tokenAdmission at hrun
  obtain ⟨reader, hreader, hrun⟩ := bind_eq_ok_iff.mp hrun
  obtain ⟨hall, hsize, hwide, htight⟩ : _ ∧ _ ∧ _ ∧ _ := by simpa using hrun
  have hdecodes : ∀ entry ∈ reader.details.chunkEntries, ∃ part,
      reader.decodeEntry Reference.env entry = .ok part ∧ (fromUtf8 part).isSome = true :=
    fun entry hentry => decodesToText_eq_true (hall entry hentry)
  have hmemory : sectionsSize reader.details.chunkEntries (SidecarIndexKind.keys .token)
      (originalText (reader.decodeEntry Reference.env) reader.details.chunkEntries) < 2 ^ 63 := by
    rw [SidecarIndexKind.keys, hsize]
    decide
  have hlaw := fun maxEncodedBytes (hword : maxEncodedBytes < 2 ^ 64) =>
    @buildSearchSidecar_admission Reference.env _ _ reader .token (roomFor maxEncodedBytes)
      (servedInMemory staleContainer hlt) hreader hdecodes (by decide)
      (fun n hn => by cases hn) (roomFor_sized hword)
      (by decide : 16 * 1024 * 1024 < 2 ^ 64) hmemory
  refine ⟨reader, hreader, ?_, ?_, failureOf_eq_some htight⟩
  · exact (hlaw 102 (by decide)).1.mp (failureOf_eq_none hwide)
  · intro hadmitted
    obtain ⟨sidecar, hok⟩ := (hlaw 101 (by decide)).1.mpr hadmitted
    rw [failureOf_eq_some htight] at hok
    cases hok

end Qzt.Sidecar
