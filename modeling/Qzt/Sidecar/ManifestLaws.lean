import Mathlib.Algebra.Group.Action.Defs
import Mathlib.Algebra.Order.BigOperators.Group.List
import Qzt.Cbor.Prediction
import Qzt.Container.SchemaLaws
import Qzt.Sidecar.Manifest

/-!
# The manifest is encoded

Every manifest whose numbers are machine words and whose checksums are BLAKE3 has an
encoding, and a small one.
-/

namespace Qzt.Sidecar

open Foundation

/-! ## Small values -/

/-- The value has an encoding of at most `bound` bytes. -/
structure Small (bound : Nat) (value : CborValue) : Prop where
  encodable : Encodable value
  size : value.usage.encodedBytes ≤ bound

theorem Small.mono {bound bound' : Nat} {value : CborValue} (h : Small bound value)
    (hle : bound ≤ bound') : Small bound' value :=
  ⟨h.encodable, Nat.le_trans h.size hle⟩

theorem small_integer {value : Nat} (h : value < 2 ^ 64) : Small 41 (.integer value) where
  encodable := encodable_u64Value h
  size := by
    have hhead := headLen_le ((integerArgument (value : Int)).getD (0, 0)).2
    rw [CborValue.usage]
    dsimp only
    omega

theorem small_textOf {text : String} {length : Nat} (h : (textBytes text).length ≤ length)
    (hword : length < 2 ^ 64) : Small (9 + length) (.text text) where
  encodable := .text (Nat.lt_of_le_of_lt h hword)
  size := by
    have hhead := headLen_le (textBytes text).length
    rw [CborValue.usage, stringUsage]
    dsimp only
    omega

theorem small_text {text : String} (h : (textBytes text).length ≤ 32) : Small 41 (.text text) :=
  small_textOf h (by decide)

theorem small_bytes {bytes : List UInt8} (h : bytes.length ≤ 32) : Small 41 (.bytes bytes) where
  encodable := .bytes (by omega)
  size := by
    have hhead := headLen_le bytes.length
    rw [CborValue.usage, stringUsage]
    dsimp only
    omega

theorem small_bool (value : Bool) : Small 41 (.bool value) :=
  ⟨.bool value, by rw [CborValue.usage]; decide⟩

theorem small_null : Small 41 .null :=
  ⟨.null, by rw [CborValue.usage]; decide⟩

theorem usageEntries_encodedBytes (entries : List (CborValue × CborValue)) :
    (usageEntries entries).encodedBytes =
      (entries.map fun entry => entry.1.usage.encodedBytes + entry.2.usage.encodedBytes).sum := by
  induction entries with
  | nil => rfl
  | cons entry entries ih =>
    rw [usageEntries]
    simp only [CborUsage.add_encodedBytes, List.map_cons, List.sum_cons, ih]
    omega

/-- A map of small values under short keys. -/
theorem small_map {entries : List (CborValue × CborValue)} {bound : Nat} (keys : List String)
    (hkeys : entries.map Prod.fst = keys.map .text) (hnodup : keys.Nodup)
    (hcount : keys.length < 2 ^ 64) (hshort : ∀ key ∈ keys, (textBytes key).length ≤ 32)
    (hvalues : ∀ entry ∈ entries, Small bound entry.2) :
    Small (9 + keys.length * (41 + bound)) (.map entries) where
  encodable := .textMap hkeys hnodup hcount
    (fun key hkey => Nat.lt_of_le_of_lt (hshort key hkey) (by decide))
    fun entry hentry => (hvalues entry hentry).encodable
  size := by
    have hlength : entries.length = keys.length := by
      have hmaps := congrArg List.length hkeys
      rwa [List.length_map, List.length_map] at hmaps
    have hentry : ∀ entry ∈ entries,
        entry.1.usage.encodedBytes + entry.2.usage.encodedBytes ≤ 41 + bound := by
      intro entry hentry
      have hkey : entry.1 ∈ keys.map CborValue.text := hkeys ▸ List.mem_map_of_mem hentry
      obtain ⟨key, hmem, heq⟩ := List.mem_map.mp hkey
      rw [← heq]
      exact Nat.add_le_add (small_text (hshort key hmem)).size (hvalues entry hentry).size
    have hsum := List.sum_le_card_nsmul (entries.map fun entry =>
      entry.1.usage.encodedBytes + entry.2.usage.encodedBytes) (41 + bound) (by
        intro size hsize
        obtain ⟨entry, hmem, rfl⟩ := List.mem_map.mp hsize
        exact hentry entry hmem)
    have hhead := headLen_le entries.length
    rw [List.length_map, smul_eq_mul, hlength] at hsum
    rw [CborValue.usage, CborUsage.add_encodedBytes, usageEntries_encodedBytes]
    dsimp only
    omega

/-! ## The manifest -/

theorem small_checksumValue {checksum : Checksum}
    (h : checksum.algorithm = checksumAlgorithmBlake3) : Small 173 (checksumValue checksum) := by
  refine @small_map _ 41 ["algorithm", "value"] rfl (by decide) (by decide) (by decide) ?_
  simp only [List.forall_mem_cons, List.not_mem_nil, false_implies, implies_true, and_true, textPair]
  refine ⟨small_text (by rw [h]; decide), small_bytes ?_⟩
  rw [List.Vector.toList_length]

/-- The section reference has a BLAKE3 checksum, and its numbers are words. -/
structure SectionRef.Sized (sectionRef : SectionRef) : Prop where
  offset : sectionRef.offset < 2 ^ 64
  size : sectionRef.size < 2 ^ 64
  checksum : sectionRef.checksum.algorithm = checksumAlgorithmBlake3

theorem small_sectionRefValue {sectionRef : SectionRef} (h : sectionRef.Sized) :
    Small 651 (sectionRefValue sectionRef) := by
  refine @small_map _ 173 ["offset", "size", "checksum"] rfl (by decide) (by decide) (by decide) ?_
  simp only [List.forall_mem_cons, List.not_mem_nil, false_implies, implies_true, and_true, textPair]
  exact ⟨(small_integer h.offset).mono (by omega), (small_integer h.size).mono (by omega),
    small_checksumValue h.checksum⟩

/-- The numbers of the manifest are words and its checksums BLAKE3 checksums. -/
structure SidecarManifest.Sized (manifest : SidecarManifest) : Prop where
  sourceOriginalChecksum : manifest.sourceOriginalChecksum.algorithm = checksumAlgorithmBlake3
  sourceQztFooterChecksum : manifest.sourceQztFooterChecksum.algorithm = checksumAlgorithmBlake3
  indexType : (textBytes manifest.indexType).length ≤ 32
  ngramN : ∀ n ∈ manifest.ngramN, n < 2 ^ 64
  highDfPerMillion : manifest.highDfPerMillion < 2 ^ 64
  indexSizeBytes : manifest.indexSizeBytes < 2 ^ 64
  sourceSizeBytes : manifest.sourceSizeBytes < 2 ^ 64
  granules : manifest.granules.Sized
  terms : manifest.terms.Sized
  postings : manifest.postings.Sized

/-- The keys of the nested index manifest. -/
def indexManifestKeys : List String :=
  ["schema", "kind", "posting_granularity", "index_size_bytes", "source_size_bytes"]

/-- The entries of the nested index manifest. -/
def indexManifestEntries (manifest : SidecarManifest) : CborMap :=
  [ textPair "schema" (.text "qzt.search-index.v1"), textPair "kind" (.text manifest.indexType),
    textPair "posting_granularity" (.text "line"),
    textPair "index_size_bytes" (.integer manifest.indexSizeBytes),
    textPair "source_size_bytes" (.integer manifest.sourceSizeBytes)]

/-- The keys of the sections. -/
def sectionKeys : List String :=
  ["granules", "terms", "postings"]

/-- The entries of the sections. -/
def sectionEntries (manifest : SidecarManifest) : CborMap :=
  [ textPair "granules" (sectionRefValue manifest.granules),
    textPair "terms" (sectionRefValue manifest.terms),
    textPair "postings" (sectionRefValue manifest.postings)]

/-- The keys of a manifest. -/
def manifestKeys : List String :=
  ["schema", "source_container_id", "source_format_version", "source_original_checksum",
    "source_qzt_footer_checksum", "index_type", "ngram_n", "complete", "high_df_per_million",
    "granule_encoding", "term_encoding", "index_manifest", "sections"]

theorem small_formatVersion : Small 41 (.array [.integer 0, .integer 1]) := by
  refine ⟨.array (by decide) ?_, by decide⟩
  simp only [List.forall_mem_cons, List.not_mem_nil, false_implies, implies_true, and_true]
  exact ⟨.integer (by decide) (by decide), .integer (by decide) (by decide)⟩

/-- The width of an n-gram index, or null. -/
def ngramNValue : Option Nat → CborValue
  | none => .null
  | some n => .integer n

/-- The entries of an encoded manifest. -/
def manifestEntries (manifest : SidecarManifest) : CborMap :=
  [ textPair "schema" (.text manifest.formatVersion.schemaName),
    textPair "source_container_id" (.bytes manifest.sourceContainerId.toList),
    textPair "source_format_version" (.array [.integer 0, .integer 1]),
    textPair "source_original_checksum" (checksumValue manifest.sourceOriginalChecksum),
    textPair "source_qzt_footer_checksum" (checksumValue manifest.sourceQztFooterChecksum),
    textPair "index_type" (.text manifest.indexType),
    textPair "ngram_n" (ngramNValue manifest.ngramN),
    textPair "complete" (.bool manifest.complete),
    textPair "high_df_per_million" (.integer manifest.highDfPerMillion),
    textPair "granule_encoding" (.text manifest.granuleEncoding.manifestName),
    textPair "term_encoding" (.text manifest.termEncoding.manifestName),
    textPair "index_manifest" (.map (indexManifestEntries manifest)),
    textPair "sections" (.map (sectionEntries manifest))]

theorem encodeManifest_entries (manifest : SidecarManifest) :
    encodeManifest manifest = encodeDeterministic (.map (manifestEntries manifest)) :=
  rfl

/-- The numbers of the manifest are words, its checksums BLAKE3 checksums, and its index type has
at most `length` bytes. -/
structure SidecarManifest.SizedBy (length : Nat) (manifest : SidecarManifest) : Prop where
  sourceOriginalChecksum : manifest.sourceOriginalChecksum.algorithm = checksumAlgorithmBlake3
  sourceQztFooterChecksum : manifest.sourceQztFooterChecksum.algorithm = checksumAlgorithmBlake3
  indexType : (textBytes manifest.indexType).length ≤ length
  ngramN : ∀ n ∈ manifest.ngramN, n < 2 ^ 64
  highDfPerMillion : manifest.highDfPerMillion < 2 ^ 64
  indexSizeBytes : manifest.indexSizeBytes < 2 ^ 64
  sourceSizeBytes : manifest.sourceSizeBytes < 2 ^ 64
  granules : manifest.granules.Sized
  terms : manifest.terms.Sized
  postings : manifest.postings.Sized

theorem SidecarManifest.Sized.by {manifest : SidecarManifest} (h : manifest.Sized) :
    manifest.SizedBy 32 :=
  ⟨h.sourceOriginalChecksum, h.sourceQztFooterChecksum, h.indexType, h.ngramN, h.highDfPerMillion,
    h.indexSizeBytes, h.sourceSizeBytes, h.granules, h.terms, h.postings⟩

/-- The index type stands in the encoding twice. -/
theorem small_manifestEntries {manifest : SidecarManifest} {length : Nat}
    (h : manifest.SizedBy length) (hleast : 32 ≤ length) (hword : length < 2 ^ 64) :
    Small (31014 + 65 * length) (.map (manifestEntries manifest)) := by
  have hngram : Small 41 (ngramNValue manifest.ngramN) := by
    have hn := h.ngramN
    cases hcase : manifest.ngramN with
    | none => exact small_null
    | some n => exact small_integer (hn n hcase)
  have htype : Small (9 + length) (.text manifest.indexType) := small_textOf h.indexType hword
  have hindex : Small (9 + 5 * (41 + (9 + length))) (.map (indexManifestEntries manifest)) := by
    refine @small_map _ (9 + length) indexManifestKeys rfl (by decide) (by decide) (by decide) ?_
    simp only [indexManifestEntries, List.forall_mem_cons, List.not_mem_nil, false_implies,
      implies_true, and_true, textPair]
    exact ⟨(small_text (by decide)).mono (by omega), htype, (small_text (by decide)).mono (by omega),
      (small_integer h.indexSizeBytes).mono (by omega),
      (small_integer h.sourceSizeBytes).mono (by omega)⟩
  have hsections : Small 2085 (.map (sectionEntries manifest)) := by
    refine @small_map _ 651 sectionKeys rfl (by decide) (by decide) (by decide) ?_
    simp only [sectionEntries, List.forall_mem_cons, List.not_mem_nil, false_implies, implies_true,
      and_true, textPair]
    exact ⟨small_sectionRefValue h.granules, small_sectionRefValue h.terms,
      small_sectionRefValue h.postings⟩
  have hmap : Small (9 + manifestKeys.length * (41 + (2344 + 5 * length)))
      (.map (manifestEntries manifest)) := by
    refine @small_map _ _ manifestKeys rfl (by decide) (by decide) (by decide) ?_
    simp only [manifestEntries, List.forall_mem_cons, List.not_mem_nil, false_implies,
      implies_true, and_true, textPair]
    refine ⟨(small_text ?_).mono (by omega), (small_bytes ?_).mono (by omega),
      small_formatVersion.mono (by omega),
      (small_checksumValue h.sourceOriginalChecksum).mono (by omega),
      (small_checksumValue h.sourceQztFooterChecksum).mono (by omega),
      htype.mono (by omega), hngram.mono (by omega),
      (small_bool _).mono (by omega), (small_integer h.highDfPerMillion).mono (by omega),
      (small_text ?_).mono (by omega), (small_text ?_).mono (by omega), hindex.mono (by omega),
      hsections.mono (by omega)⟩
    · cases manifest.formatVersion <;> decide
    · rw [List.Vector.toList_length]
      decide
    · cases manifest.granuleEncoding <;> decide
    · cases manifest.termEncoding <;> decide
  refine hmap.mono ?_
  change 9 + 13 * (41 + (2344 + 5 * length)) ≤ 31014 + 65 * length
  omega

/-! ## Any index type -/

/-- The numbers of a manifest as its types hold them. -/
structure SidecarManifest.InWords (manifest : SidecarManifest) : Prop where
  indexType : (textBytes manifest.indexType).length < 2 ^ 64
  ngramN : ∀ n ∈ manifest.ngramN, n < 2 ^ 64
  highDfPerMillion : manifest.highDfPerMillion < 2 ^ 32
  indexSizeBytes : manifest.indexSizeBytes < 2 ^ 64
  sourceSizeBytes : manifest.sourceSizeBytes < 2 ^ 64
  sections : ∀ sectionRef ∈ [manifest.granules, manifest.terms, manifest.postings],
    sectionRef.offset < 2 ^ 64 ∧ sectionRef.size < 2 ^ 64

/-- The checksums of a manifest. -/
def SidecarManifest.checksums (manifest : SidecarManifest) : List Checksum :=
  [manifest.sourceOriginalChecksum, manifest.sourceQztFooterChecksum, manifest.granules.checksum,
    manifest.terms.checksum, manifest.postings.checksum]

/-- Its checksums are BLAKE3 checksums. -/
def SidecarManifest.Blake3 (manifest : SidecarManifest) : Prop :=
  ∀ checksum ∈ manifest.checksums, checksum.algorithm = checksumAlgorithmBlake3

/-- The numbers of a manifest and its checksums, whatever its index type. -/
theorem SidecarManifest.sizedBy {manifest : SidecarManifest} (hwords : manifest.InWords)
    (h : manifest.Blake3) {length : Nat} (hlength : (textBytes manifest.indexType).length ≤ length) :
    manifest.SizedBy length := by
  have hsections := hwords.sections
  simp only [List.forall_mem_cons, List.not_mem_nil, false_implies, implies_true, and_true]
    at hsections
  obtain ⟨hgranules, hterms, hpostings⟩ := hsections
  exact ⟨h _ (by simp [checksums]), h _ (by simp [checksums]), hlength, hwords.ngramN,
    Nat.lt_trans hwords.highDfPerMillion (by decide), hwords.indexSizeBytes, hwords.sourceSizeBytes,
    ⟨hgranules.1, hgranules.2, h _ (by simp [checksums])⟩,
    ⟨hterms.1, hterms.2, h _ (by simp [checksums])⟩,
    ⟨hpostings.1, hpostings.2, h _ (by simp [checksums])⟩⟩

theorem encodable_manifestEntries {manifest : SidecarManifest} (hwords : manifest.InWords)
    (h : manifest.Blake3) : Encodable (.map (manifestEntries manifest)) := by
  have hsized := manifest.sizedBy hwords h (Nat.le_max_left (textBytes manifest.indexType).length 32)
  exact (small_manifestEntries hsized (Nat.le_max_right _ _)
    (Nat.max_lt.mpr ⟨hwords.indexType, by decide⟩)).encodable

theorem length_of_encodeManifest {manifest : SidecarManifest} {length : Nat}
    (h : manifest.SizedBy length) (hleast : 32 ≤ length) (hword : length < 2 ^ 64)
    {bytes : List UInt8} (hencode : encodeManifest manifest = .ok bytes) :
    bytes.length ≤ 31014 + 65 * length := by
  have hsmall := small_manifestEntries h hleast hword
  rw [encodeManifest_entries, encodeDeterministic] at hencode
  rw [← encodedForm_eq hencode, hsmall.encodable.roundTrips.length]
  exact hsmall.size

/-- A sized manifest is encoded, in less than `2^32` bytes. -/
theorem encodeManifest_eq {manifest : SidecarManifest} (h : manifest.Sized) :
    ∃ bytes, encodeManifest manifest = .ok bytes ∧ bytes.length < 2 ^ 32 := by
  have hsmall := small_manifestEntries h.by (Nat.le_refl 32) (by decide)
  have hencode : encodeManifest manifest = .ok (encodedForm (.map (manifestEntries manifest))) :=
    hsmall.encodable.roundTrips.encodes
  exact ⟨_, hencode, Nat.lt_of_le_of_lt
    (length_of_encodeManifest h.by (Nat.le_refl 32) (by decide) hencode) (by decide)⟩

end Qzt.Sidecar
