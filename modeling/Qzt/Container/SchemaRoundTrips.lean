import Qzt.Container.DocumentAdmission
import Qzt.Container.FooterFixedPoint

/-!
# The schema codecs round-trip

A value that a decoder accepts, and whose encoding the default CBOR limits cover, is decoded
from its own encoding.  The limits bound every text and every array of the value, and with
them the whole encoding.
-/

namespace Qzt

open Foundation

/-! ## Usage bounds the encoding -/

mutual

/-- Every item takes a head of at most nine bytes, and its payload is allocated. -/
theorem usage_encodedBytes_le : (value : CborValue) →
    value.usage.encodedBytes ≤ 9 * value.usage.items + value.usage.allocation
  | .integer value => by
    have hhead := headLen_le ((integerArgument value).getD (0, 0)).2
    simp only [CborValue.usage]
    omega
  | .bytes bytes => by
    have hstring := usage_string_le bytes.length
    simp only [CborValue.usage, stringUsage] at *
    omega
  | .text text => by
    have hstring := usage_string_le (textBytes text).length
    simp only [CborValue.usage, stringUsage] at *
    omega
  | .array values => by
    have hhead := headLen_le values.length
    have hvalues := usageValues_encodedBytes_le values
    simp only [CborValue.usage, CborUsage.add_items, CborUsage.add_allocation,
      CborUsage.add_encodedBytes]
    omega
  | .map entries => by
    have hhead := headLen_le entries.length
    have hentries := usageEntries_encodedBytes_le entries
    simp only [CborValue.usage, CborUsage.add_items, CborUsage.add_allocation,
      CborUsage.add_encodedBytes]
    omega
  | .bool _ => Nat.le_add_right 1 8
  | .null => Nat.le_add_right 1 8

theorem usageValues_encodedBytes_le : (values : List CborValue) →
    (usageValues values).encodedBytes ≤
      9 * (usageValues values).items + (usageValues values).allocation
  | [] => Nat.le_refl _
  | value :: values => by
    have hvalue := usage_encodedBytes_le value
    have hvalues := usageValues_encodedBytes_le values
    simp only [usageValues, CborUsage.add_items, CborUsage.add_allocation,
      CborUsage.add_encodedBytes]
    omega

theorem usageEntries_encodedBytes_le : (entries : List (CborValue × CborValue)) →
    (usageEntries entries).encodedBytes ≤
      9 * (usageEntries entries).items + (usageEntries entries).allocation
  | [] => Nat.le_refl _
  | (key, value) :: entries => by
    have hkey := usage_encodedBytes_le key
    have hvalue := usage_encodedBytes_le value
    have hentries := usageEntries_encodedBytes_le entries
    simp only [usageEntries, CborUsage.add_items, CborUsage.add_allocation,
      CborUsage.add_encodedBytes]
    omega

end

/-- An element allocates no more than the array it is in. -/
theorem allocation_le_of_mem_array {values : List CborValue} {value : CborValue}
    (h : value ∈ values) : value.usage.allocation ≤ (CborValue.array values).usage.allocation := by
  rw [CborValue.usage, CborUsage.add_allocation, Nat.zero_add]
  induction values with
  | nil => cases h
  | cons head values ih =>
    rw [usageValues, CborUsage.add_allocation]
    rcases List.mem_cons.mp h with rfl | htail
    · exact Nat.le_add_right _ _
    · exact Nat.le_trans (ih htail) (Nat.le_add_left _ _)

/-- A field allocates no more than the map it is in. -/
theorem allocation_le_of_mem_map {entries : CborMap} {key : String} {value : CborValue}
    (h : textPair key value ∈ entries) :
    value.usage.allocation ≤ (CborValue.map entries).usage.allocation := by
  rw [CborValue.usage, CborUsage.add_allocation, Nat.zero_add]
  induction entries with
  | nil => cases h
  | cons head entries ih =>
    rcases List.mem_cons.mp h with rfl | htail
    · simp only [textPair, usageEntries, CborUsage.add_allocation]
      omega
    · have hrest := ih htail
      simp only [usageEntries, CborUsage.add_allocation]
      omega

/-- The default limits cover the items and the allocation of the value. -/
structure CborValue.WithinDefaults (value : CborValue) : Prop where
  items : value.usage.items ≤ CborLimits.default.maxItems
  allocation : value.usage.allocation ≤ CborLimits.default.maxAllocation

namespace CborValue.WithinDefaults

/-- The encoding of a value within the defaults is read back. -/
theorem validates {value : CborValue} (h : value.WithinDefaults) (hencodable : Encodable value)
    (hdepth : value.depth ≤ maxNestingDepth) :
    ∃ bytes, encodeDeterministic value = .ok bytes ∧
      validateDeterministic bytes = .ok value.sorted := by
  obtain ⟨bytes, hencode, hvalid⟩ := validateDeterministic_encodeDeterministic hencodable hdepth
  refine ⟨bytes, hencode, hvalid ?_ _ h.items h.allocation⟩
  have htrips := hencodable.roundTrips
  have hlen : bytes.length = value.usage.encodedBytes := by
    rw [← htrips.length, encodedForm_eq hencode]
  have hbytes := usage_encodedBytes_le value
  have hitems := h.items
  have hallocation := h.allocation
  simp only [CborLimits.default] at hitems hallocation
  omega

/-- What the value allocates is a word. -/
theorem allocation_lt {value : CborValue} (h : value.WithinDefaults) :
    value.usage.allocation < 2 ^ 64 :=
  Nat.lt_of_le_of_lt h.allocation (by decide)

end CborValue.WithinDefaults

/-! ## Footer payload -/

/-- The footer payloads a reader accepts, with the numbers their types hold. -/
structure FooterPayload.Accepted (payload : FooterPayload) : Prop where
  rootWords : payload.indexRoot.InWords
  metadataWords : payload.metadata.InWords
  finalFileSize : payload.finalFileSize < 2 ^ 64
  flags : payload.footerFlags = 0
  blake3 : payload.Blake3

namespace FooterPayload

theorem Accepted.encodable {payload : FooterPayload} (h : payload.Accepted) :
    Encodable (.map payload.entries) := by
  have hblake3 : (textBytes checksumAlgorithmBlake3).length = 6 := by decide
  have hnames : footerNamesLen payload.indexRoot payload.metadata payload.containerChecksum <
      2 ^ 63 := by
    have hcontainer := h.blake3.containerChecksum
    rw [footerNamesLen, h.blake3.indexRoot, h.blake3.metadata, hblake3]
    cases hchecksum : payload.containerChecksum with
    | none => simp
    | some checksum =>
      rw [Option.elim_some, hcontainer checksum hchecksum, hblake3]
      decide
  have hcandidate : payload = footerCandidate payload.containerId payload.indexRoot
      payload.metadata payload.containerChecksum payload.finalFileSize := by
    have hflags := h.flags
    cases payload
    simp only at hflags
    rw [hflags]
    rfl
  rw [hcandidate]
  exact encodable_footerCandidate ⟨h.rootWords, h.metadataWords, hnames⟩ h.finalFileSize

/-- References, their checksums, and nothing deeper. -/
theorem depth_entries_le (payload : FooterPayload) :
    (CborValue.map payload.entries).depth ≤ maxNestingDepth := by
  unfold FooterPayload.entries
  cases payload.containerChecksum with
  | none => exact Nat.le_of_lt_succ (show 3 < 65 by decide)
  | some checksum => exact Nat.le_of_lt_succ (show 3 < 65 by decide)

theorem roundTrips {payload : FooterPayload} (h : payload.Accepted)
    (hlimits : (CborValue.map payload.entries).WithinDefaults) :
    ∃ bytes, payload.encode = .ok bytes ∧ decode bytes = .ok payload := by
  obtain ⟨bytes, hencode, hvalid⟩ := hlimits.validates h.encodable payload.depth_entries_le
  exact ⟨bytes, hencode, decode_encode hencode hvalid h.flags h.blake3⟩

end FooterPayload

/-! ## Metadata -/

/-- The numbers are `u64` values. -/
structure Metadata.InWords (metadata : Metadata) : Prop where
  originalSize : metadata.originalSize < 2 ^ 64
  lineCount : metadata.lineCount < 2 ^ 64
  targetChunkSize : metadata.targetChunkSize < 2 ^ 64
  maxChunkSize : metadata.maxChunkSize < 2 ^ 64

namespace Metadata

theorem encodable_entries {metadata : Metadata} (hwords : metadata.InWords)
    (h : metadata.Accepted) : Encodable (.map metadata.entries) := by
  have hnewline : ∀ mode ∈ ["none", "lf", "crlf", "mixed"], (textBytes mode).length < 2 ^ 64 := by
    decide
  have hdictionary : ∀ mode ∈ ["none", "embedded"], (textBytes mode).length < 2 ^ 64 := by decide
  have hprofile : ∀ profile ∈ ["minimal", "core", "log", "archive", "memory"],
      (textBytes profile).length < 2 ^ 64 := by decide
  have hle := metadata.zstdLevel.toInt_lt
  have hge := metadata.zstdLevel.le_toInt
  have hchecksum : Encodable (checksumValue metadata.originalChecksum) :=
    encodable_checksumValue (by rw [h.originalChecksum]; decide)
  refine @Encodable.textMap _ metadataKeys rfl (by decide) (by decide) (by decide) ?_
  simp only [entries, List.forall_mem_cons, List.not_mem_nil, false_implies, implies_true,
    and_true, textPair]
  refine ⟨.text (by decide), .text (by decide), encodable_versionValue,
    encodable_vector (by decide) metadata.containerId, ?_, ?_, ?_, ?_, ?_, ?_, ?_⟩
  · refine @Encodable.textMap _ ["name", "profile", "created_by", "created_at_unix_ms"] rfl
      (by decide) (by decide) (by decide) ?_
    simp only [identityEntries, List.forall_mem_cons, List.not_mem_nil, false_implies,
      implies_true, and_true, textPair]
    exact ⟨.null, .text (hprofile _ h.profile), .text (by decide), .null⟩
  · refine @Encodable.textMap _ ["media_type", "encoding", "original_size", "original_checksum",
      "newline_mode", "line_count"] rfl (by decide) (by decide) (by decide) ?_
    simp only [sourceEntries, List.forall_mem_cons, List.not_mem_nil, false_implies,
      implies_true, and_true, textPair]
    exact ⟨.text (by decide), .text (by decide), encodable_u64Value hwords.originalSize, hchecksum,
      .text (hnewline _ h.newlineMode), encodable_u64Value hwords.lineCount⟩
  · refine @Encodable.textMap _ ["codec", "zstd_level", "independent_frames",
      "zstd_frame_checksum", "dictionary_mode"] rfl (by decide) (by decide) (by decide) ?_
    simp only [compressionEntries, List.forall_mem_cons, List.not_mem_nil, false_implies,
      implies_true, and_true, textPair]
    exact ⟨.text (by decide), .integer (by omega) (by omega), .bool true, .bool false,
      .text (hdictionary _ h.dictionaryMode)⟩
  · refine @Encodable.textMap _ ["target_chunk_size", "max_chunk_size", "boundary",
      "utf8_boundary_required"] rfl (by decide) (by decide) (by decide) ?_
    simp only [chunkingEntries, List.forall_mem_cons, List.not_mem_nil, false_implies,
      implies_true, and_true, textPair]
    exact ⟨encodable_u64Value hwords.targetChunkSize, encodable_u64Value hwords.maxChunkSize,
      .text (by decide), .bool true⟩
  · refine @Encodable.textMap _ ["chunk_table", "sparse_line_index", "dense_line_index",
      "document_index", "token_index", "ngram_index", "vector_index"] rfl (by decide) (by decide)
      (by decide) ?_
    simp only [indexesEntries, List.forall_mem_cons, List.not_mem_nil, false_implies,
      implies_true, and_true, textPair]
    exact ⟨.bool true, .bool true, .bool _, .bool _, .bool false, .bool false, .bool false⟩
  · refine @Encodable.textMap _ ["compressed_chunk_checksum", "uncompressed_chunk_checksum",
      "index_checksum"] rfl (by decide) (by decide) (by decide) ?_
    simp only [integrityEntries, List.forall_mem_cons, List.not_mem_nil, false_implies,
      implies_true, and_true, textPair]
    exact ⟨.text (by decide), .text (by decide), .text (by decide)⟩
  · refine @Encodable.textMap _ ["qzt_is_zst_stream", "chunks_are_independent_zstd_frames"] rfl
      (by decide) (by decide) (by decide) ?_
    simp only [compatibilityEntries, List.forall_mem_cons, List.not_mem_nil, false_implies,
      implies_true, and_true, textPair]
    exact ⟨.bool false, .bool true⟩

theorem depth_entries_le (metadata : Metadata) :
    (CborValue.map metadata.entries).depth ≤ maxNestingDepth := by
  simp only [entries, identityEntries, sourceEntries, compressionEntries, chunkingEntries,
    indexesEntries, integrityEntries, compatibilityEntries, textPair, u64Value, versionValue,
    checksumValue, CborValue.depth, depthEntries, depthValues]
  decide

theorem roundTrips {metadata : Metadata} (hwords : metadata.InWords) (h : metadata.Accepted)
    (hlimits : (CborValue.map metadata.entries).WithinDefaults) :
    ∃ bytes, metadata.encode = .ok bytes ∧ decode bytes = .ok metadata := by
  obtain ⟨bytes, hencode, hvalid⟩ :=
    hlimits.validates (encodable_entries hwords h) metadata.depth_entries_le
  exact ⟨bytes, hencode, decode_encode hencode hvalid h⟩

end Metadata

/-! ## Index root -/

/-- The numbers of the descriptor are `u64` values. -/
structure BlockDescriptor.InWords (block : BlockDescriptor) : Prop where
  offset : block.offset < 2 ^ 64
  size : block.size < 2 ^ 64

/-- The numbers of the root and of its blocks are `u64` values. -/
structure IndexRoot.InWords (indexRoot : IndexRoot) : Prop where
  blocks : ∀ block ∈ indexRoot.blocks, block.InWords
  originalSize : indexRoot.originalSize < 2 ^ 64
  chunkCount : indexRoot.chunkCount < 2 ^ 64
  lineCount : indexRoot.lineCount < 2 ^ 64

theorem BlockDescriptor.encodable_value {block : BlockDescriptor} (hwords : block.InWords)
    (h : block.Accepted) (hallocation : block.value.usage.allocation < 2 ^ 64) :
    Encodable block.value := by
  have htype : (textBytes block.blockType).length ≤ block.value.usage.allocation :=
    allocation_le_of_mem_map (show textPair "type" (.text block.blockType) ∈ block.entries by
      simp [entries])
  have hcodec : (textBytes block.codec).length ≤ block.value.usage.allocation :=
    allocation_le_of_mem_map (show textPair "codec" (.text block.codec) ∈ block.entries by
      simp [entries])
  have hchecksum : Encodable (checksumValue block.checksum) :=
    encodable_checksumValue (by rw [h.checksum]; decide)
  have hflags : block.flags < 2 ^ 64 := by
    rw [h.flags]
    decide
  refine @Encodable.textMap _ ["type", "required", "offset", "size", "codec", "checksum", "flags"]
    rfl (by decide) (by decide) (by decide) ?_
  simp only [entries, List.forall_mem_cons, List.not_mem_nil, false_implies, implies_true,
    and_true, textPair]
  exact ⟨.text (by omega), .bool _, encodable_u64Value hwords.offset,
    encodable_u64Value hwords.size, .text (by omega), hchecksum, encodable_u64Value hflags⟩

namespace IndexRoot

theorem encodable_entries {indexRoot : IndexRoot} (hwords : indexRoot.InWords)
    (h : indexRoot.Accepted) (hlimits : (CborValue.map indexRoot.entries).WithinDefaults) :
    Encodable (.map indexRoot.entries) := by
  have hblocks := allocation_le_of_mem_map (show textPair "blocks"
    (.array (indexRoot.blocks.map BlockDescriptor.value)) ∈ indexRoot.entries by simp [entries])
  have hword := hlimits.allocation_lt
  have hcount : indexRoot.blocks.length < 2 ^ 64 := by
    -- Every block is an item.
    have hitems := hlimits.items
    have hlength := length_le_usageValues (indexRoot.blocks.map BlockDescriptor.value)
    rw [List.length_map] at hlength
    simp only [entries, textPair, CborValue.usage, usageEntries, CborUsage.add_items,
      CborLimits.default] at hitems
    omega
  have hchecksum : Encodable (checksumValue indexRoot.originalChecksum) :=
    encodable_checksumValue (by rw [h.originalChecksum]; decide)
  refine @Encodable.textMap _ ["schema", "format_version", "container_id", "blocks", "content"] rfl
    (by decide) (by decide) (by decide) ?_
  simp only [entries, List.forall_mem_cons, List.not_mem_nil, false_implies, implies_true,
    and_true, textPair]
  refine ⟨.text (by decide), encodable_versionValue,
    encodable_vector (by decide) indexRoot.containerId, .array ?_ ?_, ?_⟩
  · rw [List.length_map]
    exact hcount
  · intro value hvalue
    have hallocation := allocation_le_of_mem_array hvalue
    obtain ⟨block, hblock, rfl⟩ := List.mem_map.mp hvalue
    exact block.encodable_value (hwords.blocks block hblock) (h.blocks block hblock) (by omega)
  · refine @Encodable.textMap _ ["original_size", "original_checksum", "chunk_count",
      "line_count"] rfl (by decide) (by decide) (by decide) ?_
    simp only [contentEntries, List.forall_mem_cons, List.not_mem_nil, false_implies,
      implies_true, and_true, textPair]
    exact ⟨encodable_u64Value hwords.originalSize, hchecksum, encodable_u64Value hwords.chunkCount,
      encodable_u64Value hwords.lineCount⟩

/-- Blocks, their checksums, and nothing deeper. -/
theorem depth_entries_le (indexRoot : IndexRoot) :
    (CborValue.map indexRoot.entries).depth ≤ maxNestingDepth := by
  have hblocks : ∀ blocks : List BlockDescriptor,
      depthValues (blocks.map BlockDescriptor.value) ≤ 3 := by
    intro blocks
    induction blocks with
    | nil => exact Nat.zero_le 3
    | cons block blocks ih =>
      have hblock : block.value.depth = 2 := rfl
      rw [List.map_cons, depthValues, hblock]
      omega
  have hdepth := hblocks indexRoot.blocks
  simp only [entries, contentEntries, textPair, u64Value, versionValue, checksumValue,
    CborValue.depth, depthEntries, maxNestingDepth]
  simp only [depthValues, CborValue.depth]
  omega

theorem roundTrips {indexRoot : IndexRoot} (hwords : indexRoot.InWords) (h : indexRoot.Accepted)
    (hlimits : (CborValue.map indexRoot.entries).WithinDefaults) :
    ∃ bytes, indexRoot.encode = .ok bytes ∧ decode bytes = .ok indexRoot := by
  obtain ⟨bytes, hencode, hvalid⟩ :=
    hlimits.validates (encodable_entries hwords h hlimits) indexRoot.depth_entries_le
  exact ⟨bytes, hencode, decode_encode hencode hvalid h⟩

end IndexRoot

/-! ## Document index -/

/-- The numbers of an entry are `u64` values. -/
structure DocumentEntry.InWords (entry : DocumentEntry) : Prop where
  logicalOffset : entry.logicalOffset < 2 ^ 64
  byteLength : entry.byteLength < 2 ^ 64
  firstLine : entry.firstLine < 2 ^ 64
  lineCount : entry.lineCount < 2 ^ 64
  chunkStart : entry.chunkStart < 2 ^ 64
  chunkEnd : entry.chunkEnd < 2 ^ 64

/-- The document indexes a reader accepts. -/
structure DocumentIndex.Accepted (index : DocumentIndex) : Prop where
  uniqueDocIds : (index.documents.map DocumentEntry.docId).Nodup
  checksums : ∀ document ∈ index.documents, document.checksum.algorithm = checksumAlgorithmBlake3

namespace DocumentIndex

/-- Limits that cover the value bound its texts and the number of its documents. -/
theorem sized_of_withinDefaults {index : DocumentIndex}
    (hwords : ∀ document ∈ index.documents, document.InWords) (h : index.Accepted)
    (hlimits : index.value.WithinDefaults) : index.Sized := by
  have hdocuments := allocation_le_of_mem_map (show textPair "documents"
    (.array (index.documents.map DocumentEntry.value)) ∈
      index.entriesWithDocuments (index.documents.map DocumentEntry.value) by
        simp [entriesWithDocuments])
  have hword : index.value.usage.allocation < 2 ^ 64 := hlimits.allocation_lt
  rw [value, valueWithDocuments] at hword
  constructor
  · -- Every document is an item.
    have hitems := hlimits.items
    have hlength := length_le_usageValues (index.documents.map DocumentEntry.value)
    rw [List.length_map] at hlength
    rw [usage_value, CborUsage.add_items] at hitems
    simp only [CborLimits.default] at hitems
    omega
  · intro document hdocument
    have hmem : document.value ∈ index.documents.map DocumentEntry.value :=
      List.mem_map_of_mem hdocument
    have hallocation := allocation_le_of_mem_array hmem
    have hid := document.docId_le_allocation
    obtain ⟨hoffset, hlength, hfirst, hlines, hstart, hend⟩ := hwords document hdocument
    refine ⟨by omega, hoffset, hlength, hfirst, hlines, hstart, hend, ?_⟩
    rw [h.checksums document hdocument]
    decide

theorem roundTrips {index : DocumentIndex}
    (hwords : ∀ document ∈ index.documents, document.InWords) (h : index.Accepted)
    (hlimits : index.value.WithinDefaults) :
    ∃ bytes, index.encode = .ok bytes ∧ decode bytes = .ok index := by
  have hsized := sized_of_withinDefaults hwords h hlimits
  obtain ⟨bytes, hencode, hvalid⟩ := hlimits.validates hsized.encodable index.depth_value_le
  have hunique : index.validateUniqueDocIds = .ok ⟨⟩ := by
    rw [validateUniqueDocIds, rejectIf_of_not (not_not.mpr h.uniqueDocIds)]
  have hok : index.encode = .ok bytes := by
    rw [encode, hunique, ok_bind]
    exact hencode
  exact ⟨bytes, hok, decode_encode hok hvalid h.checksums⟩

end DocumentIndex

/-! ## The four schemas -/

/-- The schema codecs round-trip: whatever a decoder accepts, and the default limits cover, is
encoded, and decoded from its encoding. -/
theorem schemaCodecs_roundTrip :
    (∀ payload : FooterPayload, payload.Accepted →
      (CborValue.map payload.entries).WithinDefaults →
        ∃ bytes, payload.encode = .ok bytes ∧ FooterPayload.decode bytes = .ok payload) ∧
    (∀ metadata : Metadata, metadata.InWords → metadata.Accepted →
      (CborValue.map metadata.entries).WithinDefaults →
        ∃ bytes, metadata.encode = .ok bytes ∧ Metadata.decode bytes = .ok metadata) ∧
    (∀ indexRoot : IndexRoot, indexRoot.InWords → indexRoot.Accepted →
      (CborValue.map indexRoot.entries).WithinDefaults →
        ∃ bytes, indexRoot.encode = .ok bytes ∧ IndexRoot.decode bytes = .ok indexRoot) ∧
    (∀ index : DocumentIndex, (∀ document ∈ index.documents, document.InWords) →
      index.Accepted → index.value.WithinDefaults →
        ∃ bytes, index.encode = .ok bytes ∧ DocumentIndex.decode bytes = .ok index) := by
  refine ⟨?_, ?_, ?_, ?_⟩
  · intro payload h hlimits
    exact FooterPayload.roundTrips h hlimits
  · intro metadata hwords h hlimits
    exact Metadata.roundTrips hwords h hlimits
  · intro indexRoot hwords h hlimits
    exact IndexRoot.roundTrips hwords h hlimits
  · intro index hwords h hlimits
    exact DocumentIndex.roundTrips hwords h hlimits

/-- A container of one document, as each of the four schemas records it. -/
theorem schemaCodecs_roundTrip_oneDocument :
    let digest : Checksum := .fromRawBytes (List.Vector.replicate 32 7)
    let block : BlockRef := { offset := 128, size := 24, checksum := digest }
    let payload : FooterPayload :=
      { containerId := List.Vector.replicate 16 1, indexRoot := block, metadata := block,
        finalFileSize := 4096, footerFlags := 0, containerChecksum := some digest }
    let metadata : Metadata :=
      { containerId := List.Vector.replicate 16 1, originalSize := 6, originalChecksum := digest,
        newlineMode := "lf", lineCount := 1, zstdLevel := -3, targetChunkSize := 1024,
        maxChunkSize := 2048, dictionaryMode := "none", profile := "core",
        denseLineIndex := true, documentIndex := true }
    let indexRoot : IndexRoot :=
      { containerId := List.Vector.replicate 16 1,
        blocks := [.chunkTable 128 24 digest, .documentIndex 152 200 digest],
        originalSize := 6, originalChecksum := digest, chunkCount := 1, lineCount := 1 }
    let index : DocumentIndex :=
      { containerId := List.Vector.replicate 16 1,
        documents := [{ DocumentEntry.blank with docId := "doc", byteLength := 6 }] }
    (∃ bytes, payload.encode = .ok bytes ∧ FooterPayload.decode bytes = .ok payload) ∧
      (∃ bytes, metadata.encode = .ok bytes ∧ Metadata.decode bytes = .ok metadata) ∧
      (∃ bytes, indexRoot.encode = .ok bytes ∧ IndexRoot.decode bytes = .ok indexRoot) ∧
      ∃ bytes, index.encode = .ok bytes ∧ DocumentIndex.decode bytes = .ok index := by
  obtain ⟨hfooter, hmetadata, hroot, hindex⟩ := schemaCodecs_roundTrip
  refine ⟨hfooter _ ?_ ?_, hmetadata _ ?_ ?_ ?_, hroot _ ?_ ?_ ?_, hindex _ ?_ ?_ ?_⟩
  · exact ⟨⟨by decide, by decide⟩, ⟨by decide, by decide⟩, by decide, rfl, rfl, rfl,
      fun _ hsome => Option.some.inj hsome ▸ rfl⟩
  · exact ⟨by decide, by decide⟩
  · exact ⟨by decide, by decide, by decide, by decide⟩
  · exact ⟨by decide, by decide, by decide, by decide, by decide, rfl⟩
  · exact ⟨by decide, by decide⟩
  · refine ⟨?_, by decide, by decide, by decide⟩
    simp only [List.forall_mem_cons, List.not_mem_nil, false_implies, implies_true, and_true]
    exact ⟨⟨by decide, by decide⟩, by decide, by decide⟩
  · refine ⟨?_, by decide, rfl⟩
    simp only [List.forall_mem_cons, List.not_mem_nil, false_implies, implies_true, and_true]
    exact ⟨⟨rfl, by decide, rfl⟩, rfl, by decide, rfl⟩
  · exact ⟨by decide, by decide⟩
  · simp only [List.forall_mem_cons, List.not_mem_nil, false_implies, implies_true, and_true]
    exact ⟨by decide, by decide, by decide, by decide, by decide, by decide⟩
  · refine ⟨by decide, ?_⟩
    simp only [List.forall_mem_cons, List.not_mem_nil, false_implies, implies_true, and_true]
    rfl
  · exact ⟨by decide, by decide⟩

end Qzt
