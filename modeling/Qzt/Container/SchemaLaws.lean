import Qzt.Cbor.RoundTrip
import Qzt.Container.Schema

/-!
# Blocks are read back

Each block encoder followed by its decoder is the identity, on encodings that the CBOR
validation accepts.  The parser returns map entries in the order of their encoded keys,
so the accessors are shown to depend on the entries only, not on their order.
-/

namespace Qzt

open Foundation

/-! ## Values with an encoding -/

theorem encodable_u64Value {value : Nat} (h : value < 2 ^ 64) : Encodable (u64Value value) :=
  .integer (by omega) (by omega)

theorem encodable_versionValue : Encodable versionValue := by
  refine .array (by decide) ?_
  simp only [List.forall_mem_cons, List.not_mem_nil, false_implies, implies_true, and_true]
  exact ⟨.integer (by decide) (by decide), .integer (by decide) (by decide)⟩

theorem encodable_vector {n : Nat} (hn : n < 2 ^ 64) (value : List.Vector UInt8 n) :
    Encodable (.bytes value.toList) := by
  refine .bytes ?_
  rw [List.Vector.toList_length]
  exact hn

theorem encodable_checksumValue {checksum : Checksum}
    (h : (textBytes checksum.algorithm).length < 2 ^ 64) :
    Encodable (checksumValue checksum) := by
  refine @Encodable.textMap _ ["algorithm", "value"] rfl (by decide) (by decide) (by decide) ?_
  simp only [List.forall_mem_cons, List.not_mem_nil, false_implies, implies_true, and_true, textPair]
  exact ⟨.text h, encodable_vector (by decide) checksum.value⟩

theorem encodable_blockRefValue {block : BlockRef} (hoffset : block.offset < 2 ^ 64)
    (hsize : block.size < 2 ^ 64) (h : (textBytes block.checksum.algorithm).length < 2 ^ 64) :
    Encodable (blockRefValue block) := by
  refine @Encodable.textMap _ ["offset", "size", "checksum"] rfl (by decide) (by decide)
    (by decide) ?_
  simp only [List.forall_mem_cons, List.not_mem_nil, false_implies, implies_true, and_true, textPair]
  exact ⟨encodable_u64Value hoffset, encodable_u64Value hsize, encodable_checksumValue h⟩

/-! ## Entries in any order -/

/-- `map` holds the entries of `entries`, whose keys are the texts `keys`, read back in some
order. -/
structure ReadMap (keys : List String) (entries map : CborMap) : Prop where
  lookup : ∀ {key value}, textPair key value ∈ entries →
    ∃ read, map.findSome? (entryNamed key) = some read ∧ Same value read
  absent : ∀ {key}, key ∉ keys → map.findSome? (entryNamed key) = none
  known : ∀ entry ∈ map, ∃ key ∈ keys, entry.1 = .text key

/-- With distinct keys a lookup finds the entry, wherever it stands. -/
theorem findSome?_entryNamed {map : CborMap} (hnodup : (map.map Prod.fst).Nodup) {key : String}
    {value : CborValue} (hmem : textPair key value ∈ map) :
    map.findSome? (entryNamed key) = some value := by
  induction map with
  | nil => cases hmem
  | cons entry map ih =>
    rw [List.map_cons, List.nodup_cons] at hnodup
    rw [List.findSome?_cons]
    rcases List.mem_cons.mp hmem with rfl | hrest
    · simp [entryNamed, textPair]
    · have hne : entryNamed key entry = none := by
        obtain ⟨first, second⟩ := entry
        unfold entryNamed
        split
        · rename_i heq
          cases heq
          rw [if_neg]
          rintro rfl
          exact hnodup.1 (List.mem_map.mpr ⟨_, hrest, rfl⟩)
        · rfl
      rw [hne]
      exact ih hnodup.2 hrest

theorem Same.readMap {keys : List String} {entries : CborMap} {read : CborValue}
    (h : Same (.map entries) read) (hkeys : entries.map Prod.fst = keys.map .text)
    (hnodup : keys.Nodup) : ∃ map, read = .map map ∧ ReadMap keys entries map := by
  obtain ⟨reads, map, rfl, hreads, hperm⟩ := h
  rw [sameEntries_iff] at hreads
  have hsameKeys : reads.map Prod.fst = keys.map .text := by
    rw [← hkeys]
    clear hperm hnodup
    induction hreads generalizing keys with
    | nil => rfl
    | @cons entry read entries reads hentry _ ih =>
      cases keys with
      | nil => cases hkeys
      | cons key keys =>
        rw [List.map_cons, List.map_cons, List.cons.injEq] at hkeys
        have hkey := hentry.1
        rw [hkeys.1] at hkey
        rw [List.map_cons, List.map_cons, ih hkeys.2, hkeys.1, show read.1 = .text key from hkey]
  have hnodup' : (map.map Prod.fst).Nodup := by
    rw [← (hperm.map Prod.fst).nodup_iff, hsameKeys, List.nodup_map_iff]
    · exact hnodup
    · intro a b hab
      cases hab
      rfl
  have hknown : ∀ entry ∈ map, ∃ key ∈ keys, entry.1 = .text key := by
    intro entry hentry
    have hmem : entry.1 ∈ reads.map Prod.fst :=
      List.mem_map.mpr ⟨entry, hperm.symm.subset hentry, rfl⟩
    rw [hsameKeys, List.mem_map] at hmem
    obtain ⟨key, hkey, heq⟩ := hmem
    exact ⟨key, hkey, heq.symm⟩
  refine ⟨map, rfl, ?_, ?_, hknown⟩
  · intro key value hmem
    obtain ⟨i, hi, hget⟩ := List.mem_iff_getElem.mp hmem
    have hi' : i < reads.length := by rwa [← hreads.length_eq]
    have hentry := hreads.get hi hi'
    simp only [List.get_eq_getElem, hget] at hentry
    obtain ⟨hkey, hvalue⟩ := hentry
    refine ⟨reads[i].2, findSome?_entryNamed hnodup' ?_, hvalue⟩
    rw [textPair, ← show reads[i].1 = .text key from hkey]
    exact hperm.subset (List.getElem_mem hi')
  · intro key hkey
    rw [List.findSome?_eq_none_iff]
    intro entry hentry
    obtain ⟨other, hother, heq⟩ := hknown entry hentry
    obtain ⟨first, second⟩ := entry
    obtain rfl := heq
    rw [entryNamed, if_neg]
    rintro rfl
    exact hkey hother

/-! ## Accessors -/

namespace ReadMap

variable {keys : List String} {entries map : CborMap} {key : String} {error : QztError}

theorem rejectUnknownKeys (h : ReadMap keys entries map) {allowed : List String}
    (hallowed : keys ⊆ allowed) : rejectUnknownKeys map allowed error = .ok ⟨⟩ := by
  rw [Qzt.rejectUnknownKeys, checkAll_eq_ok_iff]
  intro entry hentry
  obtain ⟨other, hother, heq⟩ := h.known entry hentry
  rw [rejectUnknownKey, heq]
  exact rejectIf_of_not (not_not.mpr (hallowed hother))

theorem field (h : ReadMap keys entries map) {value : CborValue}
    (hmem : textPair key value ∈ entries) :
    ∃ read, field map key error = .ok read ∧ Same value read := by
  obtain ⟨read, hfind, hsame⟩ := h.lookup hmem
  exact ⟨read, by rw [Qzt.field, hfind, okOr_some], hsame⟩

theorem requiredText (h : ReadMap keys entries map) (value : String)
    (hmem : textPair key (.text value) ∈ entries) : requiredText map key error = .ok value := by
  obtain ⟨_, hfield, rfl⟩ := h.field hmem
  rw [Qzt.requiredText, hfield, ok_bind]

theorem expectTextField (h : ReadMap keys entries map) (value : String)
    (hmem : textPair key (.text value) ∈ entries) :
    expectTextField map key value error = .ok ⟨⟩ := by
  rw [Qzt.expectTextField, h.requiredText value hmem, ok_bind, rejectIf_of_not (by simp)]

theorem requiredBool (h : ReadMap keys entries map) (value : Bool)
    (hmem : textPair key (.bool value) ∈ entries) : requiredBool map key error = .ok value := by
  obtain ⟨_, hfield, rfl⟩ := h.field hmem
  rw [Qzt.requiredBool, hfield, ok_bind]

theorem expectBoolField (h : ReadMap keys entries map) (value : Bool)
    (hmem : textPair key (.bool value) ∈ entries) :
    expectBoolField map key value error = .ok ⟨⟩ := by
  rw [Qzt.expectBoolField, h.requiredBool value hmem, ok_bind, rejectIf_of_not (by simp)]

theorem requiredU64WithOverflow (h : ReadMap keys entries map) {overflowError : QztError}
    (value : Nat) (hmem : textPair key (u64Value value) ∈ entries) :
    requiredU64WithOverflow map key error overflowError = .ok value := by
  obtain ⟨_, hfield, rfl, hlt⟩ := h.field hmem
  rw [Qzt.requiredU64WithOverflow, hfield, ok_bind]
  simp only
  rw [if_neg (by omega), if_pos (by omega), Int.toNat_natCast]

theorem requiredU64 (h : ReadMap keys entries map) (value : Nat)
    (hmem : textPair key (u64Value value) ∈ entries) : requiredU64 map key error = .ok value :=
  h.requiredU64WithOverflow value hmem

theorem requiredI32 (h : ReadMap keys entries map) (value : Int32)
    (hmem : textPair key (.integer value.toInt) ∈ entries) :
    requiredI32 map key error = .ok value := by
  obtain ⟨_, hfield, rfl, -⟩ := h.field hmem
  have hle := value.toInt_lt
  have hge := value.le_toInt
  rw [Qzt.requiredI32, hfield, ok_bind]
  simp only
  rw [if_pos ⟨by omega, by omega⟩, Int32.ofInt_toInt]

theorem requiredBstr (h : ReadMap keys entries map) {n : Nat} (value : List.Vector UInt8 n)
    (hmem : textPair key (.bytes value.toList) ∈ entries) :
    requiredBstr n map key error = .ok value := by
  obtain ⟨_, hfield, rfl⟩ := h.field hmem
  rw [Qzt.requiredBstr, hfield, ok_bind]
  simp only
  rw [tryIntoArray_toList, okOr_some]

theorem requiredMap (h : ReadMap keys entries map) {sub : CborMap} {subKeys : List String}
    (hmem : textPair key (.map sub) ∈ entries) (hkeys : sub.map Prod.fst = subKeys.map .text)
    (hnodup : subKeys.Nodup) :
    ∃ read, requiredMap map key error = .ok read ∧ ReadMap subKeys sub read := by
  obtain ⟨_, hfield, hsame⟩ := h.field hmem
  obtain ⟨read, rfl, hread⟩ := hsame.readMap hkeys hnodup
  refine ⟨read, ?_, hread⟩
  rw [Qzt.requiredMap, hfield, ok_bind, asMap]

theorem requiredArray (h : ReadMap keys entries map) {values : List CborValue}
    (hmem : textPair key (.array values) ∈ entries) :
    ∃ reads, requiredArray map key error = .ok reads ∧ List.Forall₂ Same values reads := by
  obtain ⟨_, hfield, reads, rfl, hsame⟩ := h.field hmem
  refine ⟨reads, ?_, sameValues_iff.mp hsame⟩
  rw [Qzt.requiredArray, hfield, ok_bind]

theorem expectVersionField (h : ReadMap keys entries map)
    (hmem : textPair "format_version" versionValue ∈ entries) :
    expectVersionField map error = .ok ⟨⟩ := by
  obtain ⟨_, hfield, reads, rfl, hsame⟩ := h.field hmem
  obtain ⟨_, _, rfl, ⟨rfl, -⟩, _, _, rfl, ⟨rfl, -⟩, rfl⟩ := hsame
  rw [Qzt.expectVersionField, hfield]
  rfl

theorem requiredChecksum (h : ReadMap keys entries map) (checksum : Checksum)
    (hmem : textPair key (checksumValue checksum) ∈ entries)
    (hblake3 : checksum.algorithm = checksumAlgorithmBlake3) :
    requiredChecksum map key error = .ok checksum := by
  have hkeys : [textPair "algorithm" (.text checksum.algorithm),
      textPair "value" (.bytes checksum.value.toList)].map Prod.fst =
      ["algorithm", "value"].map .text := rfl
  obtain ⟨read, hread, hmap⟩ := h.requiredMap hmem hkeys (by decide)
  rw [Qzt.requiredChecksum, hread, ok_bind, hmap.rejectUnknownKeys (by simp), ok_bind,
    hmap.requiredText checksum.algorithm (by simp), ok_bind,
    rejectIf_of_not (by simp [hblake3]), ok_bind, requiredBstr32,
    hmap.requiredBstr checksum.value (by simp), ok_bind,
    Checksum.fromRawBytes, ← hblake3]
  rfl

theorem requiredBlockRef (h : ReadMap keys entries map) (block : BlockRef)
    (hmem : textPair key (blockRefValue block) ∈ entries)
    (hblake3 : block.checksum.algorithm = checksumAlgorithmBlake3) :
    requiredBlockRef map key error = .ok block := by
  have hkeys : [textPair "offset" (u64Value block.offset), textPair "size" (u64Value block.size),
      textPair "checksum" (checksumValue block.checksum)].map Prod.fst =
      ["offset", "size", "checksum"].map .text := rfl
  obtain ⟨read, hread, hmap⟩ := h.requiredMap hmem hkeys (by decide)
  rw [Qzt.requiredBlockRef, hread, ok_bind, hmap.rejectUnknownKeys (by simp), ok_bind,
    hmap.requiredU64 block.offset (by simp), ok_bind,
    hmap.requiredU64 block.size (by simp), ok_bind,
    hmap.requiredChecksum block.checksum (by simp) hblake3, ok_bind]
  rfl

theorem optionalChecksum_some (h : ReadMap keys entries map) (checksum : Checksum)
    (hmem : textPair key (checksumValue checksum) ∈ entries)
    (hblake3 : checksum.algorithm = checksumAlgorithmBlake3) :
    optionalChecksum map key error = .ok (some checksum) := by
  obtain ⟨read, hfind, -⟩ := h.lookup hmem
  rw [optionalChecksum, hfind, Option.isSome_some, if_pos rfl,
    h.requiredChecksum checksum hmem hblake3]
  rfl

theorem optionalChecksum_none (h : ReadMap keys entries map) (hkey : key ∉ keys) :
    optionalChecksum map key error = .ok none := by
  rw [optionalChecksum, h.absent hkey]
  rfl

end ReadMap

/-- A checksum that was read is a BLAKE3 checksum. -/
theorem algorithm_of_requiredChecksum {map : CborMap} {key : String} {error : QztError}
    {checksum : Checksum} (h : requiredChecksum map key error = .ok checksum) :
    checksum.algorithm = checksumAlgorithmBlake3 := by
  simp only [requiredChecksum, bind_eq_ok_iff, pure_eq_ok, Except.ok.injEq] at h
  obtain ⟨_, -, _, -, _, -, _, -, value, -, rfl⟩ := h
  rfl

/-- The prologue of a map that was read back. -/
theorem checkPrologue_eq_ok {keys allowed : List String} {entries : CborMap} {schema : String}
    {error : QztError} {value : CborValue} (hsame : Same (.map entries) value)
    (hkeys : entries.map Prod.fst = keys.map .text) (hnodup : keys.Nodup)
    (hallowed : keys ⊆ allowed) (hschema : textPair "schema" (.text schema) ∈ entries)
    (hversion : textPair "format_version" versionValue ∈ entries) :
    ∃ map, value = .map map ∧ checkPrologue value allowed schema error = .ok ⟨⟩ ∧
      ReadMap keys entries map := by
  obtain ⟨map, rfl, hmap⟩ := hsame.readMap hkeys hnodup
  refine ⟨map, rfl, ?_, hmap⟩
  rw [checkPrologue, asMap, ok_bind, hmap.rejectUnknownKeys hallowed, ok_bind,
    hmap.expectTextField schema hschema, ok_bind, hmap.expectVersionField hversion]

/-- The checks that every block decoder starts with. -/
theorem decodePrologue_eq_ok {keys allowed : List String} {entries : CborMap} {bytes : List UInt8}
    {schema : String} {error : QztError} {value : CborValue}
    (hencode : encodeDeterministic (.map entries) = .ok bytes)
    (hvalid : validateDeterministic bytes = .ok value)
    (hkeys : entries.map Prod.fst = keys.map .text) (hnodup : keys.Nodup)
    (hallowed : keys ⊆ allowed) (hschema : textPair "schema" (.text schema) ∈ entries)
    (hversion : textPair "format_version" versionValue ∈ entries) :
    ∃ map, decodePrologue bytes allowed schema error = .ok (.map map) ∧
      ReadMap keys entries map := by
  have hsame := validateDeterministicWithLimits_same hencode hvalid
  obtain ⟨map, rfl, hcheck, hmap⟩ :=
    @checkPrologue_eq_ok _ _ _ _ error _ hsame hkeys hnodup hallowed hschema hversion
  refine ⟨map, ?_, hmap⟩
  rw [decodePrologue, hvalid, ok_bind, hcheck, ok_bind, pure_eq_ok]

/-! ## Footer payload -/

/-- The checksums of a footer payload are BLAKE3. -/
structure FooterPayload.Blake3 (payload : FooterPayload) : Prop where
  indexRoot : payload.indexRoot.checksum.algorithm = checksumAlgorithmBlake3
  metadata : payload.metadata.checksum.algorithm = checksumAlgorithmBlake3
  containerChecksum : ∀ checksum, payload.containerChecksum = some checksum →
    checksum.algorithm = checksumAlgorithmBlake3

/-- The keys a footer payload is written with. -/
def FooterPayload.keys (self : FooterPayload) : List String :=
  ["schema", "format_version", "container_id", "index_root", "metadata", "final_file_size",
    "footer_flags"] ++ (self.containerChecksum.map fun _ => "container_checksum").toList

theorem FooterPayload.entries_keys (payload : FooterPayload) :
    payload.entries.map Prod.fst = payload.keys.map .text := by
  unfold FooterPayload.entries FooterPayload.keys
  cases payload.containerChecksum <;> rfl

theorem FooterPayload.keys_nodup (payload : FooterPayload) : payload.keys.Nodup := by
  unfold FooterPayload.keys
  cases payload.containerChecksum <;> simp

theorem FooterPayload.keys_subset (payload : FooterPayload) : payload.keys ⊆ footerKeys := by
  unfold FooterPayload.keys
  cases payload.containerChecksum <;> simp [footerKeys]

/-- The payload is read from a map that holds its entries, and maybe others. -/
theorem FooterPayload.read_of_readMap {payload : FooterPayload} {keys : List String}
    {entries map : CborMap} (hmap : ReadMap keys entries map) (hentries : payload.entries ⊆ entries)
    (hkeys : payload.containerChecksum = none → "container_checksum" ∉ keys)
    (hflags : payload.footerFlags = 0) (hblake3 : payload.Blake3) :
    FooterPayload.read (.map map) = .ok payload := by
  have hchecksum : optionalChecksum map "container_checksum" .invalidFooterPayload =
      .ok payload.containerChecksum := by
    cases hsome : payload.containerChecksum with
    | none => exact hmap.optionalChecksum_none (hkeys hsome)
    | some checksum =>
      refine hmap.optionalChecksum_some checksum (hentries ?_)
        (hblake3.containerChecksum checksum hsome)
      simp [FooterPayload.entries, hsome]
  have hfield : ∀ {key value}, textPair key value ∈
      [textPair "container_id" (.bytes payload.containerId.toList),
        textPair "index_root" (blockRefValue payload.indexRoot),
        textPair "metadata" (blockRefValue payload.metadata),
        textPair "final_file_size" (u64Value payload.finalFileSize),
        textPair "footer_flags" (u64Value payload.footerFlags)] →
      textPair key value ∈ entries := by
    intro key value h
    apply hentries
    rw [FooterPayload.entries]
    exact List.mem_append_left _ (List.mem_cons_of_mem _ (List.mem_cons_of_mem _ h))
  rw [FooterPayload.read, asMap, ok_bind,
    hmap.requiredU64 payload.footerFlags (hfield (by simp)), ok_bind,
    rejectIf_of_not (by simp [hflags]), ok_bind, requiredBstr16,
    hmap.requiredBstr payload.containerId (hfield (by simp)), ok_bind,
    hmap.requiredBlockRef payload.indexRoot (hfield (by simp)) hblake3.indexRoot,
    ok_bind, hmap.requiredBlockRef payload.metadata (hfield (by simp))
      hblake3.metadata, ok_bind,
    hmap.requiredU64 payload.finalFileSize (hfield (by simp)), ok_bind, hchecksum,
    ok_bind]
  rfl

theorem FooterPayload.decode_encode {payload : FooterPayload} {bytes : List UInt8}
    {value : CborValue} (hencode : payload.encode = .ok bytes)
    (hvalid : validateDeterministic bytes = .ok value) (hflags : payload.footerFlags = 0)
    (hblake3 : payload.Blake3) : FooterPayload.decode bytes = .ok payload := by
  obtain ⟨map, hprologue, hmap⟩ := @decodePrologue_eq_ok _ footerKeys _ _ schemaFooter
    .invalidFooterPayload _ hencode hvalid payload.entries_keys payload.keys_nodup
    payload.keys_subset (by simp [FooterPayload.entries]) (by simp [FooterPayload.entries])
  rw [FooterPayload.decode, hprologue, ok_bind]
  refine FooterPayload.read_of_readMap hmap (List.Subset.refl _) ?_ hflags hblake3
  intro hnone
  simp [FooterPayload.keys, hnone]

/-! ## Metadata -/

namespace Metadata

/-- The values a reader accepts. -/
structure Accepted (metadata : Metadata) : Prop where
  newlineMode : metadata.newlineMode ∈ ["none", "lf", "crlf", "mixed"]
  dictionaryMode : metadata.dictionaryMode ∈ ["none", "embedded"]
  profile : metadata.profile ∈ ["minimal", "core", "log", "archive", "memory"]
  target_pos : metadata.targetChunkSize ≠ 0
  target_le_max : metadata.targetChunkSize ≤ metadata.maxChunkSize
  originalChecksum : metadata.originalChecksum.algorithm = checksumAlgorithmBlake3

variable {metadata : Metadata} {keys : List String} {map : CborMap}

theorem checkSource_eq_ok (h : ReadMap keys metadata.sourceEntries map)
    (hkeys : keys = ["media_type", "encoding", "original_size", "original_checksum",
      "newline_mode", "line_count"]) : checkSource map = .ok ⟨⟩ := by
  rw [checkSource, h.rejectUnknownKeys (by rw [hkeys]; exact List.Subset.refl _), ok_bind,
    h.expectTextField "text" (by simp [sourceEntries]), ok_bind,
    h.expectTextField "utf-8" (by simp [sourceEntries])]

theorem checkCompression_eq_ok (h : ReadMap keys metadata.compressionEntries map)
    (hkeys : keys = ["codec", "zstd_level", "independent_frames", "zstd_frame_checksum",
      "dictionary_mode"]) : checkCompression map = .ok ⟨⟩ := by
  rw [checkCompression, h.rejectUnknownKeys (by rw [hkeys]; exact List.Subset.refl _), ok_bind,
    h.expectTextField "zstd" (by simp [compressionEntries]), ok_bind,
    h.expectBoolField true (by simp [compressionEntries]), ok_bind,
    h.expectBoolField false (by simp [compressionEntries])]

theorem checkChunking_eq_ok (h : ReadMap keys metadata.chunkingEntries map)
    (hkeys : keys = ["target_chunk_size", "max_chunk_size", "boundary",
      "utf8_boundary_required"]) : checkChunking map = .ok ⟨⟩ := by
  rw [checkChunking, h.rejectUnknownKeys (by rw [hkeys]; exact List.Subset.refl _), ok_bind,
    h.expectBoolField true (by simp [chunkingEntries]), ok_bind,
    h.expectTextField "line-preferred" (by simp [chunkingEntries])]

theorem checkIndexes_eq_ok (h : ReadMap keys metadata.indexesEntries map)
    (hkeys : keys = ["chunk_table", "sparse_line_index", "dense_line_index", "document_index",
      "token_index", "ngram_index", "vector_index"]) : checkIndexes map = .ok ⟨⟩ := by
  rw [checkIndexes, h.rejectUnknownKeys (by rw [hkeys]; exact List.Subset.refl _), ok_bind,
    h.expectBoolField true (by simp [indexesEntries]), ok_bind,
    h.expectBoolField true (by simp [indexesEntries]), ok_bind,
    h.expectBoolField false (by simp [indexesEntries]), ok_bind,
    h.expectBoolField false (by simp [indexesEntries]), ok_bind,
    h.expectBoolField false (by simp [indexesEntries])]

theorem checkIntegrity_eq_ok (h : ReadMap keys integrityEntries map)
    (hkeys : keys = ["compressed_chunk_checksum", "uncompressed_chunk_checksum",
      "index_checksum"]) : checkIntegrity map = .ok ⟨⟩ := by
  rw [checkIntegrity, h.rejectUnknownKeys (by rw [hkeys]; exact List.Subset.refl _), ok_bind,
    h.expectTextField checksumAlgorithmBlake3 (by simp [integrityEntries]), ok_bind,
    h.expectTextField checksumAlgorithmBlake3 (by simp [integrityEntries]), ok_bind,
    h.expectTextField checksumAlgorithmBlake3 (by simp [integrityEntries])]

theorem checkCompatibility_eq_ok (h : ReadMap keys compatibilityEntries map)
    (hkeys : keys = ["qzt_is_zst_stream", "chunks_are_independent_zstd_frames"]) :
    checkCompatibility map = .ok ⟨⟩ := by
  rw [checkCompatibility, h.rejectUnknownKeys (by rw [hkeys]; exact List.Subset.refl _), ok_bind,
    h.expectBoolField false (by simp [compatibilityEntries]), ok_bind,
    h.expectBoolField true (by simp [compatibilityEntries])]

/-- The keys metadata is written with. -/
def metadataKeys : List String :=
  ["schema", "format", "format_version", "container_id", "identity", "source", "compression",
    "chunking", "indexes", "integrity", "compatibility"]

theorem decode_encode {bytes : List UInt8} {value : CborValue}
    (hencode : metadata.encode = .ok bytes) (hvalid : validateDeterministic bytes = .ok value)
    (h : metadata.Accepted) : Metadata.decode bytes = .ok metadata := by
  have hkeys : metadata.entries.map Prod.fst = metadataKeys.map .text := rfl
  obtain ⟨map, hprologue, hmap⟩ := @decodePrologue_eq_ok _ metadataKeys _ _ schemaMetadata
    .metadataInvalid _ hencode hvalid hkeys (by decide) (List.Subset.refl _)
    (by simp [Metadata.entries]) (by simp [Metadata.entries])
  -- The seven sub-maps, each with its own keys.
  obtain ⟨identity, hidentity, hidentityMap⟩ := @ReadMap.requiredMap _ _ _ "identity"
    .metadataInvalid hmap metadata.identityEntries
    ["name", "profile", "created_by", "created_at_unix_ms"] (by simp [Metadata.entries]) rfl
    (by decide)
  obtain ⟨source, hsource, hsourceMap⟩ := @ReadMap.requiredMap _ _ _ "source"
    .metadataInvalid hmap metadata.sourceEntries ["media_type", "encoding", "original_size",
      "original_checksum", "newline_mode", "line_count"] (by simp [Metadata.entries]) rfl
    (by decide)
  obtain ⟨compression, hcompression, hcompressionMap⟩ := @ReadMap.requiredMap _ _ _ "compression"
    .metadataInvalid hmap metadata.compressionEntries ["codec", "zstd_level",
      "independent_frames", "zstd_frame_checksum", "dictionary_mode"] (by simp [Metadata.entries])
    rfl (by decide)
  obtain ⟨chunking, hchunking, hchunkingMap⟩ := @ReadMap.requiredMap _ _ _ "chunking"
    .metadataInvalid hmap metadata.chunkingEntries ["target_chunk_size", "max_chunk_size",
      "boundary", "utf8_boundary_required"] (by simp [Metadata.entries]) rfl (by decide)
  obtain ⟨indexes, hindexes, hindexesMap⟩ := @ReadMap.requiredMap _ _ _ "indexes"
    .metadataInvalid hmap metadata.indexesEntries ["chunk_table", "sparse_line_index",
      "dense_line_index", "document_index", "token_index", "ngram_index", "vector_index"]
    (by simp [Metadata.entries]) rfl (by decide)
  obtain ⟨integrity, hintegrity, hintegrityMap⟩ := @ReadMap.requiredMap _ _ _ "integrity"
    .metadataInvalid hmap integrityEntries ["compressed_chunk_checksum",
      "uncompressed_chunk_checksum", "index_checksum"] (by simp [Metadata.entries]) rfl (by decide)
  obtain ⟨compatibility, hcompatibility, hcompatibilityMap⟩ := @ReadMap.requiredMap _ _ _
    "compatibility" .metadataInvalid hmap compatibilityEntries ["qzt_is_zst_stream",
      "chunks_are_independent_zstd_frames"] (by simp [Metadata.entries]) rfl (by decide)
  have htarget := h.target_pos
  have hmax := h.target_le_max
  rw [Metadata.decode]
  rw [show ["schema", "format", "format_version", "container_id", "identity", "source",
    "compression", "chunking", "indexes", "integrity", "compatibility"] = metadataKeys from rfl]
  rw [hprologue, ok_bind, Metadata.read, asMap, ok_bind,
    hmap.expectTextField "qzt" (by simp [Metadata.entries]), ok_bind, hidentity, ok_bind,
    checkIdentity, hidentityMap.rejectUnknownKeys (List.Subset.refl _), ok_bind, hsource, ok_bind,
    checkSource_eq_ok hsourceMap rfl, ok_bind, hcompression, ok_bind,
    checkCompression_eq_ok hcompressionMap rfl, ok_bind, hchunking, ok_bind,
    checkChunking_eq_ok hchunkingMap rfl, ok_bind, hindexes, ok_bind,
    checkIndexes_eq_ok hindexesMap rfl, ok_bind, hintegrity, ok_bind,
    checkIntegrity_eq_ok hintegrityMap rfl, ok_bind, hcompatibility, ok_bind,
    checkCompatibility_eq_ok hcompatibilityMap rfl, ok_bind,
    hsourceMap.requiredText metadata.newlineMode (by simp [sourceEntries]), ok_bind,
    rejectIf_of_not (not_not.mpr h.newlineMode), ok_bind,
    hcompressionMap.requiredText metadata.dictionaryMode (by simp [compressionEntries]), ok_bind,
    rejectIf_of_not (not_not.mpr h.dictionaryMode), ok_bind,
    hidentityMap.requiredText metadata.profile (by simp [identityEntries]), ok_bind,
    rejectIf_of_not (not_not.mpr h.profile), ok_bind,
    hcompressionMap.requiredI32 metadata.zstdLevel (by simp [compressionEntries]), ok_bind,
    hchunkingMap.requiredU64 metadata.targetChunkSize (by simp [chunkingEntries]), ok_bind,
    hchunkingMap.requiredU64 metadata.maxChunkSize (by simp [chunkingEntries]), ok_bind,
    rejectIf_of_not (by omega), ok_bind, requiredBstr16,
    hmap.requiredBstr metadata.containerId (by simp [Metadata.entries]), ok_bind,
    hsourceMap.requiredU64 metadata.originalSize (by simp [sourceEntries]), ok_bind,
    hsourceMap.requiredChecksum metadata.originalChecksum (by simp [sourceEntries])
      h.originalChecksum, ok_bind,
    hsourceMap.requiredU64 metadata.lineCount (by simp [sourceEntries]), ok_bind,
    hindexesMap.requiredBool metadata.denseLineIndex (by simp [indexesEntries]), ok_bind,
    hindexesMap.requiredBool metadata.documentIndex (by simp [indexesEntries]), ok_bind]
  rfl

end Metadata

/-! ## Index root -/

/-- The descriptors a reader accepts. -/
structure BlockDescriptor.Accepted (block : BlockDescriptor) : Prop where
  flags : block.flags = 0
  required : block.required = true → block.blockType = chunkTableType
  checksum : block.checksum.algorithm = checksumAlgorithmBlake3

theorem BlockDescriptor.decode_of_same {block : BlockDescriptor} (h : block.Accepted)
    {read : CborValue} (hsame : Same block.value read) : BlockDescriptor.decode read = .ok block := by
  obtain ⟨map, rfl, hmap⟩ := @Same.readMap
    ["type", "required", "offset", "size", "codec", "checksum", "flags"] _ _ hsame rfl (by decide)
  rw [BlockDescriptor.decode, asMap, ok_bind, hmap.rejectUnknownKeys (List.Subset.refl _), ok_bind,
    hmap.requiredText block.blockType (by simp [entries]), ok_bind,
    hmap.requiredBool block.required (by simp [entries]), ok_bind,
    hmap.requiredU64 block.flags (by simp [entries]), ok_bind,
    rejectIf_of_not (by simp [h.flags]), ok_bind,
    rejectIf_of_not (fun hbad => hbad.2 (h.required hbad.1)), ok_bind,
    hmap.requiredU64 block.offset (by simp [entries]), ok_bind,
    hmap.requiredU64 block.size (by simp [entries]), ok_bind,
    hmap.requiredText block.codec (by simp [entries]), ok_bind,
    hmap.requiredChecksum block.checksum (by simp [entries]) h.checksum, ok_bind]
  rfl

/-- Decoding the elements of an array that was read back. -/
theorem collect_of_same {α : Type} {decode : CborValue → Result α} {value : α → CborValue}
    {items : List α} (h : ∀ item ∈ items, ∀ read, Same (value item) read → decode read = .ok item)
    {reads : List CborValue} (hsame : List.Forall₂ Same (items.map value) reads) :
    collect decode reads = .ok items := by
  induction items generalizing reads with
  | nil =>
    cases hsame
    rfl
  | cons item items ih =>
    rw [List.map_cons, List.forall₂_cons_left_iff] at hsame
    obtain ⟨read, rest, hread, hrest, rfl⟩ := hsame
    rw [List.forall_mem_cons] at h
    rw [collect, h.1 read hread, ok_bind, ih h.2 hrest, ok_bind]
    rfl

/-- The index roots a reader accepts. -/
structure IndexRoot.Accepted (indexRoot : IndexRoot) : Prop where
  blocks : ∀ block ∈ indexRoot.blocks, block.Accepted
  chunkTables : indexRoot.blocks.countP BlockDescriptor.isRequiredChunkTable = 1
  originalChecksum : indexRoot.originalChecksum.algorithm = checksumAlgorithmBlake3

theorem IndexRoot.decode_encode {indexRoot : IndexRoot} {bytes : List UInt8} {value : CborValue}
    (hencode : indexRoot.encode = .ok bytes) (hvalid : validateDeterministic bytes = .ok value)
    (h : indexRoot.Accepted) : IndexRoot.decode bytes = .ok indexRoot := by
  have hkeys : indexRoot.entries.map Prod.fst =
      ["schema", "format_version", "container_id", "blocks", "content"].map .text := rfl
  obtain ⟨map, hprologue, hmap⟩ := @decodePrologue_eq_ok _
    ["schema", "format_version", "container_id", "blocks", "content"] _ _ schemaIndexRoot
    .containerCorrupt _ hencode hvalid hkeys (by decide) (List.Subset.refl _)
    (by simp [IndexRoot.entries]) (by simp [IndexRoot.entries])
  obtain ⟨reads, hreads, hsame⟩ := @ReadMap.requiredArray _ _ _ "blocks" .containerCorrupt hmap
    (indexRoot.blocks.map BlockDescriptor.value) (by simp [IndexRoot.entries])
  obtain ⟨content, hcontent, hcontentMap⟩ := @ReadMap.requiredMap _ _ _ "content"
    .containerCorrupt hmap indexRoot.contentEntries
    ["original_size", "original_checksum", "chunk_count", "line_count"]
    (by simp [IndexRoot.entries]) rfl (by decide)
  have hblocks := collect_of_same
    (fun block hblock read => BlockDescriptor.decode_of_same (h.blocks block hblock)) hsame
  rw [IndexRoot.decode, hprologue, ok_bind, IndexRoot.read, asMap, ok_bind, hreads, ok_bind, hblocks, ok_bind]
  simp only
  rw [h.chunkTables, rejectIf_of_not (by decide), ok_bind, rejectIf_of_not (by decide), ok_bind,
    hcontent, ok_bind, hcontentMap.rejectUnknownKeys (List.Subset.refl _), ok_bind, requiredBstr16,
    hmap.requiredBstr indexRoot.containerId (by simp [IndexRoot.entries]), ok_bind,
    hcontentMap.requiredU64 indexRoot.originalSize (by simp [contentEntries]), ok_bind,
    hcontentMap.requiredChecksum indexRoot.originalChecksum (by simp [contentEntries])
      h.originalChecksum, ok_bind,
    hcontentMap.requiredU64 indexRoot.chunkCount (by simp [contentEntries]), ok_bind,
    hcontentMap.requiredU64 indexRoot.lineCount (by simp [contentEntries]), ok_bind]
  rfl

/-! ## Document index -/

theorem DocumentEntry.decode_of_same {entry : DocumentEntry}
    (hblake3 : entry.checksum.algorithm = checksumAlgorithmBlake3) {read : CborValue}
    (hsame : Same entry.value read) : DocumentEntry.decode read = .ok entry := by
  obtain ⟨map, rfl, hmap⟩ := @Same.readMap
    ["doc_id", "doc_id_hash", "logical_offset", "byte_length", "first_line", "line_count",
      "chunk_start", "chunk_end", "checksum", "metadata"] _ _ hsame rfl (by decide)
  obtain ⟨metadata, hmetadata, -⟩ := @ReadMap.requiredMap _ _ _ "metadata" .containerCorrupt hmap []
    [] (by simp [entries]) rfl (by decide)
  rw [DocumentEntry.decode, asMap, ok_bind, hmap.rejectUnknownKeys (List.Subset.refl _), ok_bind,
    hmetadata, ok_bind, hmap.requiredText entry.docId (by simp [entries]), ok_bind, requiredBstr16,
    hmap.requiredBstr entry.docIdHash (by simp [entries]), ok_bind,
    hmap.requiredU64 entry.logicalOffset (by simp [entries]), ok_bind,
    hmap.requiredU64 entry.byteLength (by simp [entries]), ok_bind,
    hmap.requiredU64 entry.firstLine (by simp [entries]), ok_bind,
    hmap.requiredU64 entry.lineCount (by simp [entries]), ok_bind,
    hmap.requiredU64 entry.chunkStart (by simp [entries]), ok_bind,
    hmap.requiredU64 entry.chunkEnd (by simp [entries]), ok_bind,
    hmap.requiredChecksum entry.checksum (by simp [entries]) hblake3, ok_bind]
  rfl

/-- The rules of a document index hold of what was read back of it. -/
theorem DocumentIndex.read_of_same {index : DocumentIndex} {value : CborValue}
    (hsame : Same (index.valueWithDocuments (index.documents.map DocumentEntry.value)) value)
    (hnodup : (index.documents.map DocumentEntry.docId).Nodup)
    (hblake3 : ∀ document ∈ index.documents,
      document.checksum.algorithm = checksumAlgorithmBlake3) :
    checkPrologue value ["schema", "format_version", "container_id", "documents"]
        schemaDocumentIndex .containerCorrupt = .ok ⟨⟩ ∧
      DocumentIndex.read value = .ok index := by
  have hkeys : (index.entriesWithDocuments (index.documents.map DocumentEntry.value)).map
      Prod.fst = ["schema", "format_version", "container_id", "documents"].map .text := rfl
  obtain ⟨map, rfl, hprologue, hmap⟩ := @checkPrologue_eq_ok
    ["schema", "format_version", "container_id", "documents"] _ _ schemaDocumentIndex
    .containerCorrupt _ hsame hkeys (by decide) (List.Subset.refl _)
    (by simp [entriesWithDocuments]) (by simp [entriesWithDocuments])
  refine ⟨hprologue, ?_⟩
  obtain ⟨reads, hreads, hsame⟩ := @ReadMap.requiredArray _ _ _ "documents" .containerCorrupt hmap
    (index.documents.map DocumentEntry.value) (by simp [entriesWithDocuments])
  have hdocuments := collect_of_same
    (fun document hdocument read => DocumentEntry.decode_of_same (hblake3 document hdocument)) hsame
  rw [DocumentIndex.read, asMap, ok_bind, hreads, ok_bind, hdocuments, ok_bind, requiredBstr16,
    hmap.requiredBstr index.containerId (by simp [entriesWithDocuments]), ok_bind]
  simp only
  rw [rejectIf_of_not (not_not.mpr hnodup), ok_bind]
  rfl

theorem DocumentIndex.decode_encode {index : DocumentIndex} {bytes : List UInt8}
    {value : CborValue} (hencode : index.encode = .ok bytes)
    (hvalid : validateDeterministic bytes = .ok value)
    (hblake3 : ∀ document ∈ index.documents,
      document.checksum.algorithm = checksumAlgorithmBlake3) :
    DocumentIndex.decode bytes = .ok index := by
  simp only [DocumentIndex.encode, validateUniqueDocIds, bind_eq_ok_iff, rejectIf_eq_ok_iff,
    not_not] at hencode
  obtain ⟨_, hnodup, hencode⟩ := hencode
  obtain ⟨hprologue, hread⟩ := DocumentIndex.read_of_same
    (validateDeterministicWithLimits_same hencode hvalid) hnodup hblake3
  rw [DocumentIndex.decode, decodePrologue, hvalid, ok_bind, hprologue, ok_bind, pure_eq_ok, ok_bind,
    hread]

end Qzt
