import Qzt.Container.DenseLaws
import Qzt.Container.Rules
import Qzt.Container.SchemaLaws
import Qzt.Writer.Documents
import Qzt.Writer.TableChecks

/-!
# The opener accepts what the writer assembles

The checks of `open_skeleton_details` in the order of the source, each discharged from
what the writer computed or checked.
-/

namespace Qzt

open Foundation

/-! ## Blocks in place -/

/-- A block is read from the place where it stands. -/
theorem slicePhysical_of_append {bytes pre mid post : List UInt8} {offset size : Nat}
    (h : bytes = pre ++ (mid ++ post)) (hoffset : offset = pre.length) (hsize : size = mid.length)
    (hlt : bytes.length < 2 ^ 64) : slicePhysical bytes ⟨offset, size⟩ = .ok mid := by
  subst hoffset hsize
  have hlen : pre.length + mid.length ≤ bytes.length := by
    rw [h, List.length_append, List.length_append]
    omega
  have hrange := getRange?_append_left pre mid post
  rw [← h] at hrange
  simp only [slicePhysical]
  rw [checkedPhysicalEnd_of_lt (by omega), ok_bind, rejectIf_of_not (by omega), ok_bind, hrange,
    okOr_some]

namespace Assembly

variable {env : Env} {assembly : Assembly}

theorem length_prefixBytes : (assembly.prefixBytes env).length = assembly.footerOffset env := by
  simp only [prefixBytes, List.length_append, Header.length_encode, footerOffset, indexRootOffset,
    tableOffset, documentOffset, denseOffset, metadataOffset]
  omega

theorem length_bytes : (assembly.bytes env).length =
    assembly.footerOffset env + assembly.footerPayloadBytes.length + footerTrailerLen := by
  rw [bytes, List.length_append, length_prefixBytes, List.length_append,
    FooterTrailer.length_encode, Nat.add_assoc]

/-- The metadata in place. -/
theorem slice_metadata (hlt : (assembly.bytes env).length < 2 ^ 64) :
    slicePhysical (assembly.bytes env)
      ⟨assembly.metadataOffset env, assembly.metadataBytes.length⟩ = .ok assembly.metadataBytes := by
  have hsplit : ∃ post, assembly.bytes env = ((assembly.header env).encode ++
      assembly.frames env) ++ (assembly.metadataBytes ++ post) := by
    simp only [bytes, prefixBytes, List.append_assoc]
    exact ⟨_, rfl⟩
  obtain ⟨post, hsplit⟩ := hsplit
  exact slicePhysical_of_append hsplit
    (by rw [List.length_append, Header.length_encode, metadataOffset]) rfl hlt

/-- The dense line index in place. -/
theorem slice_dense {denseBytes : List UInt8} (hdense : assembly.denseBytes = some denseBytes)
    (hlt : (assembly.bytes env).length < 2 ^ 64) :
    slicePhysical (assembly.bytes env) ⟨assembly.denseOffset env, denseBytes.length⟩ =
      .ok denseBytes := by
  have hsplit : ∃ post, assembly.bytes env = ((assembly.header env).encode ++
      (assembly.frames env ++ assembly.metadataBytes)) ++ (denseBytes ++ post) := by
    simp only [bytes, prefixBytes, List.append_assoc, hdense, optionalBytes, Option.getD_some]
    exact ⟨_, rfl⟩
  obtain ⟨post, hsplit⟩ := hsplit
  refine slicePhysical_of_append hsplit ?_ rfl hlt
  simp only [List.length_append, Header.length_encode, denseOffset, metadataOffset]
  omega

/-- The document index in place. -/
theorem slice_documents {documentBytes : List UInt8}
    (hdocuments : assembly.documentBytes = some documentBytes)
    (hlt : (assembly.bytes env).length < 2 ^ 64) :
    slicePhysical (assembly.bytes env) ⟨assembly.documentOffset env, documentBytes.length⟩ =
      .ok documentBytes := by
  have hsplit : ∃ post, assembly.bytes env = ((assembly.header env).encode ++
      (assembly.frames env ++ (assembly.metadataBytes ++ optionalBytes assembly.denseBytes))) ++
        (documentBytes ++ post) := by
    simp only [bytes, prefixBytes, List.append_assoc, hdocuments, optionalBytes, Option.getD_some]
    exact ⟨_, rfl⟩
  obtain ⟨post, hsplit⟩ := hsplit
  refine slicePhysical_of_append hsplit ?_ rfl hlt
  simp only [List.length_append, Header.length_encode, documentOffset, denseOffset, metadataOffset]
  omega

/-- The chunk table in place. -/
theorem slice_table (hlt : (assembly.bytes env).length < 2 ^ 64) :
    slicePhysical (assembly.bytes env)
      ⟨assembly.tableOffset env, (assembly.tableBytes env).length⟩ =
        .ok (assembly.tableBytes env) := by
  have hsplit : ∃ post, assembly.bytes env = ((assembly.header env).encode ++
      (assembly.frames env ++ (assembly.metadataBytes ++ (optionalBytes assembly.denseBytes ++
        optionalBytes assembly.documentBytes)))) ++ (assembly.tableBytes env ++ post) := by
    simp only [bytes, prefixBytes, List.append_assoc]
    exact ⟨_, rfl⟩
  obtain ⟨post, hsplit⟩ := hsplit
  refine slicePhysical_of_append hsplit ?_ rfl hlt
  simp only [List.length_append, Header.length_encode, tableOffset, documentOffset, denseOffset,
    metadataOffset]
  omega

/-- The index root in place. -/
theorem slice_indexRoot (hlt : (assembly.bytes env).length < 2 ^ 64) :
    slicePhysical (assembly.bytes env)
      ⟨assembly.indexRootOffset env, assembly.indexRootBytes.length⟩ =
        .ok assembly.indexRootBytes := by
  have hsplit : ∃ post, assembly.bytes env = ((assembly.header env).encode ++
      (assembly.frames env ++ (assembly.metadataBytes ++ (optionalBytes assembly.denseBytes ++
        (optionalBytes assembly.documentBytes ++ assembly.tableBytes env))))) ++
          (assembly.indexRootBytes ++ post) := by
    simp only [bytes, prefixBytes, List.append_assoc]
    exact ⟨_, rfl⟩
  obtain ⟨post, hsplit⟩ := hsplit
  refine slicePhysical_of_append hsplit ?_ rfl hlt
  simp only [List.length_append, Header.length_encode, indexRootOffset, tableOffset,
    documentOffset, denseOffset, metadataOffset]
  omega

/-- The footer payload in place. -/
theorem slice_footer (hlt : (assembly.bytes env).length < 2 ^ 64) :
    slicePhysical (assembly.bytes env)
      ⟨assembly.footerOffset env, assembly.footerPayloadBytes.length⟩ =
        .ok assembly.footerPayloadBytes :=
  slicePhysical_of_append rfl length_prefixBytes.symm rfl hlt

/-- The header in place. -/
theorem slice_header :
    slice (assembly.bytes env) 0 headerLen = (assembly.header env).encode := by
  rw [bytes, prefixBytes, List.append_assoc, slice_append_of_ge
    (by rw [Header.length_encode, Nat.zero_add]), slice_eq_self (Header.length_encode _)]

/-- The trailer in place. -/
theorem slice_trailer : slice (assembly.bytes env)
    ((assembly.bytes env).length - footerTrailerLen) footerTrailerLen =
      (assembly.trailer env).encode := by
  have hlen : (assembly.bytes env).length - footerTrailerLen =
      (assembly.prefixBytes env ++ assembly.footerPayloadBytes).length := by
    rw [length_bytes, Nat.add_sub_cancel, List.length_append, length_prefixBytes]
  rw [hlen, bytes, ← List.append_assoc, slice_append_of_le (Nat.le_refl _), Nat.sub_self,
    slice_eq_self (FooterTrailer.length_encode _)]

/-- The frame of a part in place. -/
theorem slice_frame {index : Nat} {part : List UInt8}
    (hpart : assembly.parts[index]? = some part) (hlt : (assembly.bytes env).length < 2 ^ 64) :
    slicePhysical (assembly.bytes env)
      ⟨headerLen + (chunkFrames env assembly.level (assembly.parts.take index)).length,
        (chunkFrame env assembly.level part).length⟩ =
          .ok (chunkFrame env assembly.level part) := by
  have hframes : assembly.frames env =
      chunkFrames env assembly.level (assembly.parts.take index) ++
        (chunkFrame env assembly.level part ++
          chunkFrames env assembly.level (assembly.parts.drop (index + 1))) := by
    obtain ⟨hi, rfl⟩ := List.getElem?_eq_some_iff.mp hpart
    rw [frames]
    conv_lhs => rw [← List.take_append_drop index assembly.parts, List.drop_eq_getElem_cons hi]
    rw [chunkFrames, List.map_append, List.map_cons, List.flatten_append, List.flatten_cons]
    rfl
  have hsplit : ∃ post, assembly.bytes env = ((assembly.header env).encode ++
      chunkFrames env assembly.level (assembly.parts.take index)) ++
        (chunkFrame env assembly.level part ++ post) := by
    simp only [bytes, prefixBytes, hframes, List.append_assoc]
    exact ⟨_, rfl⟩
  obtain ⟨post, hsplit⟩ := hsplit
  exact slicePhysical_of_append hsplit
    (by rw [List.length_append, Header.length_encode]) rfl hlt

/-! ## What the writer knows -/

variable (env assembly) in
/-- An assembly whose blocks belong together. -/
structure Sound : Prop where
  written : assembly.Written env
  parts : WriterParts env assembly.level assembly.parts
  valid : ∀ part ∈ assembly.parts, Utf8.Valid part
  containerId : assembly.metadata.containerId = assembly.containerId
  accepted : assembly.metadata.Accepted
  size : assembly.metadata.originalSize = assembly.parts.flatten.length
  checksum : assembly.metadata.originalChecksum = Checksum.blake3 env assembly.parts.flatten
  lineCount : assembly.metadata.lineCount = countLines assembly.parts.flatten
  newlineMode : assembly.metadata.newlineMode =
    (NewlineMode.fromCounts (newlineState assembly.parts.flatten).lfCount
      (newlineState assembly.parts.flatten).crlfCount).asStr
  dense : ∀ index, assembly.dense = some index →
    checkDenseAllocation (assembly.entries env) = .ok ⟨⟩ ∧
      DenseLineIndex.fromOriginalBytes assembly.parts.flatten (assembly.entries env) = .ok index
  documents : ∀ index, assembly.documents = some index → ∃ spans,
    buildDocumentIndex env spans assembly.parts.flatten assembly.containerId
      (assembly.entries env) = .ok index

variable (env assembly) in
/-- What the opener returns for an assembly. -/
def details : SkeletonDetails :=
  skeletonDetails (assembly.header env) (assembly.trailer env) (assembly.footerPayload env)
    assembly.metadata (assembly.indexRoot env) (assembly.entries env) [] assembly.dense
    assembly.documents

end Assembly

/-- A CBOR block that the writer checked passes the checks of the reader. -/
theorem checkWriterCborBlock_eq_ok {bytes : List UInt8} {u : Unit}
    (h : checkWriterCborBlock bytes = .ok u) :
    bytes.length ≤ ResourceLimits.default.maxIndexBlockSize ∧
      ∃ value, validateDeterministicWithLimits bytes ResourceLimits.default.cborLimits =
        .ok value := by
  simp only [checkWriterCborBlock, bind_eq_ok_iff, usizeToU64_eq_ok_iff,
    ResourceLimits.enforceIndexBlockSize_eq_ok_iff] at h
  obtain ⟨_, ⟨-, rfl⟩, _, hsize, value, hvalue, -⟩ := h
  exact ⟨hsize, value, hvalue⟩

theorem transposeMap_eq_ok_none {α β : Type} {f : α → Result β} {o : Option α}
    (h : transposeMap f o = .ok none) : o = none := by
  cases o with
  | none => rfl
  | some a =>
    simp only [transposeMap, bind_eq_ok_iff, pure_eq_ok, Except.ok.injEq, reduceCtorEq, and_false,
      exists_false] at h

theorem transposeMap_eq_ok_some {α β : Type} {f : α → Result β} {o : Option α} {b : β}
    (h : transposeMap f o = .ok (some b)) : ∃ a, o = some a ∧ f a = .ok b := by
  cases o with
  | none => cases h
  | some a =>
    simp only [transposeMap, bind_eq_ok_iff, pure_eq_ok, Except.ok.injEq, Option.some.injEq] at h
    obtain ⟨_, ha, rfl⟩ := h
    exact ⟨a, rfl, ha⟩

/-! ## The dense line index -/

/-- A dense entry of the writer holds the line starts of its range. -/
theorem entryFromOriginalBytes_eq_ok {input : List UInt8} {entry : ChunkEntry}
    {dense : DenseLineEntry}
    (h : DenseLineIndex.entryFromOriginalBytes input entry = .ok dense) :
    entry.logicalOffset + entry.uncompressedSize ≤ input.length ∧
      dense.chunkId = entry.chunkId ∧ dense.lineStartOffsets.length = entry.lineCount ∧
      dense.lineStartOffsets = localLineStarts
        (slice input entry.logicalOffset entry.uncompressedSize) entry.flags := by
  simp only [DenseLineIndex.entryFromOriginalBytes, bind_eq_ok_iff, okOr_eq_ok_iff,
    checkedAdd_eq_some_iff, getRange?_eq_some_iff, rejectIf_eq_ok_iff, ne_eq, not_not, pure_eq_ok,
    Except.ok.injEq] at h
  obtain ⟨_, ⟨-, rfl⟩, _, ⟨⟨-, hle⟩, rfl⟩, offsets, hoffsets, _, hcount, rfl⟩ := h
  rw [Nat.add_sub_cancel_left] at hoffsets
  exact ⟨hle, rfl, hcount, lineStartOffsets_eq_ok hoffsets⟩

theorem entryFromOriginalBytes_belongs {input : List UInt8} {entry : ChunkEntry}
    {dense : DenseLineEntry} (hlen : input.length < 2 ^ 64) (hid : entry.chunkId < 2 ^ 64)
    (h : DenseLineIndex.entryFromOriginalBytes input entry = .ok dense) :
    DenseLineIndex.Belongs entry dense := by
  obtain ⟨hle, hchunkId, hcount, hoffsets⟩ := entryFromOriginalBytes_eq_ok h
  have hslice := length_slice_of_le hle
  rw [localLineStarts_eq] at hoffsets
  have hstarts : dense.lineStartOffsets.length ≤
      (slice input entry.logicalOffset entry.uncompressedSize).length := by
    rw [hoffsets]
    exact length_segmentStarts_le _ _ _
  refine ⟨hchunkId, hid, hcount, by omega, by omega, ?_, ?_⟩
  · rw [hoffsets]
    exact segmentStarts_sorted _ _ _
  · intro offset hoffset
    rw [hoffsets] at hoffset
    have hbound := (segmentStarts_bounds hoffset).2
    omega

/-- The dense index of the writer belongs to its chunk table. -/
theorem fromOriginalBytes_belongs {input : List UInt8} {entries : List ChunkEntry}
    {index : DenseLineIndex} (hlen : input.length < 2 ^ 64)
    (hids : ∀ entry ∈ entries, entry.chunkId < 2 ^ 64)
    (h : DenseLineIndex.fromOriginalBytes input entries = .ok index) :
    List.Forall₂ DenseLineIndex.Belongs entries index.entries := by
  simp only [DenseLineIndex.fromOriginalBytes, bind_eq_ok_iff, collect_eq_ok_iff, pure_eq_ok,
    Except.ok.injEq] at h
  obtain ⟨denses, hdenses, rfl⟩ := h
  rw [List.forall₂_iff_get] at hdenses ⊢
  refine ⟨hdenses.1, ?_⟩
  intro i hi hj
  exact entryFromOriginalBytes_belongs hlen (hids _ (List.get_mem _ _)) (hdenses.2 i hi hj)

/-! ## The checks of the opener -/

namespace Assembly

variable {env : Env} {assembly : Assembly}

theorem length_entries : (assembly.entries env).length = assembly.parts.length := by
  simp [entries, chunkTableOf]

theorem length_tableBytes :
    (assembly.tableBytes env).length = assembly.parts.length * chunkEntryLen := by
  rw [tableBytes, length_flatMap_encode, length_entries]

theorem blocksOfType_dictionary : (assembly.indexRoot env).blocksOfType "dictionary" = [] := by
  unfold IndexRoot.blocksOfType indexRoot
  cases assembly.denseBytes <;> cases assembly.documentBytes <;> rfl

theorem blocksOfType_dense : (assembly.indexRoot env).blocksOfType "dense_line_index" =
    (assembly.denseBytes.map (assembly.denseBlock env)).toList := by
  unfold IndexRoot.blocksOfType indexRoot
  cases assembly.denseBytes <;> cases assembly.documentBytes <;> rfl

theorem blocksOfType_documents : (assembly.indexRoot env).blocksOfType "document_index" =
    (assembly.documentBytes.map (assembly.documentBlock env)).toList := by
  unfold IndexRoot.blocksOfType indexRoot
  cases assembly.denseBytes <;> cases assembly.documentBytes <;> rfl

theorem chunkTableBlock_eq :
    (assembly.indexRoot env).chunkTableBlock = .ok (assembly.tableBlock env) := rfl

/-! ### Layout -/

/-- The ranges of the chunks. -/
def chunkRanges (entries : List ChunkEntry) : List PhysicalRange :=
  entries.map fun entry => ⟨entry.physicalOffset, entry.compressedSize⟩

theorem chunkRanges_consecutive (level : Int32) (done parts : List (List UInt8)) :
    Consecutive (headerLen + (chunkFrames env level done).length)
        (chunkRanges (mapWithHistory (chunkEntryOf env level) done parts)) ∧
      ((chunkRanges (mapWithHistory (chunkEntryOf env level) done parts)).map
        PhysicalRange.size).sum = (chunkFrames env level parts).length := by
  induction parts generalizing done with
  | nil => exact ⟨trivial, rfl⟩
  | cons part parts ih =>
    obtain ⟨hrest, hsum⟩ := ih (done ++ [part])
    rw [chunkFrames_concat, List.length_append, ← Nat.add_assoc] at hrest
    refine ⟨⟨rfl, hrest⟩, ?_⟩
    have hframes : chunkFrames env level (part :: parts) =
        chunkFrame env level part ++ chunkFrames env level parts := rfl
    rw [mapWithHistory, hframes, List.length_append, ← hsum]
    rfl

variable (env assembly) in
/-- The blocks behind the chunks, in the order of the file. -/
def blockRanges : List PhysicalRange :=
  ⟨assembly.metadataOffset env, assembly.metadataBytes.length⟩ ::
    ((assembly.denseBytes.map fun bytes =>
        ⟨assembly.denseOffset env, bytes.length⟩).toList ++
      ((assembly.documentBytes.map fun bytes =>
          ⟨assembly.documentOffset env, bytes.length⟩).toList ++
        [⟨assembly.tableOffset env, (assembly.tableBytes env).length⟩,
          ⟨assembly.indexRootOffset env, assembly.indexRootBytes.length⟩,
          ⟨assembly.footerOffset env, assembly.footerPayloadBytes.length⟩]))

theorem blockRanges_consecutive :
    Consecutive (assembly.metadataOffset env) (assembly.blockRanges env) := by
  unfold blockRanges
  cases hdense : assembly.denseBytes <;> cases hdocuments : assembly.documentBytes <;>
    simp [Consecutive, denseOffset, documentOffset, tableOffset, indexRootOffset, footerOffset,
      hdense, hdocuments, optionalBytes]

theorem sum_blockRanges :
    assembly.metadataOffset env + ((assembly.blockRanges env).map PhysicalRange.size).sum =
      assembly.footerOffset env + assembly.footerPayloadBytes.length := by
  unfold blockRanges
  cases hdense : assembly.denseBytes <;> cases hdocuments : assembly.documentBytes <;>
    simp [denseOffset, documentOffset, tableOffset, indexRootOffset, footerOffset, hdense,
      hdocuments, optionalBytes] <;> omega

/-- The opener collects the ranges in another order. -/
theorem containerRanges_perm : List.Perm
    (containerRanges (assembly.header env) (assembly.trailer env) (assembly.footerPayload env)
      (assembly.tableBlock env) (assembly.indexRoot env) (assembly.entries env))
    (chunkRanges (assembly.entries env) ++ assembly.blockRanges env) := by
  have hblocks : ((assembly.indexRoot env).blocks.filter fun block =>
      !(block.blockType == "metadata" || block.blockType == "chunk_table")) =
        (assembly.denseBytes.map (assembly.denseBlock env)).toList ++
          (assembly.documentBytes.map (assembly.documentBlock env)).toList := by
    unfold indexRoot
    cases assembly.denseBytes <;> cases assembly.documentBytes <;> rfl
  have hranges : containerRanges (assembly.header env) (assembly.trailer env)
      (assembly.footerPayload env) (assembly.tableBlock env) (assembly.indexRoot env)
      (assembly.entries env) =
        [⟨assembly.metadataOffset env, assembly.metadataBytes.length⟩,
          ⟨assembly.indexRootOffset env, assembly.indexRootBytes.length⟩,
          ⟨assembly.footerOffset env, assembly.footerPayloadBytes.length⟩,
          ⟨assembly.tableOffset env, (assembly.tableBytes env).length⟩] ++
        ((assembly.denseBytes.map fun bytes =>
            ⟨assembly.denseOffset env, bytes.length⟩).toList ++
          (assembly.documentBytes.map fun bytes =>
            ⟨assembly.documentOffset env, bytes.length⟩).toList) ++
        chunkRanges (assembly.entries env) := by
    rw [containerRanges, hblocks]
    cases assembly.denseBytes <;> cases assembly.documentBytes <;> rfl
  rw [hranges, blockRanges, List.perm_iff_count]
  intro range
  simp only [List.count_append, List.count_cons, List.count_nil]
  omega

/-- The layout passes the overlap check. -/
theorem physicalRanges (hlt : (assembly.bytes env).length < 2 ^ 64) :
    validatePhysicalRanges (assembly.bytes env).length
    (containerRanges (assembly.header env) (assembly.trailer env) (assembly.footerPayload env)
      (assembly.tableBlock env) (assembly.indexRoot env) (assembly.entries env)) = .ok ⟨⟩ := by
  obtain ⟨hchunks, hsum⟩ := @chunkRanges_consecutive env assembly.level [] assembly.parts
  change ((chunkRanges (assembly.entries env)).map PhysicalRange.size).sum =
    (assembly.frames env).length at hsum
  have hall : Consecutive headerLen
      (chunkRanges (assembly.entries env) ++ assembly.blockRanges env) := by
    refine Consecutive.append hchunks ?_
    rw [hsum]
    exact blockRanges_consecutive
  have hperm := @containerRanges_perm env assembly
  have hend := @sum_blockRanges env assembly
  have hlength := @length_bytes env assembly
  refine validatePhysicalRanges_of_disjoint ?_ hlt ?_ ?_
  · rw [hlength]
    simp only [footerOffset, indexRootOffset, tableOffset, documentOffset, denseOffset,
      metadataOffset]
    omega
  · intro range hrange
    obtain ⟨hstart, hstop⟩ := hall.bounds range (hperm.subset hrange)
    refine ⟨hstart, ?_⟩
    rw [List.map_append, List.sum_append, hsum] at hstop
    rw [metadataOffset] at hend
    omega
  · exact (hperm.pairwise_iff fun hab => hab.symm).mpr hall.disjoint

theorem header_decode (hlt : (assembly.bytes env).length < 2 ^ 64) :
    Header.decode (assembly.header env).encode = .ok (assembly.header env) := by
  rw [length_bytes] at hlt
  apply Header.decode_encode
  refine ⟨?_, ?_, ?_⟩
  all_goals
    simp only [footerOffset, indexRootOffset, tableOffset, documentOffset, denseOffset] at hlt
    simp only [header, indexRootOffset, tableOffset, documentOffset, denseOffset]
    omega

theorem trailer_decode (hlt : (assembly.bytes env).length < 2 ^ 64) :
    FooterTrailer.decode (assembly.trailer env).encode = .ok (assembly.trailer env) := by
  rw [length_bytes] at hlt
  apply FooterTrailer.decode_encode
  refine ⟨?_, ?_⟩
  all_goals
    simp only [trailer]
    omega

theorem sourceConsistency (hid : assembly.metadata.containerId = assembly.containerId) :
    validateSourceConsistency assembly.metadata (assembly.indexRoot env) = .ok ⟨⟩ := by
  rw [validateSourceConsistency, rejectIf_of_not (by simp [indexRoot, hid]), ok_bind]
  exact rejectIf_of_not (by simp [indexRoot])

theorem requiredDictionaries :
    validateRequiredDictionaries (assembly.entries env) [] = .ok ⟨⟩ := by
  rw [validateRequiredDictionaries, checkAll_eq_ok_iff]
  intro entry hentry
  obtain ⟨index, hget⟩ := List.mem_iff_getElem?.mp hentry
  obtain ⟨part, -, rfl⟩ := WriterParts.entry_eq hget
  exact rejectIf_of_not fun hbad => hbad.1 rfl

/-! ### The rules -/

variable (env assembly) in
/-- What the opener reads from an assembly. -/
def skeletonParts : SkeletonParts where
  header := assembly.header env
  trailer := assembly.trailer env
  footerPayloadBytes := assembly.footerPayloadBytes
  footerPayload := assembly.footerPayload env
  metadataBytes := assembly.metadataBytes
  metadata := assembly.metadata
  indexRootBytes := assembly.indexRootBytes
  indexRoot := assembly.indexRoot env
  chunkTable := assembly.tableBlock env
  chunkTableBytes := assembly.tableBytes env
  chunkEntries := assembly.entries env
  dictionaries := []
  denseLineIndex := assembly.dense
  documentIndex := assembly.documents

/-- A block of the file is accepted: it is small enough, valid under the caller's limits, and read
back under `cbor`. -/
structure BlockAccepted {α : Type} (limits : ResourceLimits) (cbor : CborLimits)
    (schema : BlockSchema α) (blockBytes : List UInt8) (block : α) : Prop where
  size : blockBytes.length ≤ limits.maxIndexBlockSize
  admitted : SkeletonParts.Admitted limits blockBytes
  decodes : schema.decodeUnder cbor blockBytes = .ok block

/-- What the layout leaves to the blocks of an assembly, for the opener to accept it. -/
structure Accepted (env : Env) (assembly : Assembly) (limits : ResourceLimits)
    (cbor : CborLimits) : Prop where
  length_lt : (assembly.bytes env).length < 2 ^ 64
  containerId : assembly.metadata.containerId = assembly.containerId
  footerAdmitted : SkeletonParts.Admitted limits assembly.footerPayloadBytes
  footer : FooterPayload.block.decodeUnder cbor assembly.footerPayloadBytes =
    .ok (assembly.footerPayload env)
  metadata : BlockAccepted limits cbor Metadata.block assembly.metadataBytes assembly.metadata
  indexRoot : BlockAccepted limits cbor IndexRoot.block assembly.indexRootBytes
    (assembly.indexRoot env)
  blockSizes : ∀ block ∈ (assembly.indexRoot env).blocks, block.size ≤ limits.maxIndexBlockSize
  table : validateChunkTableBlock (assembly.tableBytes env) (assembly.indexRoot env).chunkCount
    (assembly.indexRoot env).originalSize (assembly.indexRoot env).lineCount =
      .ok (assembly.entries env)
  chunkSizes : ∀ entry ∈ assembly.entries env,
    entry.compressedSize ≤ limits.maxCompressedChunkSize ∧
      entry.uncompressedSize ≤ limits.maxUncompressedChunkSize
  dense : parseDenseLineIndex env (assembly.bytes env) (assembly.indexRoot env)
    (assembly.entries env) limits = .ok assembly.dense
  documents : parseDocumentsUnder env (assembly.bytes env) assembly.containerId limits cbor
    ((assembly.indexRoot env).blocksOfType "document_index") none = .ok assembly.documents

/-- An assembly whose blocks are accepted follows the rules of the opener. -/
theorem Accepted.follows {limits : ResourceLimits} {cbor : CborLimits}
    (h : assembly.Accepted env limits cbor) :
    (assembly.skeletonParts env).Follows env (assembly.bytes env) limits cbor where
  length := by
    rw [length_bytes, footerOffset, indexRootOffset, tableOffset, documentOffset, denseOffset,
      metadataOffset]
    omega
  word := h.length_lt
  header := by
    rw [slice_header]
    exact header_decode h.length_lt
  trailer := by
    rw [slice_trailer]
    exact trailer_decode h.length_lt
  footerSlice := slice_footer h.length_lt
  footerChecksum := rfl
  footerAdmitted := h.footerAdmitted
  footer := h.footer
  finalFileSize := length_bytes.symm
  footerId := rfl
  metadataRef := ⟨rfl, rfl⟩
  metadataSize := h.metadata.size
  metadataSlice := slice_metadata h.length_lt
  metadataChecksum := rfl
  metadataAdmitted := h.metadata.admitted
  metadata := h.metadata.decodes
  metadataId := h.containerId
  indexRootSize := h.indexRoot.size
  indexRootSlice := slice_indexRoot h.length_lt
  indexRootChecksum := rfl
  indexRootAdmitted := h.indexRoot.admitted
  indexRoot := h.indexRoot.decodes
  source := sourceConsistency h.containerId
  chunkTable := chunkTableBlock_eq
  chunkTableCodec := rfl
  blockSizes := h.blockSizes
  chunkTableSlice := slice_table h.length_lt
  chunkTableChecksum := rfl
  chunkEntries := h.table
  chunkSizes := h.chunkSizes
  ranges := physicalRanges h.length_lt
  dictionaries := by
    show parseDictionariesUnder _ _ _ _ _ ((assembly.indexRoot env).blocksOfType "dictionary") _ = _
    rw [blocksOfType_dictionary]
    rfl
  required := requiredDictionaries
  dense := h.dense
  documents := h.documents

namespace Sound

variable (h : assembly.Sound env)
include h

theorem length_lt : (assembly.bytes env).length < 2 ^ 64 := by
  rw [length_bytes]
  exact h.written.size_lt

theorem footer_decode :
    FooterPayload.decode assembly.footerPayloadBytes = .ok (assembly.footerPayload env) := by
  obtain ⟨-, value, hvalue⟩ := checkWriterCborBlock_eq_ok h.written.footer_checked
  refine FooterPayload.decode_encode h.written.footer_encode hvalue rfl ⟨rfl, rfl, ?_⟩
  intro checksum hchecksum
  cases hchecksum
  rfl

theorem metadata_decode : Metadata.decode assembly.metadataBytes = .ok assembly.metadata := by
  obtain ⟨-, value, hvalue⟩ := checkWriterCborBlock_eq_ok h.written.metadata_checked
  exact Metadata.decode_encode h.written.metadata_encode hvalue h.accepted

theorem indexRoot_accepted : (assembly.indexRoot env).Accepted where
  blocks := by
    intro block hblock
    simp only [indexRoot, List.mem_append, List.mem_singleton, Option.mem_toList,
      Option.map_eq_some_iff] at hblock
    rcases hblock with (rfl | ⟨bytes, -, rfl⟩) | ⟨bytes, -, rfl⟩
    · exact ⟨rfl, fun _ => rfl, rfl⟩
    · exact ⟨rfl, (nomatch ·), rfl⟩
    · exact ⟨rfl, (nomatch ·), rfl⟩
  chunkTables := by
    unfold indexRoot
    cases assembly.denseBytes <;> cases assembly.documentBytes <;> rfl
  originalChecksum := h.accepted.originalChecksum

theorem indexRoot_decode :
    IndexRoot.decode assembly.indexRootBytes = .ok (assembly.indexRoot env) := by
  obtain ⟨-, value, hvalue⟩ := checkWriterCborBlock_eq_ok h.written.indexRoot_checked
  exact IndexRoot.decode_encode h.written.indexRoot_encode hvalue h.indexRoot_accepted

/-- Every block of the index root is within the size limit. -/
theorem block_size_le {block : BlockDescriptor}
    (hblock : block ∈ (assembly.indexRoot env).blocks) :
    block.size ≤ ResourceLimits.default.maxIndexBlockSize := by
  simp only [indexRoot, List.mem_append, List.mem_singleton, Option.mem_toList,
    Option.map_eq_some_iff] at hblock
  rcases hblock with (rfl | ⟨bytes, hbytes, rfl⟩) | ⟨bytes, hbytes, rfl⟩
  · have hcount := h.parts.count
    have hmax : ResourceLimits.default.maxIndexBlockSize = 64 * 1024 * 1024 := rfl
    have hsize : (assembly.tableBlock env).size = (assembly.tableBytes env).length := rfl
    rw [hsize, length_tableBytes, hmax, chunkEntryLen]
    rw [maxChunkCount] at hcount
    omega
  · have hencode := h.written.dense_encode
    rw [hbytes] at hencode
    obtain ⟨index, hindex, hencode⟩ := transposeMap_eq_ok_some hencode
    have hchecked := h.written.dense_checked
    simp only [hindex, checkSome, checkDenseEncodedSize, bind_eq_ok_iff,
      rejectIf_eq_ok_iff, Nat.not_lt] at hchecked
    obtain ⟨size, hsize, hle⟩ := hchecked
    rw [DenseLineIndex.encodedSize_eq hencode, usizeToU64_eq_ok_iff] at hsize
    rw [← hsize.2] at hle
    exact hle
  · have hchecked := h.written.documents_checked
    rw [hbytes] at hchecked
    exact (checkWriterCborBlock_eq_ok hchecked).1

/-- The dense index is read back. -/
theorem parseDense :
    parseDenseLineIndex env (assembly.bytes env) (assembly.indexRoot env) (assembly.entries env)
      .default = .ok assembly.dense := by
  have hencode := h.written.dense_encode
  have hlt := h.length_lt
  rw [parseDenseLineIndex, blocksOfType_dense]
  cases hbytes : assembly.denseBytes with
  | none =>
    rw [hbytes] at hencode
    rw [transposeMap_eq_ok_none hencode]
    rfl
  | some bytes =>
    rw [hbytes] at hencode
    obtain ⟨index, hindex, hencode⟩ := transposeMap_eq_ok_some hencode
    obtain ⟨hallocation, hbuilt⟩ := h.dense index hindex
    simp only [checkDenseAllocation, bind_eq_ok_iff,
      ResourceLimits.enforceDenseAllocation_eq_ok_iff] at hallocation
    obtain ⟨requested, hrequested, hmax⟩ := hallocation
    have hslice := slice_dense hbytes hlt
    have hsize : bytes.length < 2 ^ 64 := by
      rw [length_bytes] at hlt
      simp only [footerOffset, indexRootOffset, tableOffset, documentOffset, hbytes, optionalBytes,
        Option.getD_some] at hlt
      omega
    have htext := h.parts.length_lt
    have hbelongs : List.Forall₂ DenseLineIndex.Belongs (assembly.entries env) index.entries :=
      fromOriginalBytes_belongs (by omega)
        (fun entry hentry => (h.parts.entry_fits hentry).chunkId_lt) hbuilt
    have hrange : (⟨(assembly.denseBlock env bytes).offset,
        (assembly.denseBlock env bytes).size⟩ : PhysicalRange) =
          ⟨assembly.denseOffset env, bytes.length⟩ := rfl
    have hplain : ¬ ((assembly.denseBlock env bytes).required = true ∨
        (assembly.denseBlock env bytes).codec ≠ "qzt-line-delta-varint-v1") := by
      rintro (hrequired | hcodec)
      · cases hrequired
      · exact hcodec rfl
    rw [Option.map_some, Option.toList_some, parseDenseDescriptors,
      rejectIf_of_not hplain, ok_bind,
      rejectIf_of_not (by decide), ok_bind, hrange, hslice, ok_bind,
      rejectIf_of_not (fun hbad => hbad rfl), ok_bind,
      DenseLineIndex.decode_encode hbelongs hencode hsize, hrequested, ok_bind,
      rejectIf_of_not (Nat.not_lt.mpr hmax), ok_bind, pure_eq_ok, ok_bind, hindex]
    rfl

/-- The document index is read back. -/
theorem parseDocuments :
    parseDocumentIndex env (assembly.bytes env) (assembly.indexRoot env) assembly.containerId
      .default = .ok assembly.documents := by
  have hencode := h.written.documents_encode
  have hchecked := h.written.documents_checked
  rw [parseDocumentIndex, blocksOfType_documents]
  cases hbytes : assembly.documentBytes with
  | none =>
    rw [hbytes] at hencode
    rw [transposeMap_eq_ok_none hencode]
    rfl
  | some bytes =>
    rw [hbytes] at hencode hchecked
    obtain ⟨index, hindex, hencode⟩ := transposeMap_eq_ok_some hencode
    obtain ⟨spans, hbuilt⟩ := h.documents index hindex
    obtain ⟨-, value, hvalue⟩ := checkWriterCborBlock_eq_ok hchecked
    obtain ⟨hid, hmatches⟩ := @buildDocumentIndex_matches _ (assembly.details env) _ _ _ _
      h.size h.lineCount hbuilt
    have hdecode := DocumentIndex.decode_encode hencode hvalue (fun document hdocument => by
      rw [(hmatches document hdocument).checksum]
      rfl)
    have hrange : (⟨(assembly.documentBlock env bytes).offset,
        (assembly.documentBlock env bytes).size⟩ : PhysicalRange) =
          ⟨assembly.documentOffset env, bytes.length⟩ := rfl
    have hplain : ¬ ((assembly.documentBlock env bytes).required = true ∨
        (assembly.documentBlock env bytes).codec ≠ "qzt-doc-index-cbor-v1") := by
      rintro (hrequired | hcodec)
      · cases hrequired
      · exact hcodec rfl
    rw [Option.map_some, Option.toList_some, parseDocumentDescriptors,
      rejectIf_of_not hplain, ok_bind,
      rejectIf_of_not (by decide), ok_bind, hrange, slice_documents hbytes h.length_lt, ok_bind,
      rejectIf_of_not (fun hbad => hbad rfl), ok_bind, hvalue, ok_bind, hdecode, ok_bind,
      rejectIf_of_not (not_not.mpr hid), ok_bind, hindex]
    rfl

/-- The chunk table is read back. -/
theorem table_valid : validateChunkTableBlock (assembly.tableBytes env)
    (assembly.indexRoot env).chunkCount (assembly.indexRoot env).originalSize
    (assembly.indexRoot env).lineCount = .ok (assembly.entries env) := by
  have hvalid := h.parts.validateChunkTableBlock
  rw [← h.size, ← h.lineCount] at hvalid
  exact hvalid

theorem chunkSizes : ∀ entry ∈ assembly.entries env,
    entry.compressedSize ≤ ResourceLimits.default.maxCompressedChunkSize ∧
      entry.uncompressedSize ≤ ResourceLimits.default.maxUncompressedChunkSize := by
  intro entry hentry
  obtain ⟨index, hget⟩ := List.mem_iff_getElem?.mp hentry
  obtain ⟨part, hpart, rfl⟩ := WriterParts.entry_eq hget
  have hmem := List.mem_of_getElem? hpart
  exact ⟨(h.parts.compress part hmem).frame_le, h.parts.sizes part hmem⟩

/-- The blocks pass the checks of the opener. -/
theorem accepted_default : assembly.Accepted env .default .default where
  length_lt := h.length_lt
  containerId := h.containerId
  footerAdmitted := (checkWriterCborBlock_eq_ok h.written.footer_checked).2
  footer := (FooterPayload.decode_eq _).symm.trans h.footer_decode
  metadata :=
    { size := (checkWriterCborBlock_eq_ok h.written.metadata_checked).1
      admitted := (checkWriterCborBlock_eq_ok h.written.metadata_checked).2
      decodes := (Metadata.decode_eq _).symm.trans h.metadata_decode }
  indexRoot :=
    { size := (checkWriterCborBlock_eq_ok h.written.indexRoot_checked).1
      admitted := (checkWriterCborBlock_eq_ok h.written.indexRoot_checked).2
      decodes := (IndexRoot.decode_eq _).symm.trans h.indexRoot_decode }
  blockSizes := fun _ hblock => h.block_size_le hblock
  table := h.table_valid
  chunkSizes := h.chunkSizes
  dense := h.parseDense
  documents := (parseDocumentsUnder_default _ _ _ _ _ _).trans h.parseDocuments

/-- The opener accepts the container and returns its blocks. -/
theorem opens :
    openSkeletonDetails env (assembly.bytes env) = .ok (assembly.details env) :=
  h.accepted_default.follows.opens

end Sound

end Assembly

end Qzt
