import Qzt.Container.PhysicalRanges
import Qzt.Container.Rules
import Qzt.Format.Reference
import Qzt.Reader.Agreement
import Qzt.Writer.Assembly

/-!
# Where the blocks of a container lie

The openers collect the ranges of the header's metadata, the index root, the footer
payload, the chunk table, the chunks, and of the block descriptors whose type is neither
`metadata` nor `chunk_table`, and check them against each other.  A `metadata` descriptor
and an optional `chunk_table` descriptor are in no range list, so nothing is known about
their place; every other descriptor is placed safely against what the check sees.
-/

namespace Qzt

open Foundation

/-- The range of a descriptor. -/
def BlockDescriptor.range (block : BlockDescriptor) : PhysicalRange := ⟨block.offset, block.size⟩

/-- The type is one that the range collection keeps. -/
def BlockDescriptor.kept (block : BlockDescriptor) : Bool :=
  !(block.blockType == "metadata" || block.blockType == "chunk_table")

/-- A descriptor that the range check does not see. -/
def BlockDescriptor.Unchecked (block : BlockDescriptor) : Prop :=
  block.blockType = "metadata" ∨ block.blockType = "chunk_table" ∧ block.required = false

namespace SkeletonParts

variable (parts : SkeletonParts)

/-- The metadata range of the header. -/
def metadataRange : PhysicalRange := ⟨parts.header.metadataOffset, parts.header.metadataSize⟩

/-- The optional `metadata` descriptor that describes the metadata of the header. -/
def DescribesMetadata (block : BlockDescriptor) : Prop :=
  block.blockType = "metadata" ∧ block.required = false ∧ block.range = parts.metadataRange

/-- The checked ranges apart from the descriptors. -/
def reservedRanges : List PhysicalRange :=
  [parts.metadataRange,
    ⟨parts.footerPayload.indexRoot.offset, parts.footerPayload.indexRoot.size⟩,
    ⟨parts.trailer.footerPayloadOffset, parts.trailer.footerPayloadSize⟩]

/-- The descriptors whose ranges are checked. -/
def checkedBlocks : List BlockDescriptor :=
  parts.chunkTable :: parts.indexRoot.blocks.filter BlockDescriptor.kept

/-- The descriptor at `index` is in the file and shares no byte with the header, the trailer, the
footer payload, the metadata, the index root, a chunk or another descriptor. -/
structure Placed (finalFileSize index : Nat) (block : BlockDescriptor) : Prop where
  inFile : block.range.InFile finalFileSize
  footerPayload : block.range.Disjoint
    ⟨parts.trailer.footerPayloadOffset, parts.trailer.footerPayloadSize⟩
  metadata : block.range.Disjoint parts.metadataRange
  indexRoot : block.range.Disjoint
    ⟨parts.footerPayload.indexRoot.offset, parts.footerPayload.indexRoot.size⟩
  chunks : ∀ entry ∈ parts.chunkEntries,
    block.range.Disjoint ⟨entry.physicalOffset, entry.compressedSize⟩
  others : ∀ other block', parts.indexRoot.blocks[other]? = some block' → other ≠ index →
    block.range.Disjoint block'.range

end SkeletonParts

/-! ## The descriptors of an index root -/

/-- An index root that is read has exactly one required chunk table. -/
theorem IndexRoot.read_requiredChunkTables {value : CborValue} {root : IndexRoot}
    (h : IndexRoot.read value = .ok root) :
    root.blocks.countP BlockDescriptor.isRequiredChunkTable = 1 := by
  unfold IndexRoot.read at h
  obtain ⟨map, -, h⟩ := bind_eq_ok_iff.mp h
  obtain ⟨values, -, h⟩ := bind_eq_ok_iff.mp h
  obtain ⟨blocks, -, h⟩ := bind_eq_ok_iff.mp h
  obtain ⟨_, hmissing, h⟩ := bind_eq_ok_iff.mp h
  obtain ⟨_, hmany, h⟩ := bind_eq_ok_iff.mp h
  obtain ⟨content, -, h⟩ := bind_eq_ok_iff.mp h
  obtain ⟨_, -, h⟩ := bind_eq_ok_iff.mp h
  obtain ⟨containerId, -, h⟩ := bind_eq_ok_iff.mp h
  obtain ⟨originalSize, -, h⟩ := bind_eq_ok_iff.mp h
  obtain ⟨originalChecksum, -, h⟩ := bind_eq_ok_iff.mp h
  obtain ⟨chunkCount, -, h⟩ := bind_eq_ok_iff.mp h
  obtain ⟨lineCount, -, h⟩ := bind_eq_ok_iff.mp h
  obtain rfl := Except.ok.inj h
  rw [rejectIf_eq_ok_iff] at hmissing hmany
  show blocks.countP BlockDescriptor.isRequiredChunkTable = 1
  omega

/-- Where at most one element satisfies a predicate, no two positions do. -/
theorem index_unique_of_countP {α : Type} {p : α → Bool} {l : List α} (h : l.countP p = 1)
    {i j : Nat} {a b : α} (ha : l[i]? = some a) (hb : l[j]? = some b) (hpa : p a = true)
    (hpb : p b = true) : i = j := by
  have hnone : ∀ (l : List α) (k : Nat) (c : α), l.countP p = 0 → l[k]? = some c → p c = true →
      False := by
    intro l k c hzero hget hpc
    exact absurd hpc (List.countP_eq_zero.mp hzero c (List.mem_of_getElem? hget))
  induction l generalizing i j with
  | nil => cases ha
  | cons head l ih =>
    rw [List.countP_cons] at h
    by_cases hp : p head = true
    · -- The head is the one element, so both positions are the first.
      have hzero : l.countP p = 0 := by
        rw [if_pos hp] at h
        omega
      rcases i with _ | i
      · rcases j with _ | j
        · rfl
        · exact absurd hb (fun hget => hnone l j b hzero hget hpb)
      · exact absurd ha (fun hget => hnone l i a hzero hget hpa)
    · have hone : l.countP p = 1 := by
        rw [if_neg hp] at h
        omega
      rcases i with _ | i
      · cases ha
        exact absurd hpa hp
      · rcases j with _ | j
        · cases hb
          exact absurd hpb hp
        · rw [ih hone ha hb]

/-! ## What the range check says about descriptors -/

namespace SkeletonParts.Follows

variable {env : Env} {bytes : List UInt8} {limits : ResourceLimits} {cbor : CborLimits}
  {parts : SkeletonParts}

theorem kept_or_chunkTable {block : BlockDescriptor} (h : ¬ block.Unchecked) :
    block.kept = true ∨ block.isRequiredChunkTable = true := by
  simp only [BlockDescriptor.Unchecked, not_or, not_and] at h
  unfold BlockDescriptor.kept BlockDescriptor.isRequiredChunkTable chunkTableType
  by_cases htype : block.blockType = "chunk_table"
  · right
    simp [htype, h.2 htype]
  · left
    simp [htype, h.1]

theorem ranges_eq (parts : SkeletonParts) :
    parts.ranges = parts.reservedRanges ++ (parts.checkedBlocks.map BlockDescriptor.range ++
      parts.chunkEntries.map fun entry => ⟨entry.physicalOffset, entry.compressedSize⟩) := by
  rfl

variable (h : parts.Follows env bytes limits cbor)
include h

theorem requiredChunkTables :
    parts.indexRoot.blocks.countP BlockDescriptor.isRequiredChunkTable = 1 := by
  have hdecode := h.indexRoot
  simp only [BlockSchema.decodeUnder, bind_eq_ok_iff] at hdecode
  obtain ⟨value, -, _, -, hread⟩ := hdecode
  exact IndexRoot.read_requiredChunkTables hread

/-- The required chunk table is the descriptor that the opener found. -/
theorem chunkTable_unique {index : Nat} {block : BlockDescriptor}
    (hget : parts.indexRoot.blocks[index]? = some block)
    (hrequired : block.isRequiredChunkTable = true) : block = parts.chunkTable := by
  have hfind := okOr_eq_ok_iff.mp h.chunkTable
  obtain ⟨other, hother⟩ := List.mem_iff_getElem?.mp (List.mem_of_find?_eq_some hfind)
  have hsame := index_unique_of_countP h.requiredChunkTables hget hother hrequired
    (List.find?_some hfind)
  rw [hsame, hother, Option.some.injEq] at hget
  exact hget.symm

theorem mem_checkedBlocks {index : Nat} {block : BlockDescriptor}
    (hget : parts.indexRoot.blocks[index]? = some block) (hchecked : ¬ block.Unchecked) :
    block ∈ parts.checkedBlocks := by
  rcases kept_or_chunkTable hchecked with hkept | hrequired
  · exact List.mem_cons_of_mem _ (List.mem_filter.mpr ⟨List.mem_of_getElem? hget, hkept⟩)
  · rw [h.chunkTable_unique hget hrequired]
    exact List.mem_cons_self

theorem ranges_disjoint : (∀ range ∈ parts.ranges, range.InFile bytes.length) ∧
    parts.ranges.Pairwise PhysicalRange.Disjoint :=
  validatePhysicalRanges_disjoint h.ranges

/-- Two checked descriptors at different places share no byte. -/
theorem checked_disjoint {i j : Nat} {a b : BlockDescriptor}
    (ha : parts.indexRoot.blocks[i]? = some a) (hb : parts.indexRoot.blocks[j]? = some b)
    (hij : i ≠ j) (hca : ¬ a.Unchecked) (hcb : ¬ b.Unchecked) :
    a.range.Disjoint b.range := by
  have hpairs := h.ranges_disjoint.2
  rw [ranges_eq, List.pairwise_append] at hpairs
  have hblocks := (List.pairwise_append.mp hpairs.2.1).1
  rw [List.pairwise_map, checkedBlocks, List.pairwise_cons] at hblocks
  obtain ⟨htable, hkept⟩ := hblocks
  have hmem : ∀ {k : Nat} {c : BlockDescriptor}, parts.indexRoot.blocks[k]? = some c →
      c.kept = true → c ∈ parts.indexRoot.blocks.filter BlockDescriptor.kept :=
    fun hget hc => List.mem_filter.mpr ⟨List.mem_of_getElem? hget, hc⟩
  rcases kept_or_chunkTable hca with hka | hra
  · rcases kept_or_chunkTable hcb with hkb | hrb
    · -- Both are kept: the order of the list is the order of the check.
      rw [List.pairwise_filter, List.pairwise_iff_getElem] at hkept
      obtain ⟨hi, rfl⟩ := List.getElem?_eq_some_iff.mp ha
      obtain ⟨hj, rfl⟩ := List.getElem?_eq_some_iff.mp hb
      rcases Nat.lt_or_gt_of_ne hij with hlt | hlt
      · exact hkept i j hi hj hlt hka hkb
      · exact (hkept j i hj hi hlt hkb hka).symm
    · rw [h.chunkTable_unique hb hrb]
      exact (htable a (hmem ha hka)).symm
  · rw [h.chunkTable_unique ha hra]
    rcases kept_or_chunkTable hcb with hkb | hrb
    · exact htable b (hmem hb hkb)
    · exact absurd (index_unique_of_countP h.requiredChunkTables ha hb hra hrb) hij

/-- A checked descriptor shares no byte with the ranges that are not of descriptors. -/
theorem checked_reserved {index : Nat} {block : BlockDescriptor}
    (hget : parts.indexRoot.blocks[index]? = some block) (hchecked : ¬ block.Unchecked) :
    ∀ range ∈ parts.reservedRanges, block.range.Disjoint range := by
  intro range hrange
  have hpairs := h.ranges_disjoint.2
  rw [ranges_eq, List.pairwise_append] at hpairs
  exact (hpairs.2.2 range hrange block.range (List.mem_append_left _
    (List.mem_map_of_mem (h.mem_checkedBlocks hget hchecked)))).symm

/-- A checked descriptor shares no byte with anything but an unchecked descriptor. -/
theorem checked_placed {index : Nat} {block : BlockDescriptor}
    (hget : parts.indexRoot.blocks[index]? = some block) (hchecked : ¬ block.Unchecked)
    (hothers : ∀ other block', parts.indexRoot.blocks[other]? = some block' → other ≠ index →
      block'.Unchecked → block.range.Disjoint block'.range) :
    parts.Placed bytes.length index block := by
  have hmem := h.mem_checkedBlocks hget hchecked
  obtain ⟨hinside, hpairs⟩ := h.ranges_disjoint
  rw [ranges_eq] at hinside
  rw [ranges_eq, List.pairwise_append] at hpairs
  obtain ⟨-, hblocks, -⟩ := hpairs
  have hrange : block.range ∈ parts.checkedBlocks.map BlockDescriptor.range :=
    List.mem_map_of_mem hmem
  have hfree := h.checked_reserved hget hchecked
  simp only [reservedRanges, List.forall_mem_cons] at hfree
  refine ⟨hinside _ (List.mem_append_right _ (List.mem_append_left _ hrange)), hfree.2.2.1,
    hfree.1, hfree.2.1, ?_, ?_⟩
  · intro entry hentry
    exact (List.pairwise_append.mp hblocks).2.2 block.range hrange _ (List.mem_map_of_mem hentry)
  · intro other block' hother hne
    by_cases hunchecked : block'.Unchecked
    · exact hothers other block' hother hne hunchecked
    · exact h.checked_disjoint hget hother (Ne.symm hne) hchecked hunchecked

end SkeletonParts.Follows

/-- For every container that one of the openers accepts: all its descriptors are placed safely, but
for a `metadata` descriptor that describes the metadata of the header, exactly when those are that
the range check does not see. -/
theorem descriptors_placed_iff {env : Env} {bytes : List UInt8} {limits : ResourceLimits}
    {details : SkeletonDetails}
    (hopen : openSkeletonDetailsWithLimits env bytes limits = .ok details ∨
      ∃ served : FaithfulSource bytes,
        openSkeletonDetailsReadAt env served.source served.len limits = .ok details) :
    ∃ parts : SkeletonParts, parts.Follows env bytes limits .default ∧ parts.details = details ∧
      ((∀ index block, parts.indexRoot.blocks[index]? = some block →
          parts.DescribesMetadata block ∨ parts.Placed bytes.length index block) ↔
        ∀ index block, parts.indexRoot.blocks[index]? = some block → block.Unchecked →
          parts.DescribesMetadata block ∨ parts.Placed bytes.length index block) := by
  have hmemory : openSkeletonDetailsWithLimits env bytes limits = .ok details := by
    rcases hopen with hopen | ⟨served, hopen⟩
    · exact hopen
    · rw [← served.openSkeletonDetailsReadAt_eq]
      exact hopen
  obtain ⟨parts, hfollows, hdetails⟩ := SkeletonParts.follows_of_open hmemory
  refine ⟨parts, hfollows, hdetails, fun hall index block hget _ => hall index block hget, ?_⟩
  intro hunchecked index block hget
  by_cases hskipped : block.Unchecked
  · exact hunchecked index block hget hskipped
  · right
    refine hfollows.checked_placed hget hskipped ?_
    -- Against an unchecked descriptor the place of that one decides.
    intro other block' hother hne hskipped'
    rcases hunchecked other block' hother hskipped' with hdescribes | hplaced
    · rw [hdescribes.2.2]
      exact hfollows.checked_reserved hget hskipped _ List.mem_cons_self
    · exact (hplaced.others index block hget (Ne.symm hne)).symm

/-! ## A descriptor over the header -/

/-- The index root of an empty text, with an optional `metadata` descriptor for the first byte. -/
def strayIndexRoot (env : Env) : IndexRoot :=
  { emptyIndexRoot env with
    blocks := (emptyIndexRoot env).blocks ++
      [.new "metadata" false "qzt-metadata-cbor-v1" 0 1 (Checksum.blake3 env [])] }

/-- The empty text with that index root and any footer payload. -/
def strayText (env : Env) (footerPayloadBytes : List UInt8) : Assembly :=
  .ofEmptyText env emptyTextId (encodedForm (.map (strayIndexRoot env).entries)) footerPayloadBytes

/-- The container. -/
def strayContainer : List UInt8 :=
  (strayText Reference.env (encodedForm (.map { (strayText Reference.env []).footerPayload
    Reference.env with finalFileSize := 1847 }.entries))).bytes Reference.env

/-- The index root of a container, read without any check. -/
def readIndexRoot (bytes : List UInt8) : Result IndexRoot := do
  let trailer ← FooterTrailer.decode
    (slice bytes (bytes.length - footerTrailerLen) footerTrailerLen)
  let footerPayloadBytes ← slicePhysical bytes
    ⟨trailer.footerPayloadOffset, trailer.footerPayloadSize⟩
  let footerPayload ← FooterPayload.decode footerPayloadBytes
  let indexRootBytes ← sliceBlockRef bytes footerPayload.indexRoot
  IndexRoot.decode indexRootBytes

theorem SkeletonParts.Follows.readIndexRoot_eq {env : Env} {bytes : List UInt8}
    {limits : ResourceLimits} {parts : SkeletonParts}
    (h : parts.Follows env bytes limits .default) :
    readIndexRoot bytes = .ok parts.indexRoot := by
  rw [readIndexRoot, h.trailer, ok_bind, h.footerSlice, ok_bind, FooterPayload.decode_eq, h.footer,
    ok_bind, h.indexRootSlice, ok_bind, IndexRoot.decode_eq, h.indexRoot]

set_option maxRecDepth 100000 in
theorem strayContainer_reads : (openSkeletonDetails Reference.env strayContainer).isOk = true ∧
    readIndexRoot strayContainer = .ok (strayIndexRoot Reference.env) := by
  decide +kernel

theorem strayContainer_opens : ∃ details,
    openSkeletonDetailsWithLimits Reference.env strayContainer .default = .ok details := by
  have hok := strayContainer_reads.1
  rw [openSkeletonDetails] at hok
  revert hok
  cases openSkeletonDetailsWithLimits Reference.env strayContainer .default with
  | error e => exact (nomatch ·)
  | ok details => exact fun _ => ⟨details, rfl⟩

/-- The container opens although one of its descriptors lies over the header. -/
theorem strayContainer_misplaced :
    ∃ details, openSkeletonDetailsWithLimits Reference.env strayContainer .default = .ok details ∧
      ∀ parts : SkeletonParts, parts.Follows Reference.env strayContainer .default .default →
        ¬ ∀ index block, parts.indexRoot.blocks[index]? = some block →
          parts.DescribesMetadata block ∨ parts.Placed strayContainer.length index block := by
  obtain ⟨details, hopen⟩ := strayContainer_opens
  refine ⟨details, hopen, ?_⟩
  intro parts hfollows hall
  have hindexRoot := hfollows.readIndexRoot_eq
  rw [strayContainer_reads.2, Except.ok.injEq] at hindexRoot
  rw [← hindexRoot] at hall
  have hover : ∀ range : PhysicalRange, range = ⟨0, 1⟩ → ¬ range.InFile strayContainer.length := by
    rintro range rfl hinFile
    have hheader := hinFile.header
    simp [PhysicalRange.Disjoint, headerLen] at hheader
  rcases hall 1 (.new "metadata" false "qzt-metadata-cbor-v1" 0 1
    (Checksum.blake3 Reference.env [])) rfl with hdescribes | hplaced
  · -- The metadata of the header is behind the header, the descriptor is not.
    refine hover parts.metadataRange hdescribes.2.2.symm ?_
    exact hfollows.ranges_disjoint.1 _ List.mem_cons_self
  · exact hover _ rfl hplaced.inFile

theorem descriptors_placed_iff_strayContainer :
    ∃ (details : SkeletonDetails) (parts : SkeletonParts),
      parts.Follows Reference.env strayContainer .default .default ∧ parts.details = details ∧
      ((∀ index block, parts.indexRoot.blocks[index]? = some block →
          parts.DescribesMetadata block ∨ parts.Placed strayContainer.length index block) ↔
        ∀ index block, parts.indexRoot.blocks[index]? = some block → block.Unchecked →
          parts.DescribesMetadata block ∨ parts.Placed strayContainer.length index block) := by
  obtain ⟨details, hopen⟩ := strayContainer_opens
  obtain ⟨parts, hplaced⟩ := descriptors_placed_iff (Or.inl hopen)
  exact ⟨details, parts, hplaced⟩

end Qzt
