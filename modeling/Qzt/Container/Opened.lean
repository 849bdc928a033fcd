import Qzt.Container.PhysicalRanges
import Qzt.Container.Skeleton
import Qzt.Reader.RangeReads

/-!
# What opening a container establishes

The facts about an opened container that later reads rely on: the chunk table lays the
original out without gaps, metadata and index root agree, the compressed chunks fit
into the file, and every document can be found by its identifier.
-/

namespace Qzt

open Foundation

/-! ## The chunk table -/

theorem validateChunkEntries_sound {index : Nat} {entries : List ChunkEntry}
    {totals totals' : ChunkTotals} (hlt : totals.totalUncompressedSize < 2 ^ 64)
    (h : validateChunkEntries index entries totals = .ok totals') :
    Contiguous index totals.expectedLogicalOffset entries ∧
      totals'.totalUncompressedSize = totals.totalUncompressedSize + (chunkSizes entries).sum ∧
      totals'.totalUncompressedSize < 2 ^ 64 := by
  induction entries generalizing index totals with
  | nil =>
    cases h
    exact ⟨trivial, rfl, hlt⟩
  | cons entry entries ih =>
    simp only [validateChunkEntries, validateChunkEntry, bind_eq_ok_iff, usizeToU64_eq_ok_iff,
      rejectIf_eq_ok_iff, okOr_eq_ok_iff, checkedAdd_eq_some_iff, pure_eq_ok, Except.ok.injEq,
      ne_eq, not_not, not_or] at h
    obtain ⟨next, ⟨_, ⟨-, rfl⟩, _, hid, _, hoffset, _, -, _, ⟨-, hpos⟩, _, -, _, -, _, ⟨-, rfl⟩, _,
      ⟨-, rfl⟩, _, ⟨hsum, rfl⟩, _, ⟨-, rfl⟩, rfl⟩, hrest⟩ := h
    obtain ⟨hcontiguous, htotal, hlt'⟩ := ih hsum hrest
    refine ⟨⟨hid, hoffset, Nat.pos_of_ne_zero hpos, hcontiguous⟩, ?_, hlt'⟩
    rw [htotal, chunkSizes_cons, List.sum_cons]
    exact Nat.add_assoc _ _ _

/-- An accepted chunk table lays out the original. -/
theorem validateChunkTableBlock_layout {bytes : List UInt8} {chunkCount originalSize lineCount : Nat}
    {entries : List ChunkEntry}
    (h : validateChunkTableBlock bytes chunkCount originalSize lineCount = .ok entries) :
    Layout entries originalSize := by
  simp only [validateChunkTableBlock, bind_eq_ok_iff, rejectIf_eq_ok_iff] at h
  obtain ⟨_, -, _, -, _, -, h⟩ := h
  split at h
  · rename_i hzero
    simp only [bind_eq_ok_iff, rejectIf_eq_ok_iff, pure_eq_ok, Except.ok.injEq] at h
    obtain ⟨_, -, rfl⟩ := h
    exact ⟨trivial, hzero.symm, by omega⟩
  · simp only [bind_eq_ok_iff, rejectIf_eq_ok_iff, pure_eq_ok, Except.ok.injEq, not_or, ne_eq,
      not_not] at h
    obtain ⟨_, -, _, -, decoded, -, totals, hvalid, _, ⟨hsize, -⟩, rfl⟩ := h
    obtain ⟨hcontiguous, htotal, hlt⟩ := validateChunkEntries_sound (by decide) hvalid
    rw [hsize] at htotal hlt
    exact ⟨hcontiguous, by simpa using htotal.symm, hlt⟩

/-! ## Documents -/

/-- The lookup finds every document of an index without duplicate identifiers. -/
theorem lookup_buildDocumentLookup {documentIndex : DocumentIndex}
    (hnodup : (documentIndex.documents.map DocumentEntry.docId).Nodup) {index : Nat}
    {document : DocumentEntry} (hget : documentIndex.documents[index]? = some document) :
    (buildDocumentLookup (some documentIndex)).lookup document.docId = some index := by
  obtain ⟨hlt, rfl⟩ := List.getElem?_eq_some_iff.mp hget
  rw [buildDocumentLookup, List.lookup_eq_some_iff]
  refine ⟨(documentIndex.documents.mapIdx fun i d => (d.docId, i)).take index,
    (documentIndex.documents.mapIdx fun i d => (d.docId, i)).drop (index + 1), ?_, ?_⟩
  · conv_lhs => rw [← List.take_append_drop index (List.mapIdx _ _)]
    rw [List.drop_eq_getElem_cons (by simpa using hlt), List.getElem_mapIdx]
  · intro pair hpair
    obtain ⟨i, hi, rfl⟩ := List.mem_take_iff_getElem.mp hpair
    rw [List.length_mapIdx] at hi
    rw [List.getElem_mapIdx, bne_iff_ne]
    intro heq
    have hi' : i < (documentIndex.documents.map DocumentEntry.docId).length := by
      rw [List.length_map]
      omega
    have hlt' : index < (documentIndex.documents.map DocumentEntry.docId).length := by
      rwa [List.length_map]
    have hsame : (documentIndex.documents.map DocumentEntry.docId)[i] =
        (documentIndex.documents.map DocumentEntry.docId)[index] := by
      rw [List.getElem_map, List.getElem_map]
      exact heq.symm
    have := hnodup.getElem_inj_iff.mp hsame
    omega

theorem DocumentIndex.decode_nodup {bytes : List UInt8} {documentIndex : DocumentIndex}
    (h : DocumentIndex.decode bytes = .ok documentIndex) :
    (documentIndex.documents.map DocumentEntry.docId).Nodup := by
  simp only [DocumentIndex.decode, DocumentIndex.read, bind_eq_ok_iff, rejectIf_eq_ok_iff, pure_eq_ok,
    Except.ok.injEq, not_not] at h
  obtain ⟨_, -, _, -, _, -, _, -, _, -, _, hnodup, rfl⟩ := h
  exact hnodup

theorem parseDocumentDescriptors_nodup {env : Env} {bytes : List UInt8} {containerId : ContainerId}
    {limits : ResourceLimits} {descriptors : List BlockDescriptor}
    {start : Option DocumentIndex} (hstart : ∀ documentIndex, start = some documentIndex →
      (documentIndex.documents.map DocumentEntry.docId).Nodup) {result : Option DocumentIndex}
    (h : parseDocumentDescriptors env bytes containerId limits descriptors start = .ok result) :
    ∀ documentIndex, result = some documentIndex →
      (documentIndex.documents.map DocumentEntry.docId).Nodup := by
  induction descriptors generalizing start with
  | nil =>
    cases h
    exact hstart
  | cons descriptor descriptors ih =>
    simp only [parseDocumentDescriptors, bind_eq_ok_iff] at h
    obtain ⟨_, -, _, -, _, -, _, -, _, -, block, hblock, _, -, hrest⟩ := h
    refine ih ?_ hrest
    intro documentIndex heq
    cases heq
    exact DocumentIndex.decode_nodup hblock

/-! ## An opened container -/

/-- The facts the reads rely on. -/
structure Opened (bytes : List UInt8) (details : SkeletonDetails) : Prop where
  layout : Layout details.chunkEntries details.summary.originalSize
  lineCount : details.metadata.lineCount = details.summary.lineCount
  length_lt : bytes.length < 2 ^ 64
  compressed : (details.chunkEntries.map ChunkEntry.compressedSize).sum ≤ bytes.length
  documentLookup : details.documentLookup = buildDocumentLookup details.documentIndex
  nodup : ∀ documentIndex, details.documentIndex = some documentIndex →
    (documentIndex.documents.map DocumentEntry.docId).Nodup

/-- The compressed chunks are among the ranges that were checked. -/
private theorem sum_compressed_le {header : Header} {trailer : FooterTrailer}
    {footerPayload : FooterPayload} {chunkTable : BlockDescriptor} {indexRoot : IndexRoot}
    {entries : List ChunkEntry} {size : Nat}
    (h : validatePhysicalRanges size
      (containerRanges header trailer footerPayload chunkTable indexRoot entries) = .ok ⟨⟩) :
    (entries.map ChunkEntry.compressedSize).sum ≤ size := by
  have hsum := validatePhysicalRanges_sum_le h
  rw [containerRanges, List.map_append, List.sum_append, List.map_map] at hsum
  exact Nat.le_trans (Nat.le_add_left _ _) hsum

theorem openSkeletonDetailsWithLimits_opened {env : Env} {bytes : List UInt8}
    {limits : ResourceLimits} {details : SkeletonDetails}
    (h : openSkeletonDetailsWithLimits env bytes limits = .ok details) :
    Opened bytes details := by
  -- The steps of the opener in order; only some of them matter here.
  unfold openSkeletonDetailsWithLimits at h
  iterate 2 obtain ⟨_, -, h⟩ := bind_eq_ok_iff.mp h
  obtain ⟨_, hsize, h⟩ := bind_eq_ok_iff.mp h
  obtain ⟨hlength, rfl⟩ := usizeToU64_eq_ok_iff.mp hsize
  obtain ⟨header, -, h⟩ := bind_eq_ok_iff.mp h
  obtain ⟨trailer, -, h⟩ := bind_eq_ok_iff.mp h
  iterate 3 obtain ⟨_, -, h⟩ := bind_eq_ok_iff.mp h
  obtain ⟨footerPayload, -, h⟩ := bind_eq_ok_iff.mp h
  iterate 7 obtain ⟨_, -, h⟩ := bind_eq_ok_iff.mp h
  obtain ⟨metadata, -, h⟩ := bind_eq_ok_iff.mp h
  iterate 5 obtain ⟨_, -, h⟩ := bind_eq_ok_iff.mp h
  obtain ⟨indexRoot, -, h⟩ := bind_eq_ok_iff.mp h
  obtain ⟨_, hconsistent, h⟩ := bind_eq_ok_iff.mp h
  obtain ⟨chunkTable, -, h⟩ := bind_eq_ok_iff.mp h
  iterate 4 obtain ⟨_, -, h⟩ := bind_eq_ok_iff.mp h
  obtain ⟨entries, hentries, h⟩ := bind_eq_ok_iff.mp h
  obtain ⟨_, -, h⟩ := bind_eq_ok_iff.mp h
  obtain ⟨⟨⟩, hranges, h⟩ := bind_eq_ok_iff.mp h
  iterate 3 obtain ⟨_, -, h⟩ := bind_eq_ok_iff.mp h
  obtain ⟨documentIndex, hdocuments, h⟩ := bind_eq_ok_iff.mp h
  obtain rfl := Except.ok.inj h
  simp only [validateSourceConsistency, bind_eq_ok_iff, rejectIf_eq_ok_iff, not_or, ne_eq,
    not_not] at hconsistent
  obtain ⟨_, -, -, -, hlines⟩ := hconsistent
  exact
    { layout := validateChunkTableBlock_layout hentries
      lineCount := hlines
      length_lt := hlength
      compressed := sum_compressed_le hranges
      documentLookup := rfl
      nodup := parseDocumentDescriptors_nodup (by simp) hdocuments }

end Qzt
