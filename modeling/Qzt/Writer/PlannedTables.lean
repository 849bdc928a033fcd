import Qzt.Reader.RangeReads
import Qzt.Writer.Pack
import Qzt.Writer.PlanContract

/-!
# Tables of a plan

A chunk table repeats the chunks of its plan, one entry for each, and adds where and how
their bytes are stored.  Whatever it adds, it describes the parts that the planner cut the
text into.
-/

namespace Qzt

open Foundation

/-- The entry repeats a planned chunk; its frame may be anywhere and of any kind. -/
structure ChunkEntry.Repeats (chunk : PlannedChunk) (entry : ChunkEntry) : Prop where
  chunkId : entry.chunkId = chunk.chunkId
  logicalOffset : entry.logicalOffset = chunk.logicalOffset
  uncompressedSize : entry.uncompressedSize = chunk.uncompressedSize
  firstLine : entry.firstLine = chunk.firstLine
  lineCount : entry.lineCount = chunk.lineCount
  flags : entry.flags = chunk.flags

/-- A chunk table of the plan. -/
def ChunkPlan.IsTable (plan : ChunkPlan) (entries : List ChunkEntry) : Prop :=
  List.Forall₂ ChunkEntry.Repeats plan.chunks entries

/-- The chunk loop of the writer builds a table of its plan. -/
theorem compressChunks_isTable {env : Env} {input : List UInt8} {level : Int32}
    {chunks : List PlannedChunk} {physicalOffset : Nat} {entries : List ChunkEntry}
    {frames : List (List UInt8)}
    (h : compressChunks env input level chunks physicalOffset = .ok (entries, frames)) :
    List.Forall₂ ChunkEntry.Repeats chunks entries := by
  induction chunks generalizing physicalOffset entries frames with
  | nil =>
    cases h
    exact .nil
  | cons chunk chunks ih =>
    simp only [compressChunks, bind_eq_ok_iff, pure_eq_ok, Except.ok.injEq, Prod.mk.injEq,
      Prod.exists] at h
    obtain ⟨_, -, _, -, _, -, _, -, _, -, _, -, _, -, _, -, _, -, others, _, hothers, rfl, -⟩ := h
    exact .cons ⟨rfl, rfl, rfl, rfl, rfl, rfl⟩ (ih hothers)

/-- The entries of a plan of parts describe the parts. -/
theorem describes_of_repeats {done parts : List (List UInt8)} {entries : List ChunkEntry}
    (hparts : ∀ part ∈ parts, part ≠ [])
    (h : List.Forall₂ ChunkEntry.Repeats (mapWithHistory plannedChunk done parts) entries) :
    Describes done entries parts := by
  induction parts generalizing done entries with
  | nil =>
    cases h
    exact .nil
  | cons part parts ih =>
    rw [mapWithHistory] at h
    cases h with
    | cons hentry hentries =>
      rw [List.forall_mem_cons] at hparts
      refine .cons ?_ (ih hparts.2 hentries)
      exact ⟨hentry.chunkId, hentry.logicalOffset, hentry.uncompressedSize, hentry.firstLine,
        hentry.lineCount, hentry.flags, hparts.1⟩

/-- The planner stays within the table limit. -/
theorem planLoop_length {input : List UInt8} {options : ChunkerOptions} {lineStarts : List Nat}
    {fuel count start : Nat} {chunks : List PlannedChunk}
    (h : planLoop input options lineStarts fuel count start = .ok chunks) :
    chunks = [] ∨ count + chunks.length ≤ maxChunkCount := by
  induction fuel generalizing count start chunks with
  | zero =>
    cases h
    exact Or.inl rfl
  | succ fuel ih =>
    rw [planLoop] at h
    by_cases hstart : start < input.length
    · rw [if_pos hstart] at h
      simp only [bind_eq_ok_iff, okOr_eq_ok_iff, checkedAdd_eq_some_iff, usizeToU64_eq_ok_iff,
        pure_eq_ok, Except.ok.injEq] at h
      obtain ⟨_, ⟨-, rfl⟩, _, htable, _, -, _, -, _, -, _, -, _, -, _, -, _, -, others, hothers,
        rfl⟩ := h
      have hcount : count + 1 ≤ maxChunkCount := by
        by_contra hnot
        rw [enforceChunkTableEntries_default_of_lt (by omega)] at htable
        cases htable
      refine Or.inr ?_
      rcases ih hothers with rfl | hle
      · exact hcount
      · rw [List.length_cons]
        omega
    · rw [if_neg hstart] at h
      cases h
      exact Or.inl rfl

theorem planChunks_length {input : List UInt8} {options : ChunkerOptions} {plan : ChunkPlan}
    (h : planChunks input options = .ok plan) : plan.chunks.length ≤ maxChunkCount := by
  simp only [planChunks, bind_eq_ok_iff] at h
  obtain ⟨_, -, _, -, h⟩ := h
  by_cases hnil : input = []
  · rw [if_pos hnil] at h
    cases h
    exact Nat.zero_le _
  · rw [if_neg hnil] at h
    simp only [bind_eq_ok_iff, pure_eq_ok, Except.ok.injEq] at h
    obtain ⟨chunks, hchunks, _, -, rfl⟩ := h
    rcases planLoop_length hchunks with rfl | hle
    · exact Nat.zero_le _
    · simpa using hle

/-- A table of a plan describes the parts of its text. -/
theorem ChunkPlan.IsTable.describes {input : List UInt8} {options : ChunkerOptions}
    {plan : ChunkPlan} {entries : List ChunkEntry} (hmax : options.maxChunkSize < 2 ^ 64)
    (hplan : planChunks input options = .ok plan) (h : plan.IsTable entries) :
    ∃ parts, Describes [] entries parts ∧ parts.flatten = input ∧
      parts.length ≤ maxChunkCount := by
  have hcount := planChunks_length hplan
  obtain ⟨horder, hvalid, parts, hsplits, rfl⟩ := planChunks_splits hmax hplan
  refine ⟨parts, ?_, hsplits.flatten, ?_⟩
  · exact describes_of_repeats (fun part hpart => (hsplits.parts_bounds horder part hpart).1) h
  · rwa [planOf, length_mapWithHistory] at hcount

/-- A table that describes parts lays them end to end. -/
theorem Describes.contiguous {done : List (List UInt8)} {entries : List ChunkEntry}
    {parts : List (List UInt8)} (h : Describes done entries parts) :
    Contiguous done.length done.flatten.length entries := by
  induction h with
  | nil => exact trivial
  | @cons done entry entries part parts hpart _ ih =>
    refine ⟨hpart.chunkId, hpart.logicalOffset, ?_, ?_⟩
    · rw [hpart.uncompressedSize]
      exact List.length_pos_of_ne_nil hpart.part_ne_nil
    · simpa [hpart.uncompressedSize] using ih

/-- The sizes of a table add up to the text. -/
theorem Describes.sum_uncompressedSize {done : List (List UInt8)} {entries : List ChunkEntry}
    {parts : List (List UInt8)} (h : Describes done entries parts) :
    (entries.map ChunkEntry.uncompressedSize).sum = parts.flatten.length := by
  induction h with
  | nil => rfl
  | cons hpart _ ih =>
    rw [List.map_cons, List.sum_cons, ih, hpart.uncompressedSize, List.flatten_cons,
      List.length_append]

theorem Describes.layout {entries : List ChunkEntry} {parts : List (List UInt8)}
    (h : Describes [] entries parts) (hlen : parts.flatten.length < 2 ^ 64) :
    Layout entries parts.flatten.length where
  contiguous := h.contiguous
  total := h.sum_uncompressedSize
  size_lt := hlen

end Qzt
