import Qzt.Foundation.PrefixSums
import Qzt.Reader.Entries

/-!
# Range reads return the text

A chunk table lays its chunks end to end (`Contiguous`).  Where every chunk that decodes
agrees with a text, a range read that succeeds returns the text of the range; where all
chunks decode, it succeeds.  The decode cache may be shared by any number of reads.
-/

namespace Qzt

open Foundation

/-! ## Contiguous tables -/

/-- The entries carry consecutive identifiers from `index` on and lie end to end from `offset`
on. -/
def Contiguous : Nat → Nat → List ChunkEntry → Prop
  | _, _, [] => True
  | index, offset, entry :: entries =>
    entry.chunkId = index ∧ entry.logicalOffset = offset ∧ 0 < entry.uncompressedSize ∧
      Contiguous (index + 1) (offset + entry.uncompressedSize) entries

/-- The sizes of the chunks. -/
def chunkSizes (entries : List ChunkEntry) : List Nat :=
  entries.map ChunkEntry.uncompressedSize

@[simp] theorem length_chunkSizes (entries : List ChunkEntry) :
    (chunkSizes entries).length = entries.length :=
  List.length_map _

@[simp] theorem chunkSizes_cons (entry : ChunkEntry) (entries : List ChunkEntry) :
    chunkSizes (entry :: entries) = entry.uncompressedSize :: chunkSizes entries := rfl

theorem chunkSizes_take (entries : List ChunkEntry) (n : Nat) :
    chunkSizes (entries.take n) = (chunkSizes entries).take n := List.map_take

namespace Contiguous

variable {index offset : Nat} {entries : List ChunkEntry}

theorem drop (h : Contiguous index offset entries) (n : Nat) (hn : n ≤ entries.length) :
    Contiguous (index + n) (offset + ((chunkSizes entries).take n).sum) (entries.drop n) := by
  induction n generalizing index offset entries with
  | zero => simpa using h
  | succ n ih =>
    cases entries with
    | nil => simp at hn
    | cons entry entries =>
      obtain ⟨-, -, -, hrest⟩ := h
      have hdrop := ih hrest (by simpa using hn)
      rw [List.drop_succ_cons, chunkSizes_cons, List.take_succ_cons, List.sum_cons,
        ← Nat.add_assoc offset, show index + (n + 1) = index + 1 + n by omega]
      exact hdrop

/-- The entry at a position. -/
theorem getElem? (h : Contiguous index offset entries) {n : Nat} {entry : ChunkEntry}
    (hentry : entries[n]? = some entry) :
    entry.chunkId = index + n ∧
      entry.logicalOffset = offset + ((chunkSizes entries).take n).sum ∧
      0 < entry.uncompressedSize ∧
      offset + ((chunkSizes entries).take (n + 1)).sum =
        entry.logicalOffset + entry.uncompressedSize := by
  obtain ⟨hn, hget⟩ := List.getElem?_eq_some_iff.mp hentry
  have hdrop := h.drop n (Nat.le_of_lt hn)
  rw [List.drop_eq_getElem_cons hn, hget] at hdrop
  obtain ⟨hid, hoffset, hpos, -⟩ := hdrop
  refine ⟨hid, hoffset, hpos, ?_⟩
  have hsize : (chunkSizes entries)[n]? = some entry.uncompressedSize := by
    rw [chunkSizes, List.getElem?_map, hentry, Option.map_some]
  rw [List.take_add_one, hsize, List.sum_append, hoffset]
  simp [Nat.add_assoc]

/-- Identifiers are unique. -/
theorem eq_of_chunkId (h : Contiguous index offset entries) {a b : ChunkEntry} (ha : a ∈ entries)
    (hb : b ∈ entries) (hid : a.chunkId = b.chunkId) : a = b := by
  obtain ⟨i, hi⟩ := List.mem_iff_getElem?.mp ha
  obtain ⟨j, hj⟩ := List.mem_iff_getElem?.mp hb
  have hai := (h.getElem? hi).1
  have hbj := (h.getElem? hj).1
  obtain rfl : i = j := by omega
  rw [hi, Option.some.injEq] at hj
  exact hj

end Contiguous

/-- A chunk table of a text of `size` bytes. -/
structure Layout (entries : List ChunkEntry) (size : Nat) : Prop where
  contiguous : Contiguous 0 0 entries
  total : (chunkSizes entries).sum = size
  size_lt : size < 2 ^ 64

theorem sum_take_le (sizes : List Nat) (n : Nat) : (sizes.take n).sum ≤ sizes.sum := by
  conv_rhs => rw [← List.take_append_drop n sizes, List.sum_append]
  exact Nat.le_add_right _ _

theorem sum_drop_le (sizes : List Nat) (n : Nat) : (sizes.drop n).sum ≤ sizes.sum := by
  conv_rhs => rw [← List.take_append_drop n sizes, List.sum_append]
  exact Nat.le_add_left _ _

namespace Layout

variable {entries : List ChunkEntry} {size : Nat}

theorem entry_end (h : Layout entries size) {entry : ChunkEntry} (hentry : entry ∈ entries) :
    entry.logicalOffset + entry.uncompressedSize ≤ size := by
  obtain ⟨n, hn⟩ := List.mem_iff_getElem?.mp hentry
  obtain ⟨-, -, -, hend⟩ := h.contiguous.getElem? hn
  rw [← hend, Nat.zero_add, ← h.total]
  exact sum_take_le _ _

theorem logicalEnd_eq (h : Layout entries size) {entry : ChunkEntry} (hentry : entry ∈ entries) :
    entry.logicalEnd = .ok (entry.logicalOffset + entry.uncompressedSize) := by
  have hend := h.entry_end hentry
  have hsize := h.size_lt
  exact checkedLogicalEnd_of_lt (by omega)

/-- The binary search over chunk ends. -/
theorem chunkIndex_eq (h : Layout entries size) (offset : Nat) :
    chunkIndexForLogicalOffset entries offset = .ok (weightIndex (chunkSizes entries) offset) := by
  rw [chunkIndexForLogicalOffset, partitionByEnd, ← length_chunkSizes]
  refine partitionPoint_weights fun i hi => ?_
  rw [length_chunkSizes] at hi
  have hget := List.getElem?_eq_getElem hi
  obtain ⟨-, -, -, hend⟩ := h.contiguous.getElem? hget
  rw [hget, okOr_some, ok_bind, h.logicalEnd_eq (List.getElem_mem hi), ok_bind, ← hend,
    Nat.zero_add]
  rfl

end Layout

/-! ## The decode cache -/

/-- Every chunk that decodes is the text of its range. -/
def Agrees (decodeEntry : DecodeEntry) (entries : List ChunkEntry) (text : List UInt8) : Prop :=
  ∀ entry ∈ entries, ∀ part, decodeEntry entry = .ok part →
    part = slice text entry.logicalOffset entry.uncompressedSize

/-- A cached chunk is the text of its range. -/
def ChunkDecodeCache.Holds (entries : List ChunkEntry) (text : List UInt8)
    (cache : ChunkDecodeCache) : Prop :=
  ∀ id, cache.chunkId = some id → ∃ entry ∈ entries, entry.chunkId = id ∧
    cache.decoded = slice text entry.logicalOffset entry.uncompressedSize

theorem ChunkDecodeCache.holds_new (entries : List ChunkEntry) (text : List UInt8) :
    ChunkDecodeCache.new.Holds entries text := by
  intro id h
  cases h

section Cache

variable {entries : List ChunkEntry} {text : List UInt8} {decodeEntry : DecodeEntry}
  {entry : ChunkEntry} {cache : ChunkDecodeCache}

/-- After `decoded_entry` the cache holds the chunk that was asked for. -/
theorem ChunkDecodeCache.decodedEntry_sound {size : Nat} (hlayout : Layout entries size)
    (hagrees : Agrees decodeEntry entries text) (hentry : entry ∈ entries)
    (hcache : cache.Holds entries text) {cache' : ChunkDecodeCache}
    (h : cache.decodedEntry entry decodeEntry = .ok cache') :
    cache'.Holds entries text ∧
      cache'.decoded = slice text entry.logicalOffset entry.uncompressedSize := by
  unfold decodedEntry at h
  split at h
  · simp only [bind_eq_ok_iff, pure_eq_ok, Except.ok.injEq] at h
    obtain ⟨part, hpart, _, _, _, _, _, _, rfl⟩ := h
    have hdecoded := hagrees entry hentry part hpart
    refine ⟨?_, hdecoded⟩
    intro id hid
    cases hid
    exact ⟨entry, hentry, rfl, hdecoded⟩
  · rename_i hhit
    cases h
    refine ⟨hcache, ?_⟩
    obtain ⟨other, hother, hid, hdecoded⟩ := hcache _ (not_not.mp hhit)
    rw [hdecoded, hlayout.contiguous.eq_of_chunkId hother hentry hid]

/-- Room in the counters for the entries still to come. -/
structure ChunkDecodeCache.Room (entries : List ChunkEntry) (cache : ChunkDecodeCache) : Prop where
  bytes : cache.physicalDecodedBytes + (chunkSizes entries).sum < 2 ^ 64
  chunks : cache.decodedChunks + entries.length < 2 ^ 64
  compressed : cache.compressedBytes + (entries.map ChunkEntry.compressedSize).sum < 2 ^ 64

theorem ChunkDecodeCache.Room.drop (h : cache.Room entries) (n : Nat) :
    cache.Room (entries.drop n) := by
  obtain ⟨hbytes, hchunks, hcompressed⟩ := h
  refine ⟨?_, ?_, ?_⟩
  · have := sum_drop_le (chunkSizes entries) n
    rw [chunkSizes, List.map_drop, ← chunkSizes]
    omega
  · rw [List.length_drop]
    omega
  · have := sum_drop_le (entries.map ChunkEntry.compressedSize) n
    rw [List.map_drop]
    omega

theorem ChunkDecodeCache.decodedEntry_succeeds {rest : List ChunkEntry}
    (hdecodes : ∃ part, decodeEntry entry = .ok part) (hroom : cache.Room (entry :: rest)) :
    ∃ cache', cache.decodedEntry entry decodeEntry = .ok cache' ∧ cache'.Room rest := by
  obtain ⟨part, hpart⟩ := hdecodes
  obtain ⟨hbytes, hchunks, hcompressed⟩ := hroom
  rw [chunkSizes_cons, List.sum_cons] at hbytes
  rw [List.length_cons] at hchunks
  rw [List.map_cons, List.sum_cons] at hcompressed
  unfold decodedEntry
  split
  · rw [hpart, ok_bind, checkedAdd_of_lt (by omega), okOr_some, ok_bind,
      checkedAdd_of_lt (by omega), okOr_some, ok_bind, checkedAdd_of_lt (by omega), okOr_some,
      ok_bind]
    exact ⟨_, rfl, by simp only; omega, by simp only; omega, by simp only; omega⟩
  · exact ⟨cache, rfl, by omega, by omega, by omega⟩

end Cache

/-! ## Copying a range -/

section Copy

variable {entries : List ChunkEntry} {text : List UInt8} {decodeEntry : DecodeEntry}

/-- One chunk of a range. -/
theorem slice_chunk {offset stop chunkOffset chunkSize : Nat}
    (hend : offset < chunkOffset + chunkSize) (hstart : chunkOffset < stop) :
    slice (slice text chunkOffset chunkSize) (max offset chunkOffset - chunkOffset)
        (min stop (chunkOffset + chunkSize) - chunkOffset - (max offset chunkOffset - chunkOffset))
      ++ slice text (max offset (chunkOffset + chunkSize))
        (stop - max offset (chunkOffset + chunkSize)) =
    slice text (max offset chunkOffset) (stop - max offset chunkOffset) := by
  rw [slice_slice (by omega), show chunkOffset + (max offset chunkOffset - chunkOffset) =
    max offset chunkOffset by omega]
  rcases Nat.le_total stop (chunkOffset + chunkSize) with hlast | hmore
  · -- The range ends in this chunk.
    rw [show stop - max offset (chunkOffset + chunkSize) = 0 by omega, slice_length_zero,
      List.append_nil]
    congr 1
    omega
  · rw [show max offset (chunkOffset + chunkSize) = max offset chunkOffset +
      (chunkOffset + chunkSize - max offset chunkOffset) by omega,
      show min stop (chunkOffset + chunkSize) - chunkOffset - (max offset chunkOffset - chunkOffset)
        = chunkOffset + chunkSize - max offset chunkOffset by omega, slice_append_slice]
    congr 1
    omega

/-- The copy loop appends the text of the range. -/
theorem copyRange_sound {size offset stop index chunkOffset : Nat}
    (hlayout : Layout entries size) (hagrees : Agrees decodeEntry entries text)
    (hstop : stop ≤ size) {remaining : List ChunkEntry}
    (hsubset : ∀ entry ∈ remaining, entry ∈ entries)
    (hcontiguous : Contiguous index chunkOffset remaining)
    (htotal : chunkOffset + (chunkSizes remaining).sum = size)
    (hfirst : ∀ entry, remaining.head? = some entry → offset < chunkOffset + entry.uncompressedSize)
    {output : List UInt8} {cache : ChunkDecodeCache} (hcache : cache.Holds entries text)
    {result : List UInt8 × ChunkDecodeCache}
    (h : copyRange offset stop decodeEntry remaining output cache = .ok result) :
    result.1 = output ++ slice text (max offset chunkOffset) (stop - max offset chunkOffset) ∧
      result.2.Holds entries text := by
  induction remaining generalizing index chunkOffset output cache with
  | nil =>
    simp only [copyRange, Except.ok.injEq] at h
    subst h
    simp only [chunkSizes, List.map_nil, List.sum_nil] at htotal
    rw [show stop - max offset chunkOffset = 0 by omega, slice_length_zero, List.append_nil]
    exact ⟨rfl, hcache⟩
  | cons entry remaining ih =>
    obtain ⟨hid, hoffset, hpos, hrest⟩ := hcontiguous
    have hentry := hsubset entry List.mem_cons_self
    rw [copyRange, hlayout.logicalEnd_eq hentry, ok_bind] at h
    rw [chunkSizes_cons, List.sum_cons] at htotal
    split at h
    · rename_i hpast
      cases h
      rw [hoffset] at hpast
      rw [show stop - max offset chunkOffset = 0 by omega, slice_length_zero, List.append_nil]
      exact ⟨rfl, hcache⟩
    · rename_i hbefore
      simp only [bind_eq_ok_iff, u64ToUsize_eq_ok_iff] at h
      obtain ⟨cache', hdecoded, _, ⟨-, rfl⟩, _, ⟨-, rfl⟩, hloop⟩ := h
      obtain ⟨hholds, hpart⟩ := cache.decodedEntry_sound hlayout hagrees hentry hcache hdecoded
      have hnext : ∀ next, remaining.head? = some next →
          offset < chunkOffset + entry.uncompressedSize + next.uncompressedSize := by
        intro next _
        have := hfirst entry rfl
        omega
      obtain ⟨hout, hcache'⟩ := ih (fun e he => hsubset e (List.mem_cons_of_mem _ he)) hrest
        (by omega) hnext hholds hloop
      refine ⟨?_, hcache'⟩
      rw [hout, hpart, hoffset, List.append_assoc, slice_chunk (hfirst entry rfl) (by omega)]

/-- The copy loop succeeds where all chunks decode. -/
theorem copyRange_succeeds {size offset stop : Nat} (hlayout : Layout entries size)
    {remaining : List ChunkEntry} (hsubset : ∀ entry ∈ remaining, entry ∈ entries)
    (hdecodes : ∀ entry ∈ remaining, ∃ part, decodeEntry entry = .ok part)
    (hoffset : offset < 2 ^ 64) {output : List UInt8} {cache : ChunkDecodeCache}
    (hroom : cache.Room remaining) :
    ∃ result, copyRange offset stop decodeEntry remaining output cache = .ok result := by
  induction remaining generalizing output cache with
  | nil => exact ⟨_, rfl⟩
  | cons entry remaining ih =>
    have hentry := hsubset entry List.mem_cons_self
    have hend := hlayout.entry_end hentry
    have hsize := hlayout.size_lt
    rw [copyRange, hlayout.logicalEnd_eq hentry, ok_bind]
    split
    · exact ⟨_, rfl⟩
    · obtain ⟨cache', hdecoded, hroom'⟩ := cache.decodedEntry_succeeds
        (hdecodes entry List.mem_cons_self) hroom
      rw [hdecoded, ok_bind]
      simp only
      rw [u64ToUsize_of_lt (by omega), ok_bind, u64ToUsize_of_lt (by omega), ok_bind]
      exact ih (fun e he => hsubset e (List.mem_cons_of_mem _ he))
        (fun e he => hdecodes e (List.mem_cons_of_mem _ he)) hroom'

end Copy

/-! ## Range reads -/

section RangeReads

variable {entries : List ChunkEntry} {text : List UInt8} {decodeEntry : DecodeEntry}
  {cache : ChunkDecodeCache} {size offset length : Nat}

/-- The entries from the chunk of `offset` on, as the copy loop gets them. -/
theorem copyRange_from_index (hlayout : Layout entries size) (hoffset : offset < size) :
    ∃ index chunkOffset,
      Contiguous index chunkOffset (entries.drop (weightIndex (chunkSizes entries) offset)) ∧
      chunkOffset +
        (chunkSizes (entries.drop (weightIndex (chunkSizes entries) offset))).sum = size ∧
      chunkOffset ≤ offset ∧
      ∀ entry, (entries.drop (weightIndex (chunkSizes entries) offset)).head? = some entry →
        offset < chunkOffset + entry.uncompressedSize := by
  rw [← hlayout.total] at hoffset
  obtain ⟨hlt, hle, hgt⟩ := weightIndex_spec hoffset
  rw [length_chunkSizes] at hlt
  generalize weightIndex (chunkSizes entries) offset = n at *
  refine ⟨0 + n, 0 + ((chunkSizes entries).take n).sum,
    hlayout.contiguous.drop n (Nat.le_of_lt hlt), ?_, by omega, ?_⟩
  · rw [← hlayout.total, Nat.zero_add, chunkSizes, chunkSizes, List.map_drop, ← List.sum_append,
      List.take_append_drop]
  · intro entry hhead
    rw [List.head?_drop] at hhead
    obtain ⟨-, hstart, -, hend⟩ := hlayout.contiguous.getElem? hhead
    omega

/-- A range read that succeeds returns the text of the range. -/
theorem readRangeFromEntriesCached_sound (hlayout : Layout entries size)
    (hagrees : Agrees decodeEntry entries text)
    (hcache : cache.Holds entries text) {result : List UInt8 × ChunkDecodeCache}
    (h : readRangeFromEntriesCached entries size offset length cache decodeEntry = .ok result) :
    offset + length ≤ size ∧ result.1 = slice text offset length ∧
      result.2.Holds entries text := by
  simp only [readRangeFromEntriesCached, bind_eq_ok_iff, checkedLogicalEnd_eq_ok_iff,
    rejectIf_eq_ok_iff] at h
  obtain ⟨_, ⟨-, rfl⟩, _, hstop, h⟩ := h
  refine ⟨by omega, ?_⟩
  split at h
  · rename_i hzero
    cases h
    rw [hzero, slice_length_zero]
    exact ⟨rfl, hcache⟩
  · rename_i hpos
    obtain ⟨index, chunkOffset, hcontiguous, htotal, hle, hfirst⟩ :=
      copyRange_from_index hlayout (show offset < size by omega)
    rw [hlayout.chunkIndex_eq, ok_bind] at h
    simp only [bind_eq_ok_iff, rejectIf_eq_ok_iff, pure_eq_ok, Except.ok.injEq] at h
    obtain ⟨copied, hcopy, _, -, _, -, rfl⟩ := h
    obtain ⟨hout, hholds⟩ := copyRange_sound hlayout hagrees (by omega)
      (fun entry hentry => List.mem_of_mem_drop hentry) hcontiguous htotal hfirst hcache hcopy
    refine ⟨?_, hholds⟩
    rw [hout, List.nil_append, show max offset chunkOffset = offset by omega,
      Nat.add_sub_cancel_left]

/-- A range read inside the text succeeds where all chunks decode. -/
theorem readRangeFromEntriesCached_succeeds (hlayout : Layout entries size)
    (hagrees : Agrees decodeEntry entries text) (hlength : text.length = size)
    (hdecodes : ∀ entry ∈ entries, ∃ part, decodeEntry entry = .ok part)
    (hrange : offset + length ≤ size) (hcache : cache.Holds entries text)
    (hroom : cache.Room entries) :
    ∃ cache', readRangeFromEntriesCached entries size offset length cache decodeEntry =
      .ok (slice text offset length, cache') := by
  have hsize := hlayout.size_lt
  rw [readRangeFromEntriesCached, checkedLogicalEnd_of_lt (by omega), ok_bind,
    rejectIf_of_not (by omega), ok_bind]
  split
  · rename_i hzero
    rw [hzero, slice_length_zero]
    exact ⟨cache, rfl⟩
  · rename_i hpos
    obtain ⟨index, chunkOffset, hcontiguous, htotal, hle, hfirst⟩ :=
      copyRange_from_index hlayout (show offset < size by omega)
    have hroom' : cache.Room (entries.drop (weightIndex (chunkSizes entries) offset)) :=
      hroom.drop _
    have hcopies : ∃ result, copyRange offset (offset + length) decodeEntry
        (entries.drop (weightIndex (chunkSizes entries) offset)) [] cache = .ok result :=
      copyRange_succeeds hlayout (fun entry hentry => List.mem_of_mem_drop hentry)
        (fun entry hentry => hdecodes entry (List.mem_of_mem_drop hentry)) (by omega) hroom'
    obtain ⟨result, hcopy⟩ := hcopies
    obtain ⟨hout, -⟩ := copyRange_sound hlayout hagrees (by omega)
      (fun entry hentry => List.mem_of_mem_drop hentry) hcontiguous htotal hfirst hcache hcopy
    rw [List.nil_append, show max offset chunkOffset = offset by omega,
      Nat.add_sub_cancel_left] at hout
    have hlen : result.1.length = length := by
      rw [hout, length_slice_of_le (by omega)]
    rw [hlayout.chunkIndex_eq, ok_bind, hcopy, ok_bind]
    simp only
    rw [usizeToU64_of_lt (by omega), ok_bind, rejectIf_of_not (by omega), ok_bind, hout]
    exact ⟨_, rfl⟩

/-- A fresh range read, with the report taken apart. -/
theorem readRangeFromEntries_succeeds (hlayout : Layout entries size)
    (hagrees : Agrees decodeEntry entries text) (hlength : text.length = size)
    (hdecodes : ∀ entry ∈ entries, ∃ part, decodeEntry entry = .ok part)
    (hroom : ChunkDecodeCache.new.Room entries) (hrange : offset + length ≤ size) :
    readRangeFromEntries entries size offset length decodeEntry =
      .ok (slice text offset length) := by
  obtain ⟨cache, hread⟩ := readRangeFromEntriesCached_succeeds hlayout hagrees hlength hdecodes
    hrange (ChunkDecodeCache.holds_new entries text) hroom
  rw [readRangeFromEntries, readRangeWithMetricsFromEntries, hread]
  rfl

end RangeReads

/-! ## The text of a chunk table -/

section Original

variable {decodeEntry : DecodeEntry} {entries : List ChunkEntry} {size : Nat}

/-- What a chunk contributes to the text; one that does not decode counts as zeros. -/
def chunkText (decodeEntry : DecodeEntry) (entry : ChunkEntry) : List UInt8 :=
  match decodeEntry entry with
  | .ok part => part
  | .error _ => List.replicate entry.uncompressedSize 0

/-- The original text of a chunk table. -/
def originalText (decodeEntry : DecodeEntry) (entries : List ChunkEntry) : List UInt8 :=
  (entries.map (chunkText decodeEntry)).flatten

theorem length_originalText
    (hlength : ∀ entry part, decodeEntry entry = .ok part → part.length = entry.uncompressedSize)
    (entries : List ChunkEntry) :
    (originalText decodeEntry entries).length = (chunkSizes entries).sum := by
  rw [originalText, List.length_flatten, List.map_map, chunkSizes]
  congr 2
  funext entry
  simp only [Function.comp_apply, chunkText]
  split
  case h_1 part hpart => exact hlength entry part hpart
  case h_2 => exact List.length_replicate

theorem originalText_agrees (hlayout : Layout entries size)
    (hlength : ∀ entry part, decodeEntry entry = .ok part → part.length = entry.uncompressedSize) :
    Agrees decodeEntry entries (originalText decodeEntry entries) := by
  intro entry hentry part hpart
  obtain ⟨n, hget⟩ := List.mem_iff_getElem?.mp hentry
  obtain ⟨hn, rfl⟩ := List.getElem?_eq_some_iff.mp hget
  obtain ⟨-, hoffset, -, -⟩ := hlayout.contiguous.getElem? hget
  have hchunk : chunkText decodeEntry entries[n] = part := by rw [chunkText, hpart]
  have hsplit : originalText decodeEntry entries = originalText decodeEntry (entries.take n) ++
      (part ++ originalText decodeEntry (entries.drop (n + 1))) := by
    conv_lhs => rw [← List.take_append_drop n entries, List.drop_eq_getElem_cons hn]
    simp only [originalText, List.map_append, List.map_cons, List.flatten_append,
      List.flatten_cons, hchunk]
  have hfront : (originalText decodeEntry (entries.take n)).length = entries[n].logicalOffset := by
    rw [length_originalText hlength, hoffset, chunkSizes_take, Nat.zero_add]
  rw [hsplit, ← hfront, ← hlength _ part hpart, slice_append_left]

end Original

end Qzt
