import Mathlib.Algebra.Order.BigOperators.Group.List
import Qzt.Container.Opened
import Qzt.Foundation.Programs

/-!
# Reads that share a decode cache

The cache of a range read outlives a read that fails: a chunk may have been decoded and
stored before the one that does not decode.  Here the reads are computations on the
cache, and a sequence of them shares it.  Whatever the reads before it left behind, a
read returns what a fresh one returns.

## The accounting

`charged` lists the chunks that a pass over a span decodes: all of it, less a first
chunk that is in the cache.  The counters of the cache are the sums over that list.
-/

namespace Qzt

open Foundation

/-! ## The cache as state -/

/-- A computation on the decode cache, which survives an error. -/
abbrev CacheM := ExceptT QztError (StateM ChunkDecodeCache)

/-- `decoded_entry` on the cache in place. -/
def decodedEntryM (entry : ChunkEntry) (decodeEntry : DecodeEntry) : CacheM (List UInt8) := do
  if (← get).chunkId ≠ some entry.chunkId then
    let decoded ← (decodeEntry entry : Result _)
    modify fun self => { self with decoded }
    modify fun self => { self with chunkId := some entry.chunkId }
    let physicalDecodedBytes ← (okOr .resourceLimitExceeded
      (checkedAdd (← get).physicalDecodedBytes entry.uncompressedSize) : Result _)
    modify fun self => { self with physicalDecodedBytes }
    let decodedChunks ← (okOr .resourceLimitExceeded
      (checkedAdd (← get).decodedChunks 1) : Result _)
    modify fun self => { self with decodedChunks }
    let compressedBytes ← (okOr .resourceLimitExceeded
      (checkedAdd (← get).compressedBytes entry.compressedSize) : Result _)
    modify fun self => { self with compressedBytes }
    return (← get).decoded
  else
    return (← get).decoded

/-- The loop of `read_range_from_entries_cached` on the cache in place. -/
def copyRangeM (offset stop : Nat) (decodeEntry : DecodeEntry) :
    List ChunkEntry → List UInt8 → CacheM (List UInt8)
  | [], output => pure output
  | entry :: entries, output => do
    let chunkEnd ← (entry.logicalEnd : Result _)
    if entry.logicalOffset ≥ stop then
      pure output
    else
      let decoded ← decodedEntryM entry decodeEntry
      let copyStart := max offset entry.logicalOffset
      let copyEnd := min stop chunkEnd
      let localStart ← (u64ToUsize (copyStart - entry.logicalOffset) : Result _)
      let localEnd ← (u64ToUsize (copyEnd - entry.logicalOffset) : Result _)
      copyRangeM offset stop decodeEntry entries
        (output ++ slice decoded localStart (localEnd - localStart))

/-- `read_range_from_entries_cached` on the cache in place. -/
def readRangeFromEntriesCachedM (entries : List ChunkEntry) (originalSize offset length : Nat)
    (decodeEntry : DecodeEntry) : CacheM (List UInt8) := do
  let stop ← (checkedLogicalEnd offset length : Result _)
  (rejectIf (stop > originalSize) .logicalRangeOutOfBounds : Result _)
  if length = 0 then
    return []
  else
    let index ← (chunkIndexForLogicalOffset entries offset : Result _)
    let output ← copyRangeM offset stop decodeEntry (entries.drop index) []
    let len ← (usizeToU64 output.length : Result _)
    (rejectIf (len ≠ length) .containerCorrupt : Result _)
    return output

/-- Reads of `(offset, length)` one after the other on one cache, whatever comes of each. -/
def readSequence (entries : List ChunkEntry) (originalSize : Nat) (decodeEntry : DecodeEntry) :
    List (Nat × Nat) → ChunkDecodeCache → List (Result (List UInt8)) × ChunkDecodeCache
  | [], cache => ([], cache)
  | (offset, length) :: calls, cache =>
    let (result, cache) :=
      (readRangeFromEntriesCachedM entries originalSize offset length decodeEntry).run.run cache
    let (results, cache) := readSequence entries originalSize decodeEntry calls cache
    (result :: results, cache)

/-! ## A caller that gives up at an error

`readRangeFromEntriesCached` is the same read for a caller that drops the cache together
with the error. -/

section Forgets

variable {decodeEntry : DecodeEntry} {cache : ChunkDecodeCache}

theorem outcome_decodedEntryM (entry : ChunkEntry) :
    outcome (decodedEntryM entry decodeEntry) cache =
      (fun cache' => (cache'.decoded, cache')) <$> cache.decodedEntry entry decodeEntry := by
  unfold decodedEntryM ChunkDecodeCache.decodedEntry
  rw [outcome_bind, outcome_get, ok_bind]
  simp only
  split
  · rw [outcome_bind, outcome_lift]
    cases decodeEntry entry with
    | error e => rfl
    | ok decoded =>
      simp only [outcome_bind, outcome_modify, outcome_get, outcome_lift, outcome_pure, ok_bind,
        map_ok]
      cases checkedAdd cache.physicalDecodedBytes entry.uncompressedSize with
      | none => rfl
      | some bytes =>
        simp only [okOr_some, map_ok, ok_bind]
        cases checkedAdd cache.decodedChunks 1 with
        | none => rfl
        | some chunks =>
          simp only [okOr_some, map_ok, ok_bind]
          cases checkedAdd cache.compressedBytes entry.compressedSize <;> rfl
  · rfl

theorem outcome_copyRangeM (offset stop : Nat) (entries : List ChunkEntry) (output : List UInt8) :
    outcome (copyRangeM offset stop decodeEntry entries output) cache =
      copyRange offset stop decodeEntry entries output cache := by
  induction entries generalizing output cache with
  | nil => rfl
  | cons entry entries ih =>
    rw [copyRangeM, copyRange, outcome_bind, outcome_lift]
    cases entry.logicalEnd with
    | error e => rfl
    | ok chunkEnd =>
      rw [map_ok, ok_bind, ok_bind]
      simp only
      split
      · rfl
      · rw [outcome_bind, outcome_decodedEntryM]
        cases cache.decodedEntry entry decodeEntry with
        | error e => rfl
        | ok cache' =>
          rw [map_ok, ok_bind, ok_bind]
          simp only [outcome_bind, outcome_lift, ih]
          cases u64ToUsize (max offset entry.logicalOffset - entry.logicalOffset) with
          | error e => rfl
          | ok localStart =>
            cases u64ToUsize (min stop chunkEnd - entry.logicalOffset) <;> rfl

theorem outcome_readRangeFromEntriesCachedM (entries : List ChunkEntry)
    (originalSize offset length : Nat) :
    outcome (readRangeFromEntriesCachedM entries originalSize offset length decodeEntry) cache =
      readRangeFromEntriesCached entries originalSize offset length cache decodeEntry := by
  rw [readRangeFromEntriesCachedM, readRangeFromEntriesCached, outcome_bind, outcome_lift]
  cases checkedLogicalEnd offset length with
  | error e => rfl
  | ok stop =>
    rw [map_ok, ok_bind, ok_bind, outcome_bind, outcome_lift]
    cases rejectIf (stop > originalSize) QztError.logicalRangeOutOfBounds with
    | error e => rfl
    | ok u =>
      rw [map_ok, ok_bind, ok_bind]
      simp only
      split
      · rfl
      · rw [outcome_bind, outcome_lift]
        cases chunkIndexForLogicalOffset entries offset with
        | error e => rfl
        | ok index =>
          rw [map_ok, ok_bind, ok_bind, outcome_bind, outcome_copyRangeM]
          cases copyRange offset stop decodeEntry (entries.drop index) [] cache with
          | error e => rfl
          | ok copied =>
            rw [ok_bind, ok_bind]
            simp only [outcome_bind, outcome_lift, outcome_pure]
            cases usizeToU64 copied.1.length with
            | error e => rfl
            | ok len =>
              simp only [map_ok, ok_bind]
              cases rejectIf (len ≠ length) QztError.containerCorrupt <;> rfl

end Forgets

/-! ## What a pass over a span decodes -/

/-- The entries that a pass over a span decodes, the chunk `cached` being in the cache. -/
def charged : Option Nat → List ChunkEntry → List ChunkEntry
  | _, [] => []
  | cached, entry :: span =>
    if cached = some entry.chunkId then charged cached span
    else entry :: charged (some entry.chunkId) span

/-- The chunk that a pass over a span leaves in the cache. -/
def lastId : Option Nat → List ChunkEntry → Option Nat
  | cached, [] => cached
  | _, entry :: span => lastId (some entry.chunkId) span

/-- The entries of a span before the first that does not decode. -/
def decodable (decodeEntry : DecodeEntry) (span : List ChunkEntry) : List ChunkEntry :=
  span.takeWhile fun entry => (decodeEntry entry).isOk

/-- The entries that share a byte with a range. -/
def touched (entries : List ChunkEntry) (offset length : Nat) : List ChunkEntry :=
  entries.filter fun entry => max offset entry.logicalOffset <
    min (offset + length) (entry.logicalOffset + entry.uncompressedSize)

/-- All that a sequence of reads decodes; a read out of bounds decodes nothing. -/
def sequenceCharged (entries : List ChunkEntry) (originalSize : Nat) (decodeEntry : DecodeEntry) :
    Option Nat → List (Nat × Nat) → List ChunkEntry
  | _, [] => []
  | cached, (offset, length) :: calls =>
    if originalSize < offset + length then
      sequenceCharged entries originalSize decodeEntry cached calls
    else
      let span := decodable decodeEntry (touched entries offset length)
      charged cached span ++
        sequenceCharged entries originalSize decodeEntry (lastId cached span) calls

/-- The sizes of decoded chunks that the byte counters of a cache can hold. -/
structure CountersFit (done : List ChunkEntry) : Prop where
  bytes : (chunkSizes done).sum < 2 ^ 64
  compressed : (done.map ChunkEntry.compressedSize).sum < 2 ^ 64

/-- The counters after a list of chunks was decoded. -/
def metricsOf (done : List ChunkEntry) : RangeReadMetrics where
  decodedChunks := done.length
  decodedBytes := (chunkSizes done).sum
  compressedBytes := (done.map ChunkEntry.compressedSize).sum

/-- The counters of a cache. -/
def ChunkDecodeCache.metrics (cache : ChunkDecodeCache) : RangeReadMetrics where
  decodedChunks := cache.decodedChunks
  decodedBytes := cache.physicalDecodedBytes
  compressedBytes := cache.compressedBytes

/-- What a range read is for: the range of the text, unless a chunk of it does not decode. -/
def rangeOf (decodeEntry : DecodeEntry) (entries : List ChunkEntry)
    (originalSize offset length : Nat) : Result (List UInt8) := do
  rejectIf (originalSize < offset + length) .logicalRangeOutOfBounds
  let _ ← collect decodeEntry (touched entries offset length)
  return slice (originalText decodeEntry entries) offset length

section Spans

variable {entries : List ChunkEntry} {decodeEntry : DecodeEntry} {size : Nat}

theorem CountersFit.of_append_left {done more : List ChunkEntry} (h : CountersFit (done ++ more)) :
    CountersFit done := by
  obtain ⟨hbytes, hcompressed⟩ := h
  rw [chunkSizes, List.map_append, List.sum_append] at hbytes
  rw [List.map_append, List.sum_append] at hcompressed
  exact ⟨Nat.lt_of_le_of_lt (Nat.le_add_right _ _) hbytes,
    Nat.lt_of_le_of_lt (Nat.le_add_right _ _) hcompressed⟩

/-- Every chunk has a byte, so the chunk counter is the smallest of the three. -/
theorem length_le_sum_chunkSizes {done : List ChunkEntry}
    (h : ∀ entry ∈ done, 0 < entry.uncompressedSize) : done.length ≤ (chunkSizes done).sum := by
  induction done with
  | nil => exact Nat.zero_le _
  | cons entry done ih =>
    have hfirst := h entry List.mem_cons_self
    have hrest := ih fun e he => h e (List.mem_cons_of_mem _ he)
    rw [chunkSizes_cons, List.sum_cons, List.length_cons]
    omega

theorem Layout.size_pos (hlayout : Layout entries size) {entry : ChunkEntry}
    (hentry : entry ∈ entries) : 0 < entry.uncompressedSize := by
  obtain ⟨n, hn⟩ := List.mem_iff_getElem?.mp hentry
  exact (hlayout.contiguous.getElem? hn).2.2.1

theorem Contiguous.offset_le {index offset : Nat} {span : List ChunkEntry}
    (h : Contiguous index offset span) {entry : ChunkEntry} (hentry : entry ∈ span) :
    offset ≤ entry.logicalOffset := by
  obtain ⟨n, hn⟩ := List.mem_iff_getElem?.mp hentry
  obtain ⟨-, hstart, -, -⟩ := h.getElem? hn
  omega

/-- From the chunk of the first byte on, the chunks of a range are those that start before its
end. -/
theorem filter_touched {index chunkOffset offset stop : Nat} {span : List ChunkEntry}
    (h : Contiguous index chunkOffset span) (hpos : offset < stop)
    (hfirst : ∀ entry, span.head? = some entry → offset < chunkOffset + entry.uncompressedSize) :
    (span.filter fun entry => max offset entry.logicalOffset <
        min stop (entry.logicalOffset + entry.uncompressedSize)) =
      span.takeWhile fun entry => entry.logicalOffset < stop := by
  induction span generalizing index chunkOffset with
  | nil => rfl
  | cons entry span ih =>
    obtain ⟨-, hstart, hsize, hrest⟩ := h
    have hin := hfirst entry rfl
    by_cases hbefore : entry.logicalOffset < stop
    · rw [List.filter_cons_of_pos (by rw [decide_eq_true_eq]; omega),
        List.takeWhile_cons_of_pos (by rwa [decide_eq_true_eq]), ih hrest]
      intro next _
      omega
    · rw [List.takeWhile_cons_of_neg (by rwa [decide_eq_true_eq]), List.filter_eq_nil_iff]
      intro other hother
      have hlater : entry.logicalOffset ≤ other.logicalOffset := by
        rcases List.mem_cons.mp hother with rfl | hother
        · exact Nat.le_refl _
        · have := hrest.offset_le hother
          omega
      rw [decide_eq_true_eq]
      omega

/-- The chunks of a range, as the copy loop meets them. -/
theorem touched_eq (hlayout : Layout entries size) {offset length : Nat} (hpos : 0 < length)
    (hrange : offset + length ≤ size) :
    touched entries offset length =
      (entries.drop (weightIndex (chunkSizes entries) offset)).takeWhile
        fun entry => entry.logicalOffset < offset + length := by
  obtain ⟨index, chunkOffset, hcontiguous, -, -, hfirst⟩ :=
    copyRange_from_index hlayout (show offset < size by omega)
  have hbefore : ((entries.take (weightIndex (chunkSizes entries) offset)).filter fun entry =>
      max offset entry.logicalOffset <
        min (offset + length) (entry.logicalOffset + entry.uncompressedSize)) = [] := by
    rw [List.filter_eq_nil_iff]
    intro entry hentry
    obtain ⟨i, hi, rfl⟩ := List.mem_take_iff_getElem.mp hentry
    have hget := List.getElem?_eq_getElem (show i < entries.length by omega)
    obtain ⟨-, -, -, hend⟩ := hlayout.contiguous.getElem? hget
    have hended := (lt_weightIndex_iff (show i < (chunkSizes entries).length by
      rw [length_chunkSizes]; omega)).mp (show i < weightIndex (chunkSizes entries) offset by omega)
    rw [decide_eq_true_eq]
    omega
  conv_lhs => rw [touched, ← List.take_append_drop (weightIndex (chunkSizes entries) offset) entries]
  rw [List.filter_append, hbefore, List.nil_append]
  exact filter_touched hcontiguous (by omega) hfirst

/-- An empty range touches nothing. -/
theorem touched_zero (offset : Nat) : touched entries offset 0 = [] := by
  rw [touched, List.filter_eq_nil_iff]
  intro entry _
  rw [decide_eq_true_eq]
  omega

end Spans

/-! ## One pass over a span -/

/-- The cache after the chunks `done` were decoded, `cached` being the last of them. -/
structure Tracks (decodeEntry : DecodeEntry) (entries done : List ChunkEntry)
    (cached : Option Nat) (cache : ChunkDecodeCache) : Prop where
  chunkId : cache.chunkId = cached
  metrics : cache.metrics = metricsOf done
  done_mem : ∀ entry ∈ done, entry ∈ entries
  holds : ∀ id, cached = some id →
    ∃ entry ∈ done, entry.chunkId = id ∧ decodeEntry entry = .ok cache.decoded

section Pass

variable {entries done : List ChunkEntry} {decodeEntry : DecodeEntry} {size : Nat}
  {cached : Option Nat} {cache : ChunkDecodeCache} {entry : ChunkEntry}

theorem tracks_new (decodeEntry : DecodeEntry) (entries : List ChunkEntry) :
    Tracks decodeEntry entries [] none .new :=
  ⟨rfl, rfl, fun _ h => absurd h List.not_mem_nil, fun _ h => by cases h⟩

/-- A chunk in the cache decodes to what the cache holds. -/
theorem Tracks.hit (h : Tracks decodeEntry entries done cached cache)
    (hlayout : Layout entries size) (hentry : entry ∈ entries)
    (hhit : cached = some entry.chunkId) : decodeEntry entry = .ok cache.decoded ∧ entry ∈ done := by
  obtain ⟨other, hother, hid, hdecoded⟩ := h.holds _ hhit
  obtain rfl := hlayout.contiguous.eq_of_chunkId (h.done_mem _ hother) hentry hid
  exact ⟨hdecoded, hother⟩

theorem run_decodedEntryM_hit (hhit : cache.chunkId = some entry.chunkId) :
    (decodedEntryM entry decodeEntry).run.run cache = (.ok cache.decoded, cache) := by
  rw [decodedEntryM, run_get_bind, if_neg (not_not.mpr hhit)]
  rfl

theorem run_decodedEntryM_error (hmiss : cache.chunkId ≠ some entry.chunkId) {e : QztError}
    (hdecode : decodeEntry entry = .error e) :
    (decodedEntryM entry decodeEntry).run.run cache = (.error e, cache) := by
  rw [decodedEntryM, run_get_bind, if_pos hmiss, hdecode]
  rfl

/-- A counter with room for the amount. -/
theorem okOr_checkedAdd_of_lt {counter amount : Nat} (h : counter + amount < 2 ^ 64)
    (e : QztError) : okOr e (checkedAdd counter amount) = .ok (counter + amount) := by
  rw [checkedAdd_of_lt h, okOr_some]

theorem run_decodedEntryM_miss (hmiss : cache.chunkId ≠ some entry.chunkId) {part : List UInt8}
    (hdecode : decodeEntry entry = .ok part)
    (hbytes : cache.physicalDecodedBytes + entry.uncompressedSize < 2 ^ 64)
    (hchunks : cache.decodedChunks + 1 < 2 ^ 64)
    (hcompressed : cache.compressedBytes + entry.compressedSize < 2 ^ 64) :
    (decodedEntryM entry decodeEntry).run.run cache =
      (.ok part,
        { chunkId := some entry.chunkId
          decoded := part
          physicalDecodedBytes := cache.physicalDecodedBytes + entry.uncompressedSize
          decodedChunks := cache.decodedChunks + 1
          compressedBytes := cache.compressedBytes + entry.compressedSize }) := by
  rw [decodedEntryM, run_get_bind, if_pos hmiss, run_lift_bind_of_ok hdecode, run_modify_bind,
    run_modify_bind, run_get_bind]
  refine (run_lift_bind_of_ok (okOr_checkedAdd_of_lt hbytes _) _ _).trans ?_
  rw [run_modify_bind, run_get_bind]
  refine (run_lift_bind_of_ok (okOr_checkedAdd_of_lt hchunks _) _ _).trans ?_
  rw [run_modify_bind, run_get_bind]
  refine (run_lift_bind_of_ok (okOr_checkedAdd_of_lt hcompressed _) _ _).trans ?_
  rfl

/-- An entry that does not decode leaves the cache as it was. -/
theorem Tracks.decodedEntryM_error (h : Tracks decodeEntry entries done cached cache)
    (hlayout : Layout entries size) (hentry : entry ∈ entries) {e : QztError}
    (hdecode : decodeEntry entry = .error e) :
    (decodedEntryM entry decodeEntry).run.run cache = (.error e, cache) := by
  apply run_decodedEntryM_error _ hdecode
  intro hhit
  rw [h.chunkId] at hhit
  rw [(h.hit hlayout hentry hhit).1] at hdecode
  cases hdecode

/-- An entry that decodes is charged unless it is in the cache, and is there afterwards. -/
theorem Tracks.decodedEntryM_ok (h : Tracks decodeEntry entries done cached cache)
    (hlayout : Layout entries size) (hentry : entry ∈ entries) {part : List UInt8}
    (hdecode : decodeEntry entry = .ok part) (hfit : CountersFit (done ++ charged cached [entry])) :
    ∃ cache', (decodedEntryM entry decodeEntry).run.run cache = (.ok part, cache') ∧
      Tracks decodeEntry entries (done ++ charged cached [entry]) (some entry.chunkId) cache' := by
  by_cases hhit : cached = some entry.chunkId
  · obtain ⟨hdecoded, hdone⟩ := h.hit hlayout hentry hhit
    obtain rfl : cache.decoded = part := by
      rw [hdecode, Except.ok.injEq] at hdecoded
      exact hdecoded.symm
    refine ⟨cache, run_decodedEntryM_hit (h.chunkId.trans hhit), ?_⟩
    rw [charged, if_pos hhit, charged, List.append_nil, ← hhit]
    exact h
  · rw [charged, if_neg hhit, charged] at hfit ⊢
    have hall : ∀ e ∈ done ++ [entry], e ∈ entries := by
      intro e he
      rcases List.mem_append.mp he with he | he
      · exact h.done_mem e he
      · rw [List.mem_singleton.mp he]
        exact hentry
    have hcount := length_le_sum_chunkSizes fun e he => hlayout.size_pos (hall e he)
    obtain ⟨hbytes, hcompressed⟩ := hfit
    rw [List.length_append, List.length_singleton] at hcount
    have hsizes : (chunkSizes (done ++ [entry])).sum =
        (chunkSizes done).sum + entry.uncompressedSize := by
      rw [chunkSizes, List.map_append, List.sum_append, List.map_singleton, List.sum_singleton,
        ← chunkSizes]
    have hframes : ((done ++ [entry]).map ChunkEntry.compressedSize).sum =
        (done.map ChunkEntry.compressedSize).sum + entry.compressedSize := by
      rw [List.map_append, List.sum_append, List.map_singleton, List.sum_singleton]
    have hmetrics := h.metrics
    simp only [ChunkDecodeCache.metrics, metricsOf, RangeReadMetrics.mk.injEq] at hmetrics
    obtain ⟨hdoneChunks, hdoneBytes, hdoneCompressed⟩ := hmetrics
    refine ⟨_, run_decodedEntryM_miss (by rwa [h.chunkId]) hdecode (by omega) (by omega)
      (by omega), ?_⟩
    refine ⟨rfl, ?_, hall, ?_⟩
    · simp only [ChunkDecodeCache.metrics, metricsOf, RangeReadMetrics.mk.injEq]
      rw [hsizes, hframes, List.length_append, List.length_singleton]
      omega
    · intro id hid
      cases hid
      exact ⟨entry, List.mem_append_right _ (List.mem_singleton.mpr rfl), rfl, hdecode⟩

theorem charged_cons (cached : Option Nat) (entry : ChunkEntry) (span : List ChunkEntry) :
    charged cached (entry :: span) = charged cached [entry] ++ charged (some entry.chunkId) span := by
  by_cases hhit : cached = some entry.chunkId
  · rw [charged, if_pos hhit, charged, if_pos hhit, charged, List.nil_append, hhit]
  · rw [charged, if_neg hhit, charged, if_neg hhit, charged, List.cons_append, List.nil_append]

/-- The copy loop: the text of the range, or the first error, and the chunks decoded on the way. -/
theorem Tracks.run_copyRangeM {text : List UInt8} {offset stop index chunkOffset : Nat}
    (hlayout : Layout entries size) (hagrees : Agrees decodeEntry entries text) (hstop : stop ≤ size)
    {remaining : List ChunkEntry} (hsubset : ∀ entry ∈ remaining, entry ∈ entries)
    (hcontiguous : Contiguous index chunkOffset remaining)
    (htotal : chunkOffset + (chunkSizes remaining).sum = size)
    (hfirst : ∀ entry, remaining.head? = some entry → offset < chunkOffset + entry.uncompressedSize)
    {span : List ChunkEntry}
    (hspan : remaining.takeWhile (fun entry => entry.logicalOffset < stop) = span)
    (htracks : Tracks decodeEntry entries done cached cache)
    (hfit : CountersFit (done ++ charged cached (decodable decodeEntry span)))
    (output : List UInt8) :
    ∃ cache', (copyRangeM offset stop decodeEntry remaining output).run.run cache =
        ((fun _ => output ++ slice text (max offset chunkOffset) (stop - max offset chunkOffset)) <$>
          collect decodeEntry span, cache') ∧
      Tracks decodeEntry entries (done ++ charged cached (decodable decodeEntry span))
        (lastId cached (decodable decodeEntry span)) cache' := by
  induction remaining generalizing index chunkOffset output cache done cached span with
  | nil =>
    subst hspan
    simp only [chunkSizes, List.map_nil, List.sum_nil] at htotal
    rw [show stop - max offset chunkOffset = 0 by omega, slice_length_zero, List.append_nil,
      List.takeWhile_nil, decodable, List.takeWhile_nil, charged, List.append_nil]
    exact ⟨cache, rfl, htracks⟩
  | cons entry remaining ih =>
    obtain ⟨hid, hoffset, hpos, hrest⟩ := hcontiguous
    have hentry := hsubset entry List.mem_cons_self
    have hend := hlayout.entry_end hentry
    have hsize := hlayout.size_lt
    have hin := hfirst entry rfl
    rw [chunkSizes_cons, List.sum_cons] at htotal
    rw [copyRangeM, run_lift_bind_of_ok (hlayout.logicalEnd_eq hentry)]
    by_cases hbefore : entry.logicalOffset < stop
    · rw [List.takeWhile_cons_of_pos (by rwa [decide_eq_true_eq])] at hspan
      subst hspan
      rw [if_neg (Nat.not_le_of_lt hbefore), run_bind]
      cases hdecode : decodeEntry entry with
      | error e =>
        have hnone : decodable decodeEntry (entry :: remaining.takeWhile
            fun entry => entry.logicalOffset < stop) = [] := by
          rw [decodable, List.takeWhile_cons_of_neg]
          rw [hdecode]
          exact Bool.false_ne_true
        rw [htracks.decodedEntryM_error hlayout hentry hdecode, hnone, charged, List.append_nil,
          collect, hdecode]
        exact ⟨cache, rfl, htracks⟩
      | ok part =>
        have hmore : decodable decodeEntry (entry :: remaining.takeWhile
            fun entry => entry.logicalOffset < stop) = entry :: decodable decodeEntry
              (remaining.takeWhile fun entry => entry.logicalOffset < stop) := by
          rw [decodable, List.takeWhile_cons_of_pos, decodable]
          rw [hdecode]
          rfl
        rw [hmore, charged_cons, ← List.append_assoc] at hfit ⊢
        obtain ⟨cache', hrun, htracks'⟩ :=
          htracks.decodedEntryM_ok hlayout hentry hdecode hfit.of_append_left
        have hnext : ∀ next, remaining.head? = some next →
            offset < chunkOffset + entry.uncompressedSize + next.uncompressedSize := by
          intro next _
          omega
        obtain ⟨cache'', hloop, htracks''⟩ := ih (fun e he => hsubset e (List.mem_cons_of_mem _ he))
          hrest (by omega) hnext rfl htracks' hfit (output ++ slice part
            (max offset entry.logicalOffset - entry.logicalOffset)
            (min stop (entry.logicalOffset + entry.uncompressedSize) - entry.logicalOffset -
              (max offset entry.logicalOffset - entry.logicalOffset)))
        refine ⟨cache'', ?_, htracks''⟩
        rw [hrun]
        simp only
        rw [run_lift_bind_of_ok (u64ToUsize_of_lt (by omega)),
          run_lift_bind_of_ok (u64ToUsize_of_lt (by omega)), hloop, collect, hdecode, ok_bind,
          hagrees entry hentry part hdecode, hoffset, List.append_assoc,
          slice_chunk hin (by omega)]
        cases collect decodeEntry (remaining.takeWhile fun entry => entry.logicalOffset < stop) <;>
          rfl
    · -- The loop breaks at the first chunk behind the range.
      rw [List.takeWhile_cons_of_neg (by rwa [decide_eq_true_eq])] at hspan
      subst hspan
      rw [if_pos (Nat.le_of_not_lt hbefore), show stop - max offset chunkOffset = 0 by omega,
        slice_length_zero, List.append_nil, decodable, List.takeWhile_nil, charged, List.append_nil]
      exact ⟨cache, rfl, htracks⟩

end Pass

/-! ## Whole reads -/

section Reads

variable {entries done : List ChunkEntry} {decodeEntry : DecodeEntry}
  {size offset length : Nat} {cached : Option Nat} {cache : ChunkDecodeCache}

/-- A read out of bounds leaves the cache alone. -/
theorem run_read_outOfBounds (hrange : size < offset + length) :
    (readRangeFromEntriesCachedM entries size offset length decodeEntry).run.run cache =
      (rangeOf decodeEntry entries size offset length, cache) := by
  rw [rangeOf, rejectIf_of hrange, error_bind, readRangeFromEntriesCachedM]
  by_cases hword : offset + length < 2 ^ 64
  · rw [run_lift_bind_of_ok (checkedLogicalEnd_of_lt hword), rejectIf_of hrange]
    rfl
  · have hend : checkedLogicalEnd offset length = .error .logicalRangeOutOfBounds := by
      rw [checkedLogicalEnd, checkedAdd_of_ge (by omega)]
      rfl
    rw [hend]
    rfl

/-- A read inside the bounds: the range of the text or the first error, whatever is in the
cache. -/
theorem Tracks.run_read (htracks : Tracks decodeEntry entries done cached cache)
    (hlayout : Layout entries size)
    (hlength : ∀ entry part, decodeEntry entry = .ok part → part.length = entry.uncompressedSize)
    (hrange : offset + length ≤ size)
    (hfit : CountersFit
      (done ++ charged cached (decodable decodeEntry (touched entries offset length)))) :
    ∃ cache', (readRangeFromEntriesCachedM entries size offset length decodeEntry).run.run cache =
        (rangeOf decodeEntry entries size offset length, cache') ∧
      Tracks decodeEntry entries
        (done ++ charged cached (decodable decodeEntry (touched entries offset length)))
        (lastId cached (decodable decodeEntry (touched entries offset length))) cache' := by
  have hsize := hlayout.size_lt
  rw [readRangeFromEntriesCachedM, run_lift_bind_of_ok (checkedLogicalEnd_of_lt (by omega)),
    rejectIf_of_not (by omega), run_lift_bind_of_ok rfl, rangeOf, rejectIf_of_not (by omega), ok_bind]
  by_cases hzero : length = 0
  · subst hzero
    rw [touched_zero, decodable, List.takeWhile_nil, charged, List.append_nil, slice_length_zero,
      if_pos rfl]
    exact ⟨cache, rfl, htracks⟩
  · obtain ⟨index, chunkOffset, hcontiguous, htotal, hle, hfirst⟩ :=
      copyRange_from_index hlayout (show offset < size by omega)
    have hspan := touched_eq hlayout (Nat.pos_of_ne_zero hzero) hrange
    have hagrees := originalText_agrees hlayout hlength
    have htext : (originalText decodeEntry entries).length = size := by
      rw [length_originalText hlength, hlayout.total]
    obtain ⟨cache', hrun, htracks'⟩ := htracks.run_copyRangeM hlayout hagrees hrange
      (fun entry hentry => List.mem_of_mem_drop hentry) hcontiguous htotal hfirst hspan.symm hfit []
    refine ⟨cache', ?_, htracks'⟩
    rw [if_neg hzero, run_lift_bind_of_ok (hlayout.chunkIndex_eq offset), run_bind, hrun]
    cases collect decodeEntry (touched entries offset length) with
    | error e => rfl
    | ok parts =>
      have hlen : (slice (originalText decodeEntry entries) offset length).length = length :=
        length_slice_of_le (by omega)
      rw [map_ok, List.nil_append, show max offset chunkOffset = offset by omega,
        Nat.add_sub_cancel_left]
      simp only
      rw [hlen, run_lift_bind_of_ok (usizeToU64_of_lt (by omega)),
        rejectIf_of_not (not_not.mpr rfl)]
      rfl

theorem CountersFit.sublist {more : List ChunkEntry} (h : CountersFit more)
    (hsublist : done.Sublist more) : CountersFit done :=
  ⟨Nat.lt_of_le_of_lt ((hsublist.map _).sum_le_sum fun _ _ => Nat.zero_le _) h.bytes,
    Nat.lt_of_le_of_lt ((hsublist.map _).sum_le_sum fun _ _ => Nat.zero_le _) h.compressed⟩

/-- A fresh read decodes nothing that was not decoded on the cache. -/
theorem Tracks.charged_sublist (htracks : Tracks decodeEntry entries done cached cache)
    (hlayout : Layout entries size) {span : List ChunkEntry}
    (hspan : ∀ entry ∈ span, entry ∈ entries) :
    (charged none span).Sublist (done ++ charged cached span) := by
  cases span with
  | nil => exact List.nil_sublist _
  | cons entry span =>
    rw [charged, if_neg (by simp)]
    by_cases hhit : cached = some entry.chunkId
    · obtain ⟨-, hdone⟩ := htracks.hit hlayout (hspan entry List.mem_cons_self) hhit
      rw [charged, if_pos hhit, hhit]
      exact (List.singleton_sublist.mpr hdone).append (List.Sublist.refl _)
    · rw [charged, if_neg hhit]
      exact List.sublist_append_right _ _

theorem readRangeFromEntries_eq_outcome :
    readRangeFromEntries entries size offset length decodeEntry =
      Prod.fst <$> outcome
        (readRangeFromEntriesCachedM entries size offset length decodeEntry) .new := by
  rw [outcome_readRangeFromEntriesCachedM, readRangeFromEntries, readRangeWithMetricsFromEntries]
  cases readRangeFromEntriesCached entries size offset length .new decodeEntry <;> rfl

/-- A fresh read. -/
theorem readRangeFromEntries_eq (hlayout : Layout entries size)
    (hlength : ∀ entry part, decodeEntry entry = .ok part → part.length = entry.uncompressedSize)
    (hfit : ¬ size < offset + length →
      CountersFit (charged none (decodable decodeEntry (touched entries offset length)))) :
    readRangeFromEntries entries size offset length decodeEntry =
      rangeOf decodeEntry entries size offset length := by
  have hrun : ∃ cache', (readRangeFromEntriesCachedM entries size offset length
      decodeEntry).run.run .new = (rangeOf decodeEntry entries size offset length, cache') := by
    by_cases hrange : size < offset + length
    · exact ⟨_, run_read_outOfBounds hrange⟩
    · obtain ⟨cache', hread, -⟩ := (tracks_new decodeEntry entries).run_read hlayout hlength
        (Nat.le_of_not_lt hrange) (hfit hrange)
      exact ⟨cache', hread⟩
  obtain ⟨cache', hrun⟩ := hrun
  rw [readRangeFromEntries_eq_outcome, outcome, hrun]
  cases rangeOf decodeEntry entries size offset length <;> rfl

/-- A sequence of reads on one cache. -/
theorem Tracks.readSequence_eq (htracks : Tracks decodeEntry entries done cached cache)
    (hlayout : Layout entries size)
    (hlength : ∀ entry part, decodeEntry entry = .ok part → part.length = entry.uncompressedSize)
    {calls : List (Nat × Nat)}
    (hfit : CountersFit (done ++ sequenceCharged entries size decodeEntry cached calls)) :
    (readSequence entries size decodeEntry calls cache).1 =
        calls.map (fun call => rangeOf decodeEntry entries size call.1 call.2) ∧
      (∀ call ∈ calls, readRangeFromEntries entries size call.1 call.2 decodeEntry =
        rangeOf decodeEntry entries size call.1 call.2) ∧
      (readSequence entries size decodeEntry calls cache).2.metrics =
        metricsOf (done ++ sequenceCharged entries size decodeEntry cached calls) := by
  induction calls generalizing done cached cache with
  | nil =>
    rw [sequenceCharged, List.append_nil]
    exact ⟨rfl, fun _ h => absurd h List.not_mem_nil, htracks.metrics⟩
  | cons call calls ih =>
    obtain ⟨offset, length⟩ := call
    rw [sequenceCharged] at hfit ⊢
    rw [readSequence, List.map_cons]
    by_cases hrange : size < offset + length
    · rw [if_pos hrange] at hfit ⊢
      rw [run_read_outOfBounds hrange]
      obtain ⟨hresults, hfresh, hmetrics⟩ := ih htracks hfit
      refine ⟨congrArg _ hresults, ?_, hmetrics⟩
      intro call hcall
      rcases List.mem_cons.mp hcall with rfl | hcall
      · exact readRangeFromEntries_eq hlayout hlength fun hin => absurd hrange hin
      · exact hfresh call hcall
    · rw [if_neg hrange] at hfit ⊢
      dsimp only at hfit ⊢
      rw [← List.append_assoc] at hfit ⊢
      have hmem : ∀ entry ∈ decodable decodeEntry (touched entries offset length),
          entry ∈ entries := by
        intro entry hentry
        exact List.mem_of_mem_filter ((List.takeWhile_sublist _).mem hentry)
      have hnow := hfit.of_append_left
      obtain ⟨cache', hread, htracks'⟩ :=
        htracks.run_read hlayout hlength (Nat.le_of_not_lt hrange) hnow
      rw [hread]
      obtain ⟨hresults, hfresh, hmetrics⟩ := ih htracks' hfit
      refine ⟨congrArg _ hresults, ?_, hmetrics⟩
      intro call hcall
      rcases List.mem_cons.mp hcall with rfl | hcall
      · exact readRangeFromEntries_eq hlayout hlength fun _ =>
          hnow.sublist (htracks.charged_sublist hlayout hmem)
      · exact hfresh call hcall

/-! ## The metrics of a read that succeeds -/

/-- The counters of two passes together. -/
def RangeReadMetrics.add (first second : RangeReadMetrics) : RangeReadMetrics where
  decodedChunks := first.decodedChunks + second.decodedChunks
  decodedBytes := first.decodedBytes + second.decodedBytes
  compressedBytes := first.compressedBytes + second.compressedBytes

theorem metricsOf_append (first second : List ChunkEntry) :
    metricsOf (first ++ second) = (metricsOf first).add (metricsOf second) := by
  simp only [metricsOf, RangeReadMetrics.add, chunkSizes, List.length_append, List.map_append,
    List.sum_append]

theorem RangeReadMetrics.add_assoc (first second third : RangeReadMetrics) :
    (first.add second).add third = first.add (second.add third) := by
  simp only [RangeReadMetrics.add, Nat.add_assoc]

theorem decodedEntry_metrics {entry : ChunkEntry} {cache' : ChunkDecodeCache}
    (h : cache.decodedEntry entry decodeEntry = .ok cache') :
    cache'.metrics = cache.metrics.add (metricsOf (charged cache.chunkId [entry])) ∧
      cache'.chunkId = some entry.chunkId := by
  unfold ChunkDecodeCache.decodedEntry at h
  split at h
  · rename_i hmiss
    simp only [bind_eq_ok_iff, okOr_eq_ok_iff, checkedAdd_eq_some_iff, pure_eq_ok,
      Except.ok.injEq] at h
    obtain ⟨_, -, _, ⟨-, rfl⟩, _, ⟨-, rfl⟩, _, ⟨-, rfl⟩, rfl⟩ := h
    rw [charged, if_neg hmiss, charged]
    refine ⟨?_, rfl⟩
    simp [ChunkDecodeCache.metrics, RangeReadMetrics.add, metricsOf, chunkSizes]
  · rename_i hhit
    cases h
    rw [charged, if_pos (not_not.mp hhit), charged]
    exact ⟨rfl, not_not.mp hhit⟩

theorem copyRange_metrics {stop : Nat} {remaining : List ChunkEntry} {output : List UInt8}
    {result : List UInt8 × ChunkDecodeCache} {span : List ChunkEntry}
    (hspan : remaining.takeWhile (fun entry => entry.logicalOffset < stop) = span)
    (h : copyRange offset stop decodeEntry remaining output cache = .ok result) :
    result.2.metrics = cache.metrics.add (metricsOf (charged cache.chunkId span)) ∧
      result.2.chunkId = lastId cache.chunkId span := by
  induction remaining generalizing output cache span with
  | nil =>
    subst hspan
    cases h
    exact ⟨rfl, rfl⟩
  | cons entry remaining ih =>
    obtain ⟨chunkEnd, -, h⟩ := bind_eq_ok_iff.mp h
    split at h
    · rename_i hbehind
      rw [List.takeWhile_cons_of_neg (by rw [decide_eq_true_eq]; omega)] at hspan
      subst hspan
      cases h
      exact ⟨rfl, rfl⟩
    · rename_i hbefore
      rw [List.takeWhile_cons_of_pos (by rw [decide_eq_true_eq]; omega)] at hspan
      subst hspan
      simp only [bind_eq_ok_iff] at h
      obtain ⟨cache', hdecoded, _, -, _, -, hloop⟩ := h
      obtain ⟨hmetrics, hid⟩ := decodedEntry_metrics hdecoded
      obtain ⟨hrest, hlast⟩ := ih rfl hloop
      rw [hid] at hrest hlast
      refine ⟨?_, hlast⟩
      have hsplit := charged_cons cache.chunkId entry
        (remaining.takeWhile fun entry => entry.logicalOffset < stop)
      rw [hrest, hmetrics, hsplit, metricsOf_append, RangeReadMetrics.add_assoc]

/-- What a read that succeeds adds to the counters, and what it leaves in the cache. -/
theorem readRangeFromEntriesCached_metrics (hlayout : Layout entries size)
    {result : List UInt8 × ChunkDecodeCache}
    (h : readRangeFromEntriesCached entries size offset length cache decodeEntry = .ok result) :
    result.2.metrics =
        cache.metrics.add (metricsOf (charged cache.chunkId (touched entries offset length))) ∧
      result.2.chunkId = lastId cache.chunkId (touched entries offset length) := by
  simp only [readRangeFromEntriesCached, bind_eq_ok_iff, checkedLogicalEnd_eq_ok_iff,
    rejectIf_eq_ok_iff] at h
  obtain ⟨_, ⟨-, rfl⟩, _, hrange, h⟩ := h
  split at h
  · rename_i hzero
    cases h
    subst hzero
    rw [touched_zero]
    exact ⟨rfl, rfl⟩
  · rename_i hpos
    rw [hlayout.chunkIndex_eq, ok_bind] at h
    simp only [bind_eq_ok_iff, pure_eq_ok, Except.ok.injEq] at h
    obtain ⟨copied, hcopy, _, -, _, -, rfl⟩ := h
    exact copyRange_metrics
      (touched_eq hlayout (Nat.pos_of_ne_zero hpos) (Nat.le_of_not_lt hrange)).symm hcopy

theorem Contiguous.takeWhile {index chunkOffset : Nat} {span : List ChunkEntry}
    (h : Contiguous index chunkOffset span) (p : ChunkEntry → Bool) :
    Contiguous index chunkOffset (span.takeWhile p) := by
  induction span generalizing index chunkOffset with
  | nil => exact trivial
  | cons entry span ih =>
    obtain ⟨hid, hstart, hpos, hrest⟩ := h
    rw [List.takeWhile_cons]
    split
    · exact ⟨hid, hstart, hpos, ih hrest⟩
    · exact trivial

/-- No chunk of a contiguous span is in the cache when its first one is not. -/
theorem Contiguous.charged_eq {index chunkOffset : Nat} {span : List ChunkEntry}
    (h : Contiguous index chunkOffset span) (hcached : cached ≠ some index) :
    charged cached span = span := by
  induction span generalizing index chunkOffset cached with
  | nil => rfl
  | cons entry span ih =>
    obtain ⟨hid, -, -, hrest⟩ := h
    rw [charged, if_neg (by rwa [hid]), ih hrest]
    intro heq
    rw [hid, Option.some.injEq] at heq
    omega

/-- A fresh read decodes the chunks of its range, each as a whole. -/
theorem charged_touched (hlayout : Layout entries size) (hrange : offset + length ≤ size) :
    charged none (touched entries offset length) = touched entries offset length := by
  by_cases hzero : length = 0
  · subst hzero
    rw [touched_zero]
    rfl
  · obtain ⟨index, chunkOffset, hcontiguous, -, -, -⟩ :=
      copyRange_from_index hlayout (show offset < size by omega)
    rw [touched_eq hlayout (Nat.pos_of_ne_zero hzero) hrange]
    exact (hcontiguous.takeWhile _).charged_eq (by simp)

theorem readRangeWithMetricsFromEntries_metrics (hlayout : Layout entries size)
    {report : RangeReadReport}
    (h : readRangeWithMetricsFromEntries entries size offset length decodeEntry = .ok report) :
    report.metrics = metricsOf (touched entries offset length) := by
  rw [readRangeWithMetricsFromEntries] at h
  simp only [bind_eq_ok_iff, pure_eq_ok, Except.ok.injEq] at h
  obtain ⟨result, hread, rfl⟩ := h
  have hrange : offset + length ≤ size := by
    simp only [readRangeFromEntriesCached, bind_eq_ok_iff, checkedLogicalEnd_eq_ok_iff,
      rejectIf_eq_ok_iff] at hread
    obtain ⟨_, ⟨-, rfl⟩, _, hrange, -⟩ := hread
    exact Nat.le_of_not_lt hrange
  obtain ⟨hmetrics, -⟩ := readRangeFromEntriesCached_metrics hlayout hread
  have hnone : ChunkDecodeCache.new.chunkId = none := rfl
  rw [hnone, charged_touched hlayout hrange] at hmetrics
  change result.2.metrics = _
  rw [hmetrics]
  simp [RangeReadMetrics.add, ChunkDecodeCache.metrics, ChunkDecodeCache.new]

end Reads

/-- Cached reads are plain reads.  On a validated table, reads that share a cache return one by
one what fresh reads return, also after reads that failed; that is the range of the text, the
error of the first chunk of the range that does not decode, or a range out of bounds.  The
counters are the sums over the chunks decoded, and a fresh read decodes the chunks of its
range. -/
theorem cachedReads_eq_fresh {bytes : List UInt8} {chunkCount originalSize lineCount : Nat}
    {entries : List ChunkEntry} {decodeEntry : DecodeEntry}
    (htable : validateChunkTableBlock bytes chunkCount originalSize lineCount = .ok entries)
    (hdecode : ∀ entry part, decodeEntry entry = .ok part →
      part.length = entry.uncompressedSize) :
    (∀ calls : List (Nat × Nat),
      CountersFit (sequenceCharged entries originalSize decodeEntry none calls) →
      (readSequence entries originalSize decodeEntry calls .new).1 = calls.map (fun call =>
          readRangeFromEntries entries originalSize call.1 call.2 decodeEntry) ∧
        (∀ call ∈ calls, readRangeFromEntries entries originalSize call.1 call.2 decodeEntry =
          rangeOf decodeEntry entries originalSize call.1 call.2) ∧
        (readSequence entries originalSize decodeEntry calls .new).2.metrics =
          metricsOf (sequenceCharged entries originalSize decodeEntry none calls)) ∧
    ∀ offset length report,
      readRangeWithMetricsFromEntries entries originalSize offset length decodeEntry =
        .ok report → report.metrics = metricsOf (touched entries offset length) := by
  have hlayout := validateChunkTableBlock_layout htable
  refine ⟨?_, fun offset length report => readRangeWithMetricsFromEntries_metrics hlayout⟩
  intro calls hfit
  obtain ⟨hresults, hfresh, hmetrics⟩ :=
    (tracks_new decodeEntry entries).readSequence_eq hlayout hdecode hfit
  refine ⟨?_, hfresh, hmetrics⟩
  rw [hresults]
  exact List.map_congr_left fun call hcall => (hfresh call hcall).symm

/-- Two chunks, of three bytes and of two. -/
def twoChunkTable : List ChunkEntry :=
  [{ chunkId := 0, physicalOffset := 128, compressedSize := 4, logicalOffset := 0,
     uncompressedSize := 3, firstLine := 0, lineCount := 1, dictionaryId := 0, flags := 0,
     compressedChecksumBlake3 := List.Vector.replicate 32 0,
     uncompressedChecksumBlake3 := List.Vector.replicate 32 0 },
   { chunkId := 1, physicalOffset := 132, compressedSize := 4, logicalOffset := 3,
     uncompressedSize := 2, firstLine := 1, lineCount := 0, dictionaryId := 0, flags := 1,
     compressedChecksumBlake3 := List.Vector.replicate 32 0,
     uncompressedChecksumBlake3 := List.Vector.replicate 32 0 }]

/-- A decoder that knows the first chunk only. -/
def firstChunkOnly : DecodeEntry := fun entry =>
  if entry.chunkId = 0 then .ok (List.replicate entry.uncompressedSize 0x61)
  else .error .chunkSizeMismatch

set_option maxRecDepth 100000 in
/-- A read that fails in its second chunk, one that finds the first in the cache, and one out of
bounds. -/
theorem cachedReads_eq_fresh_twoChunks :
    validateChunkTableBlock (twoChunkTable.flatMap ChunkEntry.encode) 2 5 1 = .ok twoChunkTable ∧
    (readSequence twoChunkTable 5 firstChunkOnly [(1, 4), (0, 2), (4, 2)] .new).1 =
      [(1, 4), (0, 2), (4, 2)].map (fun call =>
        readRangeFromEntries twoChunkTable 5 call.1 call.2 firstChunkOnly) ∧
    (readSequence twoChunkTable 5 firstChunkOnly [(1, 4), (0, 2), (4, 2)] .new).1 =
      [.error .chunkSizeMismatch, .ok [0x61, 0x61], .error .logicalRangeOutOfBounds] := by
  have htable : validateChunkTableBlock (twoChunkTable.flatMap ChunkEntry.encode) 2 5 1 =
      .ok twoChunkTable := by decide +kernel
  have hdecode : ∀ entry part, firstChunkOnly entry = .ok part →
      part.length = entry.uncompressedSize := by
    intro entry part hpart
    unfold firstChunkOnly at hpart
    split at hpart
    · cases hpart
      exact List.length_replicate
    · cases hpart
  obtain ⟨hreads, -⟩ := cachedReads_eq_fresh htable hdecode
  obtain ⟨hsame, -, -⟩ := hreads [(1, 4), (0, 2), (4, 2)] ⟨by decide +kernel, by decide +kernel⟩
  exact ⟨htable, hsame, by decide +kernel⟩

end Qzt
