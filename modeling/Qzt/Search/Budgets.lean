import Qzt.Reader.CachedReads
import Qzt.Search.Query

/-!
# The budgets of a search

`search_limit_for_span` asks for a span of chunks what the reads of the span would add to
the counters of the cache.  `verify_candidates` reads only after such a preflight, over the
chunks that its read touches, so its counters never pass their limits.
-/

namespace Qzt

open Foundation

/-! ## The preflight -/

section Preflight

variable {maxBytes maxChunks : Nat}

/-- The preflight says yes exactly where nothing would be decoded, or the sums of what would be
decoded stay within both limits. -/
theorem searchLimitLoop_eq_none_iff (hbytes : maxBytes < 2 ^ 64) (hchunks : maxChunks < 2 ^ 64)
    (span : List ChunkEntry) (cached : Option Nat) (bytes chunks : Nat) :
    ChunkDecodeCache.searchLimitLoop maxBytes maxChunks span cached bytes chunks = .ok none ↔
      charged cached span = [] ∨ bytes + (chunkSizes (charged cached span)).sum ≤ maxBytes ∧
        chunks + (charged cached span).length ≤ maxChunks := by
  induction span generalizing cached bytes chunks with
  | nil =>
    rw [ChunkDecodeCache.searchLimitLoop, charged]
    simp
  | cons entry span ih =>
    rw [ChunkDecodeCache.searchLimitLoop, charged]
    by_cases hhit : cached = some entry.chunkId
    · rw [if_neg (not_not.mpr hhit), if_pos hhit]
      exact ih cached bytes chunks
    · rw [if_pos hhit, if_neg hhit, chunkSizes_cons, List.sum_cons, List.length_cons]
      have hcons : entry :: charged (some entry.chunkId) span ≠ [] := List.cons_ne_nil _ _
      by_cases hword : bytes + entry.uncompressedSize < 2 ^ 64
      · rw [checkedAdd_of_lt hword, okOr_some, ok_bind]
        by_cases hover : bytes + entry.uncompressedSize > maxBytes
        · rw [if_pos hover]
          simp only [pure_eq_ok, Except.ok.injEq, reduceCtorEq, false_iff, not_or, hcons,
            not_false_eq_true, true_and]
          omega
        · rw [if_neg hover]
          by_cases hwordChunks : chunks + 1 < 2 ^ 64
          · rw [checkedAdd_of_lt hwordChunks, okOr_some, ok_bind]
            by_cases hoverChunks : chunks + 1 > maxChunks
            · rw [if_pos hoverChunks]
              simp only [pure_eq_ok, Except.ok.injEq, reduceCtorEq, false_iff, not_or, hcons,
                not_false_eq_true, true_and]
              omega
            · -- Both counters have room for this chunk; the rest is up to the rest of the span.
              rw [if_neg hoverChunks, ih]
              simp only [hcons, false_or]
              constructor
              · rintro (hnil | hrest)
                · rw [hnil, chunkSizes, List.map_nil, List.sum_nil, List.length_nil]
                  omega
                · omega
              · intro hrest
                exact .inr (by omega)
          · rw [checkedAdd_of_ge (by omega), okOr_none, error_bind]
            simp only [reduceCtorEq, false_iff, not_or, hcons, not_false_eq_true, true_and]
            omega
      · rw [checkedAdd_of_ge (by omega), okOr_none, error_bind]
        simp only [reduceCtorEq, false_iff, not_or, hcons, not_false_eq_true, true_and]
        omega

variable {entries : List ChunkEntry} {size : Nat} {cache : ChunkDecodeCache}

/-- The counters of a cache are within the limits. -/
def ChunkDecodeCache.Within (maxBytes maxChunks : Nat) (cache : ChunkDecodeCache) : Prop :=
  cache.physicalDecodedBytes ≤ maxBytes ∧ cache.decodedChunks ≤ maxChunks

/-- A yes keeps counters that are within the limits there. -/
theorem searchLimitLoop_within {span : List ChunkEntry} {cached : Option Nat} {bytes chunks : Nat}
    (hbytes : bytes ≤ maxBytes) (hchunks : chunks ≤ maxChunks)
    (h : ChunkDecodeCache.searchLimitLoop maxBytes maxChunks span cached bytes chunks = .ok none) :
    bytes + (chunkSizes (charged cached span)).sum ≤ maxBytes ∧
      chunks + (charged cached span).length ≤ maxChunks := by
  induction span generalizing cached bytes chunks with
  | nil => exact ⟨hbytes, hchunks⟩
  | cons entry span ih =>
    rw [ChunkDecodeCache.searchLimitLoop] at h
    rw [charged]
    split at h
    · rename_i hmiss
      obtain ⟨_, hadd, h⟩ := bind_eq_ok_iff.mp h
      rw [okOr_eq_ok_iff, checkedAdd_eq_some_iff] at hadd
      obtain ⟨-, rfl⟩ := hadd
      split at h
      · cases h
      · obtain ⟨_, hadd, h⟩ := bind_eq_ok_iff.mp h
        rw [okOr_eq_ok_iff, checkedAdd_eq_some_iff] at hadd
        obtain ⟨-, rfl⟩ := hadd
        split at h
        · cases h
        · have hrest := ih (by omega) (by omega) h
          rw [if_neg hmiss, chunkSizes_cons, List.sum_cons, List.length_cons]
          omega
    · rename_i hhit
      rw [if_pos (not_not.mp hhit)]
      exact ih hbytes hchunks h

end Preflight

/-! ## The chunks of a read -/

section Span

variable {entries : List ChunkEntry} {size start stop : Nat}

/-- The span of a range is the chunks that share a byte with it. -/
theorem chunkSpanForRange_touched (hlayout : Layout entries size) (hpos : start < stop)
    (hstop : stop ≤ size) {span : Nat × Nat} (h : chunkSpanForRange entries start stop = .ok span) :
    getRange? entries span.1 span.2 = some (touched entries start (stop - start)) := by
  rw [chunkSpanForRange, hlayout.chunkIndex_eq, ok_bind, hlayout.chunkIndex_eq, ok_bind] at h
  have hlast : stop - 1 < (chunkSizes entries).sum := by
    rw [hlayout.total]
    omega
  obtain ⟨hlt, hle, hgt⟩ := weightIndex_spec hlast
  rw [length_chunkSizes] at hlt
  simp only [bind_eq_ok_iff, okOr_eq_ok_iff, checkedAdd_eq_some_iff, pure_eq_ok,
    Except.ok.injEq] at h
  obtain ⟨first, hfirst, last, hlastEntry, _, ⟨-, rfl⟩, rfl⟩ := h
  have hfirstId := (hlayout.contiguous.getElem? hfirst).1
  have hlastId := (hlayout.contiguous.getElem? hlastEntry).1
  have hordered : weightIndex (chunkSizes entries) start ≤
      weightIndex (chunkSizes entries) (stop - 1) := by
    by_contra hnot
    have hless := Nat.lt_of_not_le hnot
    have hended := (lt_weightIndex_iff (by rwa [length_chunkSizes])).mp hless
    omega
  rw [touched_eq hlayout (by omega) (by omega), Nat.add_sub_of_le (Nat.le_of_lt hpos),
    getRange?_eq_some_iff, hfirstId, hlastId, Nat.zero_add, Nat.zero_add]
  generalize weightIndex (chunkSizes entries) start = i at *
  generalize weightIndex (chunkSizes entries) (stop - 1) = j at *
  refine ⟨⟨by omega, by omega⟩, ?_⟩
  -- The chunks up to `j` start before the end of the range, and the next one does not.
  have hbefore : ∀ entry ∈ (entries.drop i).take (j + 1 - i),
      decide (entry.logicalOffset < stop) = true := by
    intro entry hentry
    obtain ⟨k, hk⟩ := List.mem_iff_getElem?.mp hentry
    rw [List.getElem?_take] at hk
    split at hk
    · rename_i hkj
      rw [List.getElem?_drop] at hk
      obtain ⟨-, hoffset, -, -⟩ := hlayout.contiguous.getElem? hk
      have hmono := sum_take_le ((chunkSizes entries).take j) (i + k)
      rw [List.take_take, Nat.min_eq_left (by omega)] at hmono
      rw [decide_eq_true_eq]
      omega
    · cases hk
  have hafter : ((entries.drop i).drop (j + 1 - i)).takeWhile
      (fun entry => decide (entry.logicalOffset < stop)) = [] := by
    rw [List.drop_drop, show i + (j + 1 - i) = j + 1 by omega]
    cases hnext : entries.drop (j + 1) with
    | nil => rfl
    | cons entry rest =>
      have hget : entries[j + 1]? = some entry := by
        rw [← List.head?_drop, hnext, List.head?_cons]
      obtain ⟨-, hoffset, -, -⟩ := hlayout.contiguous.getElem? hget
      rw [List.takeWhile_cons_of_neg]
      rw [decide_eq_true_eq]
      omega
  conv_rhs => rw [← List.take_append_drop (j + 1 - i) (entries.drop i)]
  rw [List.takeWhile_append_of_pos hbefore, hafter, List.append_nil]
  rfl

end Span

/-! ## Verification within its budgets -/

namespace VerificationPlan

variable {plan : VerificationPlan} {decodeEntry : DecodeEntry}

/-- The plan reads a chunk table through the decode cache. -/
structure ReadsTable (plan : VerificationPlan) (decodeEntry : DecodeEntry) : Prop where
  layout : Layout plan.entries plan.originalSize
  reads : ∀ offset length cache, plan.readRangeCached offset length cache =
    readRangeFromEntriesCached plan.entries plan.originalSize offset length cache decodeEntry

/-- The counters of a run are within its options. -/
structure WithinBudgets (plan : VerificationPlan) (state : CandidateVerification) : Prop where
  decoded : state.decodedBytes ≤ plan.options.maxDecodedBytes
  physical : state.cache.Within plan.options.maxPhysicalDecodedBytes
    plan.options.maxPhysicalDecodedChunks

/-- A read over the chunks that passed the preflight keeps the counters within the limits. -/
theorem ReadsTable.read_within (hplan : plan.ReadsTable decodeEntry) {cache : ChunkDecodeCache}
    (hcache : cache.Within plan.options.maxPhysicalDecodedBytes
      plan.options.maxPhysicalDecodedChunks) {offset length : Nat} {span : Nat × Nat}
    (hspan : getRange? plan.entries span.1 span.2 = some (touched plan.entries offset length))
    (hlimit : plan.spanLimit cache span = .ok none) {result : List UInt8 × ChunkDecodeCache}
    (hread : plan.readRangeCached offset length cache = .ok result) :
    result.2.Within plan.options.maxPhysicalDecodedBytes plan.options.maxPhysicalDecodedChunks := by
  rw [hplan.reads] at hread
  obtain ⟨hmetrics, -⟩ := readRangeFromEntriesCached_metrics hplan.layout hread
  simp only [spanLimit, ChunkDecodeCache.searchLimitForSpan, bind_eq_ok_iff,
    u64ToUsize_eq_ok_iff] at hlimit
  obtain ⟨_, ⟨-, rfl⟩, _, ⟨-, rfl⟩, _, hrange, hlimit⟩ := hlimit
  rw [hspan, okOr_some, Except.ok.injEq] at hrange
  subst hrange
  have hwithin := searchLimitLoop_within hcache.1 hcache.2 hlimit
  simp only [ChunkDecodeCache.metrics, RangeReadMetrics.add, metricsOf,
    RangeReadMetrics.mk.injEq] at hmetrics
  rw [ChunkDecodeCache.Within]
  omega

/-- The span loop leaves the counters alone. -/
theorem pushHits_counters {granule : SearchGranule} {spans : List TokenSpan}
    {state state' : CandidateVerification} (h : plan.pushHits granule spans state = .ok state') :
    state'.decodedBytes = state.decodedBytes ∧ state'.cache = state.cache := by
  induction spans generalizing state with
  | nil =>
    cases h
    exact ⟨rfl, rfl⟩
  | cons span spans ih =>
    simp only [pushHits, bind_eq_ok_iff, usizeToU64_eq_ok_iff] at h
    obtain ⟨_, -, _, -, logicalOffset, -, _, ⟨-, rfl⟩, h⟩ := h
    split at h
    · cases h
      exact ⟨rfl, rfl⟩
    · exact @ih { state with hits := state.hits ++ [_] } h

/-- The span loop stops at the limit on results. -/
theorem pushHits_bound {granule : SearchGranule} {spans : List TokenSpan}
    {state state' : CandidateVerification} (hrunning : state.stopReason = none)
    (hroom : state.hits.length < plan.options.maxSearchResults)
    (h : plan.pushHits granule spans state = .ok state') :
    state'.hits.length ≤ plan.options.maxSearchResults ∧
      (state'.stopReason = none → state'.hits.length < plan.options.maxSearchResults) := by
  induction spans generalizing state with
  | nil =>
    cases h
    exact ⟨Nat.le_of_lt hroom, fun _ => hroom⟩
  | cons span spans ih =>
    simp only [pushHits, bind_eq_ok_iff, usizeToU64_eq_ok_iff, List.length_append,
      List.length_singleton] at h
    obtain ⟨_, -, _, -, logicalOffset, -, _, ⟨-, rfl⟩, h⟩ := h
    split at h
    · cases h
      refine ⟨?_, fun hnone => by cases hnone⟩
      rw [List.length_append, List.length_singleton]
      omega
    · rename_i hmore
      refine @ih { state with hits := state.hits ++ [_] } hrunning ?_ h
      rw [List.length_append, List.length_singleton]
      omega

/-- The probe of the byte behind a granule. -/
theorem ReadsTable.probeRight_within (hplan : plan.ReadsTable decodeEntry) {granuleEnd : Nat}
    (hend : granuleEnd < plan.originalSize) {state : CandidateVerification}
    (hstate : plan.WithinBudgets state) {result : Bool × CandidateVerification}
    (h : plan.probeRight granuleEnd state = .ok result) :
    plan.WithinBudgets result.2 ∧ result.2.hits = state.hits := by
  unfold probeRight at h
  obtain ⟨nextDecoded, -, h⟩ := bind_eq_ok_iff.mp h
  split at h
  · cases h
    exact ⟨⟨hstate.decoded, hstate.physical⟩, rfl⟩
  · rename_i hroom
    obtain ⟨stop, hstop, h⟩ := bind_eq_ok_iff.mp h
    rw [okOr_eq_ok_iff, checkedAdd_eq_some_iff] at hstop
    obtain ⟨-, rfl⟩ := hstop
    obtain ⟨span, hspan, h⟩ := bind_eq_ok_iff.mp h
    obtain ⟨limit, hlimit, h⟩ := bind_eq_ok_iff.mp h
    split at h
    · cases h
      exact ⟨⟨hstate.decoded, hstate.physical⟩, rfl⟩
    · obtain ⟨⟨byte, cache⟩, hread, h⟩ := bind_eq_ok_iff.mp h
      cases h
      have htouched := chunkSpanForRange_touched hplan.layout
        (show granuleEnd < granuleEnd + 1 by omega) (by omega) hspan
      rw [Nat.add_sub_cancel_left] at htouched
      have hcache := hplan.read_within hstate.physical htouched hlimit hread
      exact ⟨⟨Nat.le_of_not_lt hroom, hcache⟩, rfl⟩

/-- What the loop of `verify_candidates` keeps: counters within their budgets, no more hits than
asked for, and room for another one while it goes on. -/
structure Economical (plan : VerificationPlan) (state : CandidateVerification) : Prop where
  budgets : plan.WithinBudgets state
  hits : 0 < plan.options.maxSearchResults → state.hits.length ≤ plan.options.maxSearchResults
  room : 0 < plan.options.maxSearchResults → state.stopReason = none →
    state.hits.length < plan.options.maxSearchResults

theorem economical_start (plan : VerificationPlan) : plan.Economical {} :=
  ⟨⟨Nat.zero_le _, Nat.zero_le _, Nat.zero_le _⟩, fun _ => Nat.zero_le _, fun hpos _ => hpos⟩

theorem ReadsTable.matchGranule_economical (hplan : plan.ReadsTable decodeEntry)
    {granule : SearchGranule} {granuleEnd start : Nat} {decoded : List UInt8}
    {state state' : CandidateVerification}
    (hroom : 0 < plan.options.maxSearchResults →
      state.hits.length < plan.options.maxSearchResults)
    (hstate : plan.WithinBudgets state)
    (h : plan.matchGranule granule granuleEnd start decoded state = .ok state') :
    plan.Economical state' := by
  unfold matchGranule at h
  obtain ⟨localStart, -, h⟩ := bind_eq_ok_iff.mp h
  obtain ⟨original, -, h⟩ := bind_eq_ok_iff.mp h
  dsimp only at h
  obtain ⟨⟨rightContinues, probed⟩, hprobe, h⟩ := bind_eq_ok_iff.mp h
  dsimp only at h
  have hprobed : plan.WithinBudgets probed ∧ probed.hits = state.hits := by
    unfold continuesRight at hprobe
    split at hprobe
    · rename_i hcondition
      exact hplan.probeRight_within hcondition.2.2 hstate hprobe
    · cases hprobe
      exact ⟨hstate, rfl⟩
  obtain ⟨hbudgets, hhits⟩ := hprobed
  split at h
  · rename_i hstopped
    cases h
    refine ⟨hbudgets, fun hpos => by rw [hhits]; exact Nat.le_of_lt (hroom hpos), ?_⟩
    intro _ hnone
    rw [hnone] at hstopped
    cases hstopped
  · rename_i hgoes
    obtain ⟨count, -, h⟩ := bind_eq_ok_iff.mp h
    have hnone : probed.stopReason = none := by
      rwa [Option.isSome_iff_ne_none, not_not] at hgoes
    obtain ⟨hdecoded, hcache⟩ := pushHits_counters h
    refine ⟨⟨hdecoded ▸ hbudgets.decoded, hcache ▸ hbudgets.physical⟩, ?_, ?_⟩
    · intro hpos
      exact (pushHits_bound hnone (by rw [hhits]; exact hroom hpos) h).1
    · intro hpos
      exact (pushHits_bound hnone (by rw [hhits]; exact hroom hpos) h).2

/-- A granule that `validate_granule_chunk_span` accepts names the chunks of its bytes. -/
theorem validateGranuleChunkSpan_eq_ok {granule : SearchGranule} {entries : List ChunkEntry}
    {originalSize : Nat} (h : validateGranuleChunkSpan granule entries originalSize = .ok ⟨⟩) :
    0 < granule.byteLength ∧ granule.logicalOffset + granule.byteLength ≤ originalSize ∧
      chunkSpanForRange entries granule.logicalOffset
        (granule.logicalOffset + granule.byteLength) =
          .ok (granule.chunkStart, granule.chunkEnd) := by
  simp only [validateGranuleChunkSpan, bind_eq_ok_iff, rejectIf_eq_ok_iff, okOr_eq_ok_iff,
    checkedAdd_eq_some_iff, not_or, ne_eq, not_not] at h
  obtain ⟨_, -, _, -, _, ⟨-, rfl⟩, _, ⟨hpos, hend⟩, span, hspan, heq⟩ := h
  subst heq
  exact ⟨Nat.pos_of_ne_zero hpos, Nat.le_of_not_lt hend, hspan⟩

/-- One round of `verify_candidates`. -/
theorem ReadsTable.verifyCandidate_economical (hplan : plan.ReadsTable decodeEntry)
    {granuleId : Nat} (hgranules : ∀ granule, plan.granuleAt granuleId = .ok granule →
      validateGranuleChunkSpan granule plan.entries plan.originalSize = .ok ⟨⟩)
    {state state' : CandidateVerification} (hrunning : state.stopReason = none)
    (hstate : plan.Economical state) (h : plan.verifyCandidate granuleId state = .ok state') :
    plan.Economical state' := by
  unfold verifyCandidate at h
  obtain ⟨granule, hgranule, h⟩ := bind_eq_ok_iff.mp h
  obtain ⟨hpos, hsize, hvalid⟩ := validateGranuleChunkSpan_eq_ok (hgranules granule hgranule)
  obtain ⟨granuleEnd, hend, h⟩ := bind_eq_ok_iff.mp h
  obtain ⟨readLength, hlength, h⟩ := bind_eq_ok_iff.mp h
  obtain ⟨nextDecoded, -, h⟩ := bind_eq_ok_iff.mp h
  rw [okOr_eq_ok_iff, checkedAdd_eq_some_iff] at hend
  rw [okOr_eq_ok_iff, checkedSub_eq_some_iff] at hlength
  obtain ⟨-, rfl⟩ := hend
  obtain ⟨-, rfl⟩ := hlength
  have hstopped : ∀ reason, plan.Economical { state with stopReason := some reason } :=
    fun reason => ⟨⟨hstate.budgets.decoded, hstate.budgets.physical⟩, hstate.hits,
      fun _ hnone => by cases hnone⟩
  split at h
  · cases h
    exact hstopped _
  · rename_i hbudget
    obtain ⟨span, hspan, h⟩ := bind_eq_ok_iff.mp h
    obtain ⟨limit, hlimit, h⟩ := bind_eq_ok_iff.mp h
    split at h
    · cases h
      exact hstopped _
    · obtain ⟨⟨decoded, cache⟩, hread, h⟩ := bind_eq_ok_iff.mp h
      have htouched : getRange? plan.entries span.1 span.2 = some (touched plan.entries
          (plan.readStart granule)
          (granule.logicalOffset + granule.byteLength - plan.readStart granule)) := by
        unfold readSpan at hspan
        split at hspan
        · refine chunkSpanForRange_touched hplan.layout ?_ hsize hspan
          unfold readStart
          split <;> omega
        · rename_i hplain
          -- Without token boundaries the read is the granule, whose span was validated.
          cases hspan
          have hstart : plan.readStart granule = granule.logicalOffset := if_neg hplain
          rw [hstart]
          exact chunkSpanForRange_touched hplan.layout (by omega) hsize hvalid
      have hcache := hplan.read_within hstate.budgets.physical htouched hlimit hread
      have hbudgets : plan.WithinBudgets { state with decodedBytes := nextDecoded, cache } :=
        ⟨Nat.le_of_not_lt hbudget, hcache⟩
      refine hplan.matchGranule_economical ?_ hbudgets h
      exact fun hpos => hstate.room hpos hrunning

/-- The loop of `verify_candidates`. -/
theorem ReadsTable.verifyLoop_economical (hplan : plan.ReadsTable decodeEntry)
    {candidates : List Nat} (hgranules : ∀ granuleId ∈ candidates, ∀ granule,
      plan.granuleAt granuleId = .ok granule →
        validateGranuleChunkSpan granule plan.entries plan.originalSize = .ok ⟨⟩)
    {state final : CandidateVerification} (hrunning : state.stopReason = none)
    (hstate : plan.Economical state) (h : plan.verifyLoop candidates state = .ok final) :
    plan.Economical final := by
  induction candidates generalizing state with
  | nil =>
    cases h
    exact hstate
  | cons granuleId candidates ih =>
    obtain ⟨next, hnext, h⟩ := bind_eq_ok_iff.mp h
    have hround := hplan.verifyCandidate_economical (hgranules granuleId List.mem_cons_self)
      hrunning hstate hnext
    split at h
    · cases h
      exact hround
    · rename_i hgoes
      rw [Option.isSome_iff_ne_none, not_not] at hgoes
      exact ih (fun id hid => hgranules id (List.mem_cons_of_mem _ hid)) hgoes hround h

end VerificationPlan

/-- Search work stays within its budgets, and the preflight is exact.  Over a validated table and
candidates with valid granules, a run of `verify_candidates` that succeeds keeps its counters and
its hits within the options.  For every state of the cache and every span of chunks the preflight
has no objection exactly where nothing would be decoded, a cached chunk being free, or where what
would be decoded keeps both counters within the limits; a read over these chunks that succeeds adds
just that. -/
theorem search_withinBudgets {bytes : List UInt8} {chunkCount originalSize lineCount : Nat}
    {entries : List ChunkEntry} {decodeEntry : DecodeEntry}
    (htable : validateChunkTableBlock bytes chunkCount originalSize lineCount = .ok entries) :
    (∀ (granuleAt : Nat → Result SearchGranule) (spansFor : SpanMatcher) (tokenBoundaries : Bool)
      (options : SearchOptions) (candidates : List Nat) (final : CandidateVerification),
      (∀ granuleId ∈ candidates, ∀ granule, granuleAt granuleId = .ok granule →
        validateGranuleChunkSpan granule entries originalSize = .ok ⟨⟩) →
      VerificationPlan.verifyCandidates
        { entries, originalSize, granuleAt, spansFor, tokenBoundaries, options
          readRangeCached := fun offset length cache =>
            readRangeFromEntriesCached entries originalSize offset length cache decodeEntry }
        candidates = .ok final →
      final.decodedBytes ≤ options.maxDecodedBytes ∧
      final.cache.physicalDecodedBytes ≤ options.maxPhysicalDecodedBytes ∧
      final.cache.decodedChunks ≤ options.maxPhysicalDecodedChunks ∧
      (0 < options.maxSearchResults → final.hits.length ≤ options.maxSearchResults)) ∧
    ∀ (cache : ChunkDecodeCache) (chunkStart chunkEnd maxBytes maxChunks : Nat)
      (span : List ChunkEntry), maxBytes < 2 ^ 64 → maxChunks < 2 ^ 64 →
      getRange? entries chunkStart chunkEnd = some span →
      (cache.searchLimitForSpan entries chunkStart chunkEnd maxBytes maxChunks = .ok none ↔
        charged cache.chunkId span = [] ∨
        (cache.metrics.add (metricsOf (charged cache.chunkId span))).decodedBytes ≤ maxBytes ∧
          (cache.metrics.add (metricsOf (charged cache.chunkId span))).decodedChunks ≤
            maxChunks) ∧
      ∀ offset length result, touched entries offset length = span →
        readRangeFromEntriesCached entries originalSize offset length cache decodeEntry =
          .ok result →
        result.2.metrics = cache.metrics.add (metricsOf (charged cache.chunkId span)) := by
  have hlayout := validateChunkTableBlock_layout htable
  refine ⟨?_, ?_⟩
  · intro granuleAt spansFor tokenBoundaries options candidates final hgranules h
    have hfinal := VerificationPlan.ReadsTable.verifyLoop_economical
      ⟨hlayout, fun _ _ _ => rfl⟩ hgranules rfl (VerificationPlan.economical_start _) h
    obtain ⟨⟨hdecoded, hbytes, hchunks⟩, hhits, -⟩ := hfinal
    exact ⟨hdecoded, hbytes, hchunks, hhits⟩
  · intro cache chunkStart chunkEnd maxBytes maxChunks span hbytes hchunks hspan
    refine ⟨?_, ?_⟩
    · have hend := (getRange?_eq_some_iff.mp hspan).1
      have hcount : entries.length < 2 ^ 64 := by
        have := length_le_sum_chunkSizes fun entry hentry => hlayout.size_pos hentry
        have := hlayout.total
        have := hlayout.size_lt
        omega
      rw [ChunkDecodeCache.searchLimitForSpan, u64ToUsize_of_lt (by omega), ok_bind,
        u64ToUsize_of_lt (by omega), ok_bind, hspan, okOr_some, ok_bind]
      exact searchLimitLoop_eq_none_iff hbytes hchunks span _ _ _
    · intro offset length result htouched hread
      rw [← htouched]
      exact (readRangeFromEntriesCached_metrics hlayout hread).1

/-- A decoder that returns as many letters as a chunk has bytes. -/
def letterDecoder : DecodeEntry := fun entry => .ok (List.replicate entry.uncompressedSize 0x61)

/-- Granules from their identifier up to the fourth byte, over both chunks. -/
def granuleToFour (granuleId : Nat) : Result SearchGranule :=
  .ok { granuleId, logicalOffset := granuleId, byteLength := 4 - granuleId, chunkStart := 0,
        chunkEnd := 2, firstLine := none, lineCount := none }

/-- Limits that two passes over both chunks just meet. -/
def tightOptions : SearchOptions :=
  { maxDecodedBytes := 6, maxPhysicalDecodedBytes := 10, maxPhysicalDecodedChunks := 4 }

set_option maxRecDepth 100000 in
/-- Two granules that share their chunks, each pass decoding both. -/
theorem search_withinBudgets_twoChunks :
    ∃ final, VerificationPlan.verifyCandidates
      { entries := twoChunkTable, originalSize := 5, granuleAt := granuleToFour
        spansFor := fun _ _ _ _ => [], tokenBoundaries := false, options := tightOptions
        readRangeCached := fun offset length cache =>
          readRangeFromEntriesCached twoChunkTable 5 offset length cache letterDecoder }
      [0, 2] = .ok final ∧
    final.decodedBytes ≤ 6 ∧ final.cache.physicalDecodedBytes ≤ 10 ∧
      final.cache.decodedChunks ≤ 4 ∧ final.hits.length ≤ 10000 := by
  have htable : validateChunkTableBlock (twoChunkTable.flatMap ChunkEntry.encode) 2 5 1 =
      .ok twoChunkTable := by decide +kernel
  have hgranules : ∀ granuleId ∈ [0, 2], ∀ granule, granuleToFour granuleId = .ok granule →
      validateGranuleChunkSpan granule twoChunkTable 5 = .ok ⟨⟩ := by
    intro granuleId hmem granule hgranule
    cases hgranule
    rcases List.mem_cons.mp hmem with rfl | hmem
    · decide +kernel
    · rw [List.mem_singleton.mp hmem]
      decide +kernel
  have hrun : VerificationPlan.verifyCandidates
      { entries := twoChunkTable, originalSize := 5, granuleAt := granuleToFour
        spansFor := fun _ _ _ _ => [], tokenBoundaries := false, options := tightOptions
        readRangeCached := fun offset length cache =>
          readRangeFromEntriesCached twoChunkTable 5 offset length cache letterDecoder }
      [0, 2] = .ok ⟨[], none, 6, ⟨some 1, [0x61, 0x61], 10, 4, 16⟩⟩ := by decide +kernel
  obtain ⟨hbudgets, -⟩ := @search_withinBudgets _ _ _ _ _ letterDecoder htable
  obtain ⟨hdecoded, hbytes, hchunks, hhits⟩ := hbudgets _ _ _ _ _ _ hgranules hrun
  exact ⟨_, hrun, hdecoded, hbytes, hchunks, hhits (by decide)⟩

/-- The cache after the first chunk was read, evicted and read again. -/
def refilledCache : ChunkDecodeCache :=
  (readSequence twoChunkTable 5 letterDecoder [(0, 1), (3, 1), (0, 1)] .new).2

set_option maxRecDepth 100000 in
/-- A cached chunk is free also where the counters are past the limits already: the preflight has
no objection to a read that leaves them there. -/
theorem searchLimitForSpan_hit :
    refilledCache.searchLimitForSpan twoChunkTable 0 1 4 1 = .ok none ∧
    touched twoChunkTable 0 1 = twoChunkTable.take 1 ∧
    readRangeFromEntriesCached twoChunkTable 5 0 1 refilledCache letterDecoder =
      .ok ([0x61], refilledCache) ∧
    ¬ refilledCache.physicalDecodedBytes ≤ 4 ∧ ¬ refilledCache.decodedChunks ≤ 1 := by
  refine ⟨?_, ?_, ?_, ?_, ?_⟩ <;> decide +kernel

end Qzt
