import Qzt.Reader.RangeReads
import Qzt.Search.Query

/-!
# Verification keeps what the original confirms

One round of `verify_candidates` adds the spans that the matcher finds in the text of the
granule, or stops at a limit after some of them.  A whole run therefore reports nothing
that the text does not hold, and everything it holds in the candidates unless it stopped.
-/

namespace Qzt

open Foundation

/-- The hit of a span in a granule. -/
def hitOf (granule : SearchGranule) (span : TokenSpan) : SearchHit where
  logicalOffset := granule.logicalOffset + span.start
  byteLength := span.stop - span.start
  chunkStart := granule.chunkStart
  chunkEnd := granule.chunkEnd

namespace VerificationPlan

/-- The plan reads `text`, and its matcher cuts the spans `all` off at the limit. -/
structure Serves (plan : VerificationPlan) (text : List UInt8)
    (all : List UInt8 → Bool → Bool → List TokenSpan) : Prop where
  length : text.length = plan.originalSize
  reads : ∀ {offset length : Nat} {cache : ChunkDecodeCache}
    {result : List UInt8 × ChunkDecodeCache}, cache.Holds plan.entries text →
      plan.readRangeCached offset length cache = .ok result →
        offset + length ≤ plan.originalSize ∧ result.1 = slice text offset length ∧
          result.2.Holds plan.entries text
  spans : ∀ bytes limit left right, plan.spansFor bytes limit left right =
    (all bytes left right).take limit

variable (plan : VerificationPlan) (text : List UInt8)
  (all : List UInt8 → Bool → Bool → List TokenSpan)

/-- The text of a granule. -/
def granuleText (granule : SearchGranule) : List UInt8 :=
  slice text granule.logicalOffset granule.byteLength

/-- A token continues to the left of the granule. -/
def leftEdge (granule : SearchGranule) : Bool :=
  plan.tokenBoundaries && decide (0 < granule.logicalOffset) &&
    text[granule.logicalOffset - 1]?.any isTokenByte

/-- A token continues to the right of the granule. -/
def rightEdge (granule : SearchGranule) : Bool :=
  plan.tokenBoundaries && (granuleText text granule).getLast?.any isTokenByte &&
    text[granule.logicalOffset + granule.byteLength]?.any isTokenByte

/-- The hits that the text confirms in a granule. -/
def confirmed (granule : SearchGranule) : List SearchHit :=
  (all (granuleText text granule) (plan.leftEdge text granule)
    (plan.rightEdge text granule)).map (hitOf granule)

variable {plan text all}

/-! ## Hits of one granule -/

/-- The span loop adds a part of the hits from the front; all of them unless it stops. -/
theorem pushHits_adds {granule : SearchGranule} {spans : List TokenSpan}
    {state state' : CandidateVerification} (hrunning : state.stopReason = none)
    (h : plan.pushHits granule spans state = .ok state') :
    state'.cache = state.cache ∧ (∃ added, added <+: spans.map (hitOf granule) ∧
      state'.hits = state.hits ++ added) ∧
      (state'.stopReason = none → state'.hits = state.hits ++ spans.map (hitOf granule) ∧
        (state.hits.length < plan.options.maxSearchResults →
          state'.hits.length < plan.options.maxSearchResults)) := by
  induction spans generalizing state with
  | nil =>
    obtain rfl := Except.ok.inj h
    rw [List.map_nil, List.append_nil]
    refine ⟨rfl, ⟨[], List.prefix_refl _, (List.append_nil _).symm⟩, fun _ => ⟨rfl, id⟩⟩
  | cons span spans ih =>
    rw [pushHits] at h
    obtain ⟨spanOffset, hoffset, h⟩ := bind_eq_ok_iff.mp h
    obtain ⟨spanLen, hlen, h⟩ := bind_eq_ok_iff.mp h
    obtain ⟨logicalOffset, hlogical, h⟩ := bind_eq_ok_iff.mp h
    obtain ⟨count, hcount, h⟩ := bind_eq_ok_iff.mp h
    obtain ⟨-, rfl⟩ := usizeToU64_eq_ok_iff.mp hoffset
    obtain ⟨-, rfl⟩ := usizeToU64_eq_ok_iff.mp hlen
    rw [okOr_eq_ok_iff, checkedAdd_eq_some_iff] at hlogical
    obtain ⟨-, rfl⟩ := hlogical
    obtain ⟨-, rfl⟩ := usizeToU64_eq_ok_iff.mp hcount
    change (if (state.hits ++ [hitOf granule span]).length ≥ plan.options.maxSearchResults then _
      else _) = _ at h
    split at h
    case isTrue hfull =>
      obtain rfl := Except.ok.inj h
      refine ⟨rfl, ⟨[hitOf granule span], ?_, rfl⟩, fun hnone => by cases hnone⟩
      rw [List.map_cons]
      exact ⟨_, rfl⟩
    case isFalse hroom =>
      rw [ge_iff_le, Nat.not_le] at hroom
      have hnext := @ih { state with hits := state.hits ++ [hitOf granule span] } hrunning h
      obtain ⟨hcache, ⟨added, hadded, hhits⟩, hall⟩ := hnext
      refine ⟨hcache, ⟨hitOf granule span :: added, ?_, ?_⟩, fun hnone => ?_⟩
      · rw [List.map_cons, List.prefix_cons_inj]
        exact hadded
      · rw [hhits, List.append_assoc]
        rfl
      · obtain ⟨hsame, hless⟩ := hall hnone
        refine ⟨?_, fun _ => hless hroom⟩
        rw [hsame, List.append_assoc]
        rfl

/-- The probe of the byte behind the granule, when it does not stop the run. -/
theorem probeRight_spec (hserves : plan.Serves text all) {granuleEnd : Nat}
    {state : CandidateVerification} {result : Bool × CandidateVerification}
    (hcache : state.cache.Holds plan.entries text)
    (h : plan.probeRight granuleEnd state = .ok result) :
    result.2.hits = state.hits ∧ result.2.cache.Holds plan.entries text ∧
      (result.2.stopReason = none → result.1 = text[granuleEnd]?.any isTokenByte) := by
  unfold probeRight at h
  obtain ⟨nextDecoded, -, h⟩ := bind_eq_ok_iff.mp h
  split at h
  case isTrue =>
    obtain rfl := Except.ok.inj h
    exact ⟨rfl, hcache, fun hnone => by cases hnone⟩
  case isFalse =>
    obtain ⟨stop, -, h⟩ := bind_eq_ok_iff.mp h
    obtain ⟨span, -, h⟩ := bind_eq_ok_iff.mp h
    obtain ⟨limit, -, h⟩ := bind_eq_ok_iff.mp h
    split at h
    case h_1 reason =>
      obtain rfl := Except.ok.inj h
      exact ⟨rfl, hcache, fun hnone => by cases hnone⟩
    case h_2 =>
      obtain ⟨⟨byte, cache⟩, hread, h⟩ := bind_eq_ok_iff.mp h
      obtain rfl := Except.ok.inj h
      obtain ⟨-, hbyte, hholds⟩ := hserves.reads hcache hread
      refine ⟨rfl, hholds, fun _ => ?_⟩
      dsimp only at hbyte ⊢
      rw [hbyte, List.head?_eq_getElem?, getElem?_slice Nat.one_pos, Nat.add_zero]

/-- Whether a token continues to the right of the granule, when the run goes on. -/
theorem continuesRight_spec (hserves : plan.Serves text all) {granule : SearchGranule}
    {state : CandidateVerification} {result : Bool × CandidateVerification}
    (hcache : state.cache.Holds plan.entries text)
    (h : plan.continuesRight (granuleText text granule)
      (granule.logicalOffset + granule.byteLength) state = .ok result) :
    result.2.hits = state.hits ∧ result.2.cache.Holds plan.entries text ∧
      (result.2.stopReason = none → result.1 = plan.rightEdge text granule) := by
  unfold continuesRight at h
  split at h
  case isTrue hcondition =>
    obtain ⟨hhits, hholds, hright⟩ := probeRight_spec hserves hcache h
    refine ⟨hhits, hholds, fun hnone => ?_⟩
    rw [hright hnone, rightEdge, hcondition.1, hcondition.2.1]
    rfl
  case isFalse hcondition =>
    obtain rfl := Except.ok.inj h
    refine ⟨rfl, hcache, fun _ => ?_⟩
    -- Where no byte is probed, there is no token at the edge or no text behind it.
    rw [rightEdge]
    by_contra hne
    have htrue := (Bool.eq_false_or_eq_true _).resolve_right (Ne.symm hne)
    rw [Bool.and_eq_true, Bool.and_eq_true] at htrue
    refine hcondition ⟨htrue.1.1, htrue.1.2, ?_⟩
    by_contra hge
    rw [List.getElem?_eq_none (by rw [hserves.length]; omega)] at htrue
    exact Bool.false_ne_true htrue.2

/-- What a round does to the state: it keeps the cache, adds confirmed hits, and all of them
unless it stops. -/
structure Adds (plan : VerificationPlan) (text : List UInt8) (hits : List SearchHit)
    (state state' : CandidateVerification) : Prop where
  cache : state'.cache.Holds plan.entries text
  some : ∃ added, added <+: hits ∧ state'.hits = state.hits ++ added
  every : state'.stopReason = none → state'.hits = state.hits ++ hits ∧
    state'.hits.length < plan.options.maxSearchResults

/-- A round that stops before the matcher adds nothing. -/
theorem Adds.of_stop {hits : List SearchHit} {state state' : CandidateVerification}
    (hcache : state'.cache.Holds plan.entries text) (hhits : state'.hits = state.hits)
    (hstop : state'.stopReason ≠ none) : Adds plan text hits state state' where
  cache := hcache
  some := ⟨[], List.nil_prefix, by rw [hhits, List.append_nil]⟩
  every := fun hnone => absurd hnone hstop

/-- The text of a granule, cut out of a read that starts up to one byte before it. -/
theorem slice_readStart {granule : SearchGranule} (hsize : granule.logicalOffset +
      granule.byteLength ≤ text.length) {start : Nat} (hle : start ≤ granule.logicalOffset) :
    getRange? (slice text start (granule.logicalOffset + granule.byteLength - start))
      (granule.logicalOffset - start)
      (slice text start (granule.logicalOffset + granule.byteLength - start)).length =
        some (granuleText text granule) := by
  rw [length_slice_of_le (by omega), getRange?_eq_some_iff, length_slice_of_le (by omega)]
  refine ⟨⟨by omega, Nat.le_refl _⟩, ?_⟩
  rw [slice_slice (by omega), Nat.add_sub_of_le hle, granuleText]
  congr 1
  omega

theorem readStart_le (granule : SearchGranule) : plan.readStart granule ≤ granule.logicalOffset := by
  unfold readStart
  split
  · exact Nat.sub_le _ _
  · exact Nat.le_refl _

/-- The byte before the granule is part of the read only where boundaries matter. -/
theorem leftEdge_eq {granule : SearchGranule} {length : Nat}
    (hlength : granule.logicalOffset - plan.readStart granule ≤ length) :
    (decide (granule.logicalOffset - plan.readStart granule > 0) &&
      (slice text (plan.readStart granule) length)[granule.logicalOffset - plan.readStart granule -
        1]?.any isTokenByte) = plan.leftEdge text granule := by
  rw [readStart] at hlength
  rw [leftEdge, readStart]
  cases hboundaries : plan.tokenBoundaries with
  | false => simp
  | true =>
    rw [hboundaries, if_pos rfl] at hlength
    simp only [if_true, Bool.true_and]
    rcases Nat.eq_zero_or_pos granule.logicalOffset with hzero | hpos
    · simp [hzero]
    · have hone : granule.logicalOffset - (granule.logicalOffset - 1) = 1 := by omega
      rw [hone, getElem?_slice (by omega), Nat.add_zero]
      simp [hpos]

/-- The decoded granule is matched. -/
theorem matchGranule_adds (hserves : plan.Serves text all) {granule : SearchGranule}
    (hsize : granule.logicalOffset + granule.byteLength ≤ plan.originalSize)
    {state state' : CandidateVerification}
    (hroom : state.hits.length < plan.options.maxSearchResults)
    (hcache : state.cache.Holds plan.entries text)
    (h : plan.matchGranule granule (granule.logicalOffset + granule.byteLength)
      (plan.readStart granule) (slice text (plan.readStart granule)
        (granule.logicalOffset + granule.byteLength - plan.readStart granule)) state = .ok state') :
    Adds plan text (plan.confirmed text all granule) state state' := by
  rw [← hserves.length] at hsize
  unfold matchGranule at h
  obtain ⟨start, hword, h⟩ := bind_eq_ok_iff.mp h
  obtain ⟨original, horiginal, h⟩ := bind_eq_ok_iff.mp h
  obtain ⟨-, rfl⟩ := u64ToUsize_eq_ok_iff.mp hword
  rw [slice_readStart hsize (readStart_le granule), okOr_some, Except.ok.injEq] at horiginal
  obtain rfl := horiginal
  dsimp only at h
  obtain ⟨⟨rightContinues, probed⟩, hprobe, h⟩ := bind_eq_ok_iff.mp h
  obtain ⟨hhits, hholds, hright⟩ := continuesRight_spec hserves hcache hprobe
  dsimp only at hhits hholds hright h
  split at h
  case isTrue hstop =>
    obtain rfl := Except.ok.inj h
    exact .of_stop hholds hhits (Option.isSome_iff_ne_none.mp hstop)
  case isFalse hgoes =>
    obtain ⟨count, hcount, h⟩ := bind_eq_ok_iff.mp h
    obtain ⟨-, rfl⟩ := usizeToU64_eq_ok_iff.mp hcount
    have hnone : probed.stopReason = none := by
      rwa [Option.isSome_iff_ne_none, not_not] at hgoes
    rw [hserves.spans, hright hnone, leftEdge_eq (by omega)] at h
    obtain ⟨hcache', ⟨added, hadded, hsome⟩, hevery⟩ := pushHits_adds hnone h
    refine ⟨hcache' ▸ hholds, ⟨added, ?_, hhits ▸ hsome⟩, fun hdone => ?_⟩
    · refine hadded.trans ?_
      rw [confirmed]
      exact (List.take_prefix _ _).map _
    · obtain ⟨hall, hless⟩ := hevery hdone
      rw [hhits] at hall hless
      have hlt := hless hroom
      refine ⟨?_, hlt⟩
      -- Fewer spans than the limit came, so the limit cut nothing off.
      rw [hall, List.length_append, List.length_map, List.length_take] at hlt
      rw [hall, confirmed]
      congr 2
      refine List.take_of_length_le ?_
      by_contra hmore
      omega

/-- One round of `verify_candidates`. -/
theorem verifyCandidate_adds (hserves : plan.Serves text all) {granuleId : Nat}
    {state state' : CandidateVerification}
    (hroom : state.hits.length < plan.options.maxSearchResults)
    (hcache : state.cache.Holds plan.entries text)
    (h : plan.verifyCandidate granuleId state = .ok state') :
    ∃ granule, plan.granuleAt granuleId = .ok granule ∧
      Adds plan text (plan.confirmed text all granule) state state' ∧
      (state'.hits ≠ state.hits →
        granule.logicalOffset + granule.byteLength ≤ plan.originalSize) := by
  unfold verifyCandidate at h
  obtain ⟨granule, hgranule, h⟩ := bind_eq_ok_iff.mp h
  obtain ⟨granuleEnd, hend, h⟩ := bind_eq_ok_iff.mp h
  obtain ⟨readLength, hlength, h⟩ := bind_eq_ok_iff.mp h
  obtain ⟨nextDecoded, -, h⟩ := bind_eq_ok_iff.mp h
  rw [okOr_eq_ok_iff, checkedAdd_eq_some_iff] at hend
  rw [okOr_eq_ok_iff, checkedSub_eq_some_iff] at hlength
  obtain ⟨-, rfl⟩ := hend
  obtain ⟨hle, rfl⟩ := hlength
  refine ⟨granule, hgranule, ?_⟩
  split at h
  case isTrue =>
    obtain rfl := Except.ok.inj h
    exact ⟨.of_stop hcache rfl (Option.some_ne_none _), fun hne => absurd rfl hne⟩
  case isFalse =>
    obtain ⟨span, -, h⟩ := bind_eq_ok_iff.mp h
    obtain ⟨limit, -, h⟩ := bind_eq_ok_iff.mp h
    split at h
    case h_1 reason =>
      obtain rfl := Except.ok.inj h
      exact ⟨.of_stop hcache rfl (Option.some_ne_none _), fun hne => absurd rfl hne⟩
    case h_2 =>
      obtain ⟨⟨decoded, cache⟩, hread, h⟩ := bind_eq_ok_iff.mp h
      obtain ⟨hsize, hdecoded, hholds⟩ := hserves.reads hcache hread
      dsimp only at hdecoded hholds
      rw [Nat.add_sub_of_le hle] at hsize
      rw [hdecoded] at h
      have hadds : Adds plan text (plan.confirmed text all granule)
          { state with decodedBytes := nextDecoded, cache } state' :=
        matchGranule_adds hserves hsize hroom hholds h
      exact ⟨⟨hadds.cache, hadds.some, hadds.every⟩, fun _ => hsize⟩

/-- Every hit of a run is confirmed in a candidate that lies inside the text. -/
theorem verifyLoop_sound (hserves : plan.Serves text all) {candidates : List Nat}
    {state final : CandidateVerification} (hrunning : state.stopReason = none)
    (hroom : state.hits.length < plan.options.maxSearchResults)
    (hcache : state.cache.Holds plan.entries text)
    (h : plan.verifyLoop candidates state = .ok final) :
    ∀ hit ∈ final.hits, hit ∈ state.hits ∨ ∃ granuleId ∈ candidates, ∃ granule,
      plan.granuleAt granuleId = .ok granule ∧
      granule.logicalOffset + granule.byteLength ≤ plan.originalSize ∧
      hit ∈ plan.confirmed text all granule := by
  induction candidates generalizing state with
  | nil =>
    obtain rfl := Except.ok.inj h
    exact fun hit hhit => .inl hhit
  | cons granuleId candidates ih =>
    rw [verifyLoop] at h
    obtain ⟨next, hnext, h⟩ := bind_eq_ok_iff.mp h
    obtain ⟨granule, hgranule, hadds, hinside⟩ :=
      verifyCandidate_adds hserves hroom hcache hnext
    -- What this round added is confirmed in its granule.
    have hround : ∀ hit ∈ next.hits, hit ∈ state.hits ∨ ∃ granuleId' ∈ granuleId :: candidates,
        ∃ granule, plan.granuleAt granuleId' = .ok granule ∧
          granule.logicalOffset + granule.byteLength ≤ plan.originalSize ∧
          hit ∈ plan.confirmed text all granule := by
      intro hit hhit
      obtain ⟨added, hadded, hhits⟩ := hadds.some
      rw [hhits, List.mem_append] at hhit
      refine hhit.imp_right fun hnew => ?_
      refine ⟨granuleId, List.mem_cons_self, granule, hgranule, ?_, hadded.subset hnew⟩
      refine hinside fun hsame => ?_
      rw [hhits, List.append_right_eq_self] at hsame
      rw [hsame] at hnew
      exact List.not_mem_nil hnew
    split at h
    case isTrue =>
      obtain rfl := Except.ok.inj h
      exact hround
    case isFalse hgoes =>
      rw [Option.isSome_iff_ne_none, not_not] at hgoes
      intro hit hhit
      rcases ih hgoes (hadds.every hgoes).2 hadds.cache h hit hhit with hold | hlater
      · exact hround hit hold
      · obtain ⟨granuleId', hmem, hrest⟩ := hlater
        exact .inr ⟨granuleId', List.mem_cons_of_mem _ hmem, hrest⟩

/-- A run that does not stop reports what the text confirms in the candidates, in their order. -/
theorem verifyLoop_exact (hserves : plan.Serves text all) {candidates : List Nat}
    {state final : CandidateVerification} (hrunning : state.stopReason = none)
    (hroom : state.hits.length < plan.options.maxSearchResults)
    (hcache : state.cache.Holds plan.entries text)
    (h : plan.verifyLoop candidates state = .ok final) (hdone : final.stopReason = none) :
    ∃ granules, List.Forall₂ (fun granuleId granule => plan.granuleAt granuleId = .ok granule)
        candidates granules ∧
      final.hits = state.hits ++ granules.flatMap (plan.confirmed text all) := by
  induction candidates generalizing state with
  | nil =>
    obtain rfl := Except.ok.inj h
    exact ⟨[], List.Forall₂.nil, by rw [List.flatMap_nil, List.append_nil]⟩
  | cons granuleId candidates ih =>
    rw [verifyLoop] at h
    obtain ⟨next, hnext, h⟩ := bind_eq_ok_iff.mp h
    obtain ⟨granule, hgranule, hadds, -⟩ :=
      verifyCandidate_adds hserves hroom hcache hnext
    split at h
    case isTrue hstop =>
      obtain rfl := Except.ok.inj h
      rw [hdone] at hstop
      cases hstop
    case isFalse hgoes =>
      rw [Option.isSome_iff_ne_none, not_not] at hgoes
      obtain ⟨hhits, hroom'⟩ := hadds.every hgoes
      obtain ⟨granules, hgranules, hfinal⟩ := ih hgoes hroom' hadds.cache h
      refine ⟨granule :: granules, .cons hgranule hgranules, ?_⟩
      rw [hfinal, hhits, List.flatMap_cons, List.append_assoc]

end VerificationPlan

end Qzt
