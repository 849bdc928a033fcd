import Qzt.Search.Budgets
import Qzt.Search.Matchers
import Qzt.Search.Verification

/-!
# Caps only truncate

A search under tighter options finds the first of the hits of a search under looser ones.
Before the verification the options only refuse; in the verification the two runs go
through the same states until the tighter one stops.
-/

namespace Qzt

open Foundation

/-- Every option of `small` is at most the one of `large`. -/
structure SearchOptions.AtMost (small large : SearchOptions) : Prop where
  maxQueryBytes : small.maxQueryBytes ≤ large.maxQueryBytes
  maxQueryTerms : small.maxQueryTerms ≤ large.maxQueryTerms
  maxPostingBytesPerQuery : small.maxPostingBytesPerQuery ≤ large.maxPostingBytesPerQuery
  maxPostingIdsPerQuery : small.maxPostingIdsPerQuery ≤ large.maxPostingIdsPerQuery
  maxPostingWork : small.maxPostingWork ≤ large.maxPostingWork
  maxCandidateGranules : small.maxCandidateGranules ≤ large.maxCandidateGranules
  maxDecodedBytes : small.maxDecodedBytes ≤ large.maxDecodedBytes
  maxPhysicalDecodedBytes : small.maxPhysicalDecodedBytes ≤ large.maxPhysicalDecodedBytes
  maxPhysicalDecodedChunks : small.maxPhysicalDecodedChunks ≤ large.maxPhysicalDecodedChunks
  maxSearchResults : small.maxSearchResults ≤ large.maxSearchResults

/-! ## Before the verification -/

section Refusals

variable {small large : SearchOptions}

theorem admits_validateQueryBytes (h : small.AtMost large) (query : String) :
    Admits (validateQueryBytes query small) (validateQueryBytes query large) := by
  refine admits_bind_right fun size _ => admits_rejectIf ?_
  have := h.maxQueryBytes
  omega

theorem admits_insertQueryKeys {limit limit' : Nat} (h : limit ≤ limit')
    (rest keys : List (List UInt8)) :
    Admits (insertQueryKeys limit rest keys) (insertQueryKeys limit' rest keys) := by
  induction rest generalizing keys with
  | nil => exact admits_refl _
  | cons key rest ih =>
    rw [insertQueryKeys, insertQueryKeys]
    split
    · refine admits_bind_right fun count _ => admits_bind ?_ fun _ _ => ih _
      exact admits_rejectIf (by omega)
    · exact ih keys

theorem admits_uniqueQueryKeys (h : small.AtMost large) (query : String) :
    Admits (uniqueQueryKeys query small) (uniqueQueryKeys query large) :=
  admits_bind (admits_validateQueryBytes h query) fun _ _ =>
    admits_insertQueryKeys h.maxQueryTerms _ _

theorem admits_ngramKeysForQuery (h : small.AtMost large) (query : String) (n : Nat) :
    Admits (ngramKeysForQuery query n small) (ngramKeysForQuery query n large) := by
  refine admits_bind (admits_validateQueryBytes h query) fun _ _ => ?_
  refine admits_bind_right fun _ _ => ?_
  split
  · exact admits_refl _
  · exact admits_insertQueryKeys h.maxQueryTerms _ _

theorem admits_chargePostingWork {limit limit' : Nat} (h : limit ≤ limit') (work : Nat) :
    Admits (chargePostingWork work limit) (chargePostingWork work limit') :=
  admits_bind_right fun _ _ => admits_bind (admits_rejectIf (by omega)) fun _ _ => admits_refl _

theorem admits_intersectRounds {limit limit' : Nat} (h : limit ≤ limit') (fuel : Nat)
    (left right : List Nat) (work : Nat) :
    Admits (intersectRounds limit fuel left right work)
      (intersectRounds limit' fuel left right work) := by
  induction fuel generalizing left right work with
  | zero => exact admits_refl _
  | succ fuel ih =>
    cases left with
    | nil => exact admits_refl _
    | cons l ls =>
      cases right with
      | nil => exact admits_refl _
      | cons r rs =>
        rw [intersectRounds, intersectRounds]
        refine admits_bind (admits_chargePostingWork h work) fun work _ => ?_
        split
        · exact ih _ _ _
        · split
          · exact ih _ _ _
          · refine admits_bind (admits_chargePostingWork h work) fun work _ => ?_
            exact admits_bind (ih _ _ _) fun _ _ => admits_refl _

theorem admits_intersectLoop {limit limit' : Nat} (h : limit ≤ limit') (lists : List (List Nat))
    (current : List Nat) (work : Nat) :
    Admits (intersectLoop limit lists current work) (intersectLoop limit' lists current work) := by
  induction lists generalizing current work with
  | nil => exact admits_refl _
  | cons list lists ih =>
    refine admits_bind (admits_intersectRounds h _ _ _ _) fun result _ => ?_
    obtain ⟨current, work⟩ := result
    dsimp only
    split
    · exact admits_refl _
    · exact ih current work

theorem admits_intersectPostings {limit limit' : Nat} (h : limit ≤ limit')
    (lists : List (List Nat)) :
    Admits (intersectPostings lists limit) (intersectPostings lists limit') := by
  cases lists with
  | nil => exact admits_refl _
  | cons first rest =>
    refine admits_bind_right fun work _ => admits_bind (admits_rejectIf (by omega)) fun _ _ => ?_
    exact admits_intersectLoop h rest first work

end Refusals

/-! ## Two runs of the verification -/

theorem searchLimitLoop_mono {maxBytes maxChunks maxBytes' maxChunks' : Nat}
    (hbytes : maxBytes ≤ maxBytes') (hchunks : maxChunks ≤ maxChunks') {span : List ChunkEntry}
    {cached : Option Nat} {bytes chunks : Nat}
    (h : ChunkDecodeCache.searchLimitLoop maxBytes maxChunks span cached bytes chunks = .ok none) :
    ChunkDecodeCache.searchLimitLoop maxBytes' maxChunks' span cached bytes chunks = .ok none := by
  induction span generalizing cached bytes chunks with
  | nil => rfl
  | cons entry span ih =>
    rw [ChunkDecodeCache.searchLimitLoop] at h ⊢
    split at h
    · rename_i hmiss
      rw [if_pos hmiss]
      obtain ⟨bytes, hadd, h⟩ := bind_eq_ok_iff.mp h
      rw [hadd, ok_bind]
      split at h
      · cases h
      · rw [if_neg (by omega)]
        obtain ⟨chunks, hadd, h⟩ := bind_eq_ok_iff.mp h
        rw [hadd, ok_bind]
        split at h
        · cases h
        · rw [if_neg (by omega)]
          exact ih h
    · rename_i hhit
      rw [if_neg hhit]
      exact ih h

namespace VerificationPlan

variable {plan : VerificationPlan} {large : SearchOptions}

/-- The plan under other options. -/
def withOptions (plan : VerificationPlan) (options : SearchOptions) : VerificationPlan :=
  { plan with options }

@[simp] theorem withOptions_options (plan : VerificationPlan) (options : SearchOptions) :
    (plan.withOptions options).options = options := rfl

theorem spanLimit_withOptions (h : plan.options.AtMost large) {cache : ChunkDecodeCache}
    {span : Nat × Nat} (hlimit : plan.spanLimit cache span = .ok none) :
    (plan.withOptions large).spanLimit cache span = .ok none := by
  simp only [spanLimit, ChunkDecodeCache.searchLimitForSpan, bind_eq_ok_iff] at hlimit ⊢
  obtain ⟨start, hstart, stop, hstop, entries, hentries, hloop⟩ := hlimit
  exact ⟨start, hstart, stop, hstop, entries, hentries,
    searchLimitLoop_mono h.maxPhysicalDecodedBytes h.maxPhysicalDecodedChunks hloop⟩

/-! ### The probe -/

/-- A probe adds no hits. -/
theorem probeRight_hits {granuleEnd : Nat} {state : CandidateVerification}
    {result : Bool × CandidateVerification} (h : plan.probeRight granuleEnd state = .ok result) :
    result.2.hits = state.hits := by
  unfold probeRight at h
  obtain ⟨nextDecoded, -, h⟩ := bind_eq_ok_iff.mp h
  split at h
  · cases h
    rfl
  · obtain ⟨stop, -, h⟩ := bind_eq_ok_iff.mp h
    obtain ⟨span, -, h⟩ := bind_eq_ok_iff.mp h
    obtain ⟨limit, -, h⟩ := bind_eq_ok_iff.mp h
    split at h
    · cases h
      rfl
    · obtain ⟨⟨byte, cache⟩, -, h⟩ := bind_eq_ok_iff.mp h
      cases h
      rfl

theorem continuesRight_hits {original : List UInt8} {granuleEnd : Nat}
    {state : CandidateVerification} {result : Bool × CandidateVerification}
    (h : plan.continuesRight original granuleEnd state = .ok result) :
    result.2.hits = state.hits := by
  unfold continuesRight at h
  split at h
  · exact probeRight_hits h
  · cases h
    rfl

/-- A probe that does not stop is the same under looser options. -/
theorem probeRight_withOptions (h : plan.options.AtMost large) {granuleEnd : Nat}
    {state : CandidateVerification} {result : Bool × CandidateVerification}
    (hprobe : plan.probeRight granuleEnd state = .ok result) (hgoes : result.2.stopReason = none) :
    (plan.withOptions large).probeRight granuleEnd state = .ok result := by
  unfold probeRight at hprobe ⊢
  obtain ⟨nextDecoded, hnext, hprobe⟩ := bind_eq_ok_iff.mp hprobe
  rw [hnext, ok_bind]
  have hdecoded := h.maxDecodedBytes
  split at hprobe
  · cases hprobe
    cases hgoes
  · rw [withOptions_options, if_neg (show ¬ nextDecoded > large.maxDecodedBytes by omega)]
    obtain ⟨stop, hstop, hprobe⟩ := bind_eq_ok_iff.mp hprobe
    obtain ⟨span, hspan, hprobe⟩ := bind_eq_ok_iff.mp hprobe
    obtain ⟨limit, hlimit, hprobe⟩ := bind_eq_ok_iff.mp hprobe
    rw [hstop, ok_bind]
    refine bind_eq_ok_iff.mpr ⟨span, hspan, ?_⟩
    split at hprobe
    · cases hprobe
      cases hgoes
    · rw [spanLimit_withOptions h hlimit, ok_bind]
      exact hprobe

theorem continuesRight_withOptions (h : plan.options.AtMost large) {original : List UInt8}
    {granuleEnd : Nat} {state : CandidateVerification} {result : Bool × CandidateVerification}
    (hprobe : plan.continuesRight original granuleEnd state = .ok result)
    (hgoes : result.2.stopReason = none) :
    (plan.withOptions large).continuesRight original granuleEnd state = .ok result := by
  unfold continuesRight at hprobe
  split at hprobe
  · rename_i hcondition
    exact (if_pos hcondition).trans (probeRight_withOptions h hprobe hgoes)
  · rename_i hcondition
    exact (if_neg hcondition).trans hprobe

/-! ### The hits of a granule -/

/-- The span loop extends the hits. -/
theorem pushHits_extends {granule : SearchGranule} {spans : List TokenSpan}
    {state state' : CandidateVerification} (h : plan.pushHits granule spans state = .ok state') :
    state.hits <+: state'.hits := by
  induction spans generalizing state with
  | nil =>
    cases h
    exact List.prefix_refl _
  | cons span spans ih =>
    simp only [pushHits, bind_eq_ok_iff] at h
    obtain ⟨_, -, _, -, _, -, _, -, h⟩ := h
    split at h
    · cases h
      exact List.prefix_append _ _
    · exact (List.prefix_append _ _).trans (ih h)

/-- Under a tighter limit and over the first of the spans, the span loop finds the first of the
hits. -/
theorem pushHits_truncates (h : plan.options.AtMost large) {granule : SearchGranule}
    {spans more : List TokenSpan} (hspans : spans <+: more)
    {state state' other : CandidateVerification}
    (htight : plan.pushHits granule spans state = .ok state')
    (hloose : (plan.withOptions large).pushHits granule more state = .ok other) :
    state'.hits <+: other.hits := by
  induction spans generalizing state more with
  | nil =>
    cases htight
    exact pushHits_extends hloose
  | cons span spans ih =>
    obtain ⟨rest, rfl⟩ := hspans
    rw [List.cons_append] at hloose
    simp only [pushHits, bind_eq_ok_iff] at htight hloose
    obtain ⟨offset, hoffset, len, hlen, logical, hlogical, count, hcount, htight⟩ := htight
    obtain ⟨offset', hoffset', len', hlen', logical', hlogical', count', hcount', hloose⟩ := hloose
    obtain rfl : offset = offset' := Except.ok.inj (hoffset.symm.trans hoffset')
    obtain rfl : len = len' := Except.ok.inj (hlen.symm.trans hlen')
    obtain rfl : logical = logical' := Except.ok.inj (hlogical.symm.trans hlogical')
    obtain rfl : count = count' := Except.ok.inj (hcount.symm.trans hcount')
    have hresults := h.maxSearchResults
    split at htight
    · -- The tighter run stops here; the other has the same hits so far.
      cases htight
      split at hloose
      · cases hloose
        exact List.prefix_refl _
      · have hextends := pushHits_extends hloose
        exact hextends
    · rw [withOptions_options, if_neg (show ¬ count ≥ large.maxSearchResults by omega)] at hloose
      exact ih (List.prefix_append _ _) htight hloose

/-- A span loop that does not stop is the same under looser options. -/
theorem pushHits_withOptions (h : plan.options.AtMost large) {granule : SearchGranule}
    {spans : List TokenSpan} {state state' : CandidateVerification}
    (hpush : plan.pushHits granule spans state = .ok state') (hgoes : state'.stopReason = none) :
    (plan.withOptions large).pushHits granule spans state = .ok state' := by
  induction spans generalizing state with
  | nil => exact hpush
  | cons span spans ih =>
    simp only [pushHits, bind_eq_ok_iff] at hpush ⊢
    obtain ⟨offset, hoffset, len, hlen, logical, hlogical, count, hcount, hpush⟩ := hpush
    refine ⟨offset, hoffset, len, hlen, logical, hlogical, count, hcount, ?_⟩
    have hresults := h.maxSearchResults
    split at hpush
    · cases hpush
      cases hgoes
    · rw [withOptions_options, if_neg (show ¬ count ≥ large.maxSearchResults by omega)]
      exact ih hpush

/-! ### A granule -/

theorem matchGranule_extends {granule : SearchGranule} {granuleEnd start : Nat}
    {decoded : List UInt8} {state state' : CandidateVerification}
    (h : plan.matchGranule granule granuleEnd start decoded state = .ok state') :
    state.hits <+: state'.hits := by
  unfold matchGranule at h
  obtain ⟨localStart, -, h⟩ := bind_eq_ok_iff.mp h
  obtain ⟨original, -, h⟩ := bind_eq_ok_iff.mp h
  dsimp only at h
  obtain ⟨⟨rightContinues, probed⟩, hprobe, h⟩ := bind_eq_ok_iff.mp h
  have hhits : probed.hits = state.hits := continuesRight_hits hprobe
  rw [← hhits]
  split at h
  · cases h
    exact List.prefix_refl _
  · obtain ⟨count, -, h⟩ := bind_eq_ok_iff.mp h
    exact pushHits_extends h

/-- A plan whose matcher takes the first of a fixed list of spans. -/
def TakesFirst (plan : VerificationPlan) : Prop :=
  ∃ all : List UInt8 → Bool → Bool → List TokenSpan, ∀ bytes limit left right,
    plan.spansFor bytes limit left right = (all bytes left right).take limit

/-- The two runs in one granule: the hits of the tighter are the first of those of the other, and
where the tighter does not stop they end in the same state. -/
theorem matchGranule_withOptions (h : plan.options.AtMost large) (hspans : plan.TakesFirst)
    {granule : SearchGranule} {granuleEnd start : Nat} {decoded : List UInt8}
    {state state' other : CandidateVerification}
    (hroom : state.hits.length < plan.options.maxSearchResults)
    (htight : plan.matchGranule granule granuleEnd start decoded state = .ok state')
    (hloose : (plan.withOptions large).matchGranule granule granuleEnd start decoded state =
      .ok other) :
    state'.hits <+: other.hits ∧ (state'.stopReason = none → other = state' ∧
      state'.hits.length < plan.options.maxSearchResults) := by
  obtain ⟨all, hspans⟩ := hspans
  have hextends := matchGranule_extends hloose
  unfold matchGranule at htight hloose
  obtain ⟨localStart, hstart, htight⟩ := bind_eq_ok_iff.mp htight
  obtain ⟨original, horiginal, htight⟩ := bind_eq_ok_iff.mp htight
  rw [hstart, ok_bind, horiginal, ok_bind] at hloose
  dsimp only at htight hloose
  obtain ⟨⟨rightContinues, probed⟩, hprobe, htight⟩ := bind_eq_ok_iff.mp htight
  have hhits : probed.hits = state.hits := continuesRight_hits hprobe
  split at htight
  · -- The probe stops the tighter run, before any hit.
    rename_i hstopped
    cases htight
    refine ⟨by rw [hhits]; exact hextends, fun hnone => ?_⟩
    rw [hnone] at hstopped
    cases hstopped
  · rename_i hgoes
    have hnone : probed.stopReason = none := by
      rwa [Option.isSome_iff_ne_none, not_not] at hgoes
    rw [continuesRight_withOptions h hprobe hnone, ok_bind] at hloose
    dsimp only at hloose
    rw [if_neg hgoes] at hloose
    obtain ⟨count, hcount, htight⟩ := bind_eq_ok_iff.mp htight
    rw [hcount, ok_bind] at hloose
    obtain ⟨-, rfl⟩ := usizeToU64_eq_ok_iff.mp hcount
    have hresults := h.maxSearchResults
    dsimp only at htight
    change (plan.withOptions large).pushHits granule (plan.spansFor original
      (large.maxSearchResults - probed.hits.length) _ rightContinues) probed = _ at hloose
    rw [hspans] at htight hloose
    refine ⟨pushHits_truncates h ?_ htight hloose, fun hdone => ?_⟩
    · exact List.take_prefix_take_left (by omega)
    · obtain ⟨-, -, hevery⟩ := pushHits_adds hnone htight
      obtain ⟨hall, hless⟩ := hevery hdone
      have hlt := hless (by rwa [hhits])
      refine ⟨?_, hlt⟩
      -- Fewer spans than the tighter limit came, so neither limit cut any off.
      rw [hall, List.length_append, List.length_map, List.length_take] at hlt
      rw [List.take_of_length_le (by omega)] at htight
      rw [List.take_of_length_le (by omega)] at hloose
      have hsame := pushHits_withOptions h htight hdone
      exact Except.ok.inj (hloose.symm.trans hsame)

/-! ### A candidate and all of them -/

theorem verifyCandidate_extends {granuleId : Nat} {state state' : CandidateVerification}
    (h : plan.verifyCandidate granuleId state = .ok state') : state.hits <+: state'.hits := by
  unfold verifyCandidate at h
  obtain ⟨granule, -, h⟩ := bind_eq_ok_iff.mp h
  obtain ⟨granuleEnd, -, h⟩ := bind_eq_ok_iff.mp h
  obtain ⟨readLength, -, h⟩ := bind_eq_ok_iff.mp h
  obtain ⟨nextDecoded, -, h⟩ := bind_eq_ok_iff.mp h
  split at h
  · cases h
    exact List.prefix_refl _
  · obtain ⟨span, -, h⟩ := bind_eq_ok_iff.mp h
    obtain ⟨limit, -, h⟩ := bind_eq_ok_iff.mp h
    split at h
    · cases h
      exact List.prefix_refl _
    · obtain ⟨⟨decoded, cache⟩, -, h⟩ := bind_eq_ok_iff.mp h
      have hextends := matchGranule_extends h
      exact hextends

theorem verifyLoop_extends {candidates : List Nat} {state final : CandidateVerification}
    (h : plan.verifyLoop candidates state = .ok final) : state.hits <+: final.hits := by
  induction candidates generalizing state with
  | nil =>
    cases h
    exact List.prefix_refl _
  | cons granuleId candidates ih =>
    obtain ⟨next, hnext, h⟩ := bind_eq_ok_iff.mp h
    have hround := verifyCandidate_extends hnext
    split at h
    · cases h
      exact hround
    · exact hround.trans (ih h)

/-- The two runs in one round. -/
theorem verifyCandidate_withOptions (h : plan.options.AtMost large) (hspans : plan.TakesFirst)
    {granuleId : Nat} {state state' other : CandidateVerification}
    (hroom : state.hits.length < plan.options.maxSearchResults)
    (htight : plan.verifyCandidate granuleId state = .ok state')
    (hloose : (plan.withOptions large).verifyCandidate granuleId state = .ok other) :
    state'.hits <+: other.hits ∧ (state'.stopReason = none → other = state' ∧
      state'.hits.length < plan.options.maxSearchResults) := by
  have hextends := verifyCandidate_extends hloose
  -- A round that stops before its read leaves the hits alone.
  have hstopped : ∀ reason, { state with stopReason := some reason } = state' →
      state'.hits <+: other.hits ∧ (state'.stopReason = none → other = state' ∧
        state'.hits.length < plan.options.maxSearchResults) := by
    intro reason hstate
    subst hstate
    exact ⟨hextends, fun hnone => by cases hnone⟩
  unfold verifyCandidate at htight hloose
  obtain ⟨granule, hgranule, htight⟩ := bind_eq_ok_iff.mp htight
  obtain ⟨granuleEnd, hend, htight⟩ := bind_eq_ok_iff.mp htight
  obtain ⟨readLength, hlength, htight⟩ := bind_eq_ok_iff.mp htight
  obtain ⟨nextDecoded, hnext, htight⟩ := bind_eq_ok_iff.mp htight
  obtain ⟨granule', hgranule', hloose⟩ := bind_eq_ok_iff.mp hloose
  obtain rfl : granule = granule' := Except.ok.inj (hgranule.symm.trans hgranule')
  obtain ⟨granuleEnd', hend', hloose⟩ := bind_eq_ok_iff.mp hloose
  obtain rfl : granuleEnd = granuleEnd' := Except.ok.inj (hend.symm.trans hend')
  obtain ⟨readLength', hlength', hloose⟩ := bind_eq_ok_iff.mp hloose
  obtain rfl : readLength = readLength' := Except.ok.inj (hlength.symm.trans hlength')
  obtain ⟨nextDecoded', hnext', hloose⟩ := bind_eq_ok_iff.mp hloose
  obtain rfl : nextDecoded = nextDecoded' := Except.ok.inj (hnext.symm.trans hnext')
  have hdecoded := h.maxDecodedBytes
  split at htight
  · exact hstopped _ (Except.ok.inj htight)
  · rw [withOptions_options, if_neg (show ¬ nextDecoded > large.maxDecodedBytes by omega)] at hloose
    obtain ⟨span, hspan, htight⟩ := bind_eq_ok_iff.mp htight
    obtain ⟨span', hspan', hloose⟩ := bind_eq_ok_iff.mp hloose
    obtain rfl : span = span' := Except.ok.inj (hspan.symm.trans hspan')
    obtain ⟨limit, hlimit, htight⟩ := bind_eq_ok_iff.mp htight
    split at htight
    · exact hstopped _ (Except.ok.inj htight)
    · rw [spanLimit_withOptions h hlimit, ok_bind] at hloose
      obtain ⟨read, hread, htight⟩ := bind_eq_ok_iff.mp htight
      obtain ⟨read', hread', hloose⟩ := bind_eq_ok_iff.mp hloose
      obtain rfl : read = read' := Except.ok.inj (hread.symm.trans hread')
      have hstate : ({ state with decodedBytes := nextDecoded, cache := read.2 } :
          CandidateVerification).hits.length < plan.options.maxSearchResults := hroom
      exact matchGranule_withOptions h hspans hstate htight hloose

/-- The two runs over the candidates. -/
theorem verifyLoop_withOptions (h : plan.options.AtMost large) (hspans : plan.TakesFirst)
    {candidates : List Nat} {state final other : CandidateVerification}
    (hroom : state.hits.length < plan.options.maxSearchResults)
    (htight : plan.verifyLoop candidates state = .ok final)
    (hloose : (plan.withOptions large).verifyLoop candidates state = .ok other) :
    final.hits <+: other.hits ∧ (final.stopReason = none → other = final) := by
  induction candidates generalizing state with
  | nil =>
    cases htight
    cases hloose
    exact ⟨List.prefix_refl _, fun _ => rfl⟩
  | cons granuleId candidates ih =>
    obtain ⟨next, hnext, htight⟩ := bind_eq_ok_iff.mp htight
    obtain ⟨next', hnext', hloose⟩ := bind_eq_ok_iff.mp hloose
    obtain ⟨hfirst, hsame⟩ := verifyCandidate_withOptions h hspans hroom hnext hnext'
    split at htight
    · -- The tighter run is over, and the other only adds hits.
      rename_i hstopped
      cases htight
      refine ⟨?_, fun hnone => by rw [hnone] at hstopped; cases hstopped⟩
      split at hloose
      · cases hloose
        exact hfirst
      · exact hfirst.trans (verifyLoop_extends hloose)
    · rename_i hgoes
      have hnone : next.stopReason = none := by
        rwa [Option.isSome_iff_ne_none, not_not] at hgoes
      obtain ⟨rfl, hroom'⟩ := hsame hnone
      rw [if_neg hgoes] at hloose
      exact ih hroom' htight hloose

end VerificationPlan

/-! ## Whole searches -/

/-- What tighter options leave of a report. -/
structure SearchReport.Truncates (small large : SearchReport) : Prop where
  hits : small.hits <+: large.hits
  uncapped : small.capped = false → small.hits = large.hits ∧ small.stopReason = none ∧
    large.stopReason = none ∧ small.incompleteReason = large.incompleteReason

/-- The verification of the candidates and its report. -/
theorem verifiedReport_truncates {plan : VerificationPlan} {large : SearchOptions}
    (h : plan.options.AtMost large) (hspans : plan.TakesFirst)
    (hresults : plan.options.maxSearchResults ≠ 0) {candidates : List Nat}
    {metrics : SearchMetrics} {planner : PlannerDecision} {complete : Bool}
    {tight loose : SearchReport}
    (htight : (do
      let verification ← plan.verifyCandidates candidates
      verifiedReport verification metrics planner complete) = .ok tight)
    (hloose : (do
      let verification ← (plan.withOptions large).verifyCandidates candidates
      verifiedReport verification metrics planner complete) = .ok loose) :
    tight.Truncates loose := by
  obtain ⟨final, hfinal, htight⟩ := bind_eq_ok_iff.mp htight
  obtain ⟨other, hother, hloose⟩ := bind_eq_ok_iff.mp hloose
  have hroom : ({} : CandidateVerification).hits.length < plan.options.maxSearchResults :=
    Nat.pos_of_ne_zero hresults
  obtain ⟨hfirst, hsame⟩ := VerificationPlan.verifyLoop_withOptions h hspans hroom hfinal hother
  obtain ⟨_, -, htight⟩ := bind_eq_ok_iff.mp htight
  obtain ⟨_, -, hloose⟩ := bind_eq_ok_iff.mp hloose
  cases htight
  cases hloose
  refine ⟨hfirst, fun huncapped => ?_⟩
  have hnone : final.stopReason = none :=
    Option.isNone_iff_eq_none.mp (Option.isSome_eq_false_iff.mp huncapped)
  obtain rfl := hsame hnone
  exact ⟨rfl, hnone, hnone, rfl⟩

/-- Reports without hits that do not depend on the options. -/
theorem SearchReport.truncates_of_eq {tight loose report : SearchReport}
    (hstop : report.stopReason = none) (htight : Except.ok report = (.ok tight : Result _))
    (hloose : Except.ok report = (.ok loose : Result _)) : tight.Truncates loose := by
  cases htight
  cases hloose
  exact ⟨List.prefix_refl _, fun _ => ⟨rfl, hstop, hstop, rfl⟩⟩

/-- A report that a limit ends before the verification. -/
theorem earlyExitReport_truncates {metrics : SearchMetrics} {planner : PlannerDecision}
    {reason : String} {incompleteReason : Option String} {complete : Bool}
    {tight loose : SearchReport}
    (htight : Except.ok (earlyExitReport metrics planner (some reason) incompleteReason complete) =
      (.ok tight : Result _)) : tight.Truncates loose := by
  cases htight
  exact ⟨List.nil_prefix, fun huncapped => by cases huncapped⟩

section Indexes

variable {small large : SearchOptions} {details : SkeletonDetails} {readRangeCached : RangeRead}
  {tight loose : SearchReport}

/-- The end of a search, from the intersection on. -/
theorem searchCandidates_truncates (h : small.AtMost large) {granules : List SearchGranule}
    {complete : Bool} {lists : List (List Nat)} {spansFor : SpanMatcher} {tokenBoundaries : Bool}
    (hspans : ∃ all : List UInt8 → Bool → Bool → List TokenSpan, ∀ bytes limit left right,
      spansFor bytes limit left right = (all bytes left right).take limit)
    {metrics : SearchMetrics} {planner : PlannerDecision}
    (htight : searchCandidates granules complete details lists spansFor tokenBoundaries
      readRangeCached metrics planner small = .ok tight)
    (hloose : searchCandidates granules complete details lists spansFor tokenBoundaries
      readRangeCached metrics planner large = .ok loose) : tight.Truncates loose := by
  unfold searchCandidates at htight hloose
  obtain ⟨candidates, hcandidates, htight⟩ := bind_eq_ok_iff.mp htight
  rw [admits_intersectPostings h.maxPostingWork lists _ hcandidates, ok_bind] at hloose
  obtain ⟨candidateGranules, hcount, htight⟩ := bind_eq_ok_iff.mp htight
  obtain ⟨candidateChunks, hchunks, htight⟩ := bind_eq_ok_iff.mp htight
  rw [hcount, ok_bind, hchunks, ok_bind] at hloose
  have hgranules := h.maxCandidateGranules
  have hresults := h.maxSearchResults
  dsimp only at htight hloose
  split at htight
  · exact earlyExitReport_truncates htight
  · rw [if_neg (show ¬ candidateGranules > large.maxCandidateGranules by omega)] at hloose
    split at htight
    · exact earlyExitReport_truncates htight
    · rename_i hsome
      rw [if_neg (show ¬ large.maxSearchResults = 0 by omega)] at hloose
      refine verifiedReport_truncates ?_ ?_ ?_ htight hloose
      · exact h
      · exact hspans
      · exact hsome

/-- The two token searches. -/
theorem RawTokenIndex.searchImpl_truncates {index : RawTokenIndex} {query : String}
    (h : small.AtMost large) (htight : index.searchImpl details query small readRangeCached = .ok tight)
    (hloose : index.searchImpl details query large readRangeCached = .ok loose) :
    tight.Truncates loose := by
  unfold RawTokenIndex.searchImpl at htight hloose
  obtain ⟨queryKeys, hkeys, htight⟩ := bind_eq_ok_iff.mp htight
  obtain ⟨termLookups, hlookups, htight⟩ := bind_eq_ok_iff.mp htight
  rw [admits_uniqueQueryKeys h query _ hkeys, ok_bind, hlookups, ok_bind] at hloose
  dsimp only at htight hloose
  split at htight
  · rename_i hempty
    rw [if_pos hempty] at hloose
    exact SearchReport.truncates_of_eq rfl htight hloose
  · rename_i hsome
    rw [if_neg hsome] at hloose
    obtain ⟨found, hfound, htight⟩ := bind_eq_ok_iff.mp htight
    rw [hfound, ok_bind] at hloose
    split at htight
    · rename_i key hmissing
      simp only [hmissing] at hloose
      exact SearchReport.truncates_of_eq rfl htight hloose
    · rename_i hpresent
      simp only [hpresent] at hloose
      obtain ⟨_, hbudget, htight⟩ := bind_eq_ok_iff.mp htight
      obtain ⟨_, -, hloose⟩ := bind_eq_ok_iff.mp hloose
      refine searchCandidates_truncates h ?_ htight hloose
      exact ⟨_, fun bytes limit left right => verifiedSpans_eq bytes queryKeys limit left right⟩

/-- The two n-gram searches. -/
theorem RawNgramIndex.searchImpl_truncates {index : RawNgramIndex} {query : String}
    (h : small.AtMost large) (htight : index.searchImpl details query small readRangeCached = .ok tight)
    (hloose : index.searchImpl details query large readRangeCached = .ok loose) :
    tight.Truncates loose := by
  unfold RawNgramIndex.searchImpl at htight hloose
  obtain ⟨queryKeys, hkeys, htight⟩ := bind_eq_ok_iff.mp htight
  obtain ⟨termLookups, hlookups, htight⟩ := bind_eq_ok_iff.mp htight
  rw [admits_ngramKeysForQuery h query _ _ hkeys, ok_bind, hlookups, ok_bind] at hloose
  dsimp only at htight hloose
  split at htight
  · rename_i hempty
    rw [if_pos hempty] at hloose
    exact SearchReport.truncates_of_eq rfl htight hloose
  · rename_i hsome
    rw [if_neg hsome] at hloose
    obtain ⟨found, hfound, htight⟩ := bind_eq_ok_iff.mp htight
    rw [hfound, ok_bind] at hloose
    split at htight
    · rename_i key hmissing
      simp only [hmissing] at hloose
      exact SearchReport.truncates_of_eq rfl htight hloose
    · rename_i hpresent
      simp only [hpresent] at hloose
      obtain ⟨postingBytesRead, hread, htight⟩ := bind_eq_ok_iff.mp htight
      obtain ⟨_, hbudget, htight⟩ := bind_eq_ok_iff.mp htight
      rw [hread, ok_bind] at hloose
      obtain ⟨_, -, hloose⟩ := bind_eq_ok_iff.mp hloose
      refine searchCandidates_truncates h ?_ htight hloose
      exact ⟨fun bytes _ _ => occurrenceSpans bytes (textBytes query),
        fun bytes limit _ _ => substringSpans_eq bytes (textBytes query) limit⟩

end Indexes

end Qzt
