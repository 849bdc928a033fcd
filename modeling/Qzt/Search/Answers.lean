import Qzt.Search.ChunkCount
import Qzt.Search.Lookup

/-!
# The answer of a search

A search looks its keys up, checks the budgets on posting lists, and verifies candidates.  What it
answers depends on the keys of the dictionary, on the sizes of the lists and on the granules of the
candidates, and not on how an index holds them.
-/

namespace Qzt

open Foundation

/-! ## Answers -/

/-- What a search says about its query, without the counters of the index. -/
structure SearchAnswer where
  hits : List SearchHit
  stopReason : Option String
  capped : Bool
  incompleteReason : Option String
  indexCompleteDeclared : Bool
  selectedKeys : List (List UInt8)
  missingKeys : List (List UInt8)
  decodedBytes : Nat
  physicalDecodedBytes : Nat
  physicalDecodedChunks : Nat
  deriving DecidableEq, Repr

def SearchReport.answer (report : SearchReport) : SearchAnswer where
  hits := report.hits
  stopReason := report.stopReason
  capped := report.capped
  incompleteReason := report.incompleteReason
  indexCompleteDeclared := report.indexCompleteDeclared
  selectedKeys := report.planner.selectedKeys
  missingKeys := report.planner.missingKeys
  decodedBytes := report.metrics.decodedBytes
  physicalDecodedBytes := report.metrics.physicalDecodedBytes
  physicalDecodedChunks := report.metrics.physicalDecodedChunks

/-- The parts of a report that the verification does not write. -/
def SearchReport.Alike (metrics metrics' : SearchMetrics) (planner planner' : PlannerDecision) :
    Prop :=
  metrics.decodedBytes = metrics'.decodedBytes ∧
    metrics.physicalDecodedBytes = metrics'.physicalDecodedBytes ∧
    metrics.physicalDecodedChunks = metrics'.physicalDecodedChunks ∧
    planner.selectedKeys = planner'.selectedKeys ∧ planner.missingKeys = planner'.missingKeys

theorem answer_earlyExitReport {metrics metrics' : SearchMetrics}
    {planner planner' : PlannerDecision}
    (h : SearchReport.Alike metrics metrics' planner planner') (stopReason incompleteReason : Option String)
    (complete : Bool) :
    (earlyExitReport metrics planner stopReason incompleteReason complete).answer =
      (earlyExitReport metrics' planner' stopReason incompleteReason complete).answer := by
  obtain ⟨hdecoded, hbytes, hchunks, hselected, hmissing⟩ := h
  simp only [earlyExitReport, SearchReport.answer, hdecoded, hbytes, hchunks, hselected, hmissing]

theorem answer_verifiedReport {metrics metrics' : SearchMetrics}
    {planner planner' : PlannerDecision} (verification : CandidateVerification) (complete : Bool)
    (hselected : planner.selectedKeys = planner'.selectedKeys)
    (hmissing : planner.missingKeys = planner'.missingKeys) :
    (verifiedReport verification metrics planner complete).map SearchReport.answer =
      (verifiedReport verification metrics' planner' complete).map SearchReport.answer := by
  rw [verifiedReport, verifiedReport]
  cases usizeToU64 verification.hits.length with
  | error e => rfl
  | ok count =>
    change Except.ok _ = Except.ok _
    simp only [SearchReport.answer, hselected, hmissing]

/-- Options with other budgets on posting lists. -/
def SearchOptions.withPostingBudgets (options : SearchOptions) (bytes ids : Nat) : SearchOptions :=
  { options with maxPostingBytesPerQuery := bytes, maxPostingIdsPerQuery := ids }

/-! ## Dictionaries with the same keys -/

section Dictionaries

variable {terms other : List TermDictionaryEntry}

theorem exists_term_iff (holds : List UInt8 → Prop) (position : Nat) :
    (∃ term ∈ terms[position]?, holds term.key) ↔
      ∃ key ∈ (terms.map TermDictionaryEntry.key)[position]?, holds key := by
  rw [List.getElem?_map]
  cases terms[position]? with
  | none => simp
  | some term => simp

theorem termIndexForKey_congr
    (h : terms.map TermDictionaryEntry.key = other.map TermDictionaryEntry.key) :
    termIndexForKey terms = termIndexForKey other := by
  funext key
  have hlength : terms.length = other.length := by
    have hlengths := congrArg List.length h
    rwa [List.length_map, List.length_map] at hlengths
  have hterm : ∀ (holds : List UInt8 → Prop) (position : Nat),
      (∃ term ∈ terms[position]?, holds term.key) ↔ ∃ term ∈ other[position]?, holds term.key := by
    intro holds position
    rw [exists_term_iff, exists_term_iff, h]
  have hsearch : partitionPoint (fun position : Nat =>
      (.ok (decide (∃ term ∈ terms[position]?, term.key < key)) : Result Bool)) terms.length =
    partitionPoint (fun position : Nat =>
      (.ok (decide (∃ term ∈ other[position]?, term.key < key)) : Result Bool)) other.length := by
    rw [hlength]
    congr 1
    funext position
    rw [Except.ok.injEq, decide_eq_decide]
    exact hterm (· < key) position
  rw [termIndexForKey, termIndexForKey, hsearch]
  split
  · rename_i index _
    exact if_congr (hterm (· = key) index) rfl rfl
  · rfl

theorem keyAt_congr (h : terms.map TermDictionaryEntry.key = other.map TermDictionaryEntry.key) :
    keyAt terms = keyAt other := by
  funext index
  rw [keyAt, keyAt, ← List.getElem?_map, h, List.getElem?_map]

theorem granuleFrequencyAt_congr (h : terms.map TermDictionaryEntry.granuleFrequency =
      other.map TermDictionaryEntry.granuleFrequency) :
    granuleFrequencyAt terms = granuleFrequencyAt other := by
  funext index
  rw [granuleFrequencyAt, granuleFrequencyAt, ← List.getElem?_map, h, List.getElem?_map]

theorem postingSizeAt_congr (h : terms.map TermDictionaryEntry.postingSize =
      other.map TermDictionaryEntry.postingSize) :
    postingSizeAt terms = postingSizeAt other := by
  funext index
  rw [postingSizeAt, postingSizeAt, ← List.getElem?_map, h, List.getElem?_map]

/-- The lookup goes by the keys alone. -/
theorem lookupKeys_congr
    (h : terms.map TermDictionaryEntry.key = other.map TermDictionaryEntry.key)
    (amount : Nat → Nat) (keys : List (List UInt8)) (found : KeyLookup) :
    lookupKeys terms amount keys found = lookupKeys other amount keys found := by
  induction keys generalizing found with
  | nil => rfl
  | cons key keys ih => simp only [lookupKeys, termIndexForKey_congr h, ih]

end Dictionaries

/-! ## Charges that fit a word -/

section Charges

variable {terms : List TermDictionaryEntry} {amount : Nat → Nat}

/-- Amounts of distinct positions add up to no more than those of all positions. -/
theorem sum_amounts_le {indexes : List Nat} {count : Nat} (hnodup : indexes.Nodup)
    (hlt : ∀ index ∈ indexes, index < count) :
    (indexes.map amount).sum ≤ ((List.range count).map amount).sum := by
  have hsubset : indexes ⊆ List.range count := fun index hindex =>
    List.mem_range.mpr (hlt index hindex)
  obtain ⟨ordered, hperm, hsublist⟩ := List.subperm_of_subset hnodup hsubset
  calc (indexes.map amount).sum = (ordered.map amount).sum := (hperm.map amount).sum_eq.symm
    _ ≤ ((List.range count).map amount).sum :=
      (hsublist.map amount).sum_le_sum fun _ _ => Nat.zero_le _

theorem map_range_postingSizeAt (terms : List TermDictionaryEntry) :
    (List.range terms.length).map (postingSizeAt terms) =
      terms.map TermDictionaryEntry.postingSize := by
  apply List.ext_getElem
  · rw [List.length_map, List.length_map, List.length_range]
  · intro index hleft hright
    rw [List.length_map, List.length_range] at hleft
    rw [List.getElem_map, List.getElem_map, List.getElem_range, postingSizeAt,
      List.getElem?_eq_getElem hleft]
    rfl

/-- The positions of the keys that the dictionary has. -/
def foundIndexes (terms : List TermDictionaryEntry) (keys : List (List UInt8)) : List Nat :=
  keys.filterMap (termIndexForKey terms)

theorem foundIndexes_nodup (hsorted : (terms.map TermDictionaryEntry.key).Pairwise (· < ·))
    {keys : List (List UInt8)} (hnodup : keys.Nodup) :
    (foundIndexes terms keys).Nodup ∧ ∀ index ∈ foundIndexes terms keys, index < terms.length := by
  constructor
  · apply hnodup.filterMap
    intro key key' index hkey hkey'
    rw [Option.mem_def, termIndexForKey_eq_some_iff hsorted] at hkey hkey'
    exact Option.some.inj (hkey.symm.trans hkey')
  · intro index hindex
    obtain ⟨key, -, hkey⟩ := List.mem_filterMap.mp hindex
    rw [termIndexForKey_eq_some_iff hsorted] at hkey
    have hlt := (List.getElem?_eq_some_iff.mp hkey).1
    rwa [List.length_map] at hlt

/-- Where the charges fit a word the lookup succeeds, whatever it charges, and finds the positions
of the keys. -/
theorem lookupKeys_charges {keys : List (List UInt8)} {found : KeyLookup}
    (hfound : found.missing = none)
    (hroom : found.postingBytesRead + ((foundIndexes terms keys).map amount).sum < 2 ^ 64) :
    ∃ missing indexes bytes,
      lookupKeys terms amount keys found = .ok ⟨missing, indexes, bytes⟩ ∧
      lookupKeys terms (fun _ => 0) keys { found with postingBytesRead := 0 } =
        .ok ⟨missing, indexes, 0⟩ ∧
      (missing = none → indexes = found.indexes ++ foundIndexes terms keys ∧
        bytes = found.postingBytesRead + ((foundIndexes terms keys).map amount).sum ∧
        (foundIndexes terms keys).length = keys.length) := by
  induction keys generalizing found with
  | nil =>
    refine ⟨found.missing, found.indexes, found.postingBytesRead, rfl, rfl, fun _ => ⟨?_, ?_, rfl⟩⟩
    · exact (List.append_nil _).symm
    · rfl
  | cons key keys ih =>
    rw [lookupKeys, lookupKeys]
    cases hkey : termIndexForKey terms key with
    | none =>
      refine ⟨some key, found.indexes, found.postingBytesRead, rfl, rfl, ?_⟩
      intro hnone
      cases hnone
    | some index =>
      have hfoundIndexes : foundIndexes terms (key :: keys) = index :: foundIndexes terms keys :=
        List.filterMap_cons_some hkey
      rw [hfoundIndexes, List.map_cons, List.sum_cons] at hroom
      obtain ⟨missing, indexes, bytes, hlookup, hfree, hall⟩ :=
        @ih ⟨found.missing, found.indexes ++ [index], found.postingBytesRead + amount index⟩ hfound
          (by dsimp only; omega)
      refine ⟨missing, indexes, bytes, ?_, ?_, ?_⟩
      · dsimp only
        rw [checkedAdd_of_lt (by omega), okOr_some, ok_bind]
        exact hlookup
      · dsimp only
        rw [checkedAdd_of_lt (by decide), okOr_some, ok_bind]
        exact hfree
      · intro hnone
        obtain ⟨hindexes, hbytes, hcount⟩ := hall hnone
        rw [hfoundIndexes, List.map_cons, List.sum_cons, List.length_cons, List.length_cons,
          hindexes, hbytes, hcount]
        refine ⟨?_, ?_, rfl⟩
        · rw [List.append_assoc, List.singleton_append]
        · rw [Nat.add_assoc]

/-- Amounts that fit a word are added. -/
theorem sumChecked_of_lt {α : Type} {items : List α} {read : α → Result Nat} {amount : α → Nat}
    {total : Nat} (hitems : ∀ item ∈ items, read item = .ok (amount item))
    (hroom : total + (items.map amount).sum < 2 ^ 64) :
    sumChecked read items total = .ok (total + (items.map amount).sum) := by
  induction items generalizing total with
  | nil => rfl
  | cons item items ih =>
    obtain ⟨hitem, hrest⟩ := List.forall_mem_cons.mp hitems
    rw [List.map_cons, List.sum_cons] at hroom ⊢
    rw [sumChecked, hitem, ok_bind, checkedAdd_of_lt (by omega), okOr_some, ok_bind,
      ih hrest (by omega), Nat.add_assoc]

/-- The budget on posting lists is a budget on the totals. -/
theorem postingBudgetLoop_eq {postings : List (List Nat)} {encoded : List (List UInt8)}
    {options : SearchOptions} {indexes : List Nat} {bytes ids : Nat}
    (hbytes : bytes ≤ options.maxPostingBytesPerQuery)
    (hids : ids ≤ options.maxPostingIdsPerQuery)
    (hbytesRoom : bytes + (indexes.map fun index => (encoded.getD index []).length).sum < 2 ^ 64)
    (hidsRoom : ids + (indexes.map fun index => (postings.getD index []).length).sum < 2 ^ 64) :
    postingBudgetLoop postings encoded options indexes bytes ids =
      if bytes + (indexes.map fun index => (encoded.getD index []).length).sum ≤
            options.maxPostingBytesPerQuery ∧
          ids + (indexes.map fun index => (postings.getD index []).length).sum ≤
            options.maxPostingIdsPerQuery then
        .ok ⟨⟩
      else .error .resourceLimitExceeded := by
  induction indexes generalizing bytes ids with
  | nil => exact (if_pos ⟨hbytes, hids⟩).symm
  | cons index indexes ih =>
    simp only [List.map_cons, List.sum_cons] at hbytesRoom hidsRoom ⊢
    rw [postingBudgetLoop, usizeToU64_of_lt (by omega), ok_bind, checkedAdd_of_lt (by omega),
      okOr_some, ok_bind, usizeToU64_of_lt (by omega), ok_bind, checkedAdd_of_lt (by omega),
      okOr_some, ok_bind]
    by_cases hover : bytes + (encoded.getD index []).length > options.maxPostingBytesPerQuery ∨
        ids + (postings.getD index []).length > options.maxPostingIdsPerQuery
    · rw [rejectIf_of hover, error_bind, if_neg (by omega)]
    · rw [rejectIf_of_not hover, ok_bind, ih (by omega) (by omega) (by omega) (by omega)]
      simp only [Nat.add_assoc]

end Charges

/-! ## Verification -/

namespace VerificationPlan

variable {plan : VerificationPlan} {granuleAt : Nat → Result SearchGranule}

theorem pushHits_withGranules (granule : SearchGranule) (spans : List TokenSpan)
    (state : CandidateVerification) :
    { plan with granuleAt }.pushHits granule spans state = plan.pushHits granule spans state := by
  induction spans generalizing state with
  | nil => rfl
  | cons span spans ih =>
    rw [pushHits, pushHits]
    simp only [ih]

theorem matchGranule_withGranules (granule : SearchGranule) (granuleEnd readStart : Nat)
    (decoded : List UInt8) (state : CandidateVerification) :
    { plan with granuleAt }.matchGranule granule granuleEnd readStart decoded state =
      plan.matchGranule granule granuleEnd readStart decoded state := by
  rw [matchGranule, matchGranule]
  simp only [pushHits_withGranules]
  rfl

/-- The loop uses nothing of the granules but those of its candidates. -/
theorem verifyLoop_withGranules {candidates : List Nat}
    (h : ∀ granuleId ∈ candidates, granuleAt granuleId = plan.granuleAt granuleId)
    (state : CandidateVerification) :
    { plan with granuleAt }.verifyLoop candidates state = plan.verifyLoop candidates state := by
  induction candidates generalizing state with
  | nil => rfl
  | cons granuleId candidates ih =>
    obtain ⟨hfirst, hrest⟩ := List.forall_mem_cons.mp h
    have hround : { plan with granuleAt }.verifyCandidate granuleId state =
        plan.verifyCandidate granuleId state := by
      rw [verifyCandidate, verifyCandidate, ← hfirst]
      simp only [matchGranule_withGranules]
      rfl
    rw [verifyLoop, verifyLoop, hround]
    apply bind_congr_ok
    intro next _
    rw [ih hrest]

/-! The budgets on posting lists do not matter once the candidates are known. -/

variable {bytes ids : Nat}

theorem pushHits_withPostingBudgets (granule : SearchGranule) (spans : List TokenSpan)
    (state : CandidateVerification) :
    { plan with options := plan.options.withPostingBudgets bytes ids }.pushHits granule spans
        state = plan.pushHits granule spans state := by
  induction spans generalizing state with
  | nil => rfl
  | cons span spans ih =>
    rw [pushHits, pushHits]
    simp only [ih]
    rfl

theorem matchGranule_withPostingBudgets (granule : SearchGranule) (granuleEnd readStart : Nat)
    (decoded : List UInt8) (state : CandidateVerification) :
    { plan with options := plan.options.withPostingBudgets bytes ids }.matchGranule granule
        granuleEnd readStart decoded state =
      plan.matchGranule granule granuleEnd readStart decoded state := by
  rw [matchGranule, matchGranule]
  simp only [pushHits_withPostingBudgets]
  rfl

theorem verifyLoop_withPostingBudgets (candidates : List Nat) (state : CandidateVerification) :
    { plan with options := plan.options.withPostingBudgets bytes ids }.verifyLoop candidates
        state = plan.verifyLoop candidates state := by
  induction candidates generalizing state with
  | nil => rfl
  | cons granuleId candidates ih =>
    have hround : { plan with options := plan.options.withPostingBudgets bytes ids }.verifyCandidate
        granuleId state = plan.verifyCandidate granuleId state := by
      rw [verifyCandidate, verifyCandidate]
      simp only [matchGranule_withPostingBudgets]
      rfl
    rw [verifyLoop, verifyLoop, hround]
    apply bind_congr_ok
    intro next _
    rw [ih]

end VerificationPlan

/-- Where every granule has chunks, the count is that of the granules found. -/
theorem countChunkSpans_of_collect {α : Type} {granule : α → Result SearchGranule} {items : List α}
    {granules : List SearchGranule} (hfound : collect granule items = .ok granules)
    (hspans : ∀ found ∈ granules, found.chunkStart < found.chunkEnd ∧ found.chunkEnd < 2 ^ 64) :
    ∃ count, countChunkSpans granule items = .ok count := by
  have hnone : ¬ ∃ found ∈ granules, found.chunkEnd ≤ found.chunkStart := by
    rintro ⟨found, hmem, hempty⟩
    exact absurd (hspans found hmem).1 (Nat.not_lt.mpr hempty)
  refine ⟨(spanUnion (granules.map chunkSpan)).card, ?_⟩
  rw [countChunkSpans, collect_spans hfound, if_neg hnone, ok_bind]
  apply countCovered_of_perm (fun found hmem => (hspans found hmem).2) (List.mergeSort_perm _ _)
  have hpairwise : ((granules.map chunkSpan).mergeSort
      (fun a b => decide (a.1 ≤ b.1))).Pairwise (fun a b => decide (a.1 ≤ b.1)) :=
    List.pairwise_mergeSort
      (by simp only [decide_eq_true_eq]; exact fun _ _ _ => Nat.le_trans)
      (by simp only [Bool.or_eq_true, decide_eq_true_eq]; exact fun a b => Nat.le_total _ _)
      (granules.map chunkSpan)
  exact hpairwise.imp of_decide_eq_true

end Qzt
