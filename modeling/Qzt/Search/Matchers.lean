import Qzt.Search.Matching

/-!
# The two matchers cut a fixed list of spans off at their limit

`verified_spans` reports the token matches of the lines that contain every key of the
query, and `substring_spans` the occurrences of the query.  A limit takes the first of
them.  The token matcher reads a line past the limit, because its last tokens may decide
whether the line counts, and keeps its scratch from line to line; neither shows.
-/

namespace Qzt

open Foundation

/-! ## What there is to find -/

/-- The token of a run, if it is a key of the query: the position of the key and the run. -/
def keyMatch (bytes : List UInt8) (queryKeys : List (List UInt8)) (run : Nat × Nat) :
    Option (Nat × Nat × Nat) :=
  (queryKeys.findIdx? (eqIgnoreAsciiCase (slice bytes run.1 (run.2 - run.1)))).map
    fun index => (index, run.1, run.2)

/-- The matches among some runs of a line. -/
def runMatches (bytes : List UInt8) (queryKeys : List (List UInt8))
    (leftContinues rightContinues : Bool) (tokenRuns : List (Nat × Nat)) :
    List (Nat × Nat × Nat) :=
  (tokenRuns.filter (unclipped bytes leftContinues rightContinues)).filterMap
    (keyMatch bytes queryKeys)

/-- Every key of the query is among the matches. -/
def EveryKey (queryKeys : List (List UInt8)) (found : List (Nat × Nat × Nat)) : Prop :=
  ∀ index < queryKeys.length, ∃ entry ∈ found, entry.1 = index

instance (queryKeys : List (List UInt8)) (found : List (Nat × Nat × Nat)) :
    Decidable (EveryKey queryKeys found) :=
  inferInstanceAs (Decidable (∀ index < queryKeys.length, ∃ entry ∈ found, entry.1 = index))

/-- The span of a match in a line that starts at `lineStart`. -/
def matchSpan (queryKeys : List (List UInt8)) (lineStart : Nat) (found : Nat × Nat × Nat) :
    TokenSpan where
  key := queryKeys.getD found.1 []
  start := lineStart + found.2.1
  stop := lineStart + found.2.2

/-- The spans of one line: its matches, if they are for every key. -/
def lineSpans (queryKeys : List (List UInt8)) (leftContinues rightContinues : Bool)
    (lineStart : Nat) (line : List UInt8) : List TokenSpan :=
  let found := runMatches line queryKeys leftContinues rightContinues (runs isTokenByte line)
  if EveryKey queryKeys found then found.map (matchSpan queryKeys lineStart) else []

/-- The spans of some lines of a text of `length` bytes, the first starting at `lineStart`. -/
def spansFrom (length : Nat) (queryKeys : List (List UInt8)) (leftContinues rightContinues : Bool) :
    List (List UInt8) → Nat → List TokenSpan
  | [], _ => []
  | line :: lines, lineStart =>
    lineSpans queryKeys (lineStart == 0 && leftContinues)
        (lineStart + line.length == length && rightContinues) lineStart line ++
      spansFrom length queryKeys leftContinues rightContinues lines (lineStart + line.length)

/-- All token spans of a text. -/
def tokenSpans (bytes : List UInt8) (queryKeys : List (List UInt8))
    (leftContinues rightContinues : Bool) : List TokenSpan :=
  spansFrom bytes.length queryKeys leftContinues rightContinues (segments lf bytes) 0

/-- All occurrences of a query. -/
def occurrenceSpans (bytes query : List UInt8) : List TokenSpan :=
  if query = [] ∨ query.length > bytes.length then []
  else (occurrences bytes query).map fun start =>
    { key := query, start, stop := start + query.length }

/-! ## One line -/

section Line

variable {bytes : List UInt8} {queryKeys : List (List UInt8)} {limit : Nat}
  {leftContinues rightContinues : Bool}

/-- The scratch of a line after the matches `done`. -/
structure Scans (queryKeys : List (List UInt8)) (limit : Nat) (done : List (Nat × Nat × Nat))
    (seenCount : Nat) (scratch : LineMatchScratch) : Prop where
  matched : scratch.matched = done.take limit
  count : seenCount = scratch.seen.count scratch.generation
  length : scratch.seen.length = queryKeys.length
  seen : ∀ index, scratch.seen[index]? = some scratch.generation ↔ ∃ entry ∈ done, entry.1 = index
  bounded : ∀ value ∈ scratch.seen, value ≤ scratch.generation

/-- The counter has reached the number of keys exactly when every key was seen. -/
theorem Scans.count_eq_iff {done : List (Nat × Nat × Nat)} {seenCount : Nat}
    {scratch : LineMatchScratch} (h : Scans queryKeys limit done seenCount scratch) :
    seenCount = queryKeys.length ↔ EveryKey queryKeys done := by
  rw [h.count, ← h.length, List.count_eq_length]
  constructor
  · intro hall index hindex
    rw [← h.length] at hindex
    apply (h.seen index).mp
    rw [List.getElem?_eq_getElem hindex, ← hall _ (List.getElem_mem hindex)]
  · intro hevery value hvalue
    obtain ⟨index, hindex, rfl⟩ := List.getElem_of_mem hvalue
    have hseen := (h.seen index).mpr (hevery index (by rwa [← h.length]))
    rw [List.getElem?_eq_getElem hindex, Option.some.injEq] at hseen
    exact hseen.symm

/-- What the loop does with a match. -/
def noteMatch (limit index : Nat) (run : Nat × Nat) (seenCount : Nat)
    (scratch : LineMatchScratch) : Nat × LineMatchScratch :=
  let (seenCount, seen) :=
    if scratch.seen[index]? ≠ some scratch.generation then
      (seenCount + 1, scratch.seen.set index scratch.generation)
    else (seenCount, scratch.seen)
  let found :=
    if scratch.matched.length < limit then scratch.matched ++ [(index, run.1, run.2)]
    else scratch.matched
  (seenCount, { scratch with seen, matched := found })

theorem Scans.noteMatch {done : List (Nat × Nat × Nat)} {seenCount index : Nat}
    {scratch : LineMatchScratch} (h : Scans queryKeys limit done seenCount scratch)
    (hindex : index < queryKeys.length) (run : Nat × Nat) :
    Scans queryKeys limit (done ++ [(index, run.1, run.2)])
        (Qzt.noteMatch limit index run seenCount scratch).1
        (Qzt.noteMatch limit index run seenCount scratch).2 ∧
      (Qzt.noteMatch limit index run seenCount scratch).2.generation = scratch.generation := by
  have hmatched : (if scratch.matched.length < limit then
      scratch.matched ++ [(index, run.1, run.2)] else scratch.matched) =
        (done ++ [(index, run.1, run.2)]).take limit := by
    rw [h.matched, List.length_take, List.take_append]
    split
    · rw [List.take_of_length_le (show [(index, run.1, run.2)].length ≤ limit - done.length by
        rw [List.length_singleton]; omega)]
    · rw [show limit - done.length = 0 by omega, List.take_zero, List.append_nil]
  have hmem : ∀ i, (∃ entry ∈ done ++ [(index, run.1, run.2)], entry.1 = i) ↔
      (∃ entry ∈ done, entry.1 = i) ∨ index = i := by
    intro i
    simp [or_and_right, exists_or]
  have hlt : index < scratch.seen.length := by rwa [h.length]
  unfold Qzt.noteMatch
  by_cases hnew : scratch.seen[index]? = some scratch.generation
  · rw [if_neg (not_not.mpr hnew)]
    refine ⟨⟨hmatched, h.count, h.length, ?_, h.bounded⟩, rfl⟩
    intro i
    rw [hmem, ← h.seen]
    constructor
    · exact .inl
    · rintro (hold | rfl)
      · exact hold
      · exact hnew
  · rw [if_pos hnew]
    rw [List.getElem?_eq_getElem hlt, Option.some.injEq] at hnew
    refine ⟨⟨hmatched, ?_, ?_, ?_, ?_⟩, rfl⟩
    · -- The mark of an earlier line is replaced by the mark of this one.
      change seenCount + 1 = (scratch.seen.set index scratch.generation).count scratch.generation
      rw [List.count_set hlt, h.count, if_neg (by rwa [beq_iff_eq]), if_pos (beq_self_eq_true _),
        Nat.sub_zero]
    · change (scratch.seen.set index scratch.generation).length = queryKeys.length
      rw [List.length_set, h.length]
    · intro i
      change (scratch.seen.set index scratch.generation)[i]? = some scratch.generation ↔ _
      rw [hmem, ← h.seen, List.getElem?_set]
      by_cases hi : index = i
      · subst hi
        rw [if_pos rfl, if_pos hlt]
        exact ⟨fun _ => .inr rfl, fun _ => rfl⟩
      · rw [if_neg hi]
        exact ⟨.inl, fun hor => hor.resolve_right hi⟩
    · intro value hvalue
      rcases List.mem_or_eq_of_mem_set hvalue with hold | rfl
      · exact h.bounded value hold
      · exact Nat.le_refl _

/-- The loop at a run that counts: note its match, if it is one, and stop when the limit is
reached and the line is known to count. -/
theorem lineSpanLoop_cons {run : Nat × Nat} (hkept : unclipped bytes leftContinues rightContinues run = true)
    (rest : List (Nat × Nat)) (seenCount : Nat) (scratch : LineMatchScratch) :
    lineSpanLoop bytes queryKeys limit leftContinues rightContinues (run :: rest) seenCount
        scratch =
      let noted := match keyMatch bytes queryKeys run with
        | none => (seenCount, scratch)
        | some found => noteMatch limit found.1 run seenCount scratch
      if noted.2.matched.length = limit ∧ noted.1 = queryKeys.length then noted
      else lineSpanLoop bytes queryKeys limit leftContinues rightContinues rest noted.1 noted.2 := by
  rw [lineSpanLoop, if_pos hkept, keyMatch]
  cases queryKeys.findIdx? (eqIgnoreAsciiCase (slice bytes run.1 (run.2 - run.1))) <;> rfl

/-- What a line leaves in its scratch for the next: marks of the right number, none newer than
this line. -/
structure LineMatchScratch.Usable (queryKeys : List (List UInt8)) (scratch : LineMatchScratch) :
    Prop where
  length : scratch.seen.length = queryKeys.length
  bounded : ∀ value ∈ scratch.seen, value ≤ scratch.generation
  generation_lt : scratch.generation < 2 ^ 64

/-- The loop over the runs of a line. -/
theorem Scans.lineSpanLoop {tokenRuns : List (Nat × Nat)} {done : List (Nat × Nat × Nat)}
    {seenCount : Nat} {scratch : LineMatchScratch}
    (h : Scans queryKeys limit done seenCount scratch) :
    ∃ seenCount' scratch', Qzt.lineSpanLoop bytes queryKeys limit leftContinues rightContinues
        tokenRuns seenCount scratch = (seenCount', scratch') ∧
      (seenCount' = queryKeys.length ↔ EveryKey queryKeys (done ++
        runMatches bytes queryKeys leftContinues rightContinues tokenRuns)) ∧
      scratch'.matched = (done ++
        runMatches bytes queryKeys leftContinues rightContinues tokenRuns).take limit ∧
      scratch'.seen.length = queryKeys.length ∧
      (∀ value ∈ scratch'.seen, value ≤ scratch'.generation) ∧
      scratch'.generation = scratch.generation := by
  induction tokenRuns generalizing done seenCount scratch with
  | nil =>
    have hnone : runMatches bytes queryKeys leftContinues rightContinues [] = [] := rfl
    rw [hnone, List.append_nil]
    exact ⟨seenCount, scratch, rfl, h.count_eq_iff, h.matched, h.length, h.bounded, rfl⟩
  | cons run rest ih =>
    cases hkept : unclipped bytes leftContinues rightContinues run with
    | false =>
      have hskip : runMatches bytes queryKeys leftContinues rightContinues (run :: rest) =
          runMatches bytes queryKeys leftContinues rightContinues rest := by
        rw [runMatches, List.filter_cons_of_neg (by rw [hkept]; exact Bool.false_ne_true),
          runMatches]
      rw [hskip, Qzt.lineSpanLoop, hkept, if_neg Bool.false_ne_true]
      exact ih h
    | true =>
      rw [lineSpanLoop_cons hkept]
      -- The match of this run, if there is one, is noted first.
      have hnoted : ∃ noted, Scans queryKeys limit (done ++ (keyMatch bytes queryKeys run).toList)
            noted.1 noted.2 ∧ noted.2.generation = scratch.generation ∧
          (match keyMatch bytes queryKeys run with
            | none => (seenCount, scratch)
            | some found => Qzt.noteMatch limit found.1 run seenCount scratch) = noted := by
        cases hmatch : keyMatch bytes queryKeys run with
        | none =>
          rw [Option.toList_none, List.append_nil]
          exact ⟨_, h, rfl, rfl⟩
        | some found =>
          rw [keyMatch, Option.map_eq_some_iff] at hmatch
          obtain ⟨index, hindex, rfl⟩ := hmatch
          obtain ⟨hlt, -⟩ := List.findIdx?_eq_some_iff_findIdx_eq.mp hindex
          obtain ⟨hscans, hgeneration⟩ := h.noteMatch hlt run
          exact ⟨_, hscans, hgeneration, rfl⟩
      obtain ⟨noted, hscans, hgeneration, heq⟩ := hnoted
      have hsplit : done ++ runMatches bytes queryKeys leftContinues rightContinues (run :: rest) =
          done ++ (keyMatch bytes queryKeys run).toList ++
            runMatches bytes queryKeys leftContinues rightContinues rest := by
        rw [runMatches, List.filter_cons_of_pos hkept, List.append_assoc, runMatches]
        cases hmatch : keyMatch bytes queryKeys run with
        | none => rw [List.filterMap_cons_none hmatch, Option.toList_none, List.nil_append]
        | some found => rw [List.filterMap_cons_some hmatch, Option.toList_some, List.singleton_append]
      rw [heq, hsplit]
      dsimp only
      by_cases hdone : noted.2.matched.length = limit ∧ noted.1 = queryKeys.length
      · rw [if_pos hdone]
        obtain ⟨hfull, hcount⟩ := hdone
        have hevery := hscans.count_eq_iff.mp hcount
        refine ⟨noted.1, noted.2, rfl, ?_, ?_, hscans.length, hscans.bounded, hgeneration⟩
        · refine ⟨fun _ index hindex => ?_, fun _ => hcount⟩
          obtain ⟨entry, hentry, hid⟩ := hevery index hindex
          exact ⟨entry, List.mem_append_left _ hentry, hid⟩
        · rw [hscans.matched, List.length_take] at hfull
          rw [hscans.matched]
          exact (List.take_append_of_le_length (by omega)).symm
      · rw [if_neg hdone]
        obtain ⟨seenCount', scratch', hloop, hrest⟩ := ih hscans
        rw [hgeneration] at hrest
        exact ⟨seenCount', scratch', hloop, hrest⟩

theorem LineMatchScratch.Usable.nextLine {scratch : LineMatchScratch} (h : scratch.Usable queryKeys)
    (limit : Nat) :
    Scans queryKeys limit [] 0 scratch.nextLine ∧ scratch.nextLine.generation < 2 ^ 64 := by
  obtain ⟨hlength, hbounded, hlt⟩ := h
  -- No mark carries the new generation.
  have hfresh : ∀ {seen : List Nat} {generation : Nat}, (∀ value ∈ seen, value < generation) →
      0 = seen.count generation ∧ (∀ index : Nat, seen[index]? = some generation ↔
        ∃ entry ∈ ([] : List (Nat × Nat × Nat)), entry.1 = index) := by
    intro seen generation hless
    have hnot : generation ∉ seen := fun hmem => Nat.lt_irrefl _ (hless _ hmem)
    refine ⟨(List.count_eq_zero.mpr hnot).symm, fun index => ?_⟩
    refine ⟨fun hget => absurd (List.mem_of_getElem? hget) hnot, ?_⟩
    rintro ⟨entry, hentry, -⟩
    exact absurd hentry List.not_mem_nil
  unfold LineMatchScratch.nextLine
  dsimp only
  split
  · have hless : ∀ value ∈ scratch.seen.map (fun _ => 0), value < 1 := by
      intro value hvalue
      obtain ⟨_, -, rfl⟩ := List.mem_map.mp hvalue
      exact Nat.one_pos
    obtain ⟨hcount, hseen⟩ := hfresh hless
    refine ⟨⟨List.take_nil.symm, hcount, ?_, hseen, ?_⟩, show 1 < 2 ^ 64 by decide⟩
    · rw [List.length_map, hlength]
    · exact fun value hvalue => Nat.le_of_lt (hless value hvalue)
  · rename_i hwrap
    have hword : (scratch.generation + 1) % 2 ^ 64 = scratch.generation + 1 := by omega
    have hless : ∀ value ∈ scratch.seen, value < (scratch.generation + 1) % 2 ^ 64 := by
      intro value hvalue
      have := hbounded value hvalue
      omega
    obtain ⟨hcount, hseen⟩ := hfresh hless
    refine ⟨⟨List.take_nil.symm, hcount, hlength, hseen, ?_⟩, Nat.mod_lt _ (by decide)⟩
    exact fun value hvalue => Nat.le_of_lt (hless value hvalue)

/-- One line, whatever the lines before it left in the scratch. -/
theorem verifiedLineSpans_eq {scratch : LineMatchScratch} (h : scratch.Usable queryKeys)
    (limit : Nat) :
    ∃ scratch', scratch'.Usable queryKeys ∧
      verifiedLineSpans bytes queryKeys limit leftContinues rightContinues scratch.nextLine =
        (decide (EveryKey queryKeys
          (runMatches bytes queryKeys leftContinues rightContinues (runs isTokenByte bytes))),
          scratch') ∧
      scratch'.matched = (runMatches bytes queryKeys leftContinues rightContinues
        (runs isTokenByte bytes)).take limit := by
  obtain ⟨hscans, hlt⟩ := h.nextLine limit
  obtain ⟨seenCount', scratch', hloop, hcount, hmatched, hlength, hbounded, hgeneration⟩ :=
    @Scans.lineSpanLoop bytes queryKeys limit leftContinues rightContinues (runs isTokenByte bytes)
      [] 0 scratch.nextLine hscans
  rw [List.nil_append] at hcount hmatched
  refine ⟨scratch', ⟨hlength, hbounded, hgeneration ▸ hlt⟩, ?_, hmatched⟩
  rw [verifiedLineSpans, hloop]
  refine Prod.ext ?_ rfl
  change decide (seenCount' = queryKeys.length) = _
  exact decide_eq_decide.mpr hcount

end Line

/-! ## All lines -/

section Lines

variable {queryKeys : List (List UInt8)} {limit : Nat} {leftContinues rightContinues : Bool}

theorem verifiedSpansLoop_eq {length : Nat} {lines : List (List UInt8)} {lineStart : Nat}
    {spans : List TokenSpan} {scratch : LineMatchScratch} (h : scratch.Usable queryKeys)
    (hspans : spans.length ≤ limit) :
    verifiedSpansLoop length queryKeys limit leftContinues rightContinues lines lineStart spans
        scratch =
      (spans ++ spansFrom length queryKeys leftContinues rightContinues lines lineStart).take
        limit := by
  induction lines generalizing lineStart spans scratch with
  | nil =>
    rw [verifiedSpansLoop, spansFrom, List.append_nil, List.take_of_length_le hspans]
  | cons line lines ih =>
    rw [verifiedSpansLoop, spansFrom]
    dsimp only
    by_cases hroom : limit - spans.length = 0
    · rw [if_pos hroom, List.take_append_of_le_length (by omega), List.take_of_length_le hspans]
    · rw [if_neg hroom]
      obtain ⟨scratch', husable, hline, hmatched⟩ :=
        @verifiedLineSpans_eq line queryKeys (lineStart == 0 && leftContinues)
          (lineStart + line.length == length && rightContinues) scratch h (limit - spans.length)
      rw [hline]
      dsimp only
      -- The spans of this line, as far as the limit admits them.
      have hadded : (if decide (EveryKey queryKeys (runMatches line queryKeys
            (lineStart == 0 && leftContinues)
            (lineStart + line.length == length && rightContinues) (runs isTokenByte line))) = true
          then spans ++ scratch'.matched.map (matchSpan queryKeys lineStart) else spans) =
          spans ++ (lineSpans queryKeys (lineStart == 0 && leftContinues)
            (lineStart + line.length == length && rightContinues) lineStart line).take
              (limit - spans.length) := by
        rw [lineSpans]
        split
        · rename_i hevery
          rw [if_pos (of_decide_eq_true hevery), hmatched, List.map_take]
        · rename_i hmissing
          rw [if_neg (fun hevery => hmissing (decide_eq_true hevery)), List.take_nil,
            List.append_nil]
      refine Eq.trans (congrArg (fun added => if added.length = limit then added else
        verifiedSpansLoop length queryKeys limit leftContinues rightContinues lines
          (lineStart + line.length) added scratch') hadded) ?_
      generalize lineSpans queryKeys (lineStart == 0 && leftContinues)
        (lineStart + line.length == length && rightContinues) lineStart line = here
      have hlength : (spans ++ here.take (limit - spans.length)).length =
          min limit (spans.length + here.length) := by
        rw [List.length_append, List.length_take]
        omega
      have htake : (spans ++ here).take limit = spans ++ here.take (limit - spans.length) := by
        rw [List.take_append, List.take_of_length_le hspans]
      rw [← List.append_assoc]
      split
      · rename_i hfull
        rw [List.take_append_of_le_length, htake]
        rw [List.length_append]
        omega
      · rename_i hless
        rw [ih husable (by omega),
          List.take_of_length_le (show here.length ≤ limit - spans.length by omega)]

/-- `verified_spans` takes the first of all token spans. -/
theorem verifiedSpans_eq (bytes : List UInt8) (queryKeys : List (List UInt8)) (limit : Nat)
    (leftContinues rightContinues : Bool) :
    verifiedSpans bytes queryKeys limit leftContinues rightContinues =
      (tokenSpans bytes queryKeys leftContinues rightContinues).take limit := by
  rw [verifiedSpans, verifiedSpansLoop_eq, List.nil_append, tokenSpans]
  · refine ⟨List.length_map _, ?_, show 0 < 2 ^ 64 by decide⟩
    intro value hvalue
    obtain ⟨_, -, rfl⟩ := List.mem_map.mp hvalue
    exact Nat.le_refl _
  · exact Nat.zero_le _

/-- `substring_spans` takes the first of all occurrences. -/
theorem substringSpans_eq (bytes query : List UInt8) (limit : Nat) :
    substringSpans bytes query limit = (occurrenceSpans bytes query).take limit := by
  rw [substringSpans, occurrenceSpans]
  by_cases hnone : query = [] ∨ query.length > bytes.length
  · rw [if_pos (.inr hnone), if_pos hnone, List.take_nil]
  · rw [if_neg hnone]
    split
    · rename_i hzero
      rw [hzero.resolve_right hnone, List.take_zero]
    · rw [List.map_take]

end Lines

end Qzt
