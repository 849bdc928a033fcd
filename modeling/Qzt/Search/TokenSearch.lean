import Qzt.Format.Reference
import Qzt.Reader.DenseStarts
import Qzt.Search.Exactness

/-!
# Token search

The granules of an index are lines, and a line ends where no token continues, so the
probes at its edges find nothing.  A candidate line has every token of the query: its
hits are the runs that are one of them, and together they are all such runs of the text.
-/

namespace Qzt

open Foundation

/-! ## Folding -/

theorem toAsciiLowercase_idem (byte : UInt8) :
    toAsciiLowercase (toAsciiLowercase byte) = toAsciiLowercase byte := by
  have hall : ∀ n < 256, toAsciiLowercase (toAsciiLowercase (UInt8.ofNat n)) =
      toAsciiLowercase (UInt8.ofNat n) := by
    decide +kernel
  have hbyte := hall byte.toNat byte.toNat_lt
  rwa [UInt8.ofNat_toNat] at hbyte

theorem eqIgnoreAsciiCase_iff {left right : List UInt8} :
    eqIgnoreAsciiCase left right = true ↔
      left.map toAsciiLowercase = right.map toAsciiLowercase := by
  rw [eqIgnoreAsciiCase, beq_iff_eq]

/-- A folded word is as good as the word. -/
theorem eqIgnoreAsciiCase_map {left right : List UInt8} :
    eqIgnoreAsciiCase left (right.map toAsciiLowercase) = eqIgnoreAsciiCase left right := by
  have hfold : (right.map toAsciiLowercase).map toAsciiLowercase = right.map toAsciiLowercase := by
    rw [List.map_map]
    exact List.map_congr_left fun byte _ => toAsciiLowercase_idem byte
  rw [eqIgnoreAsciiCase, hfold, eqIgnoreAsciiCase]

/-! ## The tokens of a line -/

section Line

variable {line : List UInt8} {queryKeys : List (List UInt8)}

/-- The matches of a line: its runs that no edge clips and that are a key of the query. -/
theorem mem_runMatches_iff {leftContinues rightContinues : Bool} {entry : Nat × Nat × Nat} :
    entry ∈ runMatches line queryKeys leftContinues rightContinues (runs isTokenByte line) ↔
      IsRun isTokenByte line entry.2.1 entry.2.2 ∧
      unclipped line leftContinues rightContinues entry.2 = true ∧
      queryKeys.findIdx? (eqIgnoreAsciiCase
        (slice line entry.2.1 (entry.2.2 - entry.2.1))) = some entry.1 := by
  rw [runMatches, List.mem_filterMap]
  constructor
  · rintro ⟨run, hrun, hmatch⟩
    rw [List.mem_filter] at hrun
    rw [keyMatch, Option.map_eq_some_iff] at hmatch
    obtain ⟨index, hindex, rfl⟩ := hmatch
    exact ⟨mem_runs_iff.mp hrun.1, hrun.2, hindex⟩
  · rintro ⟨hrun, hunclipped, hindex⟩
    refine ⟨(entry.2.1, entry.2.2), ?_, ?_⟩
    · rw [List.mem_filter]
      exact ⟨mem_runs_iff.mpr hrun, hunclipped⟩
    · rw [keyMatch, hindex]
      rfl

/-- The matches of a line without clipped edges. -/
theorem mem_runMatches {entry : Nat × Nat × Nat} :
    entry ∈ runMatches line queryKeys false false (runs isTokenByte line) ↔
      IsRun isTokenByte line entry.2.1 entry.2.2 ∧
      queryKeys.findIdx? (eqIgnoreAsciiCase
        (slice line entry.2.1 (entry.2.2 - entry.2.1))) = some entry.1 := by
  rw [mem_runMatches_iff]
  simp [unclipped]

/-- A line that has the keys of a query has a match for each of them. -/
theorem everyKey_of_hasKey (hnodup : queryKeys.Nodup)
    (hall : ∀ key ∈ queryKeys, HasKey .token line key) :
    EveryKey queryKeys (runMatches line queryKeys false false (runs isTokenByte line)) := by
  intro index hindex
  obtain ⟨word, ⟨start, stop, hrun, rfl⟩, hkey⟩ := hall _ (List.getElem_mem hindex)
  have hmatches : eqIgnoreAsciiCase (slice line start (stop - start)) queryKeys[index] = true := by
    rw [hkey, eqIgnoreAsciiCase_map, eqIgnoreAsciiCase_iff]
  refine ⟨(index, start, stop), mem_runMatches.mpr ⟨hrun, ?_⟩, rfl⟩
  rw [List.findIdx?_eq_some_iff_getElem]
  refine ⟨hindex, hmatches, fun earlier hlt => ?_⟩
  -- An earlier key that the token matches would be the same key.
  intro hother
  obtain ⟨word', ⟨start', stop', -, rfl⟩, hkey'⟩ :=
    hall _ (List.getElem_mem (Nat.lt_trans hlt hindex))
  rw [hkey', eqIgnoreAsciiCase_map, eqIgnoreAsciiCase_iff] at hother
  have hsame : queryKeys[earlier] = queryKeys[index] := by
    rw [hkey', hkey, hother]
  have hindexes := (List.Nodup.getElem_inj_iff hnodup).mp hsame
  omega

/-- The spans of a line that has every key. -/
theorem tokenSpans_line (hline : segments lf line = [line]) (hnodup : queryKeys.Nodup)
    (hall : ∀ key ∈ queryKeys, HasKey .token line key) :
    tokenSpans line queryKeys false false =
      (runMatches line queryKeys false false (runs isTokenByte line)).map
        (matchSpan queryKeys 0) := by
  rw [tokenSpans, hline, spansFrom, spansFrom, List.append_nil, Bool.and_false, Bool.and_false,
    lineSpans]
  exact if_pos (everyKey_of_hasKey hnodup hall)

theorem runMatches_pairwise (queryKeys : List (List UInt8)) (line : List UInt8) :
    (runMatches line queryKeys false false (runs isTokenByte line)).Pairwise
      fun a b => a.2.1 < b.2.1 := by
  rw [runMatches, List.pairwise_filterMap]
  have hruns := (runs_pairwise isTokenByte line).filter (unclipped line false false)
  refine hruns.imp_of_mem ?_
  intro run later hrun _ hgap entry hentry entry' hentry'
  have hstart := (mem_runs_iff.mp (List.mem_filter.mp hrun).1).start_lt
  rw [keyMatch, Option.map_eq_some_iff] at hentry hentry'
  obtain ⟨_, -, rfl⟩ := hentry
  obtain ⟨_, -, rfl⟩ := hentry'
  exact Nat.lt_trans hstart hgap

end Line

/-! ## The tokens of a text -/

/-- A maximal run of token bytes that is a token of the query, up to the case of ASCII letters, and
lies on a line where every token of the query occurs. -/
structure IsTokenHit (text query : List UInt8) (start stop : Nat) : Prop where
  run : IsRun isTokenByte text start stop
  token : ∃ word, IsToken query word ∧
    eqIgnoreAsciiCase (slice text start (stop - start)) word = true
  line : ∃ (index : Nat) (line : List UInt8), (lines text)[index]? = some line ∧
    ((lines text).take index).flatten.length ≤ start ∧
    stop ≤ ((lines text).take index).flatten.length + line.length ∧
    ∀ word, IsToken query word → ∃ found, IsToken line found ∧ eqIgnoreAsciiCase found word = true

/-- The hits of a search are the token hits of a text, in ascending order. -/
structure ListsTokens (text query : List UInt8) (hits : List SearchHit) : Prop where
  ascending : (hits.map SearchHit.logicalOffset).Pairwise (· < ·)
  exact : ∀ start length, (∃ hit ∈ hits, hit.logicalOffset = start ∧ hit.byteLength = length) ↔
    IsTokenHit text query start (start + length)

section Text

variable {entries : List ChunkEntry} {text query : List UInt8} {granules found : List SearchGranule}
  {keys queryKeys : List (List UInt8)} {postings : List (List Nat)} {candidates : List Nat}

theorem isTokenByte_lf : isTokenByte lf = false := by
  decide

/-- A run of a line is a run of the text: no token crosses the edge of a line. -/
theorem isRun_of_line {line : List UInt8} {index start stop : Nat}
    (hline : (lines text)[index]? = some line) (hrun : IsRun isTokenByte line start stop) :
    IsRun isTokenByte text (((lines text).take index).flatten.length + start)
      (((lines text).take index).flatten.length + stop) := by
  obtain ⟨hslice, hinside, -⟩ := slice_line hline
  have hlt := hrun.start_lt
  apply IsRun.of_slice (hslice.symm ▸ hrun) hinside
  · intro _ byte hpos hbyte
    rw [lf_before_line hline hpos, Option.some.injEq] at hbyte
    rw [← hbyte, isTokenByte_lf]
  · intro hstop byte hbyte
    rcases line_end hline with hlast | hend
    · -- The run would contain the LF.
      rw [List.getLast?_eq_getElem?] at hlast
      have hlf := hrun.inside (line.length - 1) lf (by omega) (by omega) hlast
      rw [isTokenByte_lf] at hlf
      cases hlf
    · rw [List.getElem?_eq_none (Nat.le_of_eq hend.symm)] at hbyte
      cases hbyte

/-- What stands at the edges of a line. -/
theorem IsLineGranule.edges {index : Nat} {granule : SearchGranule}
    (h : IsLineGranule entries text index granule) :
    (0 < granule.logicalOffset → text[granule.logicalOffset - 1]? = some lf) ∧
    ((VerificationPlan.granuleText text granule).getLast? = some lf ∨
      text[granule.logicalOffset + granule.byteLength]? = none) := by
  constructor
  · intro hpos
    rw [h.logicalOffset] at hpos ⊢
    exact lf_before_line h.line hpos
  · refine (line_end h.line).imp_right fun hend => ?_
    rw [length_slice_of_le h.byteLength, ← h.logicalOffset] at hend
    rw [List.getElem?_eq_none_iff]
    omega

theorem IsLineGranule.unclipped {index : Nat} {granule : SearchGranule}
    (h : IsLineGranule entries text index granule) (plan : VerificationPlan) :
    plan.leftEdge text granule = false ∧ plan.rightEdge text granule = false := by
  obtain ⟨hleft, hright⟩ := h.edges
  constructor
  · rw [VerificationPlan.leftEdge]
    rcases Nat.eq_zero_or_pos granule.logicalOffset with hzero | hpos
    · simp [hzero]
    · rw [hleft hpos, Option.any_some, isTokenByte_lf, Bool.and_false]
  · rw [VerificationPlan.rightEdge]
    rcases hright with hlast | hend
    · rw [hlast, Option.any_some, isTokenByte_lf, Bool.and_false, Bool.false_and]
    · rw [hend, Option.any_none, Bool.and_false]

theorem IsLineGranule.isRun {index start stop : Nat} {granule : SearchGranule}
    (h : IsLineGranule entries text index granule)
    (hrun : IsRun isTokenByte (VerificationPlan.granuleText text granule) start stop) :
    IsRun isTokenByte text (granule.logicalOffset + start) (granule.logicalOffset + stop) := by
  rw [h.logicalOffset]
  exact isRun_of_line h.line hrun

/-- Line by line, the tokens are all token hits. -/
theorem CandidateLines.listsTokens
    (h : CandidateLines .token text granules queryKeys candidates found)
    (hnaive : IsNaiveIndex .token entries text granules keys postings) (hnodup : queryKeys.Nodup)
    (hkeys : ∀ key, key ∈ queryKeys ↔
      ∃ word, IsToken query word ∧ key = word.map toAsciiLowercase) :
    ListsTokens text query (found.flatMap fun granule =>
      (tokenSpans (VerificationPlan.granuleText text granule) queryKeys false false).map
        (hitOf granule)) := by
  have hspans : ∀ granule ∈ found, tokenSpans (VerificationPlan.granuleText text granule) queryKeys
      false false = (runMatches (VerificationPlan.granuleText text granule) queryKeys false false
        (runs isTokenByte (VerificationPlan.granuleText text granule))).map
          (matchSpan queryKeys 0) := by
    intro granule hgranule
    obtain ⟨index, hplace, hall⟩ := h.line_of_mem hnaive hgranule
    exact tokenSpans_line (segments_line (List.mem_of_getElem? hplace.line)) hnodup hall
  refine ⟨?_, ?_⟩
  · apply offsets_pairwise (hnaive.ordered h.found h.sorted)
    · intro granule hgranule
      rw [hspans granule hgranule, List.pairwise_map]
      exact (runMatches_pairwise _ _).imp fun hlt => Nat.add_lt_add_left hlt 0
    · intro granule hgranule span hspan
      obtain ⟨index, hplace, -⟩ := h.line_of_mem hnaive hgranule
      rw [hspans granule hgranule] at hspan
      obtain ⟨entry, hentry, rfl⟩ := List.mem_map.mp hspan
      obtain ⟨hrun, -⟩ := mem_runMatches.mp hentry
      have hlt := hrun.start_lt
      have hle := hrun.stop_le
      rw [VerificationPlan.granuleText, length_slice_of_le hplace.byteLength] at hle
      change 0 + entry.2.1 < granule.byteLength
      omega
  · intro start length
    constructor
    · rintro ⟨hit, hhit, rfl, rfl⟩
      obtain ⟨granule, hgranule, hhit⟩ := List.mem_flatMap.mp hhit
      obtain ⟨index, hplace, hall⟩ := h.line_of_mem hnaive hgranule
      rw [hspans granule hgranule, List.map_map] at hhit
      obtain ⟨entry, hentry, rfl⟩ := List.mem_map.mp hhit
      obtain ⟨hrun, hfind⟩ := mem_runMatches.mp hentry
      have hlt := hrun.start_lt
      have hle := hrun.stop_le
      rw [VerificationPlan.granuleText, length_slice_of_le hplace.byteLength] at hle
      -- The hit starts and ends with the run.
      have hstart : (hitOf granule (matchSpan queryKeys 0 entry)).logicalOffset =
          granule.logicalOffset + entry.2.1 := congrArg _ (Nat.zero_add _)
      have hlength : (hitOf granule (matchSpan queryKeys 0 entry)).byteLength =
          entry.2.2 - entry.2.1 := by
        change 0 + entry.2.2 - (0 + entry.2.1) = _
        omega
      have hstop : granule.logicalOffset + entry.2.1 + (entry.2.2 - entry.2.1) =
          granule.logicalOffset + entry.2.2 := by
        omega
      rw [Function.comp_apply, hstart, hlength, hstop]
      refine ⟨hplace.isRun hrun, ?_, index, _, hplace.line, ?_, ?_, ?_⟩
      · obtain ⟨hindex, hmatches, -⟩ := List.findIdx?_eq_some_iff_getElem.mp hfind
        obtain ⟨word, hword, hkey⟩ := (hkeys _).mp (List.getElem_mem hindex)
        rw [hkey, eqIgnoreAsciiCase_map, VerificationPlan.granuleText,
          slice_slice (by omega)] at hmatches
        refine ⟨word, hword, ?_⟩
        rwa [Nat.add_sub_add_left]
      · rw [hplace.logicalOffset]
        omega
      · rw [length_slice_of_le hplace.byteLength, ← hplace.logicalOffset]
        omega
      · intro word hword
        obtain ⟨token, htoken, heq⟩ := hall _ ((hkeys _).mpr ⟨word, hword, rfl⟩)
        exact ⟨token, htoken, eqIgnoreAsciiCase_iff.mpr heq.symm⟩
    · rintro ⟨hrun, ⟨word, hword, hmatches⟩, index, line, hline, hle, hstop, hall⟩
      have hevery : ∀ key ∈ queryKeys, HasKey .token line key := by
        intro key hkey
        obtain ⟨word, hword, rfl⟩ := (hkeys key).mp hkey
        obtain ⟨token, htoken, heq⟩ := hall word hword
        exact ⟨token, htoken, (eqIgnoreAsciiCase_iff.mp heq).symm⟩
      obtain ⟨granule, hgranule, hplace⟩ := h.exists_of_line hnaive hline hevery
      obtain rfl := Option.some.inj (hline.symm.trans hplace.line)
      rw [length_slice_of_le hplace.byteLength] at hstop
      rw [← hplace.logicalOffset] at hle hstop
      have hlocal : IsRun isTokenByte (VerificationPlan.granuleText text granule)
          (start - granule.logicalOffset) (start + length - granule.logicalOffset) := by
        apply IsRun.slice
        · rwa [Nat.add_sub_of_le hle, Nat.add_sub_of_le (by omega)]
        · exact hplace.byteLength
        · omega
      -- The run is a key of the query, so it has a first match among the keys.
      have hfind : ∃ key, queryKeys.findIdx? (eqIgnoreAsciiCase
          (slice (VerificationPlan.granuleText text granule) (start - granule.logicalOffset)
            (start + length - granule.logicalOffset - (start - granule.logicalOffset)))) =
              some key := by
        rw [← Option.isSome_iff_exists, List.findIdx?_isSome, List.any_eq_true]
        refine ⟨word.map toAsciiLowercase, (hkeys _).mpr ⟨word, hword, rfl⟩, ?_⟩
        rw [eqIgnoreAsciiCase_map, VerificationPlan.granuleText, slice_slice (by omega),
          Nat.add_sub_of_le hle]
        rw [show start + length - granule.logicalOffset - (start - granule.logicalOffset) =
          start + length - start by omega]
        exact hmatches
      obtain ⟨key, hfind⟩ := hfind
      refine ⟨hitOf granule (matchSpan queryKeys 0 (key, start - granule.logicalOffset,
        start + length - granule.logicalOffset)), ?_, ?_, ?_⟩
      · apply List.mem_flatMap.mpr
        refine ⟨granule, hgranule, ?_⟩
        rw [hspans granule hgranule]
        exact List.mem_map_of_mem (List.mem_map_of_mem (mem_runMatches.mpr ⟨hlocal, hfind⟩))
      · change granule.logicalOffset + (0 + (start - granule.logicalOffset)) = start
        omega
      · change 0 + (start + length - granule.logicalOffset) -
          (0 + (start - granule.logicalOffset)) = length
        omega

end Text

/-! ## Searches -/

/-- An uncapped search takes the tokens from the lines that have every token of the query. -/
theorem RawTokenIndex.searchImpl_lines {details : SkeletonDetails} {decode : DecodeEntry}
    {text : List UInt8} {index : RawTokenIndex} {query : String} {options : SearchOptions}
    {readRangeCached : RangeRead} {report : SearchReport}
    (hindex : IndexOf details decode .token text index.granules index.terms index.postings)
    (hreads : ReadsChunksOf details decode readRangeCached)
    (hsome : ∃ word, IsToken (textBytes query) word)
    (h : index.searchImpl details query options readRangeCached = .ok report)
    (huncapped : report.capped = false) :
    ∃ queryKeys candidates found, queryKeys.Nodup ∧
      (∀ key, key ∈ queryKeys ↔
        ∃ word, IsToken (textBytes query) word ∧ key = word.map toAsciiLowercase) ∧
      CandidateLines .token text index.granules queryKeys candidates found ∧
      report.hits = found.flatMap fun granule =>
        (tokenSpans (VerificationPlan.granuleText text granule) queryKeys false false).map
          (hitOf granule) := by
  rw [RawTokenIndex.searchImpl] at h
  obtain ⟨queryKeys, hkeys, h⟩ := bind_eq_ok_iff.mp h
  obtain ⟨hnodup, hmem⟩ := uniqueQueryKeys_eq_ok hkeys
  have hne : queryKeys ≠ [] := by
    obtain ⟨word, hword⟩ := hsome
    exact List.ne_nil_of_mem ((hmem _).mpr ⟨word, hword, rfl⟩)
  obtain ⟨termLookups, -, h⟩ := bind_eq_ok_iff.mp h
  dsimp only at h
  rw [if_neg hne] at h
  obtain ⟨result, hlookup, h⟩ := bind_eq_ok_iff.mp h
  rcases lookupKeys_eq_ok rfl hlookup with
    ⟨missing, hmissing, hnone, hresult⟩ | ⟨hresult, indexes, hindexes, hpairs⟩
  · rw [hresult] at h
    cases h
    refine ⟨queryKeys, [], [], hnodup, hmem, ?_, rfl⟩
    exact candidateLines_nil hmissing (hindex.naive.not_hasKey hnone)
  · rw [hresult] at h
    obtain ⟨_, -, h⟩ := bind_eq_ok_iff.mp h
    have hserves := @memoryPlan_serves index.granules details
      (fun decoded limit left right => verifiedSpans decoded queryKeys limit left right) true
      readRangeCached options text (fun bytes left right => tokenSpans bytes queryKeys left right)
      decode hindex.cuts hindex.size hreads fun bytes limit left right =>
        verifiedSpans_eq bytes queryKeys limit left right
    obtain ⟨-, candidates, found, hcandidates, hfound, hhits⟩ :=
      searchCandidates_eq_ok hserves h huncapped
    rw [hindexes] at hcandidates
    obtain ⟨hsorted, hlines⟩ :=
      hindex.naive.candidates hne hpairs (List.mergeSort_perm _ _) hcandidates
    have hcandidateLines : CandidateLines .token text index.granules queryKeys candidates found :=
      ⟨hsorted, hlines, hfound⟩
    refine ⟨queryKeys, candidates, found, hnodup, hmem, hcandidateLines, ?_⟩
    rw [hhits]
    -- The probes at the edges of a line find no token.
    apply List.flatMap_congr
    intro granule hgranule
    obtain ⟨id, hplace, -⟩ := hcandidateLines.line_of_mem hindex.naive hgranule
    obtain ⟨hleft, hright⟩ := hplace.unclipped (memoryPlan index.granules details
      (fun decoded limit left right => verifiedSpans decoded queryKeys limit left right) true
      readRangeCached options)
    rw [VerificationPlan.confirmed, hleft, hright]

/-- Token search is exact.  For every container, every token index that is built over it, every
query with at least one token and all options, an uncapped report of the two searches lists the
maximal token runs of the text that are a token of the query, up to the case of ASCII letters, on
the lines where all its tokens occur: each of them once, in ascending order. -/
theorem tokenSearch_exact {env : Env} {bytes : List UInt8} {limits : ResourceLimits}
    {reader : QztReader} (served : FaithfulSource bytes)
    (hopen : QztReader.openWithLimits env bytes limits = .ok reader)
    {options : TokenIndexBuildOptions} {index : RawTokenIndex}
    (hbuild : RawTokenIndex.buildFromFile env (served.fileReader reader.details) options =
      .ok index) {query : String} (hsome : ∃ word, IsToken (textBytes query) word)
    {searchOptions : SearchOptions} {report : SearchReport}
    (hsearch : index.search env reader query searchOptions = .ok report ∨
      index.searchFile env (served.fileReader reader.details) query searchOptions = .ok report)
    (huncapped : report.capped = false) :
    ListsTokens (reader.originalText env) (textBytes query) report.hits := by
  obtain ⟨built, hbuilt, hgranules, hterms, hpostings, -⟩ := buildFromFile_token hbuild
  have hindex := indexOf_of_buildEncoded served hopen (by decide) hbuilt
  rw [hgranules, hterms, hpostings] at hindex
  obtain ⟨readRangeCached, hreads, hrun⟩ := readsChunksOf_either served hopen hsearch
  obtain ⟨queryKeys, candidates, found, hnodup, hkeys, hcandidates, hhits⟩ :=
    RawTokenIndex.searchImpl_lines hindex hreads hsome hrun huncapped
  rw [hhits]
  exact hcandidates.listsTokens hindex.naive hnodup hkeys

/-! ## Three lines -/

/-- A container, a token index over it and a search in it. -/
def runTokenSearch (container : List UInt8) (query : String) :
    Result (QztReader × RawTokenIndex × SearchReport) := do
  let reader ← QztReader.openWithLimits Reference.env container .default
  let fileReader : QztFileReader :=
    { source := memorySource container, len := container.length, details := reader.details }
  let index ← RawTokenIndex.buildFromFile Reference.env fileReader {}
  let report ← index.searchFile Reference.env fileReader query {}
  return (reader, index, report)

/-- What a search shows: the text, the hits, and whether a limit stopped it. -/
def tokenSearchOutcome (container : List UInt8) (query : String) :
    Result (List UInt8 × List (Nat × Nat) × Bool) := do
  let (reader, _, report) ← runTokenSearch container query
  return (reader.originalText Reference.env,
    report.hits.map fun hit => (hit.logicalOffset, hit.byteLength), report.capped)

set_option maxRecDepth 100000 in
theorem tokenSearchOutcome_staleContainer :
    tokenSearchOutcome staleContainer "BETA" =
      .ok (textBytes "alpha\nbeta\ngamma\n", [(6, 4)], false) ∧
    staleContainer.length < 2 ^ 64 := by
  simp only [tokenSearchOutcome, runTokenSearch, RawTokenIndex.searchFile,
    RawTokenIndex.searchImpl, searchCandidates, countCandidateChunks, countChunkSpans,
    mergeSort_by_eq_insertion]
  decide +kernel

/-- The word on the second line, asked for in capitals. -/
theorem tokenSearch_exact_staleContainer : ∃ reader index report,
    QztReader.openWithLimits Reference.env staleContainer .default = .ok reader ∧
    RawTokenIndex.buildFromFile Reference.env
      { source := memorySource staleContainer, len := staleContainer.length,
        details := reader.details } {} = .ok index ∧
    index.searchFile Reference.env
      { source := memorySource staleContainer, len := staleContainer.length,
        details := reader.details } "BETA" {} = .ok report ∧
    report.hits.map (fun hit => (hit.logicalOffset, hit.byteLength)) = [(6, 4)] ∧
    ListsTokens (textBytes "alpha\nbeta\ngamma\n") (textBytes "BETA") report.hits := by
  obtain ⟨houtcome, hlt⟩ := tokenSearchOutcome_staleContainer
  obtain ⟨⟨reader, index, report⟩, hrun, houtcome⟩ := bind_eq_ok_iff.mp houtcome
  obtain ⟨_, hopen, hrun⟩ := bind_eq_ok_iff.mp hrun
  obtain ⟨_, hbuild, hrun⟩ := bind_eq_ok_iff.mp hrun
  obtain ⟨_, hsearch, hrun⟩ := bind_eq_ok_iff.mp hrun
  cases hrun
  dsimp only at houtcome
  rw [pure_eq_ok, Except.ok.injEq, Prod.mk.injEq, Prod.mk.injEq] at houtcome
  obtain ⟨htext, hhits, hcapped⟩ := houtcome
  have hword : ∃ word, IsToken (textBytes "BETA") word :=
    ⟨_, 0, 4, mem_runs_iff.mp (by decide), rfl⟩
  have hexact := tokenSearch_exact (servedInMemory staleContainer hlt) hopen hbuild hword
    (.inr hsearch) hcapped
  rw [htext] at hexact
  exact ⟨reader, index, report, hopen, hbuild, hsearch, hhits, hexact⟩

end Qzt
