import Qzt.Format.Reference
import Qzt.Reader.DenseStarts
import Qzt.Search.Exactness

/-!
# N-gram search

A query without LF before its last scalar is searched exactly.  A query that spans lines
is in no line, so it is never found; the index still counts as complete, and the empty
report gives no reason.
-/

namespace Qzt

open Foundation

section Search

variable {details : SkeletonDetails} {decode : DecodeEntry} {text : List UInt8}
  {index : RawNgramIndex} {query : String} {options : SearchOptions} {readRangeCached : RangeRead}
  {report : SearchReport}

/-- An uncapped search takes the occurrences from the lines that have every window of the
query. -/
theorem RawNgramIndex.searchImpl_lines
    (hindex : IndexOf details decode (.ngram index.declaration.n) text index.granules index.terms
      index.postings) (hreads : ReadsChunksOf details decode readRangeCached)
    (hlong : index.declaration.n ≤ query.toList.length)
    (h : index.searchImpl details query options readRangeCached = .ok report)
    (huncapped : report.capped = false) :
    ∃ queryKeys candidates found, (∀ key, key ∈ queryKeys ↔ ∃ start,
        start + index.declaration.n ≤ query.toList.length ∧
        key = Utf8.encode ((query.toList.drop start).take index.declaration.n)) ∧
      CandidateLines (.ngram index.declaration.n) text index.granules queryKeys candidates found ∧
      (report.hits = found.flatMap fun granule =>
        (occurrenceSpans (VerificationPlan.granuleText text granule) (textBytes query)).map
          (hitOf granule)) ∧
      (report.incompleteReason = none ∨
        report.incompleteReason = missingKeyReason index.complete) := by
  rw [RawNgramIndex.searchImpl] at h
  obtain ⟨queryKeys, hkeys, h⟩ := bind_eq_ok_iff.mp h
  obtain ⟨-, hmem⟩ := ngramKeysForQuery_eq_ok hlong hkeys
  -- The window at the start is a key.
  have hne : queryKeys ≠ [] := by
    apply List.ne_nil_of_mem
    exact (hmem _).mpr ⟨0, by rwa [Nat.zero_add], rfl⟩
  obtain ⟨termLookups, -, h⟩ := bind_eq_ok_iff.mp h
  dsimp only at h
  rw [if_neg hne] at h
  obtain ⟨result, hlookup, h⟩ := bind_eq_ok_iff.mp h
  rcases lookupKeys_eq_ok rfl hlookup with
    ⟨missing, hmissing, hnone, hresult⟩ | ⟨hresult, indexes, hindexes, hpairs⟩
  · rw [hresult] at h
    cases h
    refine ⟨queryKeys, [], [], hmem, ?_, rfl, .inr rfl⟩
    exact candidateLines_nil hmissing (hindex.naive.not_hasKey hnone)
  · rw [hresult] at h
    obtain ⟨postingBytesRead, -, h⟩ := bind_eq_ok_iff.mp h
    obtain ⟨_, -, h⟩ := bind_eq_ok_iff.mp h
    have hserves := @memoryPlan_serves index.granules details
      (fun decoded limit _ _ => substringSpans decoded (textBytes query) limit) false
      readRangeCached options text (fun bytes _ _ => occurrenceSpans bytes (textBytes query)) decode
      hindex.cuts hindex.size hreads fun bytes limit _ _ => substringSpans_eq bytes _ limit
    obtain ⟨hreason, candidates, found, hcandidates, hfound, hhits⟩ :=
      searchCandidates_eq_ok hserves h huncapped
    rw [hindexes] at hcandidates
    obtain ⟨hsorted, hlines⟩ :=
      hindex.naive.candidates hne hpairs (List.mergeSort_perm _ _) hcandidates
    exact ⟨queryKeys, candidates, found, hmem, ⟨hsorted, hlines, hfound⟩, hhits, .inl hreason⟩

/-- A query with an LF before its end occurs in no line. -/
theorem occurrenceSpans_of_lineBreak (hbreak : '\n' ∈ query.toList.dropLast) {line : List UInt8}
    (hline : line ∈ lines text) : occurrenceSpans line (textBytes query) = [] := by
  have hmem : lf ∈ (textBytes query).dropLast := by
    rw [textBytes_eq]
    exact (Utf8.mem_dropLast_encode_iff (by decide) rfl).mpr hbreak
  have hne : textBytes query ≠ [] := by
    intro hnil
    rw [hnil] at hmem
    exact List.not_mem_nil hmem
  obtain ⟨position, hposition⟩ := List.mem_iff_getElem?.mp hmem
  obtain ⟨hlt, hlf⟩ := List.getElem?_eq_some_iff.mp hposition
  rw [List.length_dropLast] at hlt
  rw [List.getElem_dropLast] at hlf
  apply List.eq_nil_iff_forall_not_mem.mpr
  intro span hspan
  obtain ⟨hslice, -⟩ := (mem_occurrenceSpans hne).mp hspan
  have hle := le_of_slice_eq hne hslice
  have hinside : (line)[span.start + position]? = some lf := by
    rw [← getElem?_slice (show position < (textBytes query).length by omega), hslice, ← hlf]
    exact List.getElem?_eq_getElem _
  have hend := getElem?_line_lf hline hinside
  omega

end Search

/-! ## Searches over a container -/

section Containers

variable {env : Env} {bytes : List UInt8} {limits : ResourceLimits} {reader : QztReader}

/-- An n-gram index that is built over an opened container. -/
theorem indexOf_ngram (served : FaithfulSource bytes)
    (hopen : QztReader.openWithLimits env bytes limits = .ok reader)
    {options : NgramIndexBuildOptions} {index : RawNgramIndex}
    (hbuild : RawNgramIndex.buildFromFile env (served.fileReader reader.details) options =
      .ok index) :
    index.declaration.n = options.n ∧ index.complete = options.complete ∧
      IndexOf reader.details (reader.decodeEntry env) (.ngram options.n) (reader.originalText env)
        index.granules index.terms index.postings := by
  obtain ⟨hn, built, hbuilt, hgranules, hterms, hpostings, -, hwidth, hcomplete⟩ :=
    buildFromFile_ngram hbuild
  have hmode : BuildKeys.ngram options.n ≠ .ngram 0 := by
    intro hzero
    exact hn (BuildKeys.ngram.inj hzero)
  have hindex := indexOf_of_buildEncoded served hopen hmode hbuilt
  rw [hgranules, hterms, hpostings] at hindex
  exact ⟨hwidth, hcomplete, hindex⟩

/-- N-gram search is exact on single-line queries.  For every container, every n-gram index that is
built over it, every query of at least `n` scalars with no LF except perhaps as its last one, and
all options, an uncapped report of the two searches lists the occurrences of the query in the text:
every position once, in ascending order. -/
theorem ngramSearch_exact (served : FaithfulSource bytes)
    (hopen : QztReader.openWithLimits env bytes limits = .ok reader)
    {options : NgramIndexBuildOptions} {index : RawNgramIndex}
    (hbuild : RawNgramIndex.buildFromFile env (served.fileReader reader.details) options =
      .ok index) {query : String} (hlong : options.n ≤ query.toList.length)
    (hline : '\n' ∉ query.toList.dropLast) {searchOptions : SearchOptions} {report : SearchReport}
    (hsearch : index.search env reader query searchOptions = .ok report ∨
      index.searchFile env (served.fileReader reader.details) query searchOptions = .ok report)
    (huncapped : report.capped = false) :
    ListsOccurrences (reader.originalText env) (textBytes query) report.hits := by
  obtain ⟨hwidth, -, hindex⟩ := indexOf_ngram served hopen hbuild
  have hn : 0 < options.n := Nat.pos_of_ne_zero (buildFromFile_ngram hbuild).1
  have hne : query.toList ≠ [] := by
    intro hnil
    rw [hnil, List.length_nil] at hlong
    omega
  obtain ⟨readRangeCached, hreads, hrun⟩ := readsChunksOf_either served hopen hsearch
  rw [← hwidth] at hindex hlong
  obtain ⟨queryKeys, candidates, found, hkeys, hcandidates, hhits, -⟩ :=
    RawNgramIndex.searchImpl_lines hindex hreads hlong hrun huncapped
  rw [hhits, textBytes_eq]
  exact hcandidates.listsOccurrences hindex.naive hindex.valid hne hline hkeys

/-- A report answers for an occurrence: it lists it, or gives a reason for being incomplete. -/
def SearchReport.AnswersFor (report : SearchReport) (position length : Nat) : Prop :=
  (∃ hit ∈ report.hits, hit.logicalOffset = position ∧ hit.byteLength = length) ∨
    report.incompleteReason ≠ none

/-- A complete index is silent about multi-line queries.  For every container, every n-gram index
that is built over it as complete, and every query of at least `n` scalars with an LF before its
last one, an uncapped report answers for no occurrence: it has no hits and gives no reason. -/
theorem ngramSearch_silent (served : FaithfulSource bytes)
    (hopen : QztReader.openWithLimits env bytes limits = .ok reader)
    {options : NgramIndexBuildOptions} {index : RawNgramIndex}
    (hbuild : RawNgramIndex.buildFromFile env (served.fileReader reader.details) options =
      .ok index) (hcomplete : options.complete = true) {query : String}
    (hlong : options.n ≤ query.toList.length) (hbreak : '\n' ∈ query.toList.dropLast)
    {searchOptions : SearchOptions} {report : SearchReport}
    (hsearch : index.search env reader query searchOptions = .ok report ∨
      index.searchFile env (served.fileReader reader.details) query searchOptions = .ok report)
    (huncapped : report.capped = false) (position : Nat) :
    ¬ report.AnswersFor position (textBytes query).length := by
  obtain ⟨hwidth, hdeclared, hindex⟩ := indexOf_ngram served hopen hbuild
  obtain ⟨readRangeCached, hreads, hrun⟩ := readsChunksOf_either served hopen hsearch
  rw [← hwidth] at hindex hlong
  obtain ⟨queryKeys, candidates, found, -, hcandidates, hhits, hreason⟩ :=
    RawNgramIndex.searchImpl_lines hindex hreads hlong hrun huncapped
  have hnone : report.hits = [] := by
    rw [hhits, List.flatMap_eq_nil_iff]
    intro granule hgranule
    obtain ⟨id, hplace, -⟩ := hcandidates.line_of_mem hindex.naive hgranule
    rw [VerificationPlan.granuleText,
      occurrenceSpans_of_lineBreak hbreak (List.mem_of_getElem? hplace.line), List.map_nil]
  rw [hdeclared, hcomplete, missingKeyReason, if_pos rfl, or_self] at hreason
  rintro (⟨hit, hhit, -⟩ | hgiven)
  · rw [hnone] at hhit
    exact List.not_mem_nil hhit
  · exact hgiven hreason

end Containers

/-! ## Three lines -/

/-- A container, an n-gram index over it and a search in it. -/
def runNgramSearch (container : List UInt8) (options : NgramIndexBuildOptions) (query : String) :
    Result (QztReader × RawNgramIndex × SearchReport) := do
  let reader ← QztReader.openWithLimits Reference.env container .default
  let fileReader : QztFileReader :=
    { source := memorySource container, len := container.length, details := reader.details }
  let index ← RawNgramIndex.buildFromFile Reference.env fileReader options
  let report ← index.searchFile Reference.env fileReader query {}
  return (reader, index, report)

/-- What a search shows: the text, the offsets of its hits, whether a limit stopped it, and the
reason that it gives. -/
def ngramSearchOutcome (container : List UInt8) (options : NgramIndexBuildOptions) (query : String) :
    Result (List UInt8 × List Nat × Bool × Option String) := do
  let (reader, _, report) ← runNgramSearch container options query
  return (reader.originalText Reference.env, report.hits.map SearchHit.logicalOffset, report.capped,
    report.incompleteReason)

set_option maxRecDepth 100000 in
theorem ngramSearchOutcome_staleContainer :
    ngramSearchOutcome staleContainer { n := 2 } "a\n" =
        .ok (textBytes "alpha\nbeta\ngamma\n", [4, 9, 15], false, none) ∧
    ngramSearchOutcome staleContainer {} "pha\nbe" =
        .ok (textBytes "alpha\nbeta\ngamma\n", [], false, none) ∧
    staleContainer.length < 2 ^ 64 := by
  simp only [ngramSearchOutcome, runNgramSearch, RawNgramIndex.searchFile, RawNgramIndex.searchImpl,
    searchCandidates, countCandidateChunks, countChunkSpans, mergeSort_rarestFirst,
    mergeSort_by_eq_insertion]
  decide +kernel

theorem runNgramSearch_of_outcome {container : List UInt8} {options : NgramIndexBuildOptions}
    {query : String} {outcome : List UInt8 × List Nat × Bool × Option String}
    (h : ngramSearchOutcome container options query = .ok outcome) : ∃ reader index report,
      QztReader.openWithLimits Reference.env container .default = .ok reader ∧
      RawNgramIndex.buildFromFile Reference.env
        { source := memorySource container, len := container.length, details := reader.details }
        options = .ok index ∧
      index.searchFile Reference.env
        { source := memorySource container, len := container.length, details := reader.details }
        query {} = .ok report ∧
      reader.originalText Reference.env = outcome.1 ∧
      report.hits.map SearchHit.logicalOffset = outcome.2.1 ∧ report.capped = outcome.2.2.1 ∧
      report.incompleteReason = outcome.2.2.2 := by
  obtain ⟨⟨reader, index, report⟩, hrun, houtcome⟩ := bind_eq_ok_iff.mp h
  obtain ⟨_, hreader, hrun⟩ := bind_eq_ok_iff.mp hrun
  obtain ⟨_, hindex, hrun⟩ := bind_eq_ok_iff.mp hrun
  obtain ⟨_, hreport, hrun⟩ := bind_eq_ok_iff.mp hrun
  cases hrun
  cases houtcome
  exact ⟨reader, index, report, hreader, hindex, hreport, rfl, rfl, rfl, rfl⟩

/-- The ends of the three lines, each with its LF. -/
theorem ngramSearch_exact_staleContainer : ∃ reader index report,
    QztReader.openWithLimits Reference.env staleContainer .default = .ok reader ∧
    RawNgramIndex.buildFromFile Reference.env
      { source := memorySource staleContainer, len := staleContainer.length,
        details := reader.details } { n := 2 } = .ok index ∧
    index.searchFile Reference.env
      { source := memorySource staleContainer, len := staleContainer.length,
        details := reader.details } "a\n" {} = .ok report ∧
    report.hits.map SearchHit.logicalOffset = [4, 9, 15] ∧
    ListsOccurrences (textBytes "alpha\nbeta\ngamma\n") (textBytes "a\n") report.hits := by
  obtain ⟨hsingle, -, hlt⟩ := ngramSearchOutcome_staleContainer
  obtain ⟨reader, index, report, hopen, hbuild, hsearch, htext, hoffsets, hcapped, -⟩ :=
    runNgramSearch_of_outcome hsingle
  have hexact := ngramSearch_exact (servedInMemory staleContainer hlt) hopen hbuild (by decide)
    (by decide) (.inr hsearch) hcapped
  rw [htext] at hexact
  exact ⟨reader, index, report, hopen, hbuild, hsearch, hoffsets, hexact⟩

/-- The end of the first line with the beginning of the second. -/
theorem ngramSearch_silent_staleContainer : ∃ reader index report,
    QztReader.openWithLimits Reference.env staleContainer .default = .ok reader ∧
    RawNgramIndex.buildFromFile Reference.env
      { source := memorySource staleContainer, len := staleContainer.length,
        details := reader.details } {} = .ok index ∧
    index.searchFile Reference.env
      { source := memorySource staleContainer, len := staleContainer.length,
        details := reader.details } "pha\nbe" {} = .ok report ∧
    ¬ report.AnswersFor 2 (textBytes "pha\nbe").length := by
  obtain ⟨-, hmulti, hlt⟩ := ngramSearchOutcome_staleContainer
  obtain ⟨reader, index, report, hopen, hbuild, hsearch, -, -, hcapped, -⟩ :=
    runNgramSearch_of_outcome hmulti
  exact ⟨reader, index, report, hopen, hbuild, hsearch,
    ngramSearch_silent (servedInMemory staleContainer hlt) hopen hbuild rfl (by decide) (by decide)
      (.inr hsearch) hcapped 2⟩

/-- The query occurs at offset 2, and the complete index neither finds it nor gives a reason. -/
theorem ngramSearch_lineBreak : ∃ reader index report,
    QztReader.openWithLimits Reference.env staleContainer .default = .ok reader ∧
    RawNgramIndex.buildFromFile Reference.env
      { source := memorySource staleContainer, len := staleContainer.length,
        details := reader.details } {} = .ok index ∧ index.complete = true ∧
    index.searchFile Reference.env
      { source := memorySource staleContainer, len := staleContainer.length,
        details := reader.details } "pha\nbe" {} = .ok report ∧ report.capped = false ∧
    slice (reader.originalText Reference.env) 2 6 = textBytes "pha\nbe" ∧
    report.hits = [] ∧ report.incompleteReason = none ∧ ¬ report.AnswersFor 2 6 := by
  obtain ⟨-, hmulti, hlt⟩ := ngramSearchOutcome_staleContainer
  obtain ⟨reader, index, report, hopen, hbuild, hsearch, htext, hoffsets, hcapped, hreason⟩ :=
    runNgramSearch_of_outcome hmulti
  obtain ⟨-, -, -, -, -, -, -, -, hcomplete⟩ := buildFromFile_ngram hbuild
  have hhits : report.hits = [] := List.map_eq_nil_iff.mp hoffsets
  refine ⟨reader, index, report, hopen, hbuild, hcomplete, hsearch, hcapped, ?_, hhits, hreason, ?_⟩
  · rw [htext]
    decide
  · rintro (⟨hit, hhit, -⟩ | hgiven)
    · rw [hhits] at hhit
      exact List.not_mem_nil hhit
    · exact hgiven hreason

end Qzt
