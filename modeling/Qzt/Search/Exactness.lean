import Qzt.Search.Lookup
import Qzt.Search.Matchers
import Qzt.Search.Verification

/-!
# Searches are exact

A report that no limit stopped holds what the text confirms in the candidate lines, line
by line.  A query that fits into a line occurs in the text exactly where it occurs in a
line, and that line has all keys of the query, so an n-gram search misses no occurrence
and reports none twice.  The same holds for the tokens of a token search.
-/

namespace Qzt

open Foundation

/-! ## The report -/

section Report

variable {granules : List SearchGranule} {details : SkeletonDetails} {spansFor : SpanMatcher}
  {tokenBoundaries : Bool} {readRangeCached : RangeRead} {options : SearchOptions}
  {text : List UInt8} {all : List UInt8 → Bool → Bool → List TokenSpan}

/-- The verification of a search in memory. -/
def memoryPlan (granules : List SearchGranule) (details : SkeletonDetails) (spansFor : SpanMatcher)
    (tokenBoundaries : Bool) (readRangeCached : RangeRead) (options : SearchOptions) :
    VerificationPlan where
  entries := details.chunkEntries
  originalSize := details.summary.originalSize
  granuleAt := fun granuleId => do
    let granuleIndex ← u64ToUsize granuleId
    okOr .containerCorrupt granules[granuleIndex]?
  readRangeCached := readRangeCached
  spansFor := spansFor
  tokenBoundaries := tokenBoundaries
  options := options

/-- The reads of a search are those of a chunk table. -/
def ReadsChunksOf (details : SkeletonDetails) (decode : DecodeEntry) (readRangeCached : RangeRead) :
    Prop :=
  ∀ offset length cache, readRangeCached offset length cache =
    readRangeFromEntriesCached details.chunkEntries details.summary.originalSize offset length cache
      decode

theorem memoryPlan_serves {decode : DecodeEntry} (hcuts : CutsInto details.chunkEntries decode text)
    (hsize : text.length = details.summary.originalSize)
    (hreads : ReadsChunksOf details decode readRangeCached)
    (hspans : ∀ bytes limit left right, spansFor bytes limit left right =
      (all bytes left right).take limit) :
    (memoryPlan granules details spansFor tokenBoundaries readRangeCached options).Serves text
      all where
  length := hsize
  reads := by
    intro offset length cache result hcache h
    have hagrees := originalText_agrees hcuts.layout hcuts.length
    rw [hcuts.text] at hagrees
    have hlayout := hcuts.layout
    rw [hsize] at hlayout
    change readRangeCached offset length cache = .ok result at h
    rw [hreads] at h
    exact readRangeFromEntriesCached_sound hlayout hagrees hcache h
  spans := hspans

/-- A report that is not capped holds what the text confirms in the candidates. -/
theorem searchCandidates_eq_ok {complete : Bool} {lists : List (List Nat)}
    {metrics : SearchMetrics} {planner : PlannerDecision} {report : SearchReport}
    (hserves : (memoryPlan granules details spansFor tokenBoundaries readRangeCached options).Serves
      text all)
    (h : searchCandidates granules complete details lists spansFor tokenBoundaries readRangeCached
      metrics planner options = .ok report) (huncapped : report.capped = false) :
    report.incompleteReason = none ∧ ∃ candidates found,
      intersectPostings lists options.maxPostingWork = .ok candidates ∧
      List.Forall₂ (fun (id : Nat) granule => granules[id]? = some granule) candidates found ∧
      report.hits = found.flatMap ((memoryPlan granules details spansFor tokenBoundaries
        readRangeCached options).confirmed text all) := by
  rw [searchCandidates] at h
  obtain ⟨candidates, hcandidates, h⟩ := bind_eq_ok_iff.mp h
  obtain ⟨candidateGranules, -, h⟩ := bind_eq_ok_iff.mp h
  obtain ⟨candidateChunks, -, h⟩ := bind_eq_ok_iff.mp h
  dsimp only at h
  split at h
  · cases h
    cases huncapped
  · split at h
    · cases h
      cases huncapped
    · rename_i hresults
      obtain ⟨verification, hverify, h⟩ := bind_eq_ok_iff.mp h
      obtain ⟨verifiedMatches, -, h⟩ := bind_eq_ok_iff.mp h
      cases h
      have hdone : verification.stopReason = none :=
        Option.isNone_iff_eq_none.mp (Option.isSome_eq_false_iff.mp huncapped)
      have hroom : ({} : CandidateVerification).hits.length < options.maxSearchResults :=
        Nat.pos_of_ne_zero hresults
      obtain ⟨found, hfound, hhits⟩ := VerificationPlan.verifyLoop_exact hserves rfl hroom
        (ChunkDecodeCache.holds_new _ _) hverify hdone
      refine ⟨rfl, candidates, found, hcandidates, hfound.imp ?_, ?_⟩
      · intro id granule hgranule
        obtain ⟨index, hindex, hgranule⟩ := bind_eq_ok_iff.mp hgranule
        obtain ⟨-, rfl⟩ := u64ToUsize_eq_ok_iff.mp hindex
        exact okOr_eq_ok_iff.mp hgranule
      · rw [hhits, List.nil_append]

end Report

/-! ## Lines -/

section Lines

variable {text line : List UInt8} {index : Nat}

theorem length_flatten_take_succ {parts : List (List UInt8)} {part : List UInt8}
    (h : parts[index]? = some part) : (parts.take (index + 1)).flatten.length =
      (parts.take index).flatten.length + part.length := by
  rw [List.take_add_one, h, Option.toList_some, List.flatten_append, List.flatten_singleton,
    List.length_append]

/-- Where a line ends the next ones have not begun. -/
theorem line_end_le (h : (lines text)[index]? = some line) {later : Nat} (hlt : index < later) :
    ((lines text).take index).flatten.length + line.length ≤
      ((lines text).take later).flatten.length := by
  rw [← length_flatten_take_succ h]
  obtain ⟨more, hmore⟩ := List.take_prefix_take_left (l := lines text) (show index + 1 ≤ later from hlt)
  rw [← hmore, List.flatten_append, List.length_append]
  exact Nat.le_add_right _ _

/-- A line ends in LF, or with the text. -/
theorem line_end (h : (lines text)[index]? = some line) : line.getLast? = some lf ∨
    ((lines text).take index).flatten.length + line.length = text.length := by
  rcases terminated_of_getElem?_segments h with hterminated | hlast
  · exact .inl hterminated.getLast?
  · have hall : (lines text).take (index + 1) = lines text := by
      apply List.take_of_length_le
      exact Nat.le_of_eq hlast.symm
    rw [← length_flatten_take_succ h, hall, lines, flatten_segments]
    exact .inr rfl

/-- In front of a line that is not the first stands the LF of the line before it. -/
theorem lf_before_line (h : (lines text)[index]? = some line)
    (hpos : 0 < ((lines text).take index).flatten.length) :
    text[((lines text).take index).flatten.length - 1]? = some lf := by
  cases index with
  | zero => exact absurd hpos (Nat.lt_irrefl 0)
  | succ index =>
    have hlt := (List.getElem?_eq_some_iff.mp h).1
    have hbefore := List.getElem?_eq_getElem (Nat.lt_of_succ_lt hlt)
    obtain ⟨hslice, -, -⟩ := slice_line hbefore
    -- The line before is not the last one, so it is terminated.
    have hterminated : Terminated lf (lines text)[index] := by
      rcases terminated_of_getElem?_segments hbefore with hterminated | hlast
      · exact hterminated
      · change index + 1 = (lines text).length at hlast
        omega
    have hlength := List.length_pos_of_ne_nil hterminated.ne_nil
    have hlast := hterminated.getLast?
    rw [List.getLast?_eq_getElem?, ← hslice, getElem?_slice (by
      rw [hslice]
      omega), hslice] at hlast
    rw [length_flatten_take_succ hbefore, Nat.add_sub_assoc hlength, hlast]

/-- The lines of a text are texts. -/
theorem valid_of_mem_lines (hvalid : Utf8.Valid text) (h : line ∈ lines text) :
    Utf8.Valid line := by
  obtain ⟨emitted, rest, hemitted, hrest, rfl⟩ := @exists_terminated_append UInt8 _ lf text
  rw [lines, segments_flatten_append hemitted hrest, List.mem_append] at h
  rcases h with h | h
  · clear hrest
    induction emitted with
    | nil => exact absurd h List.not_mem_nil
    | cons first emitted ih =>
      rw [List.forall_mem_cons] at hemitted
      rw [List.flatten_cons, List.append_assoc] at hvalid
      obtain ⟨hfirst, hbehind⟩ := valid_of_terminated_append hemitted.1 hvalid
      rcases List.mem_cons.mp h with rfl | hlater
      · exact hfirst
      · exact ih hemitted.2 hbehind hlater
  · split at h
    · exact absurd h List.not_mem_nil
    · rw [List.mem_singleton.mp h]
      exact valid_of_flatten_append hemitted hvalid

/-- A line has its LF at the end only. -/
theorem segments_line (h : line ∈ lines text) : segments lf line = [line] := by
  rcases terminated_of_mem_segments h with hterminated | ⟨hne, hnone⟩
  · have happend := segments_append_of_terminated hterminated []
    rwa [List.append_nil] at happend
  · exact segments_of_not_mem hne hnone

theorem getElem?_line_lf (h : line ∈ lines text) {position : Nat}
    (hlf : (line)[position]? = some lf) : position + 1 = line.length := by
  rcases terminated_of_mem_segments h with ⟨body, hbody, rfl⟩ | ⟨-, hnone⟩
  · rw [List.length_append, List.length_singleton]
    rcases Nat.lt_or_ge position body.length with hlt | hge
    · rw [List.getElem?_append_left hlt] at hlf
      exact absurd (List.mem_of_getElem? hlf) hbody
    · have hbound := (List.getElem?_eq_some_iff.mp hlf).1
      rw [List.length_append, List.length_singleton] at hbound
      omega
  · exact absurd (List.mem_of_getElem? hlf) hnone

/-- A piece of the text without LF, except perhaps at its end, lies in one line. -/
theorem exists_line_of_slice {position length : Nat} (hpos : 0 < length)
    (hrange : position + length ≤ text.length)
    (hinner : ∀ i, i + 1 < length → text[position + i]? ≠ some lf) :
    ∃ (index : Nat) (line : List UInt8), (lines text)[index]? = some line ∧
      ((lines text).take index).flatten.length ≤ position ∧
      position + length ≤ ((lines text).take index).flatten.length + line.length := by
  have hall : (lines text).flatten = text := flatten_segments text
  obtain ⟨index, line, hline, hle, hlt⟩ :=
    @exists_part_of_lt UInt8 (lines text) position (by rw [hall]; omega)
  refine ⟨index, line, hline, hle, ?_⟩
  by_contra hbeyond
  rcases line_end hline with hlast | hend
  · -- The LF of the line would be inside the piece.
    obtain ⟨hslice, -, hne⟩ := slice_line hline
    have hlength := List.length_pos_of_ne_nil hne
    rw [List.getLast?_eq_getElem?, ← hslice, getElem?_slice (by
      rw [hslice]
      omega), hslice] at hlast
    apply hinner (((lines text).take index).flatten.length + line.length - 1 - position) (by omega)
    rw [← hlast]
    congr 1
    omega
  · omega

end Lines

/-! ## Hits in ascending order -/

section Order

variable {mode : BuildKeys} {entries : List ChunkEntry} {text : List UInt8}
  {granules found : List SearchGranule} {keys : List (List UInt8)} {postings : List (List Nat)}
  {candidates : List Nat}

/-- The candidates of an index follow each other in the text. -/
theorem IsNaiveIndex.ordered (h : IsNaiveIndex mode entries text granules keys postings)
    (hfound : List.Forall₂ (fun (id : Nat) granule => granules[id]? = some granule) candidates
      found) (hsorted : candidates.Pairwise (· < ·)) :
    found.Pairwise fun a b => a.logicalOffset + a.byteLength ≤ b.logicalOffset := by
  induction hfound with
  | nil => exact List.Pairwise.nil
  | cons hgranule hrest ih =>
    rw [List.pairwise_cons] at hsorted
    refine List.Pairwise.cons ?_ (ih hsorted.2)
    intro later hlater
    obtain ⟨id, hid, hat⟩ := exists_of_forall₂_right hrest hlater
    have hplace := h.granules_at _ _ hgranule
    have hline := hplace.line
    have hle := line_end_le hline (hsorted.1 id hid)
    rwa [length_slice_of_le hplace.byteLength, ← hplace.logicalOffset,
      ← (h.granules_at _ _ hat).logicalOffset] at hle

theorem offsets_pairwise {spans : SearchGranule → List TokenSpan}
    (hordered : found.Pairwise fun a b => a.logicalOffset + a.byteLength ≤ b.logicalOffset)
    (hspans : ∀ granule ∈ found, (spans granule).Pairwise fun a b => a.start < b.start)
    (hinside : ∀ granule ∈ found, ∀ span ∈ spans granule, span.start < granule.byteLength) :
    ((found.flatMap fun granule => (spans granule).map (hitOf granule)).map
      SearchHit.logicalOffset).Pairwise (· < ·) := by
  rw [List.pairwise_map, List.pairwise_flatMap]
  constructor
  · intro granule hgranule
    rw [List.pairwise_map]
    exact (hspans granule hgranule).imp fun hlt => Nat.add_lt_add_left hlt _
  · refine hordered.imp_of_mem ?_
    intro granule later hgranule _ hle hit hhit hit' hhit'
    obtain ⟨span, hspan, rfl⟩ := List.mem_map.mp hhit
    obtain ⟨span', -, rfl⟩ := List.mem_map.mp hhit'
    have hlt := hinside granule hgranule span hspan
    change granule.logicalOffset + span.start < later.logicalOffset + span'.start
    omega

end Order

/-! ## The candidate lines -/

/-- The granules of the lines that have every key of a query. -/
structure CandidateLines (mode : BuildKeys) (text : List UInt8) (granules : List SearchGranule)
    (queryKeys : List (List UInt8)) (candidates : List Nat) (found : List SearchGranule) :
    Prop where
  sorted : candidates.Pairwise (· < ·)
  mem : ∀ id, id ∈ candidates ↔
    ∃ line, (lines text)[id]? = some line ∧ ∀ key ∈ queryKeys, HasKey mode line key
  found : List.Forall₂ (fun (id : Nat) granule => granules[id]? = some granule) candidates found

section Candidates

variable {mode : BuildKeys} {entries : List ChunkEntry} {text : List UInt8}
  {granules found : List SearchGranule} {keys queryKeys : List (List UInt8)}
  {postings : List (List Nat)} {candidates : List Nat}

/-- Where a key is missing there are no candidates. -/
theorem candidateLines_nil {key : List UInt8} (hkey : key ∈ queryKeys)
    (hnone : ∀ line ∈ lines text, ¬ HasKey mode line key) :
    CandidateLines mode text granules queryKeys [] [] where
  sorted := List.Pairwise.nil
  mem := by
    intro id
    constructor
    · exact fun hmem => absurd hmem List.not_mem_nil
    · rintro ⟨line, hline, hall⟩
      exact absurd (hall key hkey) (hnone line (List.mem_of_getElem? hline))
  found := .nil

/-- A candidate granule is a line with every key. -/
theorem CandidateLines.line_of_mem (h : CandidateLines mode text granules queryKeys candidates found)
    (hnaive : IsNaiveIndex mode entries text granules keys postings) {granule : SearchGranule}
    (hgranule : granule ∈ found) : ∃ index, IsLineGranule entries text index granule ∧
      ∀ key ∈ queryKeys, HasKey mode (slice text granule.logicalOffset granule.byteLength) key := by
  obtain ⟨id, hid, hat⟩ := exists_of_forall₂_right h.found hgranule
  have hplace := hnaive.granules_at id granule hat
  obtain ⟨line, hline, hall⟩ := (h.mem id).mp hid
  obtain rfl := Option.some.inj (hline.symm.trans hplace.line)
  exact ⟨id, hplace, hall⟩

/-- A line with every key is a candidate granule. -/
theorem CandidateLines.exists_of_line (h : CandidateLines mode text granules queryKeys candidates
      found) (hnaive : IsNaiveIndex mode entries text granules keys postings) {index : Nat}
    {line : List UInt8} (hline : (lines text)[index]? = some line)
    (hall : ∀ key ∈ queryKeys, HasKey mode line key) :
    ∃ granule ∈ found, IsLineGranule entries text index granule := by
  obtain ⟨granule, hgranule, hat⟩ :=
    exists_of_forall₂_left h.found ((h.mem index).mpr ⟨line, hline, hall⟩)
  exact ⟨granule, hgranule, hnaive.granules_at index granule hat⟩

end Candidates

/-! ## Indexes of a container -/

/-- An index of the text that the chunks of a container decode to. -/
structure IndexOf (details : SkeletonDetails) (decode : DecodeEntry) (mode : BuildKeys)
    (text : List UInt8) (granules : List SearchGranule) (terms : List TermDictionaryEntry)
    (postings : List (List Nat)) : Prop where
  cuts : CutsInto details.chunkEntries decode text
  size : text.length = details.summary.originalSize
  valid : Utf8.Valid text
  naive : IsNaiveIndex mode details.chunkEntries text granules
    (terms.map TermDictionaryEntry.key) postings

section Containers

variable {env : Env} {bytes : List UInt8} {limits : ResourceLimits} {reader : QztReader}

/-- The text of a container. -/
def QztReader.originalText (env : Env) (reader : QztReader) : List UInt8 :=
  Qzt.originalText (reader.decodeEntry env) reader.details.chunkEntries

/-- What is built over an opened container is an index of its text. -/
theorem indexOf_of_buildEncoded (served : FaithfulSource bytes)
    (hopen : QztReader.openWithLimits env bytes limits = .ok reader) {mode : BuildKeys}
    (hmode : mode ≠ .ngram 0) {maxLineBytes : Nat} {buildLimits : IndexBuildLimits}
    {withSkips : Bool} {built : List SearchGranule × EncodedPostingLists × List (List Nat)}
    (h : buildEncoded env reader.details.chunkEntries reader.details.summary.originalSize
      maxLineBytes buildLimits ((served.fileReader reader.details).decodeEntry env) mode withSkips =
        .ok built) :
    IndexOf reader.details (reader.decodeEntry env) mode (reader.originalText env) built.1
      built.2.1.terms built.2.2 := by
  obtain ⟨details, hdetails, hreader⟩ := bind_eq_ok_iff.mp hopen
  obtain rfl := Except.ok.inj hreader
  have hcuts := cutsInto_of_open served hdetails
  rw [served.decodeEntry_eq] at hcuts h
  have hsize : (QztReader.originalText env { bytes, details }).length =
      details.summary.originalSize :=
    hcuts.layout.total.symm.trans (openSkeletonDetailsWithLimits_opened hdetails).layout.total
  dsimp only at h
  rw [← hsize] at h
  obtain ⟨parts, hbuild, -⟩ := bind_eq_ok_iff.mp h
  obtain ⟨granules, terms, postings⟩ := parts
  obtain ⟨-, hdecodes⟩ := buildLineIndexStreaming_indexes hcuts.layout hcuts.length hbuild
  exact ⟨hcuts, hsize, hcuts.valid hdecodes, isNaiveIndex_of_buildEncoded hmode hcuts h⟩

/-- The two readers of a container read the same chunks, whichever of them a search is run on. -/
theorem readsChunksOf_either (served : FaithfulSource bytes)
    (hopen : QztReader.openWithLimits env bytes limits = .ok reader)
    {run : RangeRead → Result SearchReport} {report : SearchReport}
    (h : run (reader.readRangeCached env) = .ok report ∨
      run ((served.fileReader reader.details).readRangeCached env) = .ok report) :
    ∃ readRangeCached, ReadsChunksOf reader.details (reader.decodeEntry env) readRangeCached ∧
      run readRangeCached = .ok report := by
  obtain ⟨details, hdetails, hreader⟩ := bind_eq_ok_iff.mp hopen
  obtain rfl := Except.ok.inj hreader
  rcases h with hmemory | hfile
  · exact ⟨_, fun _ _ _ => rfl, hmemory⟩
  · refine ⟨_, fun offset length cache => ?_, hfile⟩
    rw [QztFileReader.readRangeCached, served.decodeEntry_eq]
    rfl

end Containers

/-! ## Substrings -/

section Substrings

variable {bytes query : List UInt8}

theorem le_of_slice_eq {position : Nat} (hne : query ≠ [])
    (h : slice bytes position query.length = query) : position + query.length ≤ bytes.length := by
  have hpos := List.length_pos_of_ne_nil hne
  have hlength := congrArg List.length h
  rw [length_slice] at hlength
  omega

theorem mem_occurrenceSpans (hne : query ≠ []) {span : TokenSpan} :
    span ∈ occurrenceSpans bytes query ↔ slice bytes span.start query.length = query ∧
      span = { key := query, start := span.start, stop := span.start + query.length } := by
  rw [occurrenceSpans]
  split
  case isTrue hnone =>
    have hlonger := hnone.resolve_left hne
    constructor
    · exact fun hmem => absurd hmem List.not_mem_nil
    · rintro ⟨hslice, -⟩
      have hle := le_of_slice_eq hne hslice
      omega
  case isFalse hfits =>
    rw [List.mem_map]
    constructor
    · rintro ⟨start, hstart, rfl⟩
      rw [occurrences, List.mem_filter, beq_iff_eq] at hstart
      exact ⟨hstart.2, rfl⟩
    · rintro ⟨hslice, hspan⟩
      refine ⟨span.start, ?_, hspan.symm⟩
      have hle := le_of_slice_eq hne hslice
      rw [occurrences, List.mem_filter, List.mem_range, beq_iff_eq]
      exact ⟨by omega, hslice⟩

theorem occurrenceSpans_pairwise (bytes query : List UInt8) :
    (occurrenceSpans bytes query).Pairwise fun a b => a.start < b.start := by
  rw [occurrenceSpans]
  split
  · exact List.Pairwise.nil
  · rw [List.pairwise_map]
    exact List.pairwise_lt_range.filter _

/-- A line in which a query occurs has the windows of the query. -/
theorem isScalarNgram_of_occurrence {line : List UInt8} {scalars : List Char} (hne : scalars ≠ [])
    (hvalid : Utf8.Valid line) {position : Nat}
    (h : slice line position (Utf8.encode scalars).length = Utf8.encode scalars) {index n : Nat}
    (hwindow : index + n ≤ scalars.length) :
    IsScalarNgram n line (Utf8.encode ((scalars.drop index).take n)) := by
  obtain ⟨all, rfl⟩ := hvalid
  have hsplit : Utf8.encode all = (Utf8.encode all).take position ++ Utf8.encode scalars ++
      (Utf8.encode all).drop (position + (Utf8.encode scalars).length) := by
    conv_lhs => rw [← List.take_append_drop position (Utf8.encode all),
      ← List.take_append_drop (Utf8.encode scalars).length ((Utf8.encode all).drop position)]
    rw [List.append_assoc, List.drop_drop]
    congr 2
  -- The query is cut out of the line at scalar boundaries.
  obtain ⟨before, behind, rfl, -, -⟩ := Utf8.encode_eq_append_encode_append hne hsplit
  refine ⟨before ++ scalars.take index, (scalars.drop index).take n,
    (scalars.drop index).drop n ++ behind, ?_, ?_, rfl⟩
  · congr 1
    conv_lhs => rw [← List.take_append_drop index scalars,
      ← List.take_append_drop n (scalars.drop index)]
    simp only [List.append_assoc]
  · rw [List.length_take, List.length_drop]
    omega

/-- The hits of a search are the occurrences of the query in a text, in ascending order. -/
structure ListsOccurrences (text query : List UInt8) (hits : List SearchHit) : Prop where
  ascending : (hits.map SearchHit.logicalOffset).Pairwise (· < ·)
  exact : ∀ position, position ∈ hits.map SearchHit.logicalOffset ↔
    slice text position query.length = query
  byteLength : ∀ hit ∈ hits, hit.byteLength = query.length

variable {entries : List ChunkEntry} {text : List UInt8} {granules found : List SearchGranule}
  {keys queryKeys : List (List UInt8)} {postings : List (List Nat)} {candidates : List Nat} {n : Nat}

/-- What a granule confirms for a substring. -/
theorem mem_confirmed_occurrences {granule : SearchGranule} (hne : query ≠ [])
    (hrange : granule.logicalOffset + granule.byteLength ≤ text.length) {hit : SearchHit} :
    hit ∈ (occurrenceSpans (VerificationPlan.granuleText text granule) query).map (hitOf granule) →
      hit.byteLength = query.length ∧ granule.logicalOffset ≤ hit.logicalOffset ∧
      hit.logicalOffset + query.length ≤ granule.logicalOffset + granule.byteLength ∧
      slice text hit.logicalOffset query.length = query := by
  intro hhit
  obtain ⟨span, hspan, rfl⟩ := List.mem_map.mp hhit
  obtain ⟨hslice, hshape⟩ := (mem_occurrenceSpans hne).mp hspan
  have hle := le_of_slice_eq hne hslice
  rw [VerificationPlan.granuleText, length_slice_of_le hrange] at hle
  rw [VerificationPlan.granuleText, slice_slice hle] at hslice
  refine ⟨?_, Nat.le_add_right _ _, ?_, hslice⟩
  · rw [hshape]
    exact Nat.add_sub_cancel_left _ _
  · change granule.logicalOffset + span.start + query.length ≤ _
    omega

/-- Line by line, the occurrences of a query that fits into a line are all its occurrences. -/
theorem CandidateLines.listsOccurrences {scalars : List Char}
    (h : CandidateLines (.ngram n) text granules queryKeys candidates found)
    (hnaive : IsNaiveIndex (.ngram n) entries text granules keys postings)
    (hvalid : Utf8.Valid text) (hne : scalars ≠ []) (hline : '\n' ∉ scalars.dropLast)
    (hkeys : ∀ key, key ∈ queryKeys ↔ ∃ index, index + n ≤ scalars.length ∧
      key = Utf8.encode ((scalars.drop index).take n)) :
    ListsOccurrences text (Utf8.encode scalars) (found.flatMap fun granule =>
      (occurrenceSpans (VerificationPlan.granuleText text granule) (Utf8.encode scalars)).map
        (hitOf granule)) := by
  have hbytes : Utf8.encode scalars ≠ [] := by
    intro hnil
    exact hne (Utf8.encode_injective (hnil.trans Utf8.encode_nil.symm))
  have hpos := List.length_pos_of_ne_nil hbytes
  have hrange : ∀ granule ∈ found,
      granule.logicalOffset + granule.byteLength ≤ text.length := by
    intro granule hgranule
    obtain ⟨index, hplace, -⟩ := h.line_of_mem hnaive hgranule
    exact hplace.byteLength
  refine ⟨?_, ?_, ?_⟩
  · apply offsets_pairwise (hnaive.ordered h.found h.sorted)
    · exact fun granule _ => occurrenceSpans_pairwise _ _
    · intro granule hgranule span hspan
      have hle := le_of_slice_eq hbytes ((mem_occurrenceSpans hbytes).mp hspan).1
      rw [VerificationPlan.granuleText, length_slice_of_le (hrange granule hgranule)] at hle
      omega
  · intro position
    constructor
    · intro hmem
      obtain ⟨hit, hhit, rfl⟩ := List.mem_map.mp hmem
      obtain ⟨granule, hgranule, hconfirmed⟩ := List.mem_flatMap.mp hhit
      exact (mem_confirmed_occurrences hbytes (hrange granule hgranule) hconfirmed).2.2.2
    · intro hoccurs
      have hend := le_of_slice_eq hbytes hoccurs
      -- The occurrence lies in one line, because its only LF can be its last byte.
      have hinner : ∀ i, i + 1 < (Utf8.encode scalars).length →
          text[position + i]? ≠ some lf := by
        intro i hi hlf
        rw [← getElem?_slice (show i < (Utf8.encode scalars).length by omega), hoccurs] at hlf
        have hmem : lf ∈ (Utf8.encode scalars).dropLast := by
          apply List.mem_iff_getElem?.mpr
          refine ⟨i, ?_⟩
          rw [List.getElem?_dropLast, if_pos (by omega), hlf]
        exact hline ((Utf8.mem_dropLast_encode_iff (by decide) rfl).mp hmem)
      obtain ⟨index, line, hat, hle, hlt⟩ := exists_line_of_slice hpos hend hinner
      obtain ⟨hslice, hbound, -⟩ := slice_line hat
      have hlocal : slice line (position - ((lines text).take index).flatten.length)
          (Utf8.encode scalars).length = Utf8.encode scalars := by
        rw [← hslice, slice_slice (by omega), Nat.add_sub_of_le hle, hoccurs]
      have hall : ∀ key ∈ queryKeys, HasKey (.ngram n) line key := by
        intro key hkey
        obtain ⟨start, hwindow, rfl⟩ := (hkeys key).mp hkey
        exact isScalarNgram_of_occurrence hne
          (valid_of_mem_lines hvalid (List.mem_of_getElem? hat)) hlocal hwindow
      obtain ⟨granule, hgranule, hplace⟩ := h.exists_of_line hnaive hat hall
      obtain rfl := Option.some.inj (hat.symm.trans hplace.line)
      rw [← hplace.logicalOffset] at hlocal hle
      apply List.mem_map.mpr
      refine ⟨hitOf granule { key := Utf8.encode scalars
                              start := position - granule.logicalOffset
                              stop := position - granule.logicalOffset +
                                (Utf8.encode scalars).length }, ?_, ?_⟩
      · apply List.mem_flatMap.mpr
        refine ⟨granule, hgranule, List.mem_map_of_mem ?_⟩
        exact (mem_occurrenceSpans hbytes).mpr ⟨hlocal, rfl⟩
      · exact Nat.add_sub_of_le hle
  · intro hit hhit
    obtain ⟨granule, hgranule, hconfirmed⟩ := List.mem_flatMap.mp hhit
    exact (mem_confirmed_occurrences hbytes (hrange granule hgranule) hconfirmed).1

end Substrings

end Qzt
