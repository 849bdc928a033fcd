import Qzt.Search.TokenSearch

/-!
# Hits are true whatever the granules are

The granules of an untrusted index are any ranges of the text: they may clip a token at
either edge, span lines, overlap, and cross chunks.  The probes at the edges tell whether a
token goes on outside, and the matcher looks at each line of a range by itself.  So a range
confirms only tokens of the text, and only those on a line with every token of the query.
-/

namespace Qzt

open Foundation

/-! ## Spans of a range -/

section Spans

variable {queryKeys : List (List UInt8)} {leftContinues rightContinues : Bool}

/-- A span of some lines is a span of one of them. -/
theorem mem_spansFrom {length : Nat} {parts : List (List UInt8)} {lineStart : Nat}
    {span : TokenSpan}
    (h : span ∈ spansFrom length queryKeys leftContinues rightContinues parts lineStart) :
    ∃ (index : Nat) (line : List UInt8) (start : Nat), parts[index]? = some line ∧
      start = lineStart + (parts.take index).flatten.length ∧
      span ∈ lineSpans queryKeys (start == 0 && leftContinues)
        (start + line.length == length && rightContinues) start line := by
  induction parts generalizing lineStart with
  | nil => exact absurd h List.not_mem_nil
  | cons line parts ih =>
    rw [spansFrom, List.mem_append] at h
    rcases h with hhere | hlater
    · exact ⟨0, line, lineStart, rfl, rfl, hhere⟩
    · obtain ⟨index, found, start, hfound, hstart, hspan⟩ := ih hlater
      refine ⟨index + 1, found, start, hfound, ?_, hspan⟩
      rw [hstart, List.take_succ_cons, List.flatten_cons, List.length_append, Nat.add_assoc]

/-- A span of a line is one of its matches, and each key of the query has a match there. -/
theorem mem_lineSpans {lineStart : Nat} {line : List UInt8} {span : TokenSpan}
    (h : span ∈ lineSpans queryKeys leftContinues rightContinues lineStart line) :
    EveryKey queryKeys
        (runMatches line queryKeys leftContinues rightContinues (runs isTokenByte line)) ∧
      ∃ entry ∈ runMatches line queryKeys leftContinues rightContinues (runs isTokenByte line),
        span = matchSpan queryKeys lineStart entry := by
  rw [lineSpans] at h
  split at h
  · rename_i hevery
    obtain ⟨entry, hentry, hspan⟩ := List.mem_map.mp h
    exact ⟨hevery, entry, hentry, hspan.symm⟩
  · exact absurd h List.not_mem_nil

end Spans

/-! ## Runs at the edges of a range -/

section Edges

variable {plan : VerificationPlan} {text query : List UInt8} {queryKeys : List (List UInt8)}
  {granule : SearchGranule}

/-- A run of a range that no edge clips is a run of the text. -/
theorem isRun_of_unclipped (hboundaries : plan.tokenBoundaries = true)
    (hrange : granule.logicalOffset + granule.byteLength ≤ text.length) {start stop : Nat}
    (hrun : IsRun isTokenByte (VerificationPlan.granuleText text granule) start stop)
    (hleft : start = 0 → plan.leftEdge text granule = false)
    (hright : stop = granule.byteLength → plan.rightEdge text granule = false) :
    IsRun isTokenByte text (granule.logicalOffset + start) (granule.logicalOffset + stop) := by
  have hlength : (VerificationPlan.granuleText text granule).length = granule.byteLength :=
    length_slice_of_le hrange
  apply IsRun.of_slice hrun hrange
  · intro hzero byte hpos hbyte
    have hedge := hleft hzero
    rw [VerificationPlan.leftEdge, hboundaries, hbyte, Option.any_some, decide_eq_true hpos] at hedge
    exact hedge
  · intro hstop byte hbyte
    have hedge := hright hstop
    -- The last byte of the range is in the run, so the byte behind it was probed.
    have hlast : (VerificationPlan.granuleText text granule).getLast?.any isTokenByte = true := by
      have hlt := hrun.start_lt
      have hinside : granule.byteLength - 1 < (VerificationPlan.granuleText text granule).length := by
        omega
      rw [List.getLast?_eq_getElem?, hlength, List.getElem?_eq_getElem hinside, Option.any_some]
      exact hrun.inside _ _ (by omega) (by omega) (List.getElem?_eq_getElem hinside)
    rw [VerificationPlan.rightEdge, hboundaries, hlast, hbyte, Option.any_some] at hedge
    exact hedge

/-- A match in a line of a range: a token of the text that is the key it is reported for. -/
theorem isRun_of_match (hboundaries : plan.tokenBoundaries = true)
    (hrange : granule.logicalOffset + granule.byteLength ≤ text.length) {index start : Nat}
    {line : List UInt8}
    (hline : (lines (VerificationPlan.granuleText text granule))[index]? = some line)
    (hstart : start =
      ((lines (VerificationPlan.granuleText text granule)).take index).flatten.length)
    {entry : Nat × Nat × Nat}
    (h : entry ∈ runMatches line queryKeys (start == 0 && plan.leftEdge text granule)
      (start + line.length == (VerificationPlan.granuleText text granule).length &&
        plan.rightEdge text granule) (runs isTokenByte line)) :
    IsRun isTokenByte text (granule.logicalOffset + start + entry.2.1)
        (granule.logicalOffset + start + entry.2.2) ∧
      entry.2.2 ≤ line.length ∧
      ∃ key, queryKeys[entry.1]? = some key ∧ eqIgnoreAsciiCase
        (slice text (granule.logicalOffset + start + entry.2.1) (entry.2.2 - entry.2.1)) key =
          true := by
  have hlength : (VerificationPlan.granuleText text granule).length = granule.byteLength :=
    length_slice_of_le hrange
  obtain ⟨hrun, hunclipped, hfind⟩ := mem_runMatches_iff.mp h
  obtain ⟨hslice, hinside, -⟩ := slice_line hline
  rw [← hstart] at hslice hinside
  have hlt := hrun.start_lt
  have hle := hrun.stop_le
  rw [unclipped, Bool.not_eq_true', Bool.or_eq_false_iff] at hunclipped
  have hlocal := isRun_of_line hline hrun
  rw [← hstart] at hlocal
  refine ⟨?_, hle, ?_⟩
  · rw [Nat.add_assoc, Nat.add_assoc]
    apply isRun_of_unclipped hboundaries hrange hlocal
    · intro hzero
      obtain ⟨hstart0, hrun0⟩ := Nat.add_eq_zero_iff.mp hzero
      have hleft := hunclipped.1
      rw [hstart0, hrun0] at hleft
      exact hleft
    · intro hend
      have hstop : entry.2.2 = line.length := by omega
      have hlast : start + line.length = (VerificationPlan.granuleText text granule).length := by
        omega
      have hright := hunclipped.2
      rw [hstop, hlast, beq_self_eq_true, beq_self_eq_true] at hright
      exact hright
  · obtain ⟨hindex, hmatches, -⟩ := List.findIdx?_eq_some_iff_getElem.mp hfind
    refine ⟨_, List.getElem?_eq_getElem hindex, ?_⟩
    rw [← hslice, slice_slice (by omega), VerificationPlan.granuleText,
      slice_slice (by omega)] at hmatches
    rwa [Nat.add_assoc]

/-- What a range confirms for a token query is a token hit of the text. -/
theorem isTokenHit_of_confirmed (hboundaries : plan.tokenBoundaries = true)
    (hrange : granule.logicalOffset + granule.byteLength ≤ text.length)
    (hkeys : ∀ key, key ∈ queryKeys ↔
      ∃ word, IsToken query word ∧ key = word.map toAsciiLowercase) {hit : SearchHit}
    (h : hit ∈ plan.confirmed text
      (fun bytes left right => tokenSpans bytes queryKeys left right) granule) :
    IsTokenHit text query hit.logicalOffset (hit.logicalOffset + hit.byteLength) := by
  obtain ⟨span, hspan, rfl⟩ := List.mem_map.mp h
  obtain ⟨index, line, start, hline, hstart, hspan⟩ := mem_spansFrom hspan
  rw [← lines] at hline hstart
  obtain ⟨hevery, entry, hentry, rfl⟩ := mem_lineSpans hspan
  rw [Nat.zero_add] at hstart
  obtain ⟨hslice, hinside, hne⟩ := slice_line hline
  rw [← hstart] at hslice hinside
  rw [VerificationPlan.granuleText, length_slice_of_le hrange] at hinside
  obtain ⟨hrun, hstop, key, hkey, hmatches⟩ := isRun_of_match hboundaries hrange hline hstart hentry
  have hlt := hrun.start_lt
  have hbytes : (hitOf granule (matchSpan queryKeys start entry)).byteLength =
      entry.2.2 - entry.2.1 := Nat.add_sub_add_left start _ _
  have hoffset : (hitOf granule (matchSpan queryKeys start entry)).logicalOffset =
      granule.logicalOffset + start + entry.2.1 := (Nat.add_assoc _ _ _).symm
  have hend : granule.logicalOffset + start + entry.2.1 + (entry.2.2 - entry.2.1) =
      granule.logicalOffset + start + entry.2.2 := by
    omega
  rw [hoffset, hbytes, hend]
  refine ⟨hrun, ?_, ?_⟩
  · obtain ⟨word, hword, rfl⟩ := (hkeys key).mp (List.mem_of_getElem? hkey)
    refine ⟨word, hword, ?_⟩
    rw [eqIgnoreAsciiCase_map] at hmatches
    rwa [Nat.add_sub_add_left]
  · -- The line of the range has its LF at the end, so it is a part of one line of the text.
    have hpiece : slice text (granule.logicalOffset + start) line.length = line := by
      rw [← slice_slice hinside]
      exact hslice
    have hinner : ∀ i, i + 1 < line.length →
        text[granule.logicalOffset + start + i]? ≠ some lf := by
      intro i hi hlf
      rw [← getElem?_slice (show i < line.length by omega), hpiece] at hlf
      have hlast := getElem?_line_lf (List.mem_of_getElem? hline) hlf
      omega
    obtain ⟨whole, found, hfound, hbefore, hbehind⟩ :=
      exists_line_of_slice (List.length_pos_of_ne_nil hne) (by omega) hinner
    obtain ⟨hfoundSlice, hfoundInside, -⟩ := slice_line hfound
    refine ⟨whole, found, hfound, by omega, by omega, ?_⟩
    intro word hword
    obtain ⟨position, hposition, hat⟩ :=
      List.getElem_of_mem ((hkeys _).mpr ⟨word, hword, rfl⟩)
    obtain ⟨other, hother, rfl⟩ := hevery position hposition
    obtain ⟨hotherRun, hotherStop, otherKey, hotherKey, hotherMatches⟩ :=
      isRun_of_match hboundaries hrange hline hstart hother
    rw [List.getElem?_eq_getElem hposition, hat, Option.some.injEq] at hotherKey
    rw [← hotherKey, eqIgnoreAsciiCase_map] at hotherMatches
    have hotherLt := hotherRun.start_lt
    -- The token found there is a token of the whole line.
    generalize hbase : ((lines text).take whole).flatten.length = base at *
    have hwhole : IsRun isTokenByte found (granule.logicalOffset + start + other.2.1 - base)
        (granule.logicalOffset + start + other.2.2 - base) := by
      rw [← hfoundSlice]
      apply IsRun.slice
      · rwa [Nat.add_sub_of_le (by omega), Nat.add_sub_of_le (by omega)]
      · exact hfoundInside
      · omega
    refine ⟨_, ⟨_, _, hwhole, rfl⟩, ?_⟩
    rw [← hfoundSlice, slice_slice (by omega), Nat.add_sub_of_le (by omega)]
    rwa [show granule.logicalOffset + start + other.2.2 - base -
      (granule.logicalOffset + start + other.2.1 - base) = other.2.2 - other.2.1 by omega]

/-- What a range confirms for a substring is an occurrence in the text. -/
theorem occurs_of_confirmed (hrange : granule.logicalOffset + granule.byteLength ≤ text.length)
    {hit : SearchHit}
    (h : hit ∈ plan.confirmed text (fun bytes _ _ => occurrenceSpans bytes query) granule) :
    hit.logicalOffset + hit.byteLength ≤ text.length ∧
      slice text hit.logicalOffset hit.byteLength = query := by
  have hne : query ≠ [] := by
    rintro rfl
    exact absurd h List.not_mem_nil
  obtain ⟨hlength, -, hinside, hslice⟩ := mem_confirmed_occurrences hne hrange h
  rw [hlength]
  exact ⟨by omega, hslice⟩

end Edges

/-! ## Searches in any index -/

/-- The reads of a search are those of a chunk table whose chunks decode to parts of a text. -/
structure ReadsText (details : SkeletonDetails) (text : List UInt8) (readRangeCached : RangeRead) :
    Prop where
  size : text.length = details.summary.originalSize
  reads : ∃ decode, CutsInto details.chunkEntries decode text ∧
    ReadsChunksOf details decode readRangeCached

section Searches

variable {details : SkeletonDetails} {readRangeCached : RangeRead} {options : SearchOptions}
  {text : List UInt8} {report : SearchReport} {query : String}

theorem ReadsText.serves (h : ReadsText details text readRangeCached)
    {granules : List SearchGranule} {spansFor : SpanMatcher} {tokenBoundaries : Bool}
    {all : List UInt8 → Bool → Bool → List TokenSpan}
    (hspans : ∀ bytes limit left right, spansFor bytes limit left right =
      (all bytes left right).take limit) :
    (memoryPlan granules details spansFor tokenBoundaries readRangeCached options).Serves text
      all := by
  obtain ⟨decode, hcuts, hreads⟩ := h.reads
  exact memoryPlan_serves hcuts h.size hreads hspans

/-- A reported hit is confirmed in a range of the text. -/
theorem VerificationPlan.confirmed_of_report {plan : VerificationPlan}
    {all : List UInt8 → Bool → Bool → List TokenSpan} (hserves : plan.Serves text all)
    (hresults : plan.options.maxSearchResults ≠ 0) {candidates : List Nat}
    {metrics : SearchMetrics} {planner : PlannerDecision} {complete : Bool}
    (h : (plan.verifyCandidates candidates >>= fun verification =>
      verifiedReport verification metrics planner complete) = .ok report) {hit : SearchHit}
    (hhit : hit ∈ report.hits) :
    ∃ granule : SearchGranule, granule.logicalOffset + granule.byteLength ≤ text.length ∧
      hit ∈ plan.confirmed text all granule := by
  obtain ⟨verification, hverify, h⟩ := bind_eq_ok_iff.mp h
  obtain ⟨verifiedMatches, -, h⟩ := bind_eq_ok_iff.mp h
  cases h
  have hroom : ({} : CandidateVerification).hits.length < plan.options.maxSearchResults :=
    Nat.pos_of_ne_zero hresults
  have hsound := verifyLoop_sound hserves rfl hroom (ChunkDecodeCache.holds_new _ _) hverify hit
    hhit
  rcases hsound with hnone | ⟨granuleId, -, granule, -, hrange, hconfirmed⟩
  · exact absurd hnone List.not_mem_nil
  · rw [← hserves.length] at hrange
    exact ⟨granule, hrange, hconfirmed⟩

theorem searchCandidates_sound {granules : List SearchGranule} {complete : Bool}
    {lists : List (List Nat)} {spansFor : SpanMatcher} {tokenBoundaries : Bool}
    {metrics : SearchMetrics} {planner : PlannerDecision}
    {all : List UInt8 → Bool → Bool → List TokenSpan}
    (hreads : ReadsText details text readRangeCached)
    (hspans : ∀ bytes limit left right, spansFor bytes limit left right =
      (all bytes left right).take limit)
    (h : searchCandidates granules complete details lists spansFor tokenBoundaries readRangeCached
      metrics planner options = .ok report) {hit : SearchHit} (hhit : hit ∈ report.hits) :
    ∃ plan : VerificationPlan, plan.tokenBoundaries = tokenBoundaries ∧
      ∃ granule : SearchGranule, granule.logicalOffset + granule.byteLength ≤ text.length ∧
        hit ∈ plan.confirmed text all granule := by
  rw [searchCandidates] at h
  obtain ⟨candidates, -, h⟩ := bind_eq_ok_iff.mp h
  obtain ⟨candidateGranules, -, h⟩ := bind_eq_ok_iff.mp h
  obtain ⟨candidateChunks, -, h⟩ := bind_eq_ok_iff.mp h
  dsimp only at h
  split at h
  · cases h
    exact absurd hhit List.not_mem_nil
  · split at h
    · cases h
      exact absurd hhit List.not_mem_nil
    · rename_i hresults
      refine ⟨memoryPlan granules details spansFor tokenBoundaries readRangeCached options, rfl, ?_⟩
      exact VerificationPlan.confirmed_of_report (hreads.serves hspans) hresults h hhit

/-- The hits of a token search are tokens of the text, whatever the index holds. -/
theorem RawTokenIndex.searchImpl_sound {index : RawTokenIndex}
    (hreads : ReadsText details text readRangeCached)
    (h : index.searchImpl details query options readRangeCached = .ok report) {hit : SearchHit}
    (hhit : hit ∈ report.hits) :
    IsTokenHit text (textBytes query) hit.logicalOffset (hit.logicalOffset + hit.byteLength) := by
  rw [RawTokenIndex.searchImpl] at h
  obtain ⟨queryKeys, hkeys, h⟩ := bind_eq_ok_iff.mp h
  obtain ⟨-, hmem⟩ := uniqueQueryKeys_eq_ok hkeys
  obtain ⟨termLookups, -, h⟩ := bind_eq_ok_iff.mp h
  dsimp only at h
  split at h
  · cases h
    exact absurd hhit List.not_mem_nil
  · obtain ⟨found, -, h⟩ := bind_eq_ok_iff.mp h
    split at h
    · cases h
      exact absurd hhit List.not_mem_nil
    · obtain ⟨_, -, h⟩ := bind_eq_ok_iff.mp h
      obtain ⟨plan, hboundaries, granule, hrange, hconfirmed⟩ := searchCandidates_sound hreads
        (fun bytes limit left right => verifiedSpans_eq bytes queryKeys limit left right) h hhit
      exact isTokenHit_of_confirmed hboundaries hrange hmem hconfirmed

/-- The hits of an n-gram search are occurrences of the query, whatever the index holds. -/
theorem RawNgramIndex.searchImpl_sound {index : RawNgramIndex}
    (hreads : ReadsText details text readRangeCached)
    (h : index.searchImpl details query options readRangeCached = .ok report) {hit : SearchHit}
    (hhit : hit ∈ report.hits) :
    hit.logicalOffset + hit.byteLength ≤ text.length ∧
      slice text hit.logicalOffset hit.byteLength = textBytes query := by
  rw [RawNgramIndex.searchImpl] at h
  obtain ⟨queryKeys, -, h⟩ := bind_eq_ok_iff.mp h
  obtain ⟨termLookups, -, h⟩ := bind_eq_ok_iff.mp h
  dsimp only at h
  split at h
  · cases h
    exact absurd hhit List.not_mem_nil
  · obtain ⟨found, -, h⟩ := bind_eq_ok_iff.mp h
    split at h
    · cases h
      exact absurd hhit List.not_mem_nil
    · obtain ⟨postingBytesRead, -, h⟩ := bind_eq_ok_iff.mp h
      obtain ⟨_, -, h⟩ := bind_eq_ok_iff.mp h
      have hspans : ∀ (bytes : List UInt8) (limit : Nat) (left right : Bool),
          substringSpans bytes (textBytes query) limit =
            ((fun bytes (_ _ : Bool) => occurrenceSpans bytes (textBytes query)) bytes left
              right).take limit :=
        fun bytes limit _ _ => substringSpans_eq bytes (textBytes query) limit
      obtain ⟨plan, -, granule, hrange, hconfirmed⟩ := searchCandidates_sound hreads hspans h hhit
      exact occurs_of_confirmed hrange hconfirmed

end Searches

end Qzt
