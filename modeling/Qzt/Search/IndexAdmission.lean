import Qzt.Search.Admission

/-!
# What an index admits

The parts of a streaming build are checked once more before they become an index.  The
checks on their shape always pass, so an index is refused for its totals only: the
number of its granules, keys and postings, and the bytes of its keys and lists.
-/

namespace Qzt

open Foundation

/-! ## Totals -/

section Totals

variable {α : Type} {amount : α → Nat} {limit : Nat} {as : List α}

/-- A loop of charges succeeds exactly when the whole is within the limit. -/
theorem chargeAll_eq_ok_iff (hlimit : limit < 2 ^ 64) {value result : Nat} (hvalue : value ≤ limit) :
    chargeAll (fun a => usizeToU64 (amount a)) limit as value = .ok result ↔
      value + (as.map amount).sum ≤ limit ∧ result = value + (as.map amount).sum := by
  induction as generalizing value with
  | nil =>
    rw [chargeAll, Except.ok.injEq, List.map_nil, List.sum_nil, Nat.add_zero, eq_comm]
    exact (and_iff_right hvalue).symm
  | cons a as ih =>
    simp only [chargeAll, bind_eq_ok_iff, usizeToU64_eq_ok_iff, chargeBuild_eq_ok_iff hlimit]
    rw [List.map_cons, List.sum_cons, ← Nat.add_assoc]
    constructor
    · rintro ⟨_, ⟨-, rfl⟩, _, ⟨hle, rfl⟩, hrest⟩
      exact (ih hle).mp hrest
    · rintro ⟨hle, hresult⟩
      refine ⟨_, ⟨by omega, rfl⟩, _, ⟨by omega, rfl⟩, ?_⟩
      exact (ih (by omega)).mpr ⟨hle, hresult⟩

theorem failsOnlyWith_chargeAll (value : Nat) : FailsOnlyWith .resourceLimitExceeded
    (chargeAll (fun a => usizeToU64 (amount a)) limit as value) := by
  induction as generalizing value with
  | nil => exact failsOnlyWith_ok _
  | cons a as ih =>
    refine failsOnlyWith_bind (failsOnlyWith_usizeToU64 _) fun width _ => ?_
    exact failsOnlyWith_bind (failsOnlyWith_chargeBuild _ _ _) fun value _ => ih value

end Totals

section Parts

variable {limits : IndexBuildLimits} {granules : List SearchGranule}
  {terms : List TermDictionaryEntry} {postings : List (List Nat)}

theorem IndexBuildLimits.checkParts_eq_ok_iff (hsized : limits.Sized) {u : Unit} :
    limits.checkParts granules terms postings = .ok u ↔
      granules.length ≤ limits.maxGranules ∧ terms.length ≤ limits.maxDistinctKeys ∧
      (terms.map fun term => term.key.length).sum ≤ limits.maxKeyBytes ∧
      (postings.map List.length).sum ≤ limits.maxPostingIds := by
  have hgranules := hsized.maxGranules
  have hkeys := hsized.maxDistinctKeys
  simp only [IndexBuildLimits.checkParts, bind_eq_ok_iff, usizeToU64_eq_ok_iff, Nat.zero_add,
    chargeBuild_eq_ok_iff hgranules, chargeBuild_eq_ok_iff hkeys,
    chargeAll_eq_ok_iff hsized.maxKeyBytes (Nat.zero_le _),
    chargeAll_eq_ok_iff hsized.maxPostingIds (Nat.zero_le _)]
  constructor
  · rintro ⟨_, ⟨-, rfl⟩, _, ⟨hgranules, -⟩, _, ⟨-, rfl⟩, _, ⟨hkeys, -⟩, _, ⟨hbytes, -⟩, _,
      ⟨hpostings, -⟩, -⟩
    exact ⟨hgranules, hkeys, hbytes, hpostings⟩
  · rintro ⟨hle, hle', hbytes, hpostings⟩
    exact ⟨_, ⟨by omega, rfl⟩, _, ⟨hle, rfl⟩, _, ⟨by omega, rfl⟩, _, ⟨hle', rfl⟩, _, ⟨hbytes, rfl⟩,
      _, ⟨hpostings, rfl⟩, rfl⟩

theorem failsOnlyWith_checkParts :
    FailsOnlyWith .resourceLimitExceeded (limits.checkParts granules terms postings) := by
  refine failsOnlyWith_bind (failsOnlyWith_usizeToU64 _) fun count _ => ?_
  refine failsOnlyWith_bind (failsOnlyWith_chargeBuild _ _ _) fun _ _ => ?_
  refine failsOnlyWith_bind (failsOnlyWith_usizeToU64 _) fun count _ => ?_
  refine failsOnlyWith_bind (failsOnlyWith_chargeBuild _ _ _) fun _ _ => ?_
  refine failsOnlyWith_bind (failsOnlyWith_chargeAll 0) fun _ _ => ?_
  exact failsOnlyWith_bind (failsOnlyWith_chargeAll 0) fun _ _ => failsOnlyWith_ok _

end Parts

/-! ## The granules of a text -/

/-- The granule of the line at `index`. -/
def lineGranule (entries : List ChunkEntry) (text : List UInt8) (index : Nat) : SearchGranule :=
  let start := ((lines text).take index).flatten.length
  let length := ((lines text).getD index []).length
  { granuleId := index, logicalOffset := start, byteLength := length
    chunkStart := weightIndex (chunkSizes entries) start
    chunkEnd := weightIndex (chunkSizes entries) (start + length - 1) + 1
    firstLine := some index, lineCount := some 1 }

/-- The granules of the lines of a text. -/
def lineGranules (entries : List ChunkEntry) (text : List UInt8) : List SearchGranule :=
  (List.range (lines text).length).map (lineGranule entries text)

section Granules

variable {entries : List ChunkEntry} {text : List UInt8} {granules : List SearchGranule}

theorem PlacesLine.eq_lineGranule (hlayout : Layout entries text.length) {index : Nat}
    {granule : SearchGranule} (h : PlacesLine entries (lines text) index granule) :
    granule = lineGranule entries text index := by
  obtain ⟨line, hline, hlength⟩ := Option.map_eq_some_iff.mp h.byteLength
  obtain ⟨-, hbound, hne⟩ := slice_line hline
  have hpos := List.length_pos_of_ne_nil hne
  rw [← h.logicalOffset, hlength] at hbound
  have hspan := h.span
  rw [chunkSpanForRange_eq hlayout (by omega) hbound] at hspan
  obtain ⟨hstart, hend⟩ := Prod.mk.injEq .. ▸ Except.ok.inj hspan
  have hgetD : ((lines text).getD index []).length = granule.byteLength := by
    rw [List.getD_eq_getElem?_getD, hline, Option.getD_some, hlength]
  obtain rfl := h.granuleId
  rw [lineGranule, hgetD, ← h.logicalOffset, hstart, hend, ← h.firstLine, ← h.lineCount]

/-- The granules of an index are those of the text. -/
theorem IndexesLines.granules_eq {mode : BuildKeys} {map : PostingMap}
    (hlayout : Layout entries text.length)
    (h : IndexesLines entries mode (lines text) granules map) :
    granules = lineGranules entries text := by
  refine List.ext_getElem? fun index => ?_
  rw [lineGranules, List.getElem?_map]
  rcases Nat.lt_or_ge index (lines text).length with hlt | hge
  · have hgranule := List.getElem?_eq_getElem (h.length ▸ hlt)
    rw [List.getElem?_range hlt, Option.map_some, hgranule]
    exact congrArg some ((h.places index _ hgranule).eq_lineGranule hlayout)
  · rw [List.getElem?_eq_none (h.length ▸ hge), List.getElem?_eq_none (by simpa using hge),
      Option.map_none]

/-- The loop passes granules that are in order and inside the text. -/
theorem validateGranulesLoop_eq {size index : Nat} {previous : Option Nat}
    (hinside : ∀ position granule, granules[position]? = some granule →
      granule.granuleId = index + position ∧
        granule.logicalOffset + granule.byteLength ≤ size ∧ granule.chunkStart ≤ granule.chunkEnd)
    (hsorted : (previous.toList ++ granules.map SearchGranule.logicalOffset).Pairwise (· ≤ ·))
    (hsize : size < 2 ^ 64) : validateGranulesLoop size index previous granules = .ok ⟨⟩ := by
  induction granules generalizing index previous with
  | nil => rfl
  | cons granule granules ih =>
    obtain ⟨hid, hbound, hspan⟩ := hinside 0 granule rfl
    rw [Nat.add_zero] at hid
    rw [List.map_cons, List.pairwise_append] at hsorted
    obtain ⟨-, hsorted, hprevious⟩ := hsorted
    have hordered : ¬ ∃ p ∈ previous, granule.logicalOffset < p := by
      rintro ⟨p, hp, hlt⟩
      have hle := hprevious p (Option.mem_toList.mpr hp) _ List.mem_cons_self
      omega
    rw [validateGranulesLoop, rejectIf_of_not (not_not_intro hid), ok_bind,
      checkedLogicalEnd_of_lt (by omega), ok_bind, rejectIf_of_not (by omega), ok_bind,
      rejectIf_of_not hordered, ok_bind, rejectIf_of_not (by omega), ok_bind]
    refine ih ?_ hsorted
    intro position other hother
    obtain ⟨hid', hbound', hspan'⟩ := hinside (position + 1) other hother
    exact ⟨by omega, hbound', hspan'⟩

/-- The chunk of an earlier byte is not behind that of a later one. -/
theorem weightIndex_mono (sizes : List Nat) {offset offset' : Nat} (h : offset ≤ offset') :
    weightIndex sizes offset ≤ weightIndex sizes offset' := by
  induction sizes generalizing offset offset' with
  | nil => exact Nat.le_refl _
  | cons size sizes ih =>
    rw [weightIndex, weightIndex]
    split
    · rw [if_pos (by omega)]
      exact Nat.succ_le_succ (ih (by omega))
    · exact Nat.zero_le _

theorem validateGranules_lineGranules (hlayout : Layout entries text.length) :
    validateGranules text.length (lineGranules entries text) = .ok ⟨⟩ := by
  refine validateGranulesLoop_eq ?_ ?_ hlayout.size_lt
  · intro position granule hgranule
    rw [lineGranules, List.getElem?_map, Option.map_eq_some_iff] at hgranule
    obtain ⟨index, hindex, rfl⟩ := hgranule
    obtain ⟨hlt, hget⟩ := List.getElem?_eq_some_iff.mp hindex
    rw [List.getElem_range] at hget
    subst hget
    rw [List.length_range] at hlt
    have hline := List.getElem?_eq_getElem hlt
    obtain ⟨-, hbound, hne⟩ := slice_line hline
    have hpos := List.length_pos_of_ne_nil hne
    refine ⟨(Nat.zero_add _).symm, ?_, ?_⟩
    · rw [lineGranule]
      dsimp only
      rwa [List.getD_eq_getElem _ _ hlt]
    · rw [lineGranule]
      dsimp only
      rw [List.getD_eq_getElem _ _ hlt]
      exact Nat.le_succ_of_le (weightIndex_mono _ (by omega))
  · rw [Option.toList_none, List.nil_append, lineGranules, List.map_map]
    refine List.pairwise_map.mpr (List.pairwise_lt_range.imp fun {index index'} hlt => ?_)
    -- The lines before a line are among those before a later one.
    have hsplit : (lines text).take index <+: (lines text).take index' :=
      List.take_prefix_take_left (Nat.le_of_lt hlt)
    obtain ⟨more, hmore⟩ := hsplit
    change ((lines text).take index).flatten.length ≤ ((lines text).take index').flatten.length
    rw [← hmore, List.flatten_append, List.length_append]
    exact Nat.le_add_right _ _

end Granules

/-! ## The dictionary of a text -/

section Dictionary

variable {env : Env} {entries : List ChunkEntry} {mode : BuildKeys} {text : List UInt8}
  {granules : List SearchGranule} {map : PostingMap}

/-- The lists of an index increase, and every number in them is that of a line. -/
theorem IndexesLines.list_spec (h : IndexesLines entries mode (lines text) granules map)
    {list : List Nat} (hlist : list ∈ map.map Prod.snd) :
    list.Pairwise (· < ·) ∧ (∀ id ∈ list, id < granules.length) ∧ list ≠ [] := by
  obtain ⟨pair, hpair, rfl⟩ := List.mem_map.mp hlist
  have hlookup := (mem_iff_lookup h.sorted).mp hpair
  rw [h.lookup, nonEmpty?_eq_some_iff] at hlookup
  obtain ⟨hlist, hne⟩ := hlookup
  refine ⟨hlist ▸ postingsOf_pairwise _ _ _, fun id hid => ?_, hne⟩
  rw [← hlist, postingsOf, List.mem_filter, List.mem_range, ← h.length] at hid
  exact hid.1

theorem IndexesLines.granules_length_lt (hlayout : Layout entries text.length)
    (h : IndexesLines entries mode (lines text) granules map) : granules.length < 2 ^ 64 := by
  have hcount := countLines_le text
  have hsize := hlayout.size_lt
  rw [h.length, length_lines]
  omega

theorem IndexesLines.increases (hlayout : Layout entries text.length)
    (h : IndexesLines entries mode (lines text) granules map) :
    ∀ list ∈ map.map Prod.snd, IncreasesFrom none list := by
  intro list hlist
  obtain ⟨hsorted, hinside, -⟩ := h.list_spec hlist
  have hcount := h.granules_length_lt hlayout
  refine ⟨hsorted, fun id hid => ?_⟩
  have hlt := hinside id hid
  omega

/-- The keys of an index, with flags that are clear, have the shape that is asked for. -/
theorem IndexesLines.validateShape (hlayout : Layout entries text.length)
    (h : IndexesLines entries mode (lines text) granules map) {terms : List TermDictionaryEntry}
    (hkeys : terms.map TermDictionaryEntry.key = map.map Prod.fst)
    (hflags : ∀ term ∈ terms, term.flags = 0) :
    Qzt.validateTermDictionaryShape terms (map.map Prod.snd) granules.length = .ok ⟨⟩ := by
  have hcount := h.granules_length_lt hlayout
  have hlength := congrArg List.length hkeys
  rw [List.length_map, List.length_map] at hlength
  have hchain : (map.map Prod.fst).IsChain (· < ·) :=
    (List.pairwise_map.mpr h.sorted).isChain
  rw [Qzt.validateTermDictionaryShape, List.length_map, rejectIf_of_not (not_not_intro hlength),
    ok_bind, hkeys, rejectIf_of_not (not_not_intro hchain), ok_bind, checkAll_eq_ok_iff]
  intro term hterm
  obtain ⟨hsorted, hinside, -⟩ := h.list_spec (List.of_mem_zip hterm).2
  rw [validateTermShape, rejectIf_of_not (not_not_intro (hflags _ (List.of_mem_zip hterm).1)),
    ok_bind, rejectIf_of_not (not_not_intro hsorted.isChain), ok_bind, checkAll_eq_ok_iff]
  intro id hid
  have hlt := hinside id hid
  rw [u64ToUsize_of_lt (by omega), ok_bind, rejectIf_of_not (by omega)]

/-- The dictionary of an index has the shape that is asked for. -/
theorem IndexesLines.validateTermDictionaryShape (hlayout : Layout entries text.length)
    (h : IndexesLines entries mode (lines text) granules map) :
    Qzt.validateTermDictionaryShape (map.map fun pair => blankTerm env pair.1) (map.map Prod.snd)
      granules.length = .ok ⟨⟩ := by
  refine h.validateShape hlayout ?_ ?_
  · rw [List.map_map]
    rfl
  · intro term hterm
    obtain ⟨pair, -, rfl⟩ := List.mem_map.mp hterm
    rfl

end Dictionary

/-! ## The encoded parts -/

/-- What the two kinds of index share of `from_parts`. -/
def encodeParts (sourceSizeBytes : Nat) (granules : List SearchGranule)
    (terms : List TermDictionaryEntry) (postings : List (List Nat)) (limits : IndexBuildLimits)
    (withSkips : Bool) : Result EncodedPostingLists := do
  limits.checkParts granules terms postings
  validateGranules sourceSizeBytes granules
  validateTermDictionaryShape terms postings granules.length
  encodePostingLists terms postings withSkips limits.maxEncodedBytes

/-- What the two kinds of index share of `build_from_file`. -/
def buildEncoded (env : Env) (entries : List ChunkEntry) (originalSize maxLineBytes : Nat)
    (limits : IndexBuildLimits) (decode : DecodeEntry) (keys : BuildKeys) (withSkips : Bool) :
    Result (List SearchGranule × EncodedPostingLists × List (List Nat)) := do
  let (granules, terms, postings) ←
    buildLineIndexStreaming env entries originalSize maxLineBytes limits decode keys
  let encoded ← encodeParts originalSize granules terms postings limits withSkips
  return (granules, encoded, postings)

theorem RawTokenIndex.fromParts_eq (containerId : ContainerId) (sourceSizeBytes : Nat)
    (granules : List SearchGranule) (terms : List TermDictionaryEntry) (postings : List (List Nat))
    (limits : IndexBuildLimits) :
    RawTokenIndex.fromParts containerId sourceSizeBytes granules terms postings limits = (do
      let encoded ← encodeParts sourceSizeBytes granules terms postings limits false
      return { containerId, sourceSizeBytes, source := .rawUtf8, postingGranularity := .line
               complete := true, granules, terms := encoded.terms, postings
               encodedPostings := encoded.postings }) := by
  simp only [RawTokenIndex.fromParts, encodeParts, bind_assoc]

theorem RawNgramIndex.fromParts_eq (containerId : ContainerId) (sourceSizeBytes : Nat)
    (granules : List SearchGranule) (terms : List TermDictionaryEntry) (postings : List (List Nat))
    {options : NgramIndexBuildOptions} (hn : options.n ≠ 0) :
    RawNgramIndex.fromParts containerId sourceSizeBytes granules terms postings options = (do
      let encoded ← encodeParts sourceSizeBytes granules terms postings options.limits true
      return { containerId, sourceSizeBytes, source := .rawUtf8, postingGranularity := .line
               complete := options.complete
               declaration := { n := options.n, unit := .unicodeScalar, normalization := "none"
                                caseFold := false, boundaryMode := "adjacent_decode"
                                boundaryWindowBytes := 4096 }
               plannerConfig := { highDfPerMillion := options.highDfPerMillion }
               granules, terms := encoded.terms, postings, skipData := encoded.skips
               encodedPostings := encoded.postings }) := by
  rw [RawNgramIndex.fromParts, rejectIf_of_not hn, ok_bind]
  simp only [encodeParts, bind_assoc]

/-- The lines are within every limit of an index. -/
structure IndexBuildLimits.AdmitIndex (limits : IndexBuildLimits) (maxLineBytes : Nat)
    (mode : BuildKeys) (withSkips : Bool) (lines : List (List UInt8)) : Prop where
  cover : limits.Cover maxLineBytes mode lines
  encoded : keySum mode lines (fun _ list => postingCost withSkips list) ≤ limits.maxEncodedBytes

section Encoded

variable {env : Env} {entries : List ChunkEntry} {mode : BuildKeys} {text : List UInt8}
  {limits : IndexBuildLimits} {maxLineBytes : Nat} {withSkips : Bool} {decode : DecodeEntry}
  {granules : List SearchGranule} {map : PostingMap}

theorem sum_map_snd (amount : List Nat → Nat) (map : PostingMap) :
    ((map.map Prod.snd).map amount).sum = mapSum (fun _ list => amount list) map := by
  rw [List.map_map]
  rfl

/-- The totals of an index are those of its text. -/
theorem IndexesLines.totals (env : Env) (withSkips : Bool)
    (h : IndexesLines entries mode (lines text) granules map) :
    (map.map fun pair => blankTerm env pair.1).length = (textKeys mode (lines text)).length ∧
    ((map.map fun pair => blankTerm env pair.1).map fun term => term.key.length).sum =
      ((textKeys mode (lines text)).map List.length).sum ∧
    ((map.map Prod.snd).map List.length).sum =
      ((textKeys mode (lines text)).map fun key => (postingsOf mode (lines text) key).length).sum ∧
    ((map.map Prod.snd).map (postingCost withSkips)).sum =
      keySum mode (lines text) (fun _ list => postingCost withSkips list) := by
  refine ⟨?_, ?_, ?_, ?_⟩
  · have hcount := h.mapSum_eq fun _ _ => 1
    simpa [mapSum, keySum] using hcount
  · rw [List.map_map]
    exact h.mapSum_eq fun key _ => key.length
  · rw [sum_map_snd]
    exact h.mapSum_eq fun _ list => list.length
  · rw [sum_map_snd]
    exact h.mapSum_eq fun _ list => postingCost withSkips list

/-- The parts of an index are refused for their totals only. -/
theorem IndexesLines.encodeParts_eq (hlayout : Layout entries text.length)
    (h : IndexesLines entries mode (lines text) granules map) :
    encodeParts text.length granules (map.map fun pair => blankTerm env pair.1) (map.map Prod.snd)
      limits withSkips = (do
        limits.checkParts granules (map.map fun pair => blankTerm env pair.1) (map.map Prod.snd)
        encodePostingLists (map.map fun pair => blankTerm env pair.1) (map.map Prod.snd) withSkips
          limits.maxEncodedBytes) := by
  have hgranules : validateGranules text.length granules = .ok ⟨⟩ := by
    rw [h.granules_eq hlayout]
    exact validateGranules_lineGranules hlayout
  rw [encodeParts, hgranules, h.validateTermDictionaryShape hlayout]
  rfl

/-- What the build hands to the encoder. -/
theorem buildEncoded_indexes (hcuts : CutsInto entries decode text) {parts : LineIndexParts}
    (h : buildLineIndexStreaming env entries text.length maxLineBytes limits decode mode =
      .ok parts) :
    ∃ map, IndexesLines entries mode (lines text) (lineGranules entries text) map ∧
      parts = (lineGranules entries text, map.map fun pair => blankTerm env pair.1,
        map.map Prod.snd) := by
  obtain ⟨granules, terms, postings⟩ := parts
  obtain ⟨⟨map, hindexes, rfl, rfl⟩, -⟩ :=
    buildLineIndexStreaming_indexes hcuts.layout hcuts.length h
  rw [hcuts.text] at hindexes
  obtain rfl := hindexes.granules_eq hcuts.layout
  exact ⟨map, hindexes, rfl⟩

/-- What a build returns, and the limits that it is within. -/
structure BuiltFrom (env : Env) (entries : List ChunkEntry) (mode : BuildKeys) (text : List UInt8)
    (limits : IndexBuildLimits) (built : List SearchGranule × EncodedPostingLists × List (List Nat))
    (map : PostingMap) : Prop where
  indexes : IndexesLines entries mode (lines text) (lineGranules entries text) map
  granules : built.1 = lineGranules entries text
  postings : built.2.2 = map.map Prod.snd
  encoded : built.2.1.postings = (map.map Prod.snd).map postingBytes
  written : WrittenTerms (map.map fun pair => blankTerm env pair.1) (map.map Prod.snd)
    built.2.1.terms
  termCount : map.length ≤ limits.maxDistinctKeys
  keyBytes : (map.map fun pair => pair.1.length).sum ≤ limits.maxKeyBytes

/-- A build that returns has indexed the text. -/
theorem builtFrom_of_buildEncoded (hcuts : CutsInto entries decode text) (hsized : limits.Sized)
    {built : List SearchGranule × EncodedPostingLists × List (List Nat)}
    (h : buildEncoded env entries text.length maxLineBytes limits decode mode withSkips =
      .ok built) : ∃ map, BuiltFrom env entries mode text limits built map := by
  obtain ⟨parts, hbuild, h⟩ := bind_eq_ok_iff.mp h
  obtain ⟨map, hindexes, rfl⟩ := buildEncoded_indexes hcuts hbuild
  obtain ⟨encoded, hencoded, hbuilt⟩ := bind_eq_ok_iff.mp h
  cases hbuilt
  rw [hindexes.encodeParts_eq hcuts.layout] at hencoded
  obtain ⟨_, hcheck, hlists⟩ := bind_eq_ok_iff.mp hencoded
  obtain ⟨-, hcount, hkeyBytes, -⟩ := (IndexBuildLimits.checkParts_eq_ok_iff hsized).mp hcheck
  rw [List.length_map] at hcount
  rw [List.map_map] at hkeyBytes
  obtain ⟨hwritten, hpostings⟩ := encodePostingLists_writes
    (by rw [List.length_map, List.length_map]) (hindexes.increases hcuts.layout)
    hsized.maxEncodedBytes hlists
  exact ⟨map, hindexes, rfl, rfl, hpostings, hwritten, hcount, hkeyBytes⟩

variable (hcuts : CutsInto entries decode text)
  (hdecodes : ∀ entry ∈ entries, ∃ part, decode entry = .ok part ∧
    (fromUtf8 part).isSome = true)
include hcuts hdecodes

/-- A text within the limits becomes an index. -/
theorem buildEncoded_of_admits (hsized : limits.Sized) (hword : maxLineBytes < 2 ^ 64)
    (hadmitted : limits.AdmitIndex maxLineBytes mode withSkips (lines text)) :
    ∃ map encoded, buildEncoded env entries text.length maxLineBytes limits decode mode withSkips =
        .ok (lineGranules entries text, encoded, map.map Prod.snd) ∧
      IndexesLines entries mode (lines text) (lineGranules entries text) map ∧
      WrittenTerms (map.map fun pair => blankTerm env pair.1) (map.map Prod.snd) encoded.terms := by
  obtain ⟨hcover, hencoded⟩ := hadmitted
  obtain ⟨parts, hbuild⟩ := buildLineIndexStreaming_of_cover hcuts hdecodes hsized hword hcover
  obtain ⟨map, hindexes, rfl⟩ := buildEncoded_indexes hcuts hbuild
  obtain ⟨hkeys, hkeyBytes, hpostings, hcost⟩ := hindexes.totals env withSkips
  have hcheck := (IndexBuildLimits.checkParts_eq_ok_iff hsized (u := ⟨⟩)).mpr
    ⟨hindexes.length ▸ hcover.granules, hkeys ▸ hcover.distinctKeys, hkeyBytes ▸ hcover.keyBytes,
      hpostings ▸ hcover.postingIds⟩
  obtain ⟨encoded, hlists, hwritten⟩ := @encodePostingLists_of_le withSkips _
    (map.map fun pair => blankTerm env pair.1) _ (by rw [List.length_map, List.length_map])
    (hindexes.increases hcuts.layout) hsized.maxEncodedBytes (hcost ▸ hencoded)
  refine ⟨map, encoded, ?_, hindexes, hwritten⟩
  rw [buildEncoded, hbuild, ok_bind]
  dsimp only
  rw [hindexes.encodeParts_eq hcuts.layout, hcheck, ok_bind, hlists]
  rfl

/-- A text that became an index is within the limits. -/
theorem admits_of_buildEncoded (hsized : limits.Sized)
    {built : List SearchGranule × EncodedPostingLists × List (List Nat)}
    (h : buildEncoded env entries text.length maxLineBytes limits decode mode withSkips =
      .ok built) : limits.AdmitIndex maxLineBytes mode withSkips (lines text) := by
  obtain ⟨parts, hbuild, h⟩ := bind_eq_ok_iff.mp h
  have hlines := buildLineIndexStreaming_bounded hcuts hdecodes hbuild
  obtain ⟨map, hindexes, rfl⟩ := buildEncoded_indexes hcuts hbuild
  obtain ⟨hkeys, hkeyBytes, hpostings, hcost⟩ := hindexes.totals env withSkips
  obtain ⟨encoded, hencoded, -⟩ := bind_eq_ok_iff.mp h
  rw [hindexes.encodeParts_eq hcuts.layout] at hencoded
  obtain ⟨_, hcheck, hlists⟩ := bind_eq_ok_iff.mp hencoded
  rw [IndexBuildLimits.checkParts_eq_ok_iff hsized, hindexes.length, hkeys, hkeyBytes,
    hpostings] at hcheck
  obtain ⟨hgranules, hdistinct, hbytes, hids⟩ := hcheck
  have hle := le_of_encodePostingLists (hindexes.increases hcuts.layout) hsized.maxEncodedBytes hlists
  rw [hcost] at hle
  exact ⟨⟨hlines, hgranules, hdistinct, hbytes, hids⟩, hle⟩

theorem failsOnlyWith_buildEncoded (hsized : limits.Sized) :
    FailsOnlyWith .resourceLimitExceeded
      (buildEncoded env entries text.length maxLineBytes limits decode mode withSkips) := by
  refine failsOnlyWith_bind (failsOnlyWith_buildLineIndexStreaming hcuts hdecodes)
    fun parts hbuild => ?_
  obtain ⟨map, hindexes, rfl⟩ := buildEncoded_indexes hcuts hbuild
  refine failsOnlyWith_bind ?_ fun _ _ => failsOnlyWith_ok _
  rw [hindexes.encodeParts_eq hcuts.layout]
  refine failsOnlyWith_bind failsOnlyWith_checkParts fun _ _ => ?_
  exact failsOnlyWith_encodePostingLists (by rw [List.length_map, List.length_map])
    (hindexes.increases hcuts.layout) hsized.maxEncodedBytes

end Encoded

end Qzt
