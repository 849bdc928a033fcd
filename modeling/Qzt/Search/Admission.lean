import Mathlib.Data.List.Dedup
import Qzt.Search.NaiveIndex
import Qzt.Search.Postings

/-!
# What a line build admits

A build charges while it streams: for every line, for every new key, for every new
posting.  What it has charged for a part of the text is never more than what the whole
text costs, so a build whose text is within the limits meets no objection on the way.
-/

namespace Qzt

open Foundation

/-! ## Sums over a posting map -/

/-- The sum of an amount over the pairs of a map. -/
def mapSum (amount : List UInt8 → List Nat → Nat) (map : PostingMap) : Nat :=
  (map.map fun pair => amount pair.1 pair.2).sum

section Sums

variable (amount : List UInt8 → List Nat → Nat) {map : PostingMap} {key : List UInt8}

theorem mapSum_upsert_none {f : Option (List Nat) → List Nat} (h : map.lookup key = none) :
    mapSum amount (upsert key f map) = mapSum amount map + amount key (f none) := by
  have hperm := (upsert_perm_of_lookup_eq_none (f := f) h).map fun pair => amount pair.1 pair.2
  rw [mapSum, hperm.sum_eq, List.map_cons, List.sum_cons, mapSum, Nat.add_comm]

theorem mapSum_upsert_some {f : Option (List Nat) → List Nat} {list : List Nat}
    (hsorted : SortedKeys map) (h : map.lookup key = some list) :
    mapSum amount (upsert key f map) + amount key list =
      mapSum amount map + amount key (f (some list)) := by
  obtain ⟨before, behind, hmap, hupsert⟩ := upsert_of_lookup_eq_some (f := f) hsorted h
  rw [mapSum, mapSum, hupsert, hmap]
  simp only [List.map_append, List.map_cons, List.sum_append, List.sum_cons]
  omega

theorem le_mapSum {pair : List UInt8 × List Nat} (h : pair ∈ map) :
    amount pair.1 pair.2 ≤ mapSum amount map :=
  List.single_le_sum (fun _ _ => Nat.zero_le _) _ (List.mem_map_of_mem h)

end Sums

/-- The meter has charged what the map holds. -/
structure BuildMeter.Counts (meter : BuildMeter) (map : PostingMap) : Prop where
  keys : meter.keys = mapSum (fun _ _ => 1) map
  keyBytes : meter.keyBytes = mapSum (fun key _ => key.length) map
  postings : meter.postings = mapSum (fun _ list => list.length) map

/-- The limits are `u64` values. -/
structure IndexBuildLimits.Sized (limits : IndexBuildLimits) : Prop where
  maxGranules : limits.maxGranules < 2 ^ 64
  maxDistinctKeys : limits.maxDistinctKeys < 2 ^ 64
  maxPostingIds : limits.maxPostingIds < 2 ^ 64
  maxKeyBytes : limits.maxKeyBytes < 2 ^ 64
  maxEncodedBytes : limits.maxEncodedBytes < 2 ^ 64

/-- The map is within the limits on keys and postings. -/
structure IndexBuildLimits.Admit (limits : IndexBuildLimits) (map : PostingMap) : Prop where
  keys : mapSum (fun _ _ => 1) map ≤ limits.maxDistinctKeys
  keyBytes : mapSum (fun key _ => key.length) map ≤ limits.maxKeyBytes
  postings : mapSum (fun _ list => list.length) map ≤ limits.maxPostingIds

theorem length_foldKey (fold : Bool) (key : List UInt8) : (foldKey fold key).length = key.length := by
  unfold foldKey
  split
  · exact List.length_map _
  · rfl

/-- A key that leaves the map within the limits is added. -/
theorem BuildMeter.Counts.addKey {meter : BuildMeter} {map : PostingMap} {granule : Nat}
    {key : List UInt8} {fold : Bool} (hcounts : meter.Counts map) (hlimits : meter.limits.Sized)
    (hsorted : SortedKeys map)
    (hadmitted : meter.limits.Admit (insertPosting granule (foldKey fold key) map)) :
    ∃ meter', meter.addKey map key fold granule =
        .ok (meter', insertPosting granule (foldKey fold key) map) ∧
      meter'.Counts (insertPosting granule (foldKey fold key) map) ∧
      meter'.limits = meter.limits ∧ meter'.mode = meter.mode := by
  obtain ⟨hkeys, hkeyBytes, hpostings⟩ := hadmitted
  have hmaxKeyBytes := hlimits.maxKeyBytes
  unfold insertPosting at hkeys hkeyBytes hpostings ⊢
  unfold BuildMeter.addKey
  cases hlookup : map.lookup (foldKey fold key) with
  | some list =>
    simp only [hlookup] at hkeys hkeyBytes hpostings ⊢
    -- The key was charged when it came first.
    have hlength : key.length ≤ mapSum (fun key _ => key.length) map := by
      have hmem := le_mapSum (fun key _ => key.length)
        ((mem_iff_lookup hsorted).mpr hlookup)
      rwa [length_foldKey] at hmem
    split at hpostings
    · rename_i hnew
      rw [if_pos hnew] at hkeys hkeyBytes
      rw [if_pos hnew, if_pos hnew]
      have hsumKeys := mapSum_upsert_some (fun _ _ => 1)
        (f := fun list => list.getD [] ++ [granule]) hsorted hlookup
      have hsumBytes := mapSum_upsert_some (fun key _ => key.length)
        (f := fun list => list.getD [] ++ [granule]) hsorted hlookup
      have hsumPostings := mapSum_upsert_some (fun _ list => list.length)
        (f := fun list => list.getD [] ++ [granule]) hsorted hlookup
      rw [Option.getD_some, List.length_append, List.length_singleton] at hsumPostings
      rw [usizeToU64_of_lt (by omega), ok_bind, rejectIf_of_not (by omega), ok_bind,
        chargeBuild_of_le hlimits.maxPostingIds (by rw [hcounts.postings]; omega), ok_bind]
      refine ⟨_, rfl, ⟨?_, ?_, ?_⟩, rfl, rfl⟩
      · exact hcounts.keys.trans (by omega)
      · exact hcounts.keyBytes.trans (by omega)
      · change meter.postings + 1 = _
        rw [hcounts.postings]
        omega
    · rename_i hold
      rw [if_neg hold] at hkeys hkeyBytes
      rw [if_neg hold, if_neg hold, usizeToU64_of_lt (by omega), ok_bind,
        rejectIf_of_not (by omega), ok_bind]
      exact ⟨meter, rfl, hcounts, rfl, rfl⟩
  | none =>
    simp only [hlookup] at hkeys hkeyBytes hpostings ⊢
    rw [mapSum_upsert_none _ hlookup] at hkeys hkeyBytes hpostings
    rw [length_foldKey] at hkeyBytes
    rw [usizeToU64_of_lt (by omega), ok_bind, rejectIf_of_not (by omega), ok_bind,
      chargeBuild_of_le hlimits.maxDistinctKeys (by rw [hcounts.keys]; omega), ok_bind,
      length_foldKey, usizeToU64_of_lt (by omega), ok_bind,
      chargeBuild_of_le hlimits.maxKeyBytes (by rw [hcounts.keyBytes]; omega), ok_bind,
      chargeBuild_of_le hlimits.maxPostingIds (by rw [hcounts.postings]; exact hpostings), ok_bind]
    refine ⟨_, rfl, ⟨?_, ?_, ?_⟩, rfl, rfl⟩
    · change meter.keys + 1 = _
      rw [mapSum_upsert_none _ hlookup, hcounts.keys]
    · change meter.keyBytes + key.length = _
      rw [mapSum_upsert_none _ hlookup, hcounts.keyBytes, length_foldKey]
    · change meter.postings + 1 = _
      rw [mapSum_upsert_none _ hlookup, hcounts.postings]
      rfl

theorem failsOnlyWith_addKey (meter : BuildMeter) (map : PostingMap) (key : List UInt8)
    (fold : Bool) (granule : Nat) :
    FailsOnlyWith .resourceLimitExceeded (meter.addKey map key fold granule) := by
  unfold BuildMeter.addKey
  refine failsOnlyWith_bind (failsOnlyWith_usizeToU64 _) fun length _ => ?_
  refine failsOnlyWith_bind (failsOnlyWith_rejectIf _) fun _ _ => ?_
  dsimp only
  split
  · split
    · exact failsOnlyWith_bind (failsOnlyWith_chargeBuild _ _ _) fun _ _ => failsOnlyWith_ok _
    · exact failsOnlyWith_ok _
  · refine failsOnlyWith_bind (failsOnlyWith_chargeBuild _ _ _) fun keys _ => ?_
    refine failsOnlyWith_bind (failsOnlyWith_usizeToU64 _) fun length _ => ?_
    refine failsOnlyWith_bind (failsOnlyWith_chargeBuild _ _ _) fun keyBytes _ => ?_
    exact failsOnlyWith_bind (failsOnlyWith_chargeBuild _ _ _) fun _ _ => failsOnlyWith_ok _

theorem failsOnlyWith_addKeys (granule : Nat) (keys : List (List UInt8)) (meter : BuildMeter)
    (map : PostingMap) : FailsOnlyWith .resourceLimitExceeded (addKeys granule keys meter map) := by
  induction keys generalizing meter map with
  | nil => exact failsOnlyWith_ok _
  | cons key keys ih =>
    exact failsOnlyWith_bind (failsOnlyWith_addKey _ _ _ _ _) fun next _ => ih next.1 next.2

/-! ## The cost of a text -/

/-- The distinct keys of some lines. -/
def textKeys (mode : BuildKeys) (lines : List (List UInt8)) : List (List UInt8) :=
  (lines.flatMap (keysOf mode)).dedup

/-- The sum of an amount over the distinct keys of some lines and the lines that have them. -/
def keySum (mode : BuildKeys) (lines : List (List UInt8)) (amount : List UInt8 → List Nat → Nat) :
    Nat :=
  ((textKeys mode lines).map fun key => amount key (postingsOf mode lines key)).sum

theorem mem_textKeys {mode : BuildKeys} {lines : List (List UInt8)} {key : List UInt8} :
    key ∈ textKeys mode lines ↔ postingsOf mode lines key ≠ [] := by
  rw [textKeys, List.mem_dedup, List.mem_flatMap]
  constructor
  · rintro ⟨line, hline, hkey⟩
    obtain ⟨index, hindex⟩ := List.mem_iff_getElem?.mp hline
    exact List.ne_nil_of_mem (mem_postingsOf.mpr ⟨line, hindex, hkey⟩)
  · intro hne
    obtain ⟨index, hindex⟩ := List.exists_mem_of_ne_nil _ hne
    obtain ⟨line, hline, hkey⟩ := mem_postingsOf.mp hindex
    exact ⟨line, List.mem_of_getElem? hline, hkey⟩

theorem textKeys_nodup (mode : BuildKeys) (lines : List (List UInt8)) :
    (textKeys mode lines).Nodup :=
  List.nodup_dedup _

theorem keys_nodup {map : PostingMap} (h : SortedKeys map) : (map.map Prod.fst).Nodup := by
  refine List.pairwise_map.mpr (h.imp ?_)
  intro pair other hlt heq
  rw [heq] at hlt
  exact List.lt_irrefl _ hlt

/-- The map of an index sums up to the text. -/
theorem IndexesLines.mapSum_eq {entries : List ChunkEntry} {mode : BuildKeys}
    {lines : List (List UInt8)} {granules : List SearchGranule} {map : PostingMap}
    (h : IndexesLines entries mode lines granules map)
    (amount : List UInt8 → List Nat → Nat) : mapSum amount map = keySum mode lines amount := by
  have hlists : map.map (fun pair => amount pair.1 pair.2) =
      (map.map Prod.fst).map fun key => amount key (postingsOf mode lines key) := by
    rw [List.map_map]
    refine List.map_congr_left fun pair hpair => ?_
    have hlookup := (mem_iff_lookup h.sorted).mp hpair
    rw [h.lookup, nonEmpty?_eq_some_iff] at hlookup
    exact congrArg (amount pair.1) hlookup.1.symm
  have hperm : (map.map Prod.fst).Perm (textKeys mode lines) := by
    rw [List.perm_ext_iff_of_nodup (keys_nodup h.sorted) (textKeys_nodup mode lines)]
    intro key
    rw [mem_textKeys, List.mem_map]
    constructor
    · rintro ⟨pair, hpair, rfl⟩
      have hlookup := (mem_iff_lookup h.sorted).mp hpair
      rw [h.lookup, nonEmpty?_eq_some_iff] at hlookup
      rw [hlookup.1]
      exact hlookup.2
    · intro hne
      refine ⟨(key, postingsOf mode lines key), (mem_iff_lookup h.sorted).mpr ?_, rfl⟩
      rw [h.lookup, nonEmpty?_eq_some_iff]
      exact ⟨rfl, hne⟩
  rw [mapSum, hlists, keySum]
  exact (hperm.map _).sum_eq

/-- The lines that have a key, among the first lines of a text. -/
theorem postingsOf_prefix {mode : BuildKeys} {lines full : List (List UInt8)}
    (h : lines <+: full) (key : List UInt8) :
    postingsOf mode lines key <+: postingsOf mode full key := by
  obtain ⟨rest, rfl⟩ := h
  induction rest using List.reverseRecOn with
  | nil => rw [List.append_nil]
  | append_singleton rest line ih =>
    rw [← List.append_assoc, postingsOf_concat]
    exact ih.trans (List.prefix_append _ _)

/-- What the map has in the middle of a line is no more than what the text costs. -/
theorem HoldsUpTo.mapSum_le {mode : BuildKeys} {lines full : List (List UInt8)}
    {line : List UInt8} (hfull : lines ++ [line] <+: full) {done : List (List UInt8)}
    (hdone : ∀ key ∈ done, key ∈ keysOf mode line) {map : PostingMap}
    (h : HoldsUpTo (postingsOf mode lines) lines.length done map)
    {amount : List UInt8 → List Nat → Nat}
    (hamount : ∀ key (list list' : List Nat), list.length ≤ list'.length →
      amount key list ≤ amount key list') :
    mapSum amount map ≤ keySum mode full amount := by
  -- Every list of the map is the front of the list that the text ends up with.
  have hlists : ∀ pair ∈ map, pair.2.length ≤ (postingsOf mode full pair.1).length ∧
      pair.1 ∈ textKeys mode full := by
    intro pair hpair
    have hlookup := (mem_iff_lookup h.sorted).mp hpair
    rw [h.lookup, nonEmpty?_eq_some_iff] at hlookup
    obtain ⟨hlist, hne⟩ := hlookup
    have hfront : postingsOf mode (lines ++ [line]) pair.1 <+: postingsOf mode full pair.1 :=
      postingsOf_prefix hfull pair.1
    have hlength := hfront.length_le
    rw [postingsOf_concat, List.length_append] at hlength
    have hle : pair.2.length ≤ (postingsOf mode full pair.1).length := by
      rw [← hlist, List.length_append]
      split
      · rename_i hmem
        rw [if_pos (hdone _ hmem)] at hlength
        exact hlength
      · rw [List.length_nil]
        omega
    refine ⟨hle, mem_textKeys.mpr fun hnil => hne ?_⟩
    rw [hnil] at hle
    exact List.eq_nil_of_length_eq_zero (Nat.le_zero.mp hle)
  have hsub : (map.map Prod.fst).Subperm (textKeys mode full) := by
    refine List.subperm_of_subset (keys_nodup h.sorted) fun key hkey => ?_
    obtain ⟨pair, hpair, rfl⟩ := List.mem_map.mp hkey
    exact (hlists pair hpair).2
  calc mapSum amount map
      ≤ (map.map fun pair => amount pair.1 (postingsOf mode full pair.1)).sum := by
        refine List.sum_le_sum fun pair hpair => ?_
        exact hamount _ _ _ (hlists pair hpair).1
    _ = ((map.map Prod.fst).map fun key => amount key (postingsOf mode full key)).sum := by
        rw [List.map_map]
        rfl
    _ ≤ keySum mode full amount := by
        obtain ⟨keys, hperm, hkeys⟩ := hsub
        rw [← (hperm.map _).sum_eq]
        exact (hkeys.map _).sum_le_sum fun _ _ => Nat.zero_le _

/-- The lines are within the limits that the build charges while it streams. -/
structure IndexBuildLimits.Cover (limits : IndexBuildLimits) (maxLineBytes : Nat)
    (mode : BuildKeys) (lines : List (List UInt8)) : Prop where
  lineBytes : ∀ line ∈ lines, line.length ≤ maxLineBytes
  granules : lines.length ≤ limits.maxGranules
  distinctKeys : (textKeys mode lines).length ≤ limits.maxDistinctKeys
  keyBytes : ((textKeys mode lines).map List.length).sum ≤ limits.maxKeyBytes
  postingIds : ((textKeys mode lines).map fun key => (postingsOf mode lines key).length).sum ≤
    limits.maxPostingIds

/-- A map that is never more than the text is within the limits. -/
theorem IndexBuildLimits.Cover.admit {limits : IndexBuildLimits} {maxLineBytes : Nat}
    {mode : BuildKeys} {full : List (List UInt8)} (h : limits.Cover maxLineBytes mode full)
    {map : PostingMap} (hle : ∀ amount : List UInt8 → List Nat → Nat,
      (∀ key (list list' : List Nat), list.length ≤ list'.length →
        amount key list ≤ amount key list') → mapSum amount map ≤ keySum mode full amount) :
    limits.Admit map := by
  have hdistinct := h.distinctKeys
  refine ⟨?_, ?_, ?_⟩
  · have hcount : keySum mode full (fun _ _ => 1) = (textKeys mode full).length := by
      simp [keySum]
    rw [← hcount] at hdistinct
    exact (hle (fun _ _ => 1) fun _ _ _ _ => Nat.le_refl 1).trans hdistinct
  · exact (hle (fun key _ => key.length) fun _ _ _ _ => Nat.le_refl _).trans h.keyBytes
  · exact (hle (fun _ list => list.length) fun _ _ _ hlength => hlength).trans h.postingIds

/-! ## One line -/

/-- Within the limits the keys of a line are added. -/
theorem addKeys_of_cover {limits : IndexBuildLimits} {maxLineBytes : Nat} {mode : BuildKeys}
    {lines full : List (List UInt8)} {line : List UInt8} (hsized : limits.Sized)
    (hcover : limits.Cover maxLineBytes mode full) (hfull : lines ++ [line] <+: full)
    {keys done : List (List UInt8)} (hdone : ∀ key ∈ done, key ∈ keysOf mode line)
    (hkeys : ∀ key ∈ keys, foldKey mode.fold key ∈ keysOf mode line) {meter : BuildMeter}
    {map : PostingMap} (hmode : meter.mode = mode) (hlimits : meter.limits = limits)
    (hcounts : meter.Counts map)
    (hholds : HoldsUpTo (postingsOf mode lines) lines.length done map) :
    ∃ meter' map', addKeys lines.length keys meter map = .ok (meter', map') ∧
      meter'.Counts map' := by
  induction keys generalizing done meter map with
  | nil => exact ⟨meter, map, rfl, hcounts⟩
  | cons key keys ih =>
    rw [List.forall_mem_cons] at hkeys
    have hold : ∀ key, ∀ id ∈ postingsOf mode lines key, id < lines.length := by
      intro key id hmem
      rw [postingsOf, List.mem_filter, List.mem_range] at hmem
      exact hmem.1
    have hnext := hholds.insertPosting hold (foldKey mode.fold key)
    have hdone' : ∀ k ∈ done ++ [foldKey mode.fold key], k ∈ keysOf mode line := by
      intro k hk
      rcases List.mem_append.mp hk with hk | hk
      · exact hdone k hk
      · rw [List.mem_singleton.mp hk]
        exact hkeys.1
    have hadmitted := hcover.admit fun amount => hnext.mapSum_le hfull hdone'
    subst hmode
    subst hlimits
    obtain ⟨meter', hadd, hcounts', hlimits', hmode'⟩ :=
      hcounts.addKey hsized hholds.sorted hadmitted
    rw [addKeys, hadd, ok_bind]
    exact ih hdone' hkeys.2 hmode' hlimits' hcounts' hnext

/-- The keys of a line of text. -/
theorem lineKeys_of_valid {line : List UInt8} (h : Utf8.Valid line) (mode : BuildKeys) :
    ∃ keys, lineKeys mode line = .ok keys ∧
      ∀ key ∈ keys, foldKey mode.fold key ∈ keysOf mode line := by
  have hkeys : ∃ keys, lineKeys mode line = .ok keys := by
    cases mode with
    | token => exact ⟨_, rfl⟩
    | ngram n =>
      obtain ⟨scalars, rfl⟩ := h
      refine ⟨_, bind_eq_ok_iff.mpr ⟨String.ofList scalars, ?_, rfl⟩⟩
      rw [okOr_eq_ok_iff, ← textBytes_ofList, fromUtf8_textBytes]
  obtain ⟨keys, hkeys⟩ := hkeys
  refine ⟨keys, hkeys, fun key hkey => ?_⟩
  rw [keysOf, hkeys]
  exact List.mem_map_of_mem hkey

/-- The span of a range of the text, from the chunk of its first byte to that of its last. -/
theorem chunkSpanForRange_eq {entries : List ChunkEntry} {size : Nat}
    (hlayout : Layout entries size) {start stop : Nat} (hpos : start < stop) (hstop : stop ≤ size) :
    chunkSpanForRange entries start stop =
      .ok (weightIndex (chunkSizes entries) start, weightIndex (chunkSizes entries) (stop - 1) + 1) := by
  have hindex : ∀ offset < size, ∃ entry, entries[weightIndex (chunkSizes entries) offset]? =
      some entry ∧ entry.chunkId = weightIndex (chunkSizes entries) offset ∧
        entry.chunkId + 1 < 2 ^ 64 := by
    intro offset hoffset
    obtain ⟨hlt, -, -⟩ := weightIndex_spec (hlayout.total.symm ▸ hoffset)
    rw [length_chunkSizes] at hlt
    refine ⟨entries[weightIndex (chunkSizes entries) offset],
      List.getElem?_eq_getElem hlt, ?_⟩
    obtain ⟨hid, -⟩ := hlayout.contiguous.getElem? (List.getElem?_eq_getElem hlt)
    have hcount := length_le_sum_chunkSizes fun entry hentry => hlayout.size_pos hentry
    have htotal := hlayout.total
    have hsize := hlayout.size_lt
    omega
  obtain ⟨first, hfirst, hfirstId, -⟩ := hindex start (by omega)
  obtain ⟨last, hlast, hlastId, hword⟩ := hindex (stop - 1) (by omega)
  rw [chunkSpanForRange, hlayout.chunkIndex_eq, ok_bind, hlayout.chunkIndex_eq, ok_bind, hfirst,
    okOr_some, ok_bind, hlast, okOr_some, ok_bind, checkedAdd_of_lt hword, okOr_some, ok_bind,
    hfirstId, hlastId]
  rfl

/-- What the emission of a line comes down to. -/
theorem emitLineGranule_eq {entries : List ChunkEntry} {size : Nat} (hlayout : Layout entries size)
    {lineStart lineEnd : Nat} (hpos : lineStart < lineEnd) (hend : lineEnd ≤ size)
    {line : List UInt8} {state : LineIndexBuild} {keys : List (List UInt8)}
    (hkeys : lineKeys state.meter.mode line = .ok keys) (hcount : state.granules.length < 2 ^ 64) :
    ∃ granule, emitLineGranule entries lineStart lineEnd line state = do
      rejectIf (state.granules.length ≥ state.meter.limits.maxGranules) .resourceLimitExceeded
      let (meter, postingsByKey) ← addKeys state.granules.length keys state.meter state.postingsByKey
      return { state with granules := state.granules ++ [granule], postingsByKey, meter } := by
  have hspan := chunkSpanForRange_eq hlayout hpos hend
  refine ⟨{ granuleId := state.granules.length, logicalOffset := lineStart,
            byteLength := lineEnd - lineStart
            chunkStart := weightIndex (chunkSizes entries) lineStart
            chunkEnd := weightIndex (chunkSizes entries) (lineEnd - 1) + 1
            firstLine := some state.granules.length, lineCount := some 1 }, ?_⟩
  rw [emitLineGranule, usizeToU64_of_lt hcount, ok_bind, checkedSub_of_le (Nat.le_of_lt hpos),
    okOr_some, ok_bind, hspan, ok_bind, hkeys]
  rfl

/-- A state that has charged what it holds. -/
structure LineIndexBuild.Metered (limits : IndexBuildLimits) (state : LineIndexBuild) : Prop where
  limits : state.meter.limits = limits
  counts : state.meter.Counts state.postingsByKey

section Line

variable {entries : List ChunkEntry} {limits : IndexBuildLimits} {maxLineBytes : Nat}
  {mode : BuildKeys} {text : List UInt8} {emitted : List (List UInt8)} {line : List UInt8}
  {state : LineIndexBuild} {lineEnd : Nat}

/-- A line of a text is emitted, or a limit is exceeded. -/
theorem failsOnlyWith_emitLineGranule (hlayout : Layout entries text.length)
    (hindexes : IndexesLines entries mode emitted state.granules state.postingsByKey)
    (hstart : state.lineStart = emitted.flatten.length)
    (hend : lineEnd = state.lineStart + line.length) (hline : line ≠ [])
    (hvalid : Utf8.Valid line) (hbound : lineEnd ≤ text.length)
    (hlines : emitted.length ≤ text.length) :
    FailsOnlyWith .resourceLimitExceeded
      (emitLineGranule entries state.lineStart lineEnd line state) := by
  obtain ⟨keys, hkeys, -⟩ := lineKeys_of_valid hvalid state.meter.mode
  have hpos := List.length_pos_of_ne_nil hline
  have hsize := hlayout.size_lt
  obtain ⟨granule, heq⟩ := emitLineGranule_eq hlayout
    (show state.lineStart < lineEnd by omega) hbound hkeys
    (by rw [hindexes.length]; omega)
  rw [heq]
  refine failsOnlyWith_bind (failsOnlyWith_rejectIf _) fun _ _ => ?_
  exact failsOnlyWith_bind (failsOnlyWith_addKeys _ _ _ _) fun _ _ => failsOnlyWith_ok _

/-- Within the limits a line of a text is emitted. -/
theorem emitLineGranule_of_cover (hlayout : Layout entries text.length) (hsized : limits.Sized)
    (hcover : limits.Cover maxLineBytes mode (lines text)) (hfull : emitted ++ [line] <+: lines text)
    (hmode : state.meter.mode = mode) (hmetered : state.Metered limits)
    (hindexes : IndexesLines entries mode emitted state.granules state.postingsByKey)
    (hstart : state.lineStart = emitted.flatten.length)
    (hend : lineEnd = state.lineStart + line.length) (hline : line ≠ [])
    (hvalid : Utf8.Valid line) (hbound : lineEnd ≤ text.length) :
    ∃ state', emitLineGranule entries state.lineStart lineEnd line state = .ok state' ∧
      state'.Metered limits := by
  obtain ⟨keys, hkeys, hof⟩ := lineKeys_of_valid hvalid state.meter.mode
  have hpos := List.length_pos_of_ne_nil hline
  have hcount := hfull.length_le
  rw [List.length_append, List.length_singleton] at hcount
  have hgranules := hcover.granules
  have hword := hsized.maxGranules
  obtain ⟨granule, heq⟩ := emitLineGranule_eq hlayout
    (show state.lineStart < lineEnd by omega) hbound hkeys
    (by rw [hindexes.length]; omega)
  have hholds : HoldsUpTo (postingsOf mode emitted) emitted.length [] state.postingsByKey := by
    refine ⟨hindexes.sorted, fun key => ?_⟩
    rw [hindexes.lookup key, if_neg List.not_mem_nil, List.append_nil]
  rw [hmode] at hof
  obtain ⟨meter, map, hadd, hcounts⟩ := addKeys_of_cover hsized hcover hfull
    (fun key hkey => absurd hkey List.not_mem_nil) hof hmode hmetered.limits hmetered.counts hholds
  rw [← hindexes.length] at hadd
  have hold : ∀ key, ∀ id ∈ postingsOf mode emitted key, id < state.granules.length := by
    intro key id hid
    rw [postingsOf, List.mem_filter, List.mem_range, ← hindexes.length] at hid
    exact hid.1
  obtain ⟨-, -, hlimits⟩ := addKeys_holds hold (hindexes.length ▸ hholds) hadd
  rw [heq, hmetered.limits, rejectIf_of_not (by rw [hindexes.length]; omega), ok_bind, hadd, ok_bind]
  exact ⟨_, rfl, hlimits.trans hmetered.limits, hcounts⟩

end Line

/-! ## The text -/

/-- A line that ends in LF, and what follows it, are texts of their own. -/
theorem valid_of_terminated_append {line rest : List UInt8} (hline : Terminated lf line)
    (h : Utf8.Valid (line ++ rest)) : Utf8.Valid line ∧ Utf8.Valid rest := by
  obtain ⟨body, -, rfl⟩ := hline
  obtain ⟨scalars, hscalars⟩ := h
  rw [List.append_assoc, List.singleton_append] at hscalars
  obtain ⟨before, scalar, behind, -, hbefore, hlf, hbehind⟩ :=
    Utf8.encode_eq_append_cons (show lf.toNat < 0x80 by decide) hscalars.symm
  refine ⟨⟨before ++ [scalar], ?_⟩, ⟨behind, hbehind⟩⟩
  rw [Utf8.encode_append, Utf8.encode_cons, hlf, hbefore, Utf8.encode_nil, List.append_nil]

theorem valid_of_flatten_append {emitted : List (List UInt8)}
    (hemitted : ∀ line ∈ emitted, Terminated lf line) {rest : List UInt8}
    (h : Utf8.Valid (emitted.flatten ++ rest)) : Utf8.Valid rest := by
  induction emitted with
  | nil => exact h
  | cons line emitted ih =>
    rw [List.forall_mem_cons] at hemitted
    rw [List.flatten_cons, List.append_assoc] at h
    exact ih hemitted.2 (valid_of_terminated_append hemitted.1 h).2

theorem checkLineSize_of_le {maxLineBytes : Nat} {carry segment : List UInt8}
    (h : carry.length + segment.length ≤ maxLineBytes) (hword : maxLineBytes < 2 ^ 64) :
    checkLineSize maxLineBytes carry segment = .ok ⟨⟩ := by
  rw [checkLineSize, usizeToU64_of_lt (by omega), ok_bind, usizeToU64_of_lt (by omega), ok_bind,
    checkedAdd_of_lt (by omega), okOr_some, ok_bind, rejectIf_of_not (by omega)]

theorem failsOnlyWith_checkLineSize (maxLineBytes : Nat) (carry segment : List UInt8) :
    FailsOnlyWith .resourceLimitExceeded (checkLineSize maxLineBytes carry segment) := by
  refine failsOnlyWith_bind (failsOnlyWith_usizeToU64 _) fun _ _ => ?_
  refine failsOnlyWith_bind (failsOnlyWith_usizeToU64 _) fun _ _ => ?_
  exact failsOnlyWith_bind (failsOnlyWith_okOr _ _) fun _ _ => failsOnlyWith_rejectIf _

section Run

variable {entries : List ChunkEntry} {limits : IndexBuildLimits} {maxLineBytes : Nat}
  {mode : BuildKeys} {text : List UInt8}

/-- The lines of a text begin with the emitted ones, and the next is the carry with the segment
that ends it. -/
theorem BuildsTo.emits {read segment rest : List UInt8} {emitted : List (List UInt8)}
    {state : LineIndexBuild} (h : BuildsTo entries mode read emitted state)
    (hsegment : Terminated lf segment) (htext : text = read ++ (segment ++ rest)) :
    emitted ++ [state.carry ++ segment] <+: lines text ∧
      (Utf8.Valid text → Utf8.Valid (state.carry ++ segment)) := by
  have hline : Terminated lf (state.carry ++ segment) := hsegment.append_left h.carry
  have hsplit : text = emitted.flatten ++ ((state.carry ++ segment) ++ rest) := by
    rw [htext, h.text]
    simp only [List.append_assoc]
  constructor
  · rw [hsplit, lines, segments_append_of_forall_terminated h.terminated,
      segments_append_of_terminated hline]
    exact ⟨segments lf rest, by simp⟩
  · intro hvalid
    rw [hsplit] at hvalid
    exact (valid_of_terminated_append hline (valid_of_flatten_append h.terminated hvalid)).1

/-- A carry without LF is the front of a line. -/
theorem BuildsTo.carries {read segment rest : List UInt8} {emitted : List (List UInt8)}
    {state : LineIndexBuild} (h : BuildsTo entries mode read emitted state)
    (hne : segment ≠ []) (hsegment : lf ∉ segment) (htext : text = read ++ (segment ++ rest)) :
    ∃ line ∈ lines text, state.carry.length + segment.length ≤ line.length := by
  have hsplit : text = emitted.flatten ++ ((state.carry ++ segment) ++ rest) := by
    rw [htext, h.text]
    simp only [List.append_assoc]
  have hpiece : lf ∉ state.carry ++ segment := by
    rw [List.mem_append, not_or]
    exact ⟨h.carry, hsegment⟩
  obtain ⟨line, hline, hfront⟩ :=
    exists_segment_of_not_mem (List.append_ne_nil_of_right_ne_nil _ hne) hpiece rest
  refine ⟨line, ?_, ?_⟩
  · rw [hsplit, lines, segments_append_of_forall_terminated h.terminated]
    exact List.mem_append_right _ hline
  · rw [← List.length_append]
    exact hfront.length_le

variable {entry : ChunkEntry} {segments : List (List UInt8)} {consumed : Nat}
  {read rest : List UInt8} {emitted : List (List UInt8)} {state : LineIndexBuild}

/-- What the loop over the segments of a chunk needs to know of the text around it. -/
structure Reads (entries : List ChunkEntry) (mode : BuildKeys) (text : List UInt8)
    (entry : ChunkEntry) (consumed : Nat) (read : List UInt8) (segments : List (List UInt8))
    (rest : List UInt8) (emitted : List (List UInt8)) (state : LineIndexBuild) : Prop where
  builds : BuildsTo entries mode read emitted state
  position : entry.logicalOffset + consumed = read.length
  text : text = read ++ (segments.flatten ++ rest)
  cut : ∀ segment ∈ segments, Terminated lf segment ∨ (segment ≠ [] ∧ lf ∉ segment)

/-- The end of the next line lies in the text. -/
theorem Reads.lineEnd_le {segment : List UInt8}
    (h : Reads entries mode text entry consumed read (segment :: segments) rest emitted state) :
    entry.logicalOffset + (consumed + segment.length) ≤ text.length := by
  have hlength := congrArg List.length h.text
  rw [List.flatten_cons, List.length_append, List.length_append, List.length_append] at hlength
  have hposition := h.position
  omega

theorem Reads.emit {segment : List UInt8}
    (h : Reads entries mode text entry consumed read (segment :: segments) rest emitted state)
    (hterminated : Terminated lf segment) {state' : LineIndexBuild}
    (hemit : emitLineGranule entries state.lineStart
      (entry.logicalOffset + (consumed + segment.length)) (state.carry ++ segment) state =
        .ok state') :
    Reads entries mode text entry (consumed + segment.length) (read ++ segment) segments rest
      (emitted ++ [state.carry ++ segment])
      { state' with
        carry := [], lineStart := entry.logicalOffset + (consumed + segment.length) } where
  builds := h.builds.emit h.position hterminated hemit
  position := by
    have hposition := h.position
    rw [List.length_append]
    omega
  text := by rw [h.text, List.flatten_cons, List.append_assoc, List.append_assoc]
  cut := (List.forall_mem_cons.mp h.cut).2

theorem Reads.carryOver {segment : List UInt8}
    (h : Reads entries mode text entry consumed read (segment :: segments) rest emitted state)
    (hnone : lf ∉ segment) :
    Reads entries mode text entry (consumed + segment.length) (read ++ segment) segments rest
      emitted { state with carry := state.carry ++ segment } where
  builds := h.builds.carryOver hnone
  position := by
    have hposition := h.position
    rw [List.length_append]
    omega
  text := by rw [h.text, List.flatten_cons, List.append_assoc, List.append_assoc]
  cut := (List.forall_mem_cons.mp h.cut).2

/-- The loop over the segments fails with a limit only. -/
theorem Reads.failsOnlyWith (hlayout : Layout entries text.length) (hvalid : Utf8.Valid text)
    (h : Reads entries mode text entry consumed read segments rest emitted state) :
    FailsOnlyWith .resourceLimitExceeded
      (buildSegments entries maxLineBytes entry consumed segments state) := by
  induction segments generalizing consumed read emitted state with
  | nil => exact failsOnlyWith_ok _
  | cons segment segments ih =>
    have hend := h.lineEnd_le
    have hsize := hlayout.size_lt
    have hsegment := (List.forall_mem_cons.mp h.cut).1
    rw [buildSegments]
    split
    · rename_i hlast
      have hterminated := (terminated_iff_getLast? hsegment).mp hlast
      have htext := h.text
      rw [List.flatten_cons, List.append_assoc] at htext
      obtain ⟨hlines, hline⟩ := h.builds.emits hterminated htext
      have hcount := hlines.length_le
      rw [List.length_append, List.length_singleton] at hcount
      rw [usizeToU64_of_lt (by omega), ok_bind, checkedLogicalEnd_of_lt (by omega), ok_bind]
      refine failsOnlyWith_bind (failsOnlyWith_checkLineSize _ _ _) fun _ _ => ?_
      refine failsOnlyWith_bind ?_ fun state' hemit => ih (h.emit hterminated hemit)
      refine failsOnlyWith_emitLineGranule hlayout h.builds.indexes h.builds.lineStart
        (h.builds.lineEnd_eq h.position segment) ?_ (hline hvalid) hend ?_
      · exact List.append_ne_nil_of_right_ne_nil _ hterminated.ne_nil
      · have hle := countLines_le text
        rw [← length_lines] at hle
        omega
    · rename_i hlast
      have hterminated := mt (terminated_iff_getLast? hsegment).mpr hlast
      obtain ⟨-, hnone⟩ := hsegment.resolve_left hterminated
      refine failsOnlyWith_bind (failsOnlyWith_checkLineSize _ _ _) fun _ _ => ?_
      exact ih (h.carryOver hnone)

/-- Within the limits the loop over the segments goes through. -/
theorem Reads.buildSegments_of_cover (hlayout : Layout entries text.length)
    (hvalid : Utf8.Valid text) (hsized : limits.Sized) (hword : maxLineBytes < 2 ^ 64)
    (hcover : limits.Cover maxLineBytes mode (lines text))
    (h : Reads entries mode text entry consumed read segments rest emitted state)
    (hmetered : state.Metered limits) :
    ∃ state', buildSegments entries maxLineBytes entry consumed segments state = .ok state' ∧
      state'.Metered limits := by
  induction segments generalizing consumed read emitted state with
  | nil => exact ⟨state, rfl, hmetered⟩
  | cons segment segments ih =>
    have hend := h.lineEnd_le
    have hsize := hlayout.size_lt
    have hsegment := (List.forall_mem_cons.mp h.cut).1
    have htext := h.text
    rw [List.flatten_cons, List.append_assoc] at htext
    rw [buildSegments]
    split
    · rename_i hlast
      have hterminated := (terminated_iff_getLast? hsegment).mp hlast
      obtain ⟨hlines, hline⟩ := h.builds.emits hterminated htext
      have hlength := hcover.lineBytes _
        (hlines.subset (List.mem_append_right _ (List.mem_singleton_self _)))
      rw [List.length_append] at hlength
      obtain ⟨state', hemit, hmetered'⟩ := emitLineGranule_of_cover hlayout hsized hcover hlines
        h.builds.mode hmetered h.builds.indexes h.builds.lineStart
        (h.builds.lineEnd_eq h.position segment)
        (List.append_ne_nil_of_right_ne_nil _ hterminated.ne_nil) (hline hvalid) hend
      rw [usizeToU64_of_lt (by omega), ok_bind, checkedLogicalEnd_of_lt (by omega), ok_bind,
        checkLineSize_of_le hlength hword, ok_bind, hemit, ok_bind]
      exact ih (h.emit hterminated hemit) ⟨hmetered'.limits, hmetered'.counts⟩
    · rename_i hlast
      have hterminated := mt (terminated_iff_getLast? hsegment).mpr hlast
      obtain ⟨hne, hnone⟩ := hsegment.resolve_left hterminated
      obtain ⟨line, hline, hlength⟩ := h.builds.carries hne hnone htext
      have hmax := hcover.lineBytes line hline
      rw [checkLineSize_of_le (by omega) hword, ok_bind]
      exact ih (h.carryOver hnone) ⟨hmetered.limits, hmetered.counts⟩

/-- The loop over the segments lets no longer line pass, and carries no longer one over. -/
theorem Reads.bounded
    (h : Reads entries mode text entry consumed read segments rest emitted state)
    (hemitted : ∀ line ∈ emitted, line.length ≤ maxLineBytes)
    (hcarry : state.carry.length ≤ maxLineBytes) {state' : LineIndexBuild}
    (hbuild : buildSegments entries maxLineBytes entry consumed segments state = .ok state') :
    ∃ emitted', BuildsTo entries mode (read ++ segments.flatten) emitted' state' ∧
      (∀ line ∈ emitted', line.length ≤ maxLineBytes) ∧ state'.carry.length ≤ maxLineBytes := by
  induction segments generalizing consumed read emitted state with
  | nil =>
    cases hbuild
    rw [List.flatten_nil, List.append_nil]
    exact ⟨emitted, h.builds, hemitted, hcarry⟩
  | cons segment segments ih =>
    have hsegment := (List.forall_mem_cons.mp h.cut).1
    have hchecked : ∀ {u : Unit}, checkLineSize maxLineBytes state.carry segment = .ok u →
        (state.carry ++ segment).length ≤ maxLineBytes := by
      intro u hcheck
      simp only [checkLineSize, bind_eq_ok_iff, usizeToU64_eq_ok_iff, okOr_eq_ok_iff,
        checkedAdd_eq_some_iff, rejectIf_eq_ok_iff] at hcheck
      obtain ⟨_, ⟨-, rfl⟩, _, ⟨-, rfl⟩, _, ⟨-, rfl⟩, hle⟩ := hcheck
      rw [List.length_append]
      omega
    rw [List.flatten_cons, ← List.append_assoc]
    rw [buildSegments] at hbuild
    split at hbuild
    · rename_i hlast
      have hterminated := (terminated_iff_getLast? hsegment).mp hlast
      obtain ⟨width, hwidth, hbuild⟩ := bind_eq_ok_iff.mp hbuild
      obtain ⟨lineEnd, hend, hbuild⟩ := bind_eq_ok_iff.mp hbuild
      obtain ⟨_, hcheck, hbuild⟩ := bind_eq_ok_iff.mp hbuild
      obtain ⟨next, hemit, hbuild⟩ := bind_eq_ok_iff.mp hbuild
      obtain ⟨-, rfl⟩ := usizeToU64_eq_ok_iff.mp hwidth
      obtain ⟨-, rfl⟩ := checkedLogicalEnd_eq_ok_iff.mp hend
      refine ih (h.emit hterminated hemit) ?_ (Nat.zero_le _) hbuild
      intro line hline
      rcases List.mem_append.mp hline with hline | hline
      · exact hemitted line hline
      · rw [List.mem_singleton.mp hline]
        exact hchecked hcheck
    · rename_i hlast
      have hterminated := mt (terminated_iff_getLast? hsegment).mpr hlast
      obtain ⟨-, hnone⟩ := hsegment.resolve_left hterminated
      obtain ⟨_, hcheck, hbuild⟩ := bind_eq_ok_iff.mp hbuild
      exact ih (h.carryOver hnone) hemitted (hchecked hcheck) hbuild

end Run

/-! ## The chunks -/

section Chunks

variable {entries : List ChunkEntry} {limits : IndexBuildLimits} {maxLineBytes : Nat}
  {mode : BuildKeys} {text : List UInt8} {decode : DecodeEntry} {index : Nat} {read : List UInt8}
  {emitted : List (List UInt8)} {state : LineIndexBuild}

/-- What the chunk loop needs to know of the text around it. -/
structure ReadsChunks (entries : List ChunkEntry) (mode : BuildKeys) (text : List UInt8)
    (decode : DecodeEntry) (index : Nat) (read : List UInt8) (rest : List ChunkEntry)
    (emitted : List (List UInt8)) (state : LineIndexBuild) : Prop where
  builds : BuildsTo entries mode read emitted state
  contiguous : Contiguous index read.length rest
  text : text = read ++ originalText decode rest
  length : ∀ entry part, decode entry = .ok part → part.length = entry.uncompressedSize
  decodes : ∀ entry ∈ rest, ∃ part, decode entry = .ok part ∧ (fromUtf8 part).isSome = true

variable {entry : ChunkEntry} {rest : List ChunkEntry} {decoded : List UInt8}

theorem originalText_cons (hdecode : decode entry = .ok decoded) :
    originalText decode (entry :: rest) = decoded ++ originalText decode rest := by
  rw [originalText, List.map_cons, List.flatten_cons, chunkText, hdecode]
  rfl

theorem ReadsChunks.reads
    (h : ReadsChunks entries mode text decode index read (entry :: rest) emitted state)
    (hdecode : decode entry = .ok decoded) :
    Reads entries mode text entry 0 read (segments lf decoded) (originalText decode rest) emitted
      state where
  builds := h.builds
  position := h.contiguous.2.1
  text := by rw [h.text, flatten_segments, originalText_cons hdecode]
  cut := fun segment hsegment => terminated_of_mem_segments hsegment

theorem ReadsChunks.next
    (h : ReadsChunks entries mode text decode index read (entry :: rest) emitted state)
    (hdecode : decode entry = .ok decoded) {emitted' : List (List UInt8)} {state' : LineIndexBuild}
    (hbuilds : BuildsTo entries mode (read ++ (segments lf decoded).flatten) emitted' state') :
    ReadsChunks entries mode text decode (index + 1) (read ++ decoded) rest emitted' state' where
  builds := by rwa [flatten_segments] at hbuilds
  contiguous := by
    rw [List.length_append, h.length entry decoded hdecode]
    exact h.contiguous.2.2.2
  text := by rw [h.text, originalText_cons hdecode, List.append_assoc]
  length := h.length
  decodes := (List.forall_mem_cons.mp h.decodes).2

/-- One round of the chunk loop. -/
theorem ReadsChunks.buildChunks_cons
    (h : ReadsChunks entries mode text decode index read (entry :: rest) emitted state) :
    ∃ decoded, decode entry = .ok decoded ∧
      buildChunks entries maxLineBytes decode (entry :: rest) state = (do
        let state ← buildSegments entries maxLineBytes entry 0 (segments lf decoded) state
        buildChunks entries maxLineBytes decode rest state) := by
  obtain ⟨decoded, hdecode, hutf8⟩ := h.decodes entry List.mem_cons_self
  refine ⟨decoded, hdecode, ?_⟩
  have hsome : ¬ (fromUtf8 decoded).isNone = true := by
    rw [Option.isNone_iff_eq_none]
    exact Option.isSome_iff_ne_none.mp hutf8
  rw [buildChunks, hdecode, ok_bind, rejectIf_of_not hsome, ok_bind]

theorem ReadsChunks.failsOnlyWith (hlayout : Layout entries text.length)
    (hvalid : Utf8.Valid text)
    (h : ReadsChunks entries mode text decode index read rest emitted state) :
    FailsOnlyWith .resourceLimitExceeded (buildChunks entries maxLineBytes decode rest state) := by
  induction rest generalizing index read emitted state with
  | nil => exact failsOnlyWith_ok _
  | cons entry rest ih =>
    obtain ⟨decoded, hdecode, hround⟩ := h.buildChunks_cons
    rw [hround]
    refine failsOnlyWith_bind ((h.reads hdecode).failsOnlyWith hlayout hvalid) fun state' hstate => ?_
    obtain ⟨emitted', hbuilds⟩ := buildSegments_buildsTo (h.reads hdecode).cut
      (h.reads hdecode).position h.builds hstate
    exact ih (h.next hdecode hbuilds)

theorem ReadsChunks.buildChunks_of_cover (hlayout : Layout entries text.length)
    (hvalid : Utf8.Valid text) (hsized : limits.Sized) (hword : maxLineBytes < 2 ^ 64)
    (hcover : limits.Cover maxLineBytes mode (lines text))
    (h : ReadsChunks entries mode text decode index read rest emitted state)
    (hmetered : state.Metered limits) :
    ∃ state', buildChunks entries maxLineBytes decode rest state = .ok state' ∧
      state'.Metered limits := by
  induction rest generalizing index read emitted state with
  | nil => exact ⟨state, rfl, hmetered⟩
  | cons entry rest ih =>
    obtain ⟨decoded, hdecode, hround⟩ := h.buildChunks_cons
    obtain ⟨state', hstate, hmetered'⟩ :=
      (h.reads hdecode).buildSegments_of_cover hlayout hvalid hsized hword hcover hmetered
    obtain ⟨emitted', hbuilds⟩ := buildSegments_buildsTo (h.reads hdecode).cut
      (h.reads hdecode).position h.builds hstate
    rw [hround, hstate, ok_bind]
    exact ih (h.next hdecode hbuilds) hmetered'

theorem ReadsChunks.bounded
    (h : ReadsChunks entries mode text decode index read rest emitted state)
    (hemitted : ∀ line ∈ emitted, line.length ≤ maxLineBytes)
    (hcarry : state.carry.length ≤ maxLineBytes) {state' : LineIndexBuild}
    (hbuild : buildChunks entries maxLineBytes decode rest state = .ok state') :
    ∃ emitted', BuildsTo entries mode text emitted' state' ∧
      (∀ line ∈ emitted', line.length ≤ maxLineBytes) ∧ state'.carry.length ≤ maxLineBytes := by
  induction rest generalizing index read emitted state with
  | nil =>
    cases hbuild
    have htext : text = read := by
      rw [h.text, originalText, List.map_nil, List.flatten_nil, List.append_nil]
    rw [htext]
    exact ⟨emitted, h.builds, hemitted, hcarry⟩
  | cons entry rest ih =>
    obtain ⟨decoded, hdecode, hround⟩ := h.buildChunks_cons
    rw [hround] at hbuild
    obtain ⟨next, hnext, hbuild⟩ := bind_eq_ok_iff.mp hbuild
    obtain ⟨emitted', hbuilds, hemitted', hcarry'⟩ :=
      (h.reads hdecode).bounded hemitted hcarry hnext
    exact ih (h.next hdecode hbuilds) hemitted' hcarry' hbuild

/-- The state before the first chunk. -/
def LineIndexBuild.start (limits : IndexBuildLimits) (mode : BuildKeys) : LineIndexBuild :=
  { granules := [], postingsByKey := [], meter := { limits, mode }, carry := [], lineStart := 0 }

theorem LineIndexBuild.metered_start (limits : IndexBuildLimits) (mode : BuildKeys) :
    (LineIndexBuild.start limits mode).Metered limits :=
  ⟨rfl, rfl, rfl, rfl⟩

theorem CutsInto.readsChunks (hcuts : CutsInto entries decode text)
    (hdecodes : ∀ entry ∈ entries, ∃ part, decode entry = .ok part ∧ (fromUtf8 part).isSome = true)
    (limits : IndexBuildLimits) (mode : BuildKeys) :
    ReadsChunks entries mode text decode 0 [] entries [] (.start limits mode) where
  builds :=
    { indexes :=
        { length := rfl
          places := fun index granule hget => by cases hget
          sorted := List.Pairwise.nil
          lookup := fun key => rfl }
      mode := rfl
      terminated := fun line hline => absurd hline List.not_mem_nil
      carry := List.not_mem_nil
      text := rfl
      lineStart := rfl }
  contiguous := hcuts.layout.contiguous
  text := hcuts.text.symm
  length := hcuts.length
  decodes := hdecodes

/-- Chunks that are texts make a text. -/
theorem CutsInto.valid (hcuts : CutsInto entries decode text)
    (hdecodes : ∀ entry ∈ entries, ∃ part, decode entry = .ok part ∧
      (fromUtf8 part).isSome = true) : Utf8.Valid text := by
  rw [← hcuts.text, originalText]
  refine Utf8.valid_flatten fun part hpart => ?_
  obtain ⟨entry, hentry, rfl⟩ := List.mem_map.mp hpart
  obtain ⟨part, hdecode, hutf8⟩ := hdecodes entry hentry
  obtain ⟨string, hstring⟩ := Option.isSome_iff_exists.mp hutf8
  rw [fromUtf8_eq_some_iff, textBytes_eq] at hstring
  rw [chunkText, hdecode]
  exact ⟨string.toList, hstring⟩

/-- A carry that is left at the end is the last line. -/
theorem BuildsTo.last (h : BuildsTo entries mode text emitted state) (hcarry : state.carry ≠ []) :
    lines text = emitted ++ [state.carry] ∧
      text.length = state.lineStart + state.carry.length ∧
      (Utf8.Valid text → Utf8.Valid state.carry) := by
  refine ⟨?_, ?_, ?_⟩
  · rw [h.lines_eq, if_neg hcarry]
  · rw [h.lineStart, ← List.length_append, ← h.text]
  · intro hvalid
    rw [h.text] at hvalid
    exact valid_of_flatten_append h.terminated hvalid

variable {env : Env}

/-- A build over the chunks of a text fails with a limit only. -/
theorem failsOnlyWith_buildLineIndexStreaming (hcuts : CutsInto entries decode text)
    (hdecodes : ∀ entry ∈ entries, ∃ part, decode entry = .ok part ∧
      (fromUtf8 part).isSome = true) :
    FailsOnlyWith .resourceLimitExceeded
      (buildLineIndexStreaming env entries text.length maxLineBytes limits decode mode) := by
  have hvalid := hcuts.valid hdecodes
  have hreads := hcuts.readsChunks hdecodes limits mode
  refine failsOnlyWith_bind (hreads.failsOnlyWith hcuts.layout hvalid) fun state hstate => ?_
  obtain ⟨⟨emitted, hbuilds⟩, -⟩ :=
    buildChunks_buildsTo hcuts.length hreads.contiguous hreads.builds hstate
  rw [List.nil_append, hcuts.text] at hbuilds
  dsimp only
  split
  · rename_i hcarry
    obtain ⟨hlines, hlength, hline⟩ := hbuilds.last hcarry
    refine failsOnlyWith_bind ?_ fun _ _ => failsOnlyWith_ok _
    refine failsOnlyWith_emitLineGranule hcuts.layout hbuilds.indexes hbuilds.lineStart hlength
      hcarry (hline hvalid) (Nat.le_refl _) ?_
    have hle := countLines_le text
    rw [← length_lines, hlines, List.length_append] at hle
    omega
  · exact failsOnlyWith_ok _

/-- Within the limits a build over the chunks of a text succeeds. -/
theorem buildLineIndexStreaming_of_cover (hcuts : CutsInto entries decode text)
    (hdecodes : ∀ entry ∈ entries, ∃ part, decode entry = .ok part ∧
      (fromUtf8 part).isSome = true)
    (hsized : limits.Sized) (hword : maxLineBytes < 2 ^ 64)
    (hcover : limits.Cover maxLineBytes mode (lines text)) :
    ∃ parts, buildLineIndexStreaming env entries text.length maxLineBytes limits decode mode =
      .ok parts := by
  have hvalid := hcuts.valid hdecodes
  have hreads := hcuts.readsChunks hdecodes limits mode
  obtain ⟨state, hstate, hmetered⟩ := hreads.buildChunks_of_cover hcuts.layout hvalid hsized hword
    hcover (LineIndexBuild.metered_start limits mode)
  obtain ⟨⟨emitted, hbuilds⟩, -⟩ :=
    buildChunks_buildsTo hcuts.length hreads.contiguous hreads.builds hstate
  rw [List.nil_append, hcuts.text] at hbuilds
  unfold LineIndexBuild.start at hstate
  rw [buildLineIndexStreaming, hstate, ok_bind]
  dsimp only
  split
  · rename_i hcarry
    obtain ⟨hlines, hlength, hline⟩ := hbuilds.last hcarry
    obtain ⟨state', hemit, -⟩ := emitLineGranule_of_cover hcuts.layout hsized hcover
      (by rw [hlines]) hbuilds.mode hmetered hbuilds.indexes hbuilds.lineStart hlength hcarry
      (hline hvalid) (Nat.le_refl _)
    rw [hemit, ok_bind]
    exact ⟨_, rfl⟩
  · exact ⟨_, rfl⟩

/-- A build that succeeds has seen no line above the limit. -/
theorem buildLineIndexStreaming_bounded (hcuts : CutsInto entries decode text)
    (hdecodes : ∀ entry ∈ entries, ∃ part, decode entry = .ok part ∧
      (fromUtf8 part).isSome = true) {parts : LineIndexParts}
    (h : buildLineIndexStreaming env entries text.length maxLineBytes limits decode mode =
      .ok parts) : ∀ line ∈ lines text, line.length ≤ maxLineBytes := by
  have hreads := hcuts.readsChunks hdecodes limits mode
  obtain ⟨state, hstate, -⟩ := bind_eq_ok_iff.mp h
  obtain ⟨emitted, hbuilds, hemitted, hcarry⟩ := hreads.bounded
    (fun line hline => absurd hline List.not_mem_nil) (Nat.zero_le _) hstate
  rw [hbuilds.lines_eq]
  intro line hline
  rcases List.mem_append.mp hline with hline | hline
  · exact hemitted line hline
  · split at hline
    · exact absurd hline List.not_mem_nil
    · rw [List.mem_singleton.mp hline]
      exact hcarry

end Chunks

end Qzt
