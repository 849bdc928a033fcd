import Qzt.Sidecar.Admission
import Qzt.Sidecar.Restored

/-!
# What a build has written

A build that returned has written an index of the text, within the limits of the build.
From these limits follow the sizes of the sections and the shape of the posting map that
the decoders ask for.
-/

namespace Qzt.Sidecar

open Foundation

/-! ## Granules -/

section Granules

variable {entries : List ChunkEntry} {text : List UInt8} {granule : SearchGranule} {index : Nat}

/-- A granule with its place in the text and in the chunks. -/
structure PlacedGranule (entries : List ChunkEntry) (size index : Nat) (granule : SearchGranule) :
    Prop where
  line : granule.granuleId = index ∧ granule.firstLine = some index ∧ granule.lineCount = some 1
  index_lt : index < size
  inside : granule.logicalOffset + granule.byteLength ≤ size
  nonempty : 0 < granule.byteLength
  span : chunkSpanForRange entries granule.logicalOffset
    (granule.logicalOffset + granule.byteLength) = .ok (granule.chunkStart, granule.chunkEnd)
  ordered : granule.chunkStart < granule.chunkEnd
  chunks : granule.chunkEnd ≤ entries.length
  entries_lt : entries.length < 2 ^ 64

theorem placedGranule (hlayout : Layout entries text.length)
    (h : (lineGranules entries text)[index]? = some granule) :
    PlacedGranule entries text.length index granule := by
  rw [lineGranules, List.getElem?_map, Option.map_eq_some_iff] at h
  obtain ⟨position, hposition, rfl⟩ := h
  obtain ⟨hlt, hget⟩ := List.getElem?_eq_some_iff.mp hposition
  rw [List.getElem_range] at hget
  subst hget
  rw [List.length_range] at hlt
  obtain ⟨-, hbound, hne⟩ := slice_line (List.getElem?_eq_getElem hlt)
  have hpos := List.length_pos_of_ne_nil hne
  have hline : ((lines text).getD index []).length = (lines text)[index].length := by
    rw [List.getD_eq_getElem _ _ hlt]
  have hcount := countLines_le text
  rw [length_lines] at hlt
  have hchunks := length_le_sum_chunkSizes fun entry hentry => hlayout.size_pos hentry
  have htotal := hlayout.total
  have hsize := hlayout.size_lt
  have hmono := weightIndex_mono (chunkSizes entries)
    (show ((lines text).take index).flatten.length ≤
      ((lines text).take index).flatten.length + (lines text)[index].length - 1 by omega)
  have hlast := (weightIndex_spec (show ((lines text).take index).flatten.length +
    (lines text)[index].length - 1 < (chunkSizes entries).sum by omega)).1
  rw [length_chunkSizes] at hlast
  refine
    { line := ⟨rfl, rfl, rfl⟩
      index_lt := by omega
      inside := by rw [Qzt.lineGranule]; dsimp only; rwa [hline]
      nonempty := by rw [Qzt.lineGranule]; dsimp only; rwa [hline]
      span := ?_
      ordered := ?_
      chunks := ?_
      entries_lt := by omega }
  · rw [Qzt.lineGranule]
    dsimp only
    rw [hline]
    exact chunkSpanForRange_eq hlayout (by omega) hbound
  · rw [Qzt.lineGranule]
    dsimp only
    rw [hline]
    omega
  · rw [Qzt.lineGranule]
    dsimp only
    rw [hline]
    omega

namespace PlacedGranule

variable {size : Nat}

/-- The record of a granule says all of it. -/
theorem inLine (h : PlacedGranule entries size index granule) (hsize : size < 2 ^ 64) :
    GranuleInLine granule index := by
  have hindex := h.index_lt
  have hinside := h.inside
  have hordered := h.ordered
  have hchunks := h.chunks
  have hentries := h.entries_lt
  exact
    { granuleId := h.line.1
      firstLine := h.line.2.1
      lineCount := h.line.2.2
      index_lt := by omega
      logicalOffset := by omega
      byteLength := by omega
      chunkStart := by omega
      chunkEnd := by omega }

/-- The chunks of a granule are the ones of its range. -/
theorem validates (h : PlacedGranule entries size index granule) (hsize : size < 2 ^ 64) :
    validateGranuleChunkSpan granule entries size = .ok ⟨⟩ := by
  have hinside := h.inside
  have hpos := h.nonempty
  have hordered := h.ordered
  have hchunks := h.chunks
  rw [validateGranuleChunkSpan, usizeToU64_of_lt h.entries_lt, ok_bind, rejectIf_of_not (by omega),
    ok_bind, checkedAdd_of_lt (by omega), okOr_some, ok_bind, rejectIf_of_not (by omega), ok_bind,
    h.span, ok_bind]
  exact rejectIf_of_not (not_not_intro rfl)

end PlacedGranule

end Granules

/-! ## The posting map -/

theorem ne_nil_of_mem_keysOf {mode : BuildKeys} (hmode : mode ≠ .ngram 0) {line key : List UInt8}
    (h : key ∈ keysOf mode line) : key ≠ [] := by
  rw [mem_keysOf_iff hmode] at h
  cases mode with
  | token =>
    obtain ⟨word, ⟨start, stop, hrun, rfl⟩, rfl⟩ := h
    have hlt := hrun.start_lt
    have hle := hrun.stop_le
    apply List.ne_nil_of_length_pos
    rw [List.length_map, length_slice_of_le (by omega)]
    omega
  | ngram n =>
    obtain ⟨before, scalars, behind, -, hlength, rfl⟩ := h
    cases scalars with
    | nil =>
      rw [List.length_nil] at hlength
      rw [← hlength] at hmode
      exact absurd rfl hmode
    | cons scalar scalars =>
      rw [Utf8.encode_cons]
      exact List.append_ne_nil_of_left_ne_nil (Utf8.encodeChar_ne_nil scalar) _

/-- A machine word takes up to ten groups. -/
theorem varuintLen_le {value : Nat} (h : value < 2 ^ 64) : varuintLen value ≤ 10 :=
  length_leb128_le_of_lt (Nat.lt_of_lt_of_le h (by decide))

theorem length_deltaBytes_le {previous : Option Nat} {list : List Nat}
    (h : IncreasesFrom previous list) : (deltaBytes previous list).length ≤ 10 * list.length := by
  induction list generalizing previous with
  | nil => exact Nat.zero_le _
  | cons value values ih =>
    obtain ⟨hnext, hvalue, -⟩ := h.cons
    have hrest := ih hnext
    have hfirst : (writeVaruint (value - previous.getD 0)).length ≤ 10 :=
      varuintLen_le (show value - previous.getD 0 < 2 ^ 64 by omega)
    rw [deltaBytes_cons, List.length_append, List.length_cons]
    omega

section Map

variable {env : Env} {entries : List ChunkEntry} {mode : BuildKeys} {text : List UInt8}
  {map : PostingMap} {limits : IndexBuildLimits} {withSkips : Bool}

/-- A key of an index and its list. -/
structure KeyInText (text : List UInt8) (pair : List UInt8 × List Nat) : Prop where
  key : pair.1 ≠ []
  nonempty : pair.2 ≠ []
  increases : IncreasesFrom none pair.2
  inside : ∀ index ∈ pair.2, index < (lines text).length
  length : pair.2.length ≤ (lines text).length

theorem keyInText (hlayout : Layout entries text.length) (hmode : mode ≠ .ngram 0)
    (h : IndexesLines entries mode (lines text) (lineGranules entries text) map)
    {pair : List UInt8 × List Nat} (hpair : pair ∈ map) : KeyInText text pair := by
  have hlist : pair.2 ∈ map.map Prod.snd := List.mem_map_of_mem hpair
  obtain ⟨-, hinside, hne⟩ := h.list_spec hlist
  have hlookup := (mem_iff_lookup h.sorted).mp hpair
  rw [h.lookup, nonEmpty?_eq_some_iff] at hlookup
  obtain ⟨index, hindex⟩ := List.exists_mem_of_ne_nil _ hne
  have hmem := hindex
  rw [← hlookup.1, mem_postingsOf] at hmem
  obtain ⟨line, -, hkey⟩ := hmem
  rw [h.length] at hinside
  refine ⟨ne_nil_of_mem_keysOf hmode hkey, hne, h.increases hlayout _ hlist, hinside, ?_⟩
  calc pair.2.length = (postingsOf mode (lines text) pair.1).length := by rw [hlookup.1]
    _ ≤ (List.range (lines text).length).length := List.length_filter_le _ _
    _ = (lines text).length := List.length_range

/-- The totals of an index within the limits of its build. -/
structure MapWithin (limits : IndexBuildLimits) (text : List UInt8) (map : PostingMap) : Prop where
  granules : (lines text).length ≤ limits.maxGranules
  keys : map.length ≤ limits.maxDistinctKeys
  keyBytes : (map.map fun pair => pair.1.length).sum ≤ limits.maxKeyBytes
  postingIds : (map.map fun pair => pair.2.length).sum ≤ limits.maxPostingIds
  postingBytes : (map.map fun pair => (postingBytes pair.2).length).sum ≤ limits.maxEncodedBytes

/-- An index that was encoded is within the limits, and its terms are those of its map. -/
theorem within_of_encodeParts (hlayout : Layout entries text.length) (hsized : limits.Sized)
    (h : IndexesLines entries mode (lines text) (lineGranules entries text) map)
    {encoded : EncodedPostingLists}
    (hencoded : encodeParts text.length (lineGranules entries text)
      (map.map fun pair => blankTerm env pair.1) (map.map Prod.snd) limits withSkips =
        .ok encoded) :
    MapWithin limits text map ∧
      WrittenTerms (map.map fun pair => blankTerm env pair.1) (map.map Prod.snd) encoded.terms := by
  rw [h.encodeParts_eq hlayout] at hencoded
  obtain ⟨_, hcheck, hlists⟩ := bind_eq_ok_iff.mp hencoded
  obtain ⟨hgranules, hkeys, hkeyBytes, hids⟩ :=
    (IndexBuildLimits.checkParts_eq_ok_iff hsized).mp hcheck
  obtain ⟨hwritten, -⟩ := encodePostingLists_writes
    (by rw [List.length_map, List.length_map]) (h.increases hlayout) hsized.maxEncodedBytes hlists
  have hbytes := le_of_encodePostingLists (h.increases hlayout) hsized.maxEncodedBytes hlists
  have hcost : (map.map fun pair => (postingBytes pair.2).length).sum ≤
      ((map.map Prod.snd).map (postingCost withSkips)).sum := by
    rw [List.map_map]
    exact List.sum_le_sum fun pair _ => Nat.le_add_right _ _
  rw [h.length] at hgranules
  rw [List.length_map] at hkeys
  rw [List.map_map] at hkeyBytes hids
  exact ⟨⟨hgranules, hkeys, hkeyBytes, hids, Nat.le_trans hcost hbytes⟩, hwritten⟩

theorem MapWithin.writable (hwithin : MapWithin limits text map) (hsized : limits.Sized)
    (hlayout : Layout entries text.length) (hmode : mode ≠ .ngram 0)
    (h : IndexesLines entries mode (lines text) (lineGranules entries text) map) :
    Writable map where
  sorted := h.sorted
  keys := by
    intro pair hpair
    have hle : pair.1.length ≤ (map.map fun pair => pair.1.length).sum :=
      List.single_le_sum (fun _ _ => Nat.zero_le _) _ (List.mem_map_of_mem hpair)
    exact ⟨(keyInText hlayout hmode h hpair).key, Nat.lt_of_le_of_lt
      (Nat.le_trans hle hwithin.keyBytes) hsized.maxKeyBytes⟩
  lists := by
    intro pair hpair
    have hkey := keyInText hlayout hmode h hpair
    have hgranules := hwithin.granules
    have hword := hsized.maxGranules
    have hlength := hkey.length
    exact ⟨hkey.nonempty, hkey.increases, by omega⟩
  size := Nat.lt_of_le_of_lt hwithin.postingBytes hsized.maxEncodedBytes

/-- A term record has up to thirty bytes besides its key. -/
theorem length_termRecord_le (hmap : Writable map) {pair : List UInt8 × List Nat}
    (hpair : pair ∈ map) : (termRecord pair).length ≤ pair.1.length + 30 := by
  have hsize : (postingBytes pair.2).length ≤
      (map.map fun pair => (postingBytes pair.2).length).sum :=
    List.single_le_sum (fun _ _ => Nat.zero_le _) _ (List.mem_map_of_mem hpair)
  have hword := hmap.size
  have hkeyLen : (writeVaruint pair.1.length).length ≤ 10 := varuintLen_le (hmap.keys pair hpair).2
  have hcountLen : (writeVaruint pair.2.length).length ≤ 10 :=
    varuintLen_le (hmap.lists pair hpair).2.2
  have hsizeLen : (writeVaruint (postingBytes pair.2).length).length ≤ 10 :=
    varuintLen_le (by omega)
  simp only [termRecord, List.length_append]
  omega

theorem length_termRecords_le (hmap : Writable map) : (map.map termRecord).flatten.length ≤
    (map.map fun pair => pair.1.length).sum + 30 * map.length := by
  induction map with
  | nil => exact Nat.zero_le _
  | cons pair map ih =>
    have hpair := length_termRecord_le hmap List.mem_cons_self
    have hrest := ih hmap.tail
    rw [List.map_cons, List.flatten_cons, List.length_append, List.map_cons, List.sum_cons,
      List.length_cons]
    omega

end Map

end Qzt.Sidecar
