import Qzt.Format.Reference
import Qzt.Search.Budgets
import Qzt.Search.LineIndex

/-!
# The streaming build is the naive index

The naive index of a text takes it line by line: a line has a token for every maximal run
of token bytes, or an n-gram for every window of `n` scalars.  The build that runs over
the chunks with a carry, and finds windows by zipping offsets, returns this index; the
chunks show in the chunk spans only.
-/

namespace Qzt

open Foundation

/-! ## The keys of a line -/

/-- A maximal run of token bytes of a line. -/
def IsToken (line word : List UInt8) : Prop :=
  ∃ start stop, IsRun isTokenByte line start stop ∧ word = slice line start (stop - start)

/-- A window of `n` scalars of a line. -/
def IsScalarNgram (n : Nat) (line window : List UInt8) : Prop :=
  ∃ before scalars behind : List Char, line = Utf8.encode (before ++ scalars ++ behind) ∧
    scalars.length = n ∧ window = Utf8.encode scalars

/-- A line has a key: one of its tokens in lower case, or one of its n-grams. -/
def HasKey (mode : BuildKeys) (line key : List UInt8) : Prop :=
  match mode with
  | .token => ∃ word, IsToken line word ∧ key = word.map toAsciiLowercase
  | .ngram n => IsScalarNgram n line key

theorem getElem?_charIndices (offset : Nat) (scalars : List Char) (index : Nat) :
    (charIndices offset scalars)[index]? = if index < scalars.length then
      some (offset + (Utf8.encode (scalars.take index)).length) else none := by
  induction scalars generalizing offset index with
  | nil => rfl
  | cons scalar scalars ih =>
    cases index with
    | zero => rfl
    | succ index =>
      rw [charIndices, List.getElem?_cons_succ, ih, List.take_succ_cons, Utf8.encode_cons,
        List.length_append, String.length_utf8EncodeChar, List.length_cons]
      simp only [Nat.add_lt_add_iff_right, Nat.add_assoc]

theorem length_charIndices (offset : Nat) (scalars : List Char) :
    (charIndices offset scalars).length = scalars.length := by
  induction scalars generalizing offset with
  | nil => rfl
  | cons scalar scalars ih => rw [charIndices, List.length_cons, ih, List.length_cons]

/-- The offsets with the end of the text behind them. -/
theorem getElem?_charIndices_end {scalars : List Char} {index : Nat}
    (h : index ≤ scalars.length) :
    (charIndices 0 scalars ++ [(Utf8.encode scalars).length])[index]? =
      some (Utf8.encode (scalars.take index)).length := by
  rcases Nat.lt_or_eq_of_le h with hlt | rfl
  · rw [List.getElem?_append_left (by rwa [length_charIndices]), getElem?_charIndices, if_pos hlt,
      Nat.zero_add]
  · rw [List.getElem?_append_right (by rw [length_charIndices]), length_charIndices, Nat.sub_self,
      List.getElem?_cons_zero, List.take_length]

/-- Between two offsets lie the scalars from one index to the other. -/
theorem slice_encode (scalars : List Char) (index n : Nat) :
    slice (Utf8.encode scalars) (Utf8.encode (scalars.take index)).length
        ((Utf8.encode (scalars.take (index + n))).length -
          (Utf8.encode (scalars.take index)).length) =
      Utf8.encode ((scalars.drop index).take n) := by
  have hwindow : scalars.take (index + n) = scalars.take index ++ (scalars.drop index).take n :=
    List.take_add
  have hsplit : Utf8.encode scalars = Utf8.encode (scalars.take index) ++
      Utf8.encode ((scalars.drop index).take n) ++ Utf8.encode ((scalars.drop index).drop n) := by
    rw [← Utf8.encode_append, ← Utf8.encode_append, List.append_assoc, List.take_append_drop,
      List.take_append_drop]
  rw [hwindow, Utf8.encode_append, List.length_append, Nat.add_sub_cancel_left, hsplit,
    List.append_assoc]
  exact slice_append_left _ _ _

/-- The zipped offsets are the windows. -/
theorem mem_ngrams_iff {n : Nat} (hn : 0 < n) {text : String} {key : List UInt8} :
    key ∈ ngrams n text ↔ ∃ index, index + n ≤ text.toList.length ∧
      key = Utf8.encode ((text.toList.drop index).take n) := by
  rw [ngrams, List.mem_map, textBytes_eq]
  generalize text.toList = scalars
  have hends : ∀ index, index + n ≤ scalars.length →
      ((charIndices 0 scalars ++ [(Utf8.encode scalars).length]).drop n)[index]? =
        some (Utf8.encode (scalars.take (index + n))).length := by
    intro index hindex
    rw [List.getElem?_drop, Nat.add_comm, getElem?_charIndices_end hindex]
  constructor
  · rintro ⟨⟨start, stop⟩, hwindow, rfl⟩
    obtain ⟨index, hindex⟩ := List.mem_iff_getElem?.mp hwindow
    rw [List.getElem?_zip_eq_some] at hindex
    obtain ⟨hstart, hstop⟩ := hindex
    have hbound : index + n ≤ scalars.length := by
      have hlt := (List.getElem?_eq_some_iff.mp hstop).1
      rw [List.length_drop, List.length_append, List.length_singleton, length_charIndices] at hlt
      omega
    rw [hends index hbound, Option.some.injEq] at hstop
    rw [getElem?_charIndices, if_pos (by omega), Option.some.injEq, Nat.zero_add] at hstart
    refine ⟨index, hbound, ?_⟩
    rw [← hstart, ← hstop, slice_encode]
  · rintro ⟨index, hbound, rfl⟩
    refine ⟨((Utf8.encode (scalars.take index)).length,
      (Utf8.encode (scalars.take (index + n))).length), ?_, slice_encode _ _ _⟩
    refine List.mem_iff_getElem?.mpr ⟨index, ?_⟩
    rw [List.getElem?_zip_eq_some]
    refine ⟨?_, hends index hbound⟩
    rw [getElem?_charIndices, if_pos (by omega), Nat.zero_add]

/-- The build adds exactly the keys that a line has. -/
theorem mem_keysOf_iff {mode : BuildKeys} (hmode : mode ≠ .ngram 0) {line key : List UInt8} :
    key ∈ keysOf mode line ↔ HasKey mode line key := by
  cases mode with
  | token =>
    rw [keysOf]
    change key ∈ (tokens line).map (foldKey true) ↔ _
    rw [tokens, List.map_map, List.mem_map]
    constructor
    · rintro ⟨⟨start, stop⟩, hrun, rfl⟩
      exact ⟨_, ⟨start, stop, mem_runs_iff.mp hrun, rfl⟩, rfl⟩
    · rintro ⟨_, ⟨start, stop, hrun, rfl⟩, rfl⟩
      exact ⟨(start, stop), mem_runs_iff.mpr hrun, rfl⟩
  | ngram n =>
    have hn : 0 < n := by
      refine Nat.pos_of_ne_zero fun hzero => hmode ?_
      rw [hzero]
    have hfold : foldKey (BuildKeys.ngram n).fold = id := rfl
    rw [keysOf, lineKeys]
    cases htext : fromUtf8 line with
    | none =>
      -- Bytes that are no text have no windows either.
      refine ⟨fun hmem => absurd hmem List.not_mem_nil, ?_⟩
      rintro ⟨before, scalars, behind, rfl, -, -⟩
      rw [← textBytes_ofList, fromUtf8_textBytes] at htext
      cases htext
    | some text =>
      rw [fromUtf8_eq_some_iff] at htext
      change key ∈ (ngrams n text).map (foldKey (BuildKeys.ngram n).fold) ↔ IsScalarNgram n line key
      rw [hfold, List.map_id, mem_ngrams_iff hn, htext, textBytes_eq]
      constructor
      · rintro ⟨index, hbound, rfl⟩
        refine ⟨text.toList.take index, (text.toList.drop index).take n,
          (text.toList.drop index).drop n, ?_, ?_, rfl⟩
        · rw [List.append_assoc, List.take_append_drop, List.take_append_drop]
        · rw [List.length_take, List.length_drop]
          omega
      · rintro ⟨before, scalars, behind, hline, rfl, rfl⟩
        have hscalars := Utf8.encode_injective hline
        refine ⟨before.length, ?_, ?_⟩
        · rw [hscalars, List.length_append, List.length_append]
          omega
        · rw [hscalars, List.append_assoc, List.drop_left, List.take_left]

/-! ## The chunks of a granule -/

/-- A span that is a range of a chunk table has exactly the identifiers of the chunks in it. -/
theorem mem_span_iff {entries : List ChunkEntry} {size : Nat} (hlayout : Layout entries size)
    {start stop : Nat} {span : Nat × Nat} (hpos : start < stop) (hstop : stop ≤ size)
    (h : chunkSpanForRange entries start stop = .ok span) {entry : ChunkEntry}
    (hentry : entry ∈ entries) :
    (span.1 ≤ entry.chunkId ∧ entry.chunkId < span.2) ↔
      entry.logicalOffset < stop ∧ start < entry.logicalOffset + entry.uncompressedSize := by
  have htouched := chunkSpanForRange_touched hlayout hpos hstop h
  obtain ⟨hrange, hslice⟩ := getRange?_eq_some_iff.mp htouched
  obtain ⟨index, hindex⟩ := List.mem_iff_getElem?.mp hentry
  obtain ⟨hid, -, hsize, -⟩ := hlayout.contiguous.getElem? hindex
  rw [Nat.zero_add] at hid
  -- Sharing a byte is being among the touched chunks.
  have hshares : (entry.logicalOffset < stop ∧
      start < entry.logicalOffset + entry.uncompressedSize) ↔
        entry ∈ touched entries start (stop - start) := by
    rw [touched, List.mem_filter, decide_eq_true_eq, Nat.add_sub_of_le (Nat.le_of_lt hpos)]
    constructor
    · intro hboth
      exact ⟨hentry, by omega⟩
    · intro hboth
      omega
  rw [hshares, ← hslice, hid]
  constructor
  · intro hinside
    refine List.mem_iff_getElem?.mpr ⟨index - span.1, ?_⟩
    rw [getElem?_slice (by omega), Nat.add_sub_of_le hinside.1]
    exact hindex
  · intro hmem
    obtain ⟨position, hposition⟩ := List.mem_iff_getElem?.mp hmem
    have hlt : position < span.2 - span.1 := by
      have hbound := (List.getElem?_eq_some_iff.mp hposition).1
      rwa [length_slice_of_le (by omega)] at hbound
    rw [getElem?_slice hlt] at hposition
    obtain ⟨hsame, -⟩ := hlayout.contiguous.getElem? hposition
    omega

/-! ## The index -/

/-- A granule is the line of a text at `index`: its bytes, and the chunks that share one of
them. -/
structure IsLineGranule (entries : List ChunkEntry) (text : List UInt8) (index : Nat)
    (granule : SearchGranule) : Prop where
  granuleId : granule.granuleId = index
  line : (lines text)[index]? = some (slice text granule.logicalOffset granule.byteLength)
  logicalOffset : granule.logicalOffset = ((lines text).take index).flatten.length
  byteLength : granule.logicalOffset + granule.byteLength ≤ text.length
  chunks : ∀ entry ∈ entries, (granule.chunkStart ≤ entry.chunkId ∧
    entry.chunkId < granule.chunkEnd) ↔
      entry.logicalOffset < granule.logicalOffset + granule.byteLength ∧
        granule.logicalOffset < entry.logicalOffset + entry.uncompressedSize
  firstLine : granule.firstLine = some index
  lineCount : granule.lineCount = some 1

/-- The naive index of a text, with the spans of a chunk table. -/
structure IsNaiveIndex (mode : BuildKeys) (entries : List ChunkEntry) (text : List UInt8)
    (granules : List SearchGranule) (keys : List (List UInt8)) (postings : List (List Nat)) :
    Prop where
  granules_length : granules.length = (lines text).length
  granules_at : ∀ index granule, granules[index]? = some granule →
    IsLineGranule entries text index granule
  keys_sorted : keys.Pairwise (· < ·)
  mem_keys : ∀ key, key ∈ keys ↔ ∃ line ∈ lines text, HasKey mode line key
  postings_length : postings.length = keys.length
  postings_at : ∀ (position : Nat) key (list : List Nat), keys[position]? = some key →
    postings[position]? = some list → list.Pairwise (· < ·) ∧
      ∀ index, index ∈ list ↔ ∃ line, (lines text)[index]? = some line ∧ HasKey mode line key

/-- A granule without its chunks. -/
def SearchGranule.withoutChunks (granule : SearchGranule) : SearchGranule :=
  { granule with chunkStart := 0, chunkEnd := 0 }

/-- A line is where its predecessors end. -/
theorem slice_line {text line : List UInt8} {index : Nat} (h : (lines text)[index]? = some line) :
    slice text ((lines text).take index).flatten.length line.length = line ∧
      ((lines text).take index).flatten.length + line.length ≤ text.length ∧ line ≠ [] := by
  have hsplit : text = ((lines text).take index).flatten ++
      (line ++ ((lines text).drop (index + 1)).flatten) := by
    obtain ⟨hlt, rfl⟩ := List.getElem?_eq_some_iff.mp h
    rw [← List.flatten_cons, ← List.drop_eq_getElem_cons hlt, ← List.flatten_append,
      List.take_append_drop, lines, flatten_segments]
  refine ⟨?_, ?_, ?_⟩
  · have hcut := slice_append_left ((lines text).take index).flatten line
      ((lines text).drop (index + 1)).flatten
    rwa [← hsplit] at hcut
  · have hlength := congrArg List.length hsplit
    rw [List.length_append, List.length_append] at hlength
    omega
  · rcases terminated_of_mem_segments (List.mem_of_getElem? h) with hterminated | ⟨hne, -⟩
    · exact hterminated.ne_nil
    · exact hne

/-- The lists of a sorted map, at their positions. -/
theorem IndexesLines.isNaiveIndex {entries : List ChunkEntry} {mode : BuildKeys}
    (hmode : mode ≠ .ngram 0) {text : List UInt8} (hlayout : Layout entries text.length)
    {granules : List SearchGranule} {map : PostingMap}
    (h : IndexesLines entries mode (lines text) granules map) :
    IsNaiveIndex mode entries text granules (map.map Prod.fst) (map.map Prod.snd) where
  granules_length := h.length
  granules_at := by
    intro index granule hgranule
    have hplaces := h.places index granule hgranule
    obtain ⟨line, hline, hlength⟩ := Option.map_eq_some_iff.mp hplaces.byteLength
    obtain ⟨hslice, hbound, hne⟩ := slice_line hline
    rw [← hplaces.logicalOffset, hlength] at hslice hbound
    have hpos : 0 < granule.byteLength := hlength ▸ List.length_pos_of_ne_nil hne
    refine ⟨hplaces.granuleId, ?_, hplaces.logicalOffset, hbound, ?_, hplaces.firstLine,
      hplaces.lineCount⟩
    · rw [hslice, hline]
    · intro entry hentry
      exact mem_span_iff hlayout (by omega) hbound hplaces.span hentry
  keys_sorted := List.pairwise_map.mpr h.sorted
  mem_keys := by
    intro key
    rw [List.mem_map]
    constructor
    · rintro ⟨⟨_, list⟩, hpair, rfl⟩
      rw [mem_iff_lookup h.sorted, h.lookup, nonEmpty?_eq_some_iff] at hpair
      obtain ⟨rfl, hne⟩ := hpair
      obtain ⟨index, hindex⟩ := List.exists_mem_of_ne_nil _ hne
      obtain ⟨line, hline, hkey⟩ := mem_postingsOf.mp hindex
      exact ⟨line, List.mem_of_getElem? hline, (mem_keysOf_iff hmode).mp hkey⟩
    · rintro ⟨line, hline, hkey⟩
      obtain ⟨index, hindex⟩ := List.mem_iff_getElem?.mp hline
      refine ⟨(key, postingsOf mode (lines text) key), ?_, rfl⟩
      rw [mem_iff_lookup h.sorted, h.lookup, nonEmpty?_eq_some_iff]
      refine ⟨rfl, List.ne_nil_of_mem (mem_postingsOf.mpr ⟨line, hindex, ?_⟩)⟩
      exact (mem_keysOf_iff hmode).mpr hkey
  postings_length := by rw [List.length_map, List.length_map]
  postings_at := by
    intro position key list hkey hlist
    rw [List.getElem?_map, Option.map_eq_some_iff] at hkey hlist
    obtain ⟨pair, hpair, rfl⟩ := hkey
    obtain ⟨_, hsame, rfl⟩ := hlist
    obtain rfl := Option.some.inj (hpair.symm.trans hsame)
    have hlookup := (mem_iff_lookup h.sorted).mp (List.mem_of_getElem? hpair)
    rw [h.lookup, nonEmpty?_eq_some_iff] at hlookup
    obtain ⟨hlist, -⟩ := hlookup
    rw [← hlist]
    refine ⟨postingsOf_pairwise _ _ _, fun index => ?_⟩
    rw [mem_postingsOf]
    constructor
    · rintro ⟨line, hline, hkey⟩
      exact ⟨line, hline, (mem_keysOf_iff hmode).mp hkey⟩
    · rintro ⟨line, hline, hkey⟩
      exact ⟨line, hline, (mem_keysOf_iff hmode).mpr hkey⟩

/-- The chunks of a table are the parts of a text. -/
structure CutsInto (entries : List ChunkEntry) (decode : DecodeEntry) (text : List UInt8) : Prop where
  layout : Layout entries text.length
  length : ∀ entry part, decode entry = .ok part → part.length = entry.uncompressedSize
  text : originalText decode entries = text

/-- Two sorted maps that look up the same lists are one map. -/
theorem IndexesLines.map_unique {entries entries' : List ChunkEntry} {mode : BuildKeys}
    {lines : List (List UInt8)} {granules granules' : List SearchGranule} {map map' : PostingMap}
    (h : IndexesLines entries mode lines granules map)
    (h' : IndexesLines entries' mode lines granules' map') : map' = map := by
  have hirrefl : Std.Irrefl fun a b : List UInt8 × List Nat => a.1 < b.1 :=
    ⟨fun a => List.lt_irrefl a.1⟩
  refine List.Pairwise.eq_of_mem_iff h'.sorted h.sorted fun pair => ?_
  rw [mem_iff_lookup h'.sorted, mem_iff_lookup h.sorted, h'.lookup, h.lookup]

/-- Granules of one text differ in their chunks only. -/
theorem IsNaiveIndex.granules_unique {mode : BuildKeys} {entries entries' : List ChunkEntry}
    {text : List UInt8} {granules granules' : List SearchGranule} {keys keys' : List (List UInt8)}
    {postings postings' : List (List Nat)}
    (h : IsNaiveIndex mode entries text granules keys postings)
    (h' : IsNaiveIndex mode entries' text granules' keys' postings') :
    granules'.map SearchGranule.withoutChunks = granules.map SearchGranule.withoutChunks := by
  refine List.ext_getElem? fun index => ?_
  rw [List.getElem?_map, List.getElem?_map]
  rcases Nat.lt_or_ge index (lines text).length with hlt | hge
  · have hgranule := List.getElem?_eq_getElem (h.granules_length ▸ hlt)
    have hgranule' := List.getElem?_eq_getElem (h'.granules_length ▸ hlt)
    rw [hgranule, hgranule', Option.map_some, Option.map_some]
    obtain ⟨hid, hline, hoffset, hbound, -, hfirst, hcount⟩ := h.granules_at index _ hgranule
    obtain ⟨hid', hline', hoffset', hbound', -, hfirst', hcount'⟩ :=
      h'.granules_at index _ hgranule'
    have hlength := congrArg List.length (Option.some.inj (hline.symm.trans hline'))
    rw [length_slice_of_le hbound, length_slice_of_le hbound'] at hlength
    rw [SearchGranule.withoutChunks, SearchGranule.withoutChunks, hid, hid', hoffset, hoffset',
      hlength, hfirst, hfirst', hcount, hcount']
  · rw [List.getElem?_eq_none (h'.granules_length ▸ hge),
      List.getElem?_eq_none (h.granules_length ▸ hge)]

/-- Two lines over two chunks, the second line cut in the middle. -/
def twoLines : List UInt8 := [0x62, 0x0a, 0x61, 0x42, 0x0a]

/-- The bytes of two lines that a chunk table entry stands for. -/
def twoLinesDecoder : DecodeEntry := fun entry =>
  let part := slice twoLines entry.logicalOffset entry.uncompressedSize
  if part.length = entry.uncompressedSize then .ok part else .error .chunkSizeMismatch

/-- One chunk for both lines. -/
def oneChunkTable : List ChunkEntry :=
  [{ chunkId := 0, physicalOffset := 128, compressedSize := 4, logicalOffset := 0,
     uncompressedSize := 5, firstLine := 0, lineCount := 2, dictionaryId := 0, flags := 0,
     compressedChecksumBlake3 := List.Vector.replicate 32 0,
     uncompressedChecksumBlake3 := List.Vector.replicate 32 0 }]

theorem twoLinesDecoder_length {entry : ChunkEntry} {part : List UInt8}
    (h : twoLinesDecoder entry = .ok part) : part.length = entry.uncompressedSize := by
  unfold twoLinesDecoder at h
  dsimp only at h
  split at h
  · rename_i hlength
    cases h
    exact hlength
  · cases h

theorem twoChunkTable_cuts : CutsInto twoChunkTable twoLinesDecoder twoLines where
  layout := ⟨by simp [Contiguous, twoChunkTable], rfl, by decide⟩
  length := fun _ _ => twoLinesDecoder_length
  text := by decide

theorem oneChunkTable_cuts : CutsInto oneChunkTable twoLinesDecoder twoLines where
  layout := ⟨by simp [Contiguous, oneChunkTable], rfl, by decide⟩
  length := fun _ _ => twoLinesDecoder_length
  text := by decide

/-- The keys, the postings and the spans of a token index. -/
def tokenIndexOf (entries : List ChunkEntry) :
    Result (List (List UInt8) × List (List Nat) × List (Nat × Nat)) := do
  let (granules, terms, postings) ← buildLineIndexStreaming Reference.env entries 5 3 .default
    twoLinesDecoder .token
  return (terms.map TermDictionaryEntry.key, postings,
    granules.map fun granule => (granule.chunkStart, granule.chunkEnd))

set_option maxRecDepth 100000 in
theorem tokenIndexOf_eq :
    tokenIndexOf twoChunkTable = .ok ([[0x61, 0x62], [0x62]], [[1], [0]], [(0, 1), (0, 2)]) ∧
    tokenIndexOf oneChunkTable = .ok ([[0x61, 0x62], [0x62]], [[1], [0]], [(0, 1), (0, 1)]) := by
  constructor <;> decide +kernel

end Qzt
