import Mathlib.Data.List.GetD
import Qzt.Reader.RangeReads
import Qzt.Search.Matching
import Qzt.Text.Lines

/-!
# What a line index holds

The chunk loop is a cut of the text into lines, wherever the chunks end: after every
step the emitted lines followed by the carry are the text read so far.  The granules
place the emitted lines, and the posting list of a key is the list of the lines that
have it.
-/

namespace Qzt

open Foundation

/-! ## Keys and postings of lines -/

/-- The keys under which a line is indexed. -/
def keysOf (mode : BuildKeys) (line : List UInt8) : List (List UInt8) :=
  match lineKeys mode line with
  | .ok keys => keys.map (foldKey mode.fold)
  | .error _ => []

section Keys

/-- Keys are compared byte by byte. -/
local instance lawfulBEqKey : LawfulBEq (List UInt8) := inferInstance

/-- The lines that have a key. -/
def postingsOf (mode : BuildKeys) (lines : List (List UInt8)) (key : List UInt8) : List Nat :=
  (List.range lines.length).filter fun index => decide (key ∈ keysOf mode (lines.getD index []))

end Keys

theorem mem_postingsOf {mode : BuildKeys} {lines : List (List UInt8)} {key : List UInt8}
    {index : Nat} : index ∈ postingsOf mode lines key ↔
      ∃ line, lines[index]? = some line ∧ key ∈ keysOf mode line := by
  rw [postingsOf, List.mem_filter, List.mem_range, decide_eq_true_eq]
  constructor
  · rintro ⟨hlt, hkey⟩
    rw [List.getD_eq_getElem _ _ hlt] at hkey
    exact ⟨lines[index], List.getElem?_eq_getElem hlt, hkey⟩
  · rintro ⟨line, hline, hkey⟩
    obtain ⟨hlt, rfl⟩ := List.getElem?_eq_some_iff.mp hline
    refine ⟨hlt, ?_⟩
    rwa [List.getD_eq_getElem _ _ hlt]

theorem postingsOf_pairwise (mode : BuildKeys) (lines : List (List UInt8)) (key : List UInt8) :
    (postingsOf mode lines key).Pairwise (· < ·) :=
  List.pairwise_lt_range.filter _

theorem postingsOf_concat (mode : BuildKeys) (lines : List (List UInt8)) (line key : List UInt8) :
    postingsOf mode (lines ++ [line]) key =
      postingsOf mode lines key ++ if key ∈ keysOf mode line then [lines.length] else [] := by
  have hfront : (List.range lines.length).filter (fun index =>
      decide (key ∈ keysOf mode ((lines ++ [line]).getD index []))) = postingsOf mode lines key := by
    rw [postingsOf]
    refine List.filter_congr fun index hindex => ?_
    rw [List.mem_range] at hindex
    rw [List.getD_append _ _ _ _ hindex]
  have hlast : (lines ++ [line]).getD lines.length [] = line := by
    rw [List.getD_append_right _ _ _ _ (Nat.le_refl _), Nat.sub_self, List.getD_cons_zero]
  rw [postingsOf, List.length_append, List.length_singleton, List.range_succ, List.filter_append,
    hfront]
  simp only [List.filter_cons, List.filter_nil, hlast, decide_eq_true_eq]

/-- A posting list of the map; keys without lines are not in it. -/
def nonEmpty? (list : List Nat) : Option (List Nat) :=
  if list = [] then none else some list

theorem nonEmpty?_eq_some_iff {list found : List Nat} :
    nonEmpty? list = some found ↔ list = found ∧ found ≠ [] := by
  unfold nonEmpty?
  split
  case isTrue hnil => simp [hnil, eq_comm]
  case isFalse hne =>
    rw [Option.some.injEq]
    constructor
    · rintro rfl
      exact ⟨rfl, hne⟩
    · exact And.left

/-! ## One line -/

/-- A map that holds the lists `old`, each with `granule` behind it where the key is in `done`. -/
structure HoldsUpTo (old : List UInt8 → List Nat) (granule : Nat) (done : List (List UInt8))
    (map : PostingMap) : Prop where
  sorted : SortedKeys map
  lookup : ∀ key, map.lookup key = nonEmpty? (old key ++ if key ∈ done then [granule] else [])

/-- The map that `add_key` leaves behind when it charges nothing too much. -/
def insertPosting (granule : Nat) (key : List UInt8) (map : PostingMap) : PostingMap :=
  match map.lookup key with
  | some list =>
    if list.getLast? ≠ some granule then
      upsert key (fun list => list.getD [] ++ [granule]) map
    else map
  | none => upsert key (fun _ => [granule]) map

theorem addKey_eq_ok {meter meter' : BuildMeter} {map map' : PostingMap} {key : List UInt8}
    {fold : Bool} {granule : Nat}
    (h : meter.addKey map key fold granule = .ok (meter', map')) :
    map' = insertPosting granule (foldKey fold key) map ∧ meter'.mode = meter.mode ∧
      meter'.limits = meter.limits := by
  unfold BuildMeter.addKey at h
  obtain ⟨_, -, h⟩ := bind_eq_ok_iff.mp h
  obtain ⟨_, -, h⟩ := bind_eq_ok_iff.mp h
  dsimp only at h
  rw [insertPosting]
  cases hlist : map.lookup (foldKey fold key) with
  | some list =>
    rw [hlist] at h
    dsimp only at h ⊢
    split at h
    · rename_i hnew
      obtain ⟨postings, -, h⟩ := bind_eq_ok_iff.mp h
      cases h
      exact ⟨(if_pos hnew).symm, rfl, rfl⟩
    · rename_i hold
      cases h
      exact ⟨(if_neg hold).symm, rfl, rfl⟩
  | none =>
    rw [hlist] at h
    obtain ⟨keys, -, h⟩ := bind_eq_ok_iff.mp h
    obtain ⟨length, -, h⟩ := bind_eq_ok_iff.mp h
    obtain ⟨keyBytes, -, h⟩ := bind_eq_ok_iff.mp h
    obtain ⟨postings, -, h⟩ := bind_eq_ok_iff.mp h
    cases h
    exact ⟨rfl, rfl, rfl⟩

theorem HoldsUpTo.insertPosting {old : List UInt8 → List Nat} {granule : Nat}
    {done : List (List UInt8)} {map : PostingMap} (hold : ∀ key, ∀ id ∈ old key, id < granule)
    (hmap : HoldsUpTo old granule done map) (key : List UInt8) :
    HoldsUpTo old granule (done ++ [key]) (Qzt.insertPosting granule key map) := by
  have hlookup := hmap.lookup key
  -- Adding a key that is already there changes nothing about the others.
  have hother : ∀ k, k ≠ key → (k ∈ done ++ [key] ↔ k ∈ done) := by
    intro k hk
    rw [List.mem_append, List.mem_singleton, or_iff_left hk]
  have hself : key ∈ done ++ [key] := List.mem_append_right _ (List.mem_singleton_self _)
  unfold Qzt.insertPosting
  split
  · rename_i list hlist
    rw [hlist] at hlookup
    obtain ⟨hsplit, hne⟩ := nonEmpty?_eq_some_iff.mp hlookup.symm
    split
    · rename_i hlast
      have hnot : key ∉ done := by
        intro hdone
        rw [if_pos hdone] at hsplit
        rw [← hsplit, List.getLast?_concat] at hlast
        exact hlast rfl
      rw [if_neg hnot, List.append_nil] at hsplit
      refine ⟨hmap.sorted.upsert, fun k => ?_⟩
      rw [lookup_upsert hmap.sorted]
      split
      case isTrue hk =>
        rw [hk, if_pos hself, hlist, Option.getD_some, hsplit, nonEmpty?, if_neg]
        exact List.append_ne_nil_of_right_ne_nil _ (List.cons_ne_nil _ _)
      case isFalse hk => simp only [hmap.lookup k, hother k hk]
    · rename_i hlast
      have hdone : key ∈ done := by
        by_contra hnot
        rw [if_neg hnot, List.append_nil] at hsplit
        obtain ⟨last, hlast'⟩ := Option.isSome_iff_exists.mp (List.getLast?_isSome.mpr hne)
        have hlt := hold key last (hsplit ▸ List.mem_of_getLast? hlast')
        rw [not_not.mp hlast, Option.some.injEq] at hlast'
        omega
      refine ⟨hmap.sorted, fun k => ?_⟩
      rw [hmap.lookup k]
      by_cases hk : k = key
      · rw [hk, if_pos hdone, if_pos hself]
      · simp only [hother k hk]
  · rename_i hnone
    rw [hnone] at hlookup
    have hold' : old key = [] := by
      by_contra hne
      rw [nonEmpty?, if_neg (List.append_ne_nil_of_left_ne_nil hne _)] at hlookup
      cases hlookup
    refine ⟨hmap.sorted.upsert, fun k => ?_⟩
    rw [lookup_upsert hmap.sorted]
    split
    case isTrue hk => rw [hk, if_pos hself, hold', List.nil_append, nonEmpty?, if_neg (by simp)]
    case isFalse hk => simp only [hmap.lookup k, hother k hk]

theorem addKeys_holds {old : List UInt8 → List Nat} {granule : Nat} {keys done : List (List UInt8)}
    {meter meter' : BuildMeter} {map map' : PostingMap}
    (hold : ∀ key, ∀ id ∈ old key, id < granule) (hmap : HoldsUpTo old granule done map)
    (h : addKeys granule keys meter map = .ok (meter', map')) :
    HoldsUpTo old granule (done ++ keys.map (foldKey meter.mode.fold)) map' ∧
      meter'.mode = meter.mode ∧ meter'.limits = meter.limits := by
  induction keys generalizing done meter map with
  | nil =>
    obtain ⟨rfl, rfl⟩ := Prod.mk.injEq .. ▸ Except.ok.inj h
    rw [List.map_nil, List.append_nil]
    exact ⟨hmap, rfl, rfl⟩
  | cons key keys ih =>
    rw [addKeys] at h
    obtain ⟨⟨next, nextMap⟩, hadd, h⟩ := bind_eq_ok_iff.mp h
    obtain ⟨rfl, hmode, hlimits⟩ := addKey_eq_ok hadd
    have hnext := hmap.insertPosting hold (foldKey meter.mode.fold key)
    obtain ⟨hall, hmode', hlimits'⟩ := ih hnext h
    rw [List.append_assoc, hmode] at hall
    exact ⟨hall, hmode'.trans hmode, hlimits'.trans hlimits⟩

/-! ## Placed lines -/

/-- A granule stands for the line at `index`. -/
structure PlacesLine (entries : List ChunkEntry) (lines : List (List UInt8)) (index : Nat)
    (granule : SearchGranule) : Prop where
  granuleId : granule.granuleId = index
  logicalOffset : granule.logicalOffset = (lines.take index).flatten.length
  byteLength : lines[index]?.map List.length = some granule.byteLength
  span : chunkSpanForRange entries granule.logicalOffset
    (granule.logicalOffset + granule.byteLength) = .ok (granule.chunkStart, granule.chunkEnd)
  firstLine : granule.firstLine = some index
  lineCount : granule.lineCount = some 1

/-- Granules and postings of a list of lines. -/
structure IndexesLines (entries : List ChunkEntry) (mode : BuildKeys) (lines : List (List UInt8))
    (granules : List SearchGranule) (map : PostingMap) : Prop where
  length : granules.length = lines.length
  places : ∀ index granule, granules[index]? = some granule →
    PlacesLine entries lines index granule
  sorted : SortedKeys map
  lookup : ∀ key, map.lookup key = nonEmpty? (postingsOf mode lines key)

/-- The text behind `lines` is not part of what a granule before it says. -/
theorem PlacesLine.append {entries : List ChunkEntry} {lines : List (List UInt8)} {index : Nat}
    {granule : SearchGranule} (h : PlacesLine entries lines index granule)
    (line : List UInt8) : PlacesLine entries (lines ++ [line]) index granule := by
  have hlt : index < lines.length := by
    by_contra hge
    have hlength := h.byteLength
    rw [List.getElem?_eq_none (Nat.not_lt.mp hge)] at hlength
    cases hlength
  refine { h with logicalOffset := ?_, byteLength := ?_ }
  · rw [List.take_append_of_le_length (Nat.le_of_lt hlt)]
    exact h.logicalOffset
  · rw [List.getElem?_append_left hlt]
    exact h.byteLength

/-- One line is emitted behind the lines before it. -/
theorem emitLineGranule_indexes {entries : List ChunkEntry} {mode : BuildKeys}
    {lines : List (List UInt8)} {line : List UInt8} {state state' : LineIndexBuild}
    {lineStart lineEnd : Nat} (hmode : state.meter.mode = mode)
    (hindexes : IndexesLines entries mode lines state.granules state.postingsByKey)
    (hstart : lineStart = lines.flatten.length) (hend : lineEnd = lineStart + line.length)
    (h : emitLineGranule entries lineStart lineEnd line state = .ok state') :
    IndexesLines entries mode (lines ++ [line]) state'.granules state'.postingsByKey ∧
      state'.meter.mode = mode ∧ state'.meter.limits = state.meter.limits ∧
      state'.carry = state.carry ∧ state'.lineStart = state.lineStart := by
  unfold emitLineGranule at h
  obtain ⟨granuleId, hid, h⟩ := bind_eq_ok_iff.mp h
  obtain ⟨_, -, h⟩ := bind_eq_ok_iff.mp h
  obtain ⟨byteLength, hlength, h⟩ := bind_eq_ok_iff.mp h
  obtain ⟨⟨chunkStart, chunkEnd⟩, hspan, h⟩ := bind_eq_ok_iff.mp h
  obtain ⟨keys, hkeys, h⟩ := bind_eq_ok_iff.mp h
  obtain ⟨⟨meter, map⟩, hadd, h⟩ := bind_eq_ok_iff.mp h
  obtain rfl := Except.ok.inj h
  obtain ⟨-, rfl⟩ := usizeToU64_eq_ok_iff.mp hid
  rw [okOr_eq_ok_iff, checkedSub_eq_some_iff] at hlength
  have hbytes : byteLength = line.length := by omega
  have hkeysOf : keysOf mode line = keys.map (foldKey state.meter.mode.fold) := by
    rw [keysOf, ← hmode, hkeys]
  -- The new granule is behind all granules that the lists mention.
  have hold : ∀ key, ∀ id ∈ postingsOf mode lines key, id < state.granules.length := by
    intro key id hmem
    rw [postingsOf, List.mem_filter, List.mem_range, ← hindexes.length] at hmem
    exact hmem.1
  have hholds : HoldsUpTo (postingsOf mode lines) state.granules.length [] state.postingsByKey := by
    refine ⟨hindexes.sorted, fun key => ?_⟩
    rw [hindexes.lookup key, if_neg List.not_mem_nil, List.append_nil]
  obtain ⟨hmap, hmode', hlimits⟩ := addKeys_holds hold hholds hadd
  refine ⟨⟨?_, ?_, hmap.sorted, ?_⟩, hmode'.trans hmode, hlimits, rfl, rfl⟩
  · rw [List.length_append, List.length_append, hindexes.length]
    rfl
  · intro index granule hget
    rcases Nat.lt_or_ge index state.granules.length with hlt | hge
    · rw [List.getElem?_append_left hlt] at hget
      exact (hindexes.places index granule hget).append line
    · rw [List.getElem?_append_right hge, List.getElem?_singleton] at hget
      split at hget
      case isFalse => cases hget
      case isTrue hzero =>
        obtain rfl := Option.some.inj hget
        have hindex : index = lines.length := by rw [← hindexes.length]; omega
        refine ⟨by rw [hindex, hindexes.length], ?_, ?_, ?_, ?_, rfl⟩
        · rw [hindex, List.take_left', hstart]
          rfl
        · rw [hindex, List.getElem?_concat_length, hbytes]
          rfl
        · rw [hbytes, ← hend]
          exact hspan
        · rw [hindex, hindexes.length]
  · intro key
    rw [hmap.lookup key, List.nil_append, postingsOf_concat, hkeysOf, hindexes.length]

/-! ## The chunk loop -/

/-- The state of the build after the text `read`. -/
structure BuildsTo (entries : List ChunkEntry) (mode : BuildKeys) (read : List UInt8)
    (lines : List (List UInt8)) (state : LineIndexBuild) : Prop where
  indexes : IndexesLines entries mode lines state.granules state.postingsByKey
  mode : state.meter.mode = mode
  terminated : ∀ line ∈ lines, Terminated lf line
  carry : lf ∉ state.carry
  text : read = lines.flatten ++ state.carry
  lineStart : state.lineStart = lines.flatten.length

/-- The text read is cut into the emitted lines and the carry. -/
theorem BuildsTo.lines_eq {entries : List ChunkEntry} {mode : BuildKeys} {read : List UInt8}
    {emitted : List (List UInt8)} {state : LineIndexBuild}
    (h : BuildsTo entries mode read emitted state) :
    lines read = emitted ++ if state.carry = [] then [] else [state.carry] := by
  rw [lines, h.text]
  exact segments_flatten_append h.terminated h.carry

section Steps

variable {entries : List ChunkEntry} {mode : BuildKeys} {entry : ChunkEntry} {consumed : Nat}
  {read segment : List UInt8} {lines : List (List UInt8)} {state : LineIndexBuild}

/-- The end of a line, in the text and from its start. -/
theorem BuildsTo.lineEnd_eq (h : BuildsTo entries mode read lines state)
    (hread : entry.logicalOffset + consumed = read.length) (segment : List UInt8) :
    entry.logicalOffset + (consumed + segment.length) =
      state.lineStart + (state.carry ++ segment).length := by
  have hlength := congrArg List.length h.text
  rw [List.length_append] at hlength
  rw [h.lineStart, List.length_append]
  omega

/-- The segment ends the line that the carry began. -/
theorem BuildsTo.emit (h : BuildsTo entries mode read lines state)
    (hread : entry.logicalOffset + consumed = read.length) (hterminated : Terminated lf segment)
    {emitted : LineIndexBuild}
    (hemit : emitLineGranule entries state.lineStart
      (entry.logicalOffset + (consumed + segment.length)) (state.carry ++ segment) state =
        .ok emitted) :
    BuildsTo entries mode (read ++ segment) (lines ++ [state.carry ++ segment])
      { emitted with
        carry := [], lineStart := entry.logicalOffset + (consumed + segment.length) } := by
  have hline := h.lineEnd_eq hread segment
  obtain ⟨hindexes, hmode, -, -, -⟩ := emitLineGranule_indexes h.mode h.indexes h.lineStart hline hemit
  refine
    { indexes := hindexes
      mode := hmode
      terminated := ?_
      carry := List.not_mem_nil
      text := ?_
      lineStart := ?_ }
  · intro line hline
    rcases List.mem_append.mp hline with hline | hline
    · exact h.terminated line hline
    · rw [List.mem_singleton.mp hline]
      exact hterminated.append_left h.carry
  · rw [h.text, List.flatten_append, List.flatten_singleton, List.append_nil]
    simp only [List.append_assoc]
  · rw [List.flatten_append, List.flatten_singleton, List.length_append, hline, h.lineStart]

/-- The segment is carried over. -/
theorem BuildsTo.carryOver (h : BuildsTo entries mode read lines state) (hnone : lf ∉ segment) :
    BuildsTo entries mode (read ++ segment) lines { state with carry := state.carry ++ segment } :=
  { h with
    carry := by
      rw [List.mem_append, not_or]
      exact ⟨h.carry, hnone⟩
    text := by rw [h.text, List.append_assoc] }

/-- A segment ends in LF exactly when the loop takes it for the end of a line. -/
theorem terminated_iff_getLast? (h : Terminated lf segment ∨ (segment ≠ [] ∧ lf ∉ segment)) :
    segment.getLast? = some lf ↔ Terminated lf segment := by
  constructor
  · intro hlast
    refine h.resolve_right ?_
    rintro ⟨-, hnone⟩
    exact hnone (List.mem_of_getLast? hlast)
  · exact Terminated.getLast?

end Steps

theorem buildSegments_buildsTo {entries : List ChunkEntry} {mode : BuildKeys} {entry : ChunkEntry}
    {maxLineBytes : Nat} {segments : List (List UInt8)}
    (hsegments : ∀ segment ∈ segments, Terminated lf segment ∨ (segment ≠ [] ∧ lf ∉ segment))
    {consumed : Nat} {read : List UInt8} (hread : entry.logicalOffset + consumed = read.length)
    {lines : List (List UInt8)} {state state' : LineIndexBuild}
    (hstate : BuildsTo entries mode read lines state)
    (h : buildSegments entries maxLineBytes entry consumed segments state = .ok state') :
    ∃ lines', BuildsTo entries mode (read ++ segments.flatten) lines' state' := by
  induction segments generalizing consumed read lines state with
  | nil =>
    obtain rfl := Except.ok.inj h
    rw [List.flatten_nil, List.append_nil]
    exact ⟨lines, hstate⟩
  | cons segment segments ih =>
    rw [List.forall_mem_cons] at hsegments
    obtain ⟨hsegment, hsegments⟩ := hsegments
    have hnext : entry.logicalOffset + (consumed + segment.length) = (read ++ segment).length := by
      rw [List.length_append]
      omega
    rw [List.flatten_cons, ← List.append_assoc]
    rw [buildSegments] at h
    split at h
    case isTrue hlast =>
      obtain ⟨width, hwidth, h⟩ := bind_eq_ok_iff.mp h
      obtain ⟨lineEnd, hend, h⟩ := bind_eq_ok_iff.mp h
      obtain ⟨_, -, h⟩ := bind_eq_ok_iff.mp h
      obtain ⟨emitted, hemit, h⟩ := bind_eq_ok_iff.mp h
      obtain ⟨-, rfl⟩ := usizeToU64_eq_ok_iff.mp hwidth
      obtain ⟨-, rfl⟩ := checkedLogicalEnd_eq_ok_iff.mp hend
      have hterminated := (terminated_iff_getLast? hsegment).mp hlast
      exact ih hsegments hnext (hstate.emit hread hterminated hemit) h
    case isFalse hlast =>
      have hterminated := mt (terminated_iff_getLast? hsegment).mpr hlast
      obtain ⟨-, hnone⟩ := hsegment.resolve_left hterminated
      obtain ⟨_, -, h⟩ := bind_eq_ok_iff.mp h
      exact ih hsegments hnext (hstate.carryOver hnone) h

theorem buildChunks_buildsTo {entries : List ChunkEntry} {mode : BuildKeys} {maxLineBytes : Nat}
    {decode : DecodeEntry}
    (hlength : ∀ entry part, decode entry = .ok part → part.length = entry.uncompressedSize)
    {rest : List ChunkEntry} {index : Nat} {read : List UInt8}
    (hcontiguous : Contiguous index read.length rest) {lines : List (List UInt8)}
    {state state' : LineIndexBuild} (hstate : BuildsTo entries mode read lines state)
    (h : buildChunks entries maxLineBytes decode rest state = .ok state') :
    (∃ lines', BuildsTo entries mode (read ++ originalText decode rest) lines' state') ∧
      ∀ entry ∈ rest, ∃ part, decode entry = .ok part ∧ (fromUtf8 part).isSome = true := by
  induction rest generalizing index read lines state with
  | nil =>
    obtain rfl := Except.ok.inj h
    refine ⟨⟨lines, ?_⟩, fun entry hentry => absurd hentry List.not_mem_nil⟩
    rw [originalText, List.map_nil, List.flatten_nil, List.append_nil]
    exact hstate
  | cons entry rest ih =>
    obtain ⟨-, hoffset, -, hcontiguous⟩ := hcontiguous
    rw [buildChunks] at h
    obtain ⟨decoded, hdecode, h⟩ := bind_eq_ok_iff.mp h
    obtain ⟨_, hutf8, h⟩ := bind_eq_ok_iff.mp h
    obtain ⟨next, hsegments, h⟩ := bind_eq_ok_iff.mp h
    obtain ⟨lines', hnext⟩ := buildSegments_buildsTo
      (fun segment hsegment => terminated_of_mem_segments hsegment)
      (show entry.logicalOffset + 0 = read.length from hoffset) hstate hsegments
    rw [flatten_segments] at hnext
    have htext : originalText decode (entry :: rest) = decoded ++ originalText decode rest := by
      rw [originalText, List.map_cons, List.flatten_cons, chunkText, hdecode]
      rfl
    have hcontiguous' : Contiguous (index + 1) (read ++ decoded).length rest := by
      rw [List.length_append, hlength entry decoded hdecode]
      exact hcontiguous
    obtain ⟨hall, hdecodes⟩ := ih hcontiguous' hnext h
    rw [List.append_assoc, ← htext] at hall
    refine ⟨hall, ?_⟩
    rw [List.forall_mem_cons]
    refine ⟨⟨decoded, hdecode, ?_⟩, hdecodes⟩
    rw [rejectIf_eq_ok_iff, Option.isNone_iff_eq_none] at hutf8
    exact Option.isSome_iff_ne_none.mpr hutf8

/-- The index that a build returns is the index of the lines of the text. -/
theorem buildLineIndexStreaming_indexes {env : Env} {entries : List ChunkEntry}
    {originalSize maxLineBytes : Nat} {limits : IndexBuildLimits} {decode : DecodeEntry}
    {mode : BuildKeys} (hlayout : Layout entries originalSize)
    (hlength : ∀ entry part, decode entry = .ok part → part.length = entry.uncompressedSize)
    {granules : List SearchGranule} {terms : List TermDictionaryEntry} {postings : List (List Nat)}
    (h : buildLineIndexStreaming env entries originalSize maxLineBytes limits decode mode =
      .ok (granules, terms, postings)) :
    (∃ map, IndexesLines entries mode (lines (originalText decode entries)) granules map ∧
      terms = map.map (fun pair => blankTerm env pair.1) ∧ postings = map.map Prod.snd) ∧
    ∀ entry ∈ entries, ∃ part, decode entry = .ok part ∧ (fromUtf8 part).isSome = true := by
  unfold buildLineIndexStreaming at h
  obtain ⟨state, hchunks, h⟩ := bind_eq_ok_iff.mp h
  have hempty : BuildsTo entries mode [] []
      { granules := [], postingsByKey := [], meter := { limits, mode }, carry := [],
        lineStart := 0 } :=
    { indexes :=
        { length := rfl
          places := fun index granule hget => by cases hget
          sorted := List.Pairwise.nil
          lookup := fun key => rfl }
      mode := rfl
      terminated := fun line hline => absurd hline List.not_mem_nil
      carry := List.not_mem_nil
      text := rfl
      lineStart := rfl }
  obtain ⟨⟨emitted, hstate⟩, hdecodes⟩ :=
    buildChunks_buildsTo hlength hlayout.contiguous hempty hchunks
  rw [List.nil_append] at hstate
  refine ⟨?_, hdecodes⟩
  rw [hstate.lines_eq]
  split at h
  case isTrue hcarry =>
    -- A carry that is left is the last line; it ends with the text.
    obtain ⟨final, hfinal, h⟩ := bind_eq_ok_iff.mp h
    have hsize : originalSize = state.lineStart + state.carry.length := by
      rw [hstate.lineStart, ← List.length_append, ← hstate.text, length_originalText hlength,
        hlayout.total]
    obtain ⟨hindexes, -⟩ := emitLineGranule_indexes hstate.mode hstate.indexes hstate.lineStart hsize
      hfinal
    rw [if_neg hcarry]
    obtain ⟨rfl, rfl, rfl⟩ : _ ∧ _ ∧ _ := by simpa using h
    exact ⟨final.postingsByKey, hindexes, rfl, rfl⟩
  case isFalse hcarry =>
    rw [if_pos (not_not.mp hcarry), List.append_nil]
    obtain ⟨rfl, rfl, rfl⟩ : _ ∧ _ ∧ _ := by simpa using h
    exact ⟨state.postingsByKey, hstate.indexes, rfl, rfl⟩

end Qzt
