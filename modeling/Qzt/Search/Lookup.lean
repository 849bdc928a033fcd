import Qzt.Foundation.Sorting
import Qzt.Reader.Agreement
import Qzt.Reader.DeepContract
import Qzt.Search.IndexAdmission
import Qzt.Search.Intersection

/-!
# From a query to its candidates

The keys of a query are looked up by binary search, and the posting lists found are
intersected.  Over an index that holds the keys of a text, the lookup fails exactly for
a key that no line has, and the candidates are the lines that have every key.
-/

namespace Qzt

open Foundation

/-! ## Keys of a query -/

/-- The set of keys has no duplicates, and nothing but the keys. -/
theorem insertQueryKeys_eq_ok {maxQueryTerms : Nat} {rest keys result : List (List UInt8)}
    (hnodup : keys.Nodup) (h : insertQueryKeys maxQueryTerms rest keys = .ok result) :
    result.Nodup ∧ ∀ key, key ∈ result ↔ key ∈ keys ∨ key ∈ rest := by
  induction rest generalizing keys with
  | nil =>
    cases h
    exact ⟨hnodup, fun key => by simp⟩
  | cons key rest ih =>
    rw [insertQueryKeys] at h
    split at h
    case isTrue hnew =>
      obtain ⟨count, -, h⟩ := bind_eq_ok_iff.mp h
      obtain ⟨_, -, h⟩ := bind_eq_ok_iff.mp h
      have hperm := List.perm_orderedInsert (· ≤ ·) key keys
      have hnodup' : (keys.orderedInsert (· ≤ ·) key).Nodup :=
        hperm.nodup_iff.mpr (List.nodup_cons.mpr ⟨hnew, hnodup⟩)
      obtain ⟨hresult, hmem⟩ := ih hnodup' h
      refine ⟨hresult, fun other => ?_⟩
      rw [hmem, hperm.mem_iff, List.mem_cons, List.mem_cons, or_assoc, or_left_comm]
    case isFalse hold =>
      obtain ⟨hresult, hmem⟩ := ih hnodup h
      refine ⟨hresult, fun other => ?_⟩
      rw [hmem, List.mem_cons]
      constructor
      · exact Or.imp_right Or.inr
      · rintro (hkeys | rfl | hrest)
        · exact .inl hkeys
        · exact .inl (not_not.mp hold)
        · exact .inr hrest

/-- The keys of a token query. -/
theorem uniqueQueryKeys_eq_ok {query : String} {options : SearchOptions}
    {queryKeys : List (List UInt8)} (h : uniqueQueryKeys query options = .ok queryKeys) :
    queryKeys.Nodup ∧ ∀ key, key ∈ queryKeys ↔
      ∃ word, IsToken (textBytes query) word ∧ key = word.map toAsciiLowercase := by
  obtain ⟨_, -, h⟩ := bind_eq_ok_iff.mp h
  obtain ⟨hnodup, hmem⟩ := insertQueryKeys_eq_ok List.nodup_nil h
  refine ⟨hnodup, fun key => ?_⟩
  rw [hmem, or_iff_right List.not_mem_nil, List.mem_map]
  constructor
  · rintro ⟨word, hword, rfl⟩
    obtain ⟨⟨start, stop⟩, hrun, rfl⟩ := List.mem_map.mp hword
    exact ⟨_, ⟨start, stop, mem_runs_iff.mp hrun, rfl⟩, rfl⟩
  · rintro ⟨word, ⟨start, stop, hrun, rfl⟩, rfl⟩
    refine ⟨_, List.mem_map.mpr ⟨(start, stop), mem_runs_iff.mpr hrun, rfl⟩, rfl⟩

/-- The keys of an n-gram query that is long enough: the windows of its scalars. -/
theorem ngramKeysForQuery_eq_ok {query : String} {n : Nat} {options : SearchOptions}
    {queryKeys : List (List UInt8)} (hlong : n ≤ query.toList.length)
    (h : ngramKeysForQuery query n options = .ok queryKeys) :
    0 < n ∧ ∀ key, key ∈ queryKeys ↔ ∃ index, index + n ≤ query.toList.length ∧
      key = Utf8.encode ((query.toList.drop index).take n) := by
  obtain ⟨_, -, h⟩ := bind_eq_ok_iff.mp h
  obtain ⟨_, hn, h⟩ := bind_eq_ok_iff.mp h
  rw [rejectIf_eq_ok_iff] at hn
  rw [if_neg (Nat.not_lt.mpr hlong)] at h
  obtain ⟨-, hmem⟩ := insertQueryKeys_eq_ok List.nodup_nil h
  refine ⟨Nat.pos_of_ne_zero hn, fun key => ?_⟩
  rw [hmem, or_iff_right List.not_mem_nil, mem_ngrams_iff (Nat.pos_of_ne_zero hn)]

/-! ## The dictionary -/

section Dictionary

variable {terms : List TermDictionaryEntry}

/-- Binary search in increasing keys finds the position of a key, if it has one. -/
theorem termIndexForKey_eq_some_iff
    (hsorted : (terms.map TermDictionaryEntry.key).Pairwise (· < ·)) {key : List UInt8}
    {index : Nat} : termIndexForKey terms key = some index ↔
      (terms.map TermDictionaryEntry.key)[index]? = some key := by
  have hkeyAt : ∀ position : Nat, (∃ term ∈ terms[position]?, term.key = key) ↔
      (terms.map TermDictionaryEntry.key)[position]? = some key := by
    intro position
    rw [List.getElem?_map, Option.map_eq_some_iff]
    rfl
  constructor
  · intro h
    unfold termIndexForKey at h
    split at h
    case h_1 position _ =>
      split at h
      case isTrue hfound =>
        obtain rfl := Option.some.inj h
        exact (hkeyAt position).mp hfound
      case isFalse => cases h
    case h_2 => cases h
  · intro h
    obtain ⟨hlt, hkey⟩ := List.getElem?_eq_some_iff.mp h
    -- The key splits the dictionary: the keys below it are those before it.
    have hsearch : partitionPoint (fun position : Nat =>
        (.ok (decide (∃ term ∈ terms[position]?, term.key < key)) : Result Bool)) terms.length =
          .ok index := by
      rw [List.length_map] at hlt
      apply partitionPoint_eq (Nat.le_of_lt hlt)
      intro position hposition
      congr 1
      rw [decide_eq_decide, List.getElem?_eq_getElem hposition]
      have hless : ∀ i j (hi : i < terms.length) (hj : j < terms.length), i < j →
          terms[i].key < terms[j].key := by
        intro i j hi hj hij
        have hpair := List.pairwise_iff_getElem.mp hsorted i j (by rwa [List.length_map])
          (by rwa [List.length_map]) hij
        rwa [List.getElem_map, List.getElem_map] at hpair
      rw [List.getElem_map] at hkey
      constructor
      · rintro ⟨term, hterm, hbelow⟩
        obtain rfl := Option.some.inj hterm
        by_contra hge
        rcases Nat.lt_or_eq_of_le (Nat.not_lt.mp hge) with habove | rfl
        · have hover := hless index position hlt hposition habove
          rw [hkey] at hover
          exact List.lt_asymm hover hbelow
        · rw [hkey] at hbelow
          exact List.lt_irrefl _ hbelow
      · intro hbefore
        refine ⟨_, rfl, ?_⟩
        rw [← hkey]
        exact hless position index hposition hlt hbefore
    rw [termIndexForKey, hsearch]
    exact if_pos ((hkeyAt index).mpr h)

theorem termIndexForKey_eq_none_iff
    (hsorted : (terms.map TermDictionaryEntry.key).Pairwise (· < ·)) {key : List UInt8} :
    termIndexForKey terms key = none ↔ key ∉ terms.map TermDictionaryEntry.key := by
  rw [Option.eq_none_iff_forall_ne_some, List.mem_iff_getElem?, not_exists]
  exact forall_congr' fun index => not_congr (termIndexForKey_eq_some_iff hsorted)

/-- The lookup loop stops at a key that is not in the dictionary, or finds all keys. -/
theorem lookupKeys_eq_ok {amount : Nat → Nat} {keys : List (List UInt8)} {found result : KeyLookup}
    (hfound : found.missing = none) (h : lookupKeys terms amount keys found = .ok result) :
    (∃ key ∈ keys, termIndexForKey terms key = none ∧ result.missing = some key) ∨
    (result.missing = none ∧ ∃ indexes, result.indexes = found.indexes ++ indexes ∧
      List.Forall₂ (fun key index => termIndexForKey terms key = some index) keys indexes) := by
  induction keys generalizing found with
  | nil =>
    cases h
    exact .inr ⟨hfound, [], (List.append_nil _).symm, .nil⟩
  | cons key keys ih =>
    rw [lookupKeys] at h
    split at h
    case h_1 hnone =>
      cases h
      exact .inl ⟨key, List.mem_cons_self, hnone, rfl⟩
    case h_2 index hsome =>
      obtain ⟨bytes, -, h⟩ := bind_eq_ok_iff.mp h
      rcases @ih { found with indexes := found.indexes ++ [index], postingBytesRead := bytes } hfound
        h with ⟨missing, hmem, hmissing⟩ | ⟨hall, indexes, hindexes, hpairs⟩
      · exact .inl ⟨missing, List.mem_cons_of_mem _ hmem, hmissing⟩
      · refine .inr ⟨hall, index :: indexes, ?_, .cons hsome hpairs⟩
        rw [hindexes, List.append_assoc, List.singleton_append]

end Dictionary

/-! ## The order of the lists -/

/-- The order of an n-gram search is a total preorder. -/
theorem mergeSort_rarestFirst (high : Nat → Bool) (frequency : Nat → Nat) (l : List Nat) :
    l.mergeSort (rarestFirst high frequency) =
      l.insertionSort fun a b => rarestFirst high frequency a b = true := by
  apply mergeSort_eq_insertion
  · intro a b c
    unfold rarestFirst
    cases high a <;> cases high b <;> cases high c <;> simp <;> omega
  · intro a b
    unfold rarestFirst
    cases high a <;> cases high b <;> simp <;> omega

/-! ## The index of a text -/

/-- Encoding keeps the keys of the terms. -/
theorem encodePostingLoop_keys {withSkips : Bool} {terms : List TermDictionaryEntry}
    {lists : List (List Nat)} {postingOffset skipOffset : Nat} {encoded : EncodedPostingLists}
    (h : encodePostingLoop withSkips terms lists postingOffset skipOffset = .ok encoded) :
    encoded.terms.map TermDictionaryEntry.key = terms.map TermDictionaryEntry.key := by
  induction terms generalizing lists postingOffset skipOffset encoded with
  | nil =>
    rw [encodePostingLoop] at h
    · cases h
      rfl
    · intros
      contradiction
  | cons term terms ih =>
    cases lists with
    | nil =>
      cases h
      rfl
    | cons list lists =>
      rw [encodePostingLoop] at h
      obtain ⟨bytes, -, h⟩ := bind_eq_ok_iff.mp h
      dsimp only at h
      split at h
      all_goals
        obtain ⟨skips, -, h⟩ := bind_eq_ok_iff.mp h
        iterate 6 obtain ⟨_, -, h⟩ := bind_eq_ok_iff.mp h
        obtain ⟨rest, hrest, h⟩ := bind_eq_ok_iff.mp h
        cases h
        exact congrArg (term.key :: ·) (ih hrest)

/-- An index that is built over the chunks of a text is its naive index. -/
theorem isNaiveIndex_of_buildEncoded {env : Env} {entries : List ChunkEntry} {mode : BuildKeys}
    (hmode : mode ≠ .ngram 0) {text : List UInt8} {decode : DecodeEntry}
    (hcuts : CutsInto entries decode text) {maxLineBytes : Nat} {limits : IndexBuildLimits}
    {withSkips : Bool} {built : List SearchGranule × EncodedPostingLists × List (List Nat)}
    (h : buildEncoded env entries text.length maxLineBytes limits decode mode withSkips =
      .ok built) :
    IsNaiveIndex mode entries text built.1 (built.2.1.terms.map TermDictionaryEntry.key)
      built.2.2 := by
  obtain ⟨parts, hbuild, h⟩ := bind_eq_ok_iff.mp h
  obtain ⟨map, hindexes, rfl⟩ := buildEncoded_indexes hcuts hbuild
  obtain ⟨encoded, hencoded, hbuilt⟩ := bind_eq_ok_iff.mp h
  cases hbuilt
  rw [hindexes.encodeParts_eq hcuts.layout] at hencoded
  obtain ⟨_, -, hlists⟩ := bind_eq_ok_iff.mp hencoded
  obtain ⟨_, -, hloop⟩ := bind_eq_ok_iff.mp hlists
  have hkeys : encoded.terms.map TermDictionaryEntry.key = map.map Prod.fst := by
    rw [encodePostingLoop_keys hloop, List.map_map]
    rfl
  rw [hkeys]
  exact hindexes.isNaiveIndex hmode hcuts.layout

section Opened

variable {env : Env} {bytes : List UInt8} {limits : ResourceLimits} {reader : QztFileReader}

/-- The chunks of an opened container are the parts of its text. -/
theorem cutsInto_of_open (served : FaithfulSource bytes) {details : SkeletonDetails}
    (hopen : openSkeletonDetailsWithLimits env bytes limits = .ok details) :
    CutsInto details.chunkEntries ((served.fileReader details).decodeEntry env)
      (originalText ((served.fileReader details).decodeEntry env) details.chunkEntries) := by
  have hopened := openSkeletonDetailsWithLimits_opened hopen
  have hlength : ∀ entry part, (served.fileReader details).decodeEntry env entry = .ok part →
      part.length = entry.uncompressedSize := by
    intro entry part hdecode
    rw [served.decodeEntry_eq] at hdecode
    exact QztReader.decodeEntry_length hdecode
  refine ⟨?_, hlength, rfl⟩
  rw [length_originalText hlength, hopened.layout.total]
  exact hopened.layout

theorem buildFromFile_token {options : TokenIndexBuildOptions} {index : RawTokenIndex}
    (h : RawTokenIndex.buildFromFile env reader options = .ok index) :
    ∃ built, buildEncoded env reader.details.chunkEntries reader.details.summary.originalSize
        options.maxLineBytes options.limits (reader.decodeEntry env) .token false = .ok built ∧
      built.1 = index.granules ∧ built.2.1.terms = index.terms ∧ built.2.2 = index.postings ∧
      built.2.1.postings = index.encodedPostings := by
  rw [RawTokenIndex.buildFromFile] at h
  obtain ⟨_, -, h⟩ := bind_eq_ok_iff.mp h
  dsimp only at h
  obtain ⟨⟨granules, terms, postings⟩, hstream, h⟩ := bind_eq_ok_iff.mp h
  rw [RawTokenIndex.fromParts_eq] at h
  obtain ⟨encoded, hencoded, h⟩ := bind_eq_ok_iff.mp h
  cases h
  refine ⟨(granules, encoded, postings), ?_, rfl, rfl, rfl, rfl⟩
  rw [buildEncoded, hstream, ok_bind]
  dsimp only
  rw [hencoded]
  rfl

theorem buildFromFile_ngram {options : NgramIndexBuildOptions} {index : RawNgramIndex}
    (h : RawNgramIndex.buildFromFile env reader options = .ok index) :
    options.n ≠ 0 ∧ ∃ built, buildEncoded env reader.details.chunkEntries
        reader.details.summary.originalSize options.maxLineBytes options.limits
        (reader.decodeEntry env) (.ngram options.n) true = .ok built ∧
      built.1 = index.granules ∧ built.2.1.terms = index.terms ∧ built.2.2 = index.postings ∧
      built.2.1.postings = index.encodedPostings ∧ index.declaration.n = options.n ∧
      index.complete = options.complete := by
  rw [RawNgramIndex.buildFromFile] at h
  obtain ⟨_, -, h⟩ := bind_eq_ok_iff.mp h
  obtain ⟨_, hn, h⟩ := bind_eq_ok_iff.mp h
  rw [rejectIf_eq_ok_iff] at hn
  dsimp only at h
  obtain ⟨⟨granules, terms, postings⟩, hstream, h⟩ := bind_eq_ok_iff.mp h
  rw [RawNgramIndex.fromParts_eq _ _ _ _ _ hn] at h
  obtain ⟨encoded, hencoded, h⟩ := bind_eq_ok_iff.mp h
  cases h
  refine ⟨hn, (granules, encoded, postings), ?_, rfl, rfl, rfl, rfl, rfl, rfl⟩
  rw [buildEncoded, hstream, ok_bind]
  dsimp only
  rw [hencoded]
  rfl

end Opened

section Candidates

variable {mode : BuildKeys} {entries : List ChunkEntry} {text : List UInt8}
  {granules : List SearchGranule} {terms : List TermDictionaryEntry} {postings : List (List Nat)}

/-- A key that is not found is the key of no line. -/
theorem IsNaiveIndex.not_hasKey (h : IsNaiveIndex mode entries text granules
      (terms.map TermDictionaryEntry.key) postings) {key : List UInt8}
    (hmissing : termIndexForKey terms key = none) : ∀ line ∈ lines text, ¬ HasKey mode line key := by
  intro line hline hkey
  rw [termIndexForKey_eq_none_iff h.keys_sorted, h.mem_keys] at hmissing
  exact hmissing ⟨line, hline, hkey⟩

/-- The list of a key that is found. -/
theorem IsNaiveIndex.list_at (h : IsNaiveIndex mode entries text granules
      (terms.map TermDictionaryEntry.key) postings) {key : List UInt8} {index : Nat}
    (hfound : termIndexForKey terms key = some index) :
    (postings.getD index []).Pairwise (· < ·) ∧ ∀ id, id ∈ postings.getD index [] ↔
      ∃ line, (lines text)[id]? = some line ∧ HasKey mode line key := by
  rw [termIndexForKey_eq_some_iff h.keys_sorted] at hfound
  have hlt := (List.getElem?_eq_some_iff.mp hfound).1
  rw [← h.postings_length] at hlt
  rw [List.getD_eq_getElem _ _ hlt]
  exact h.postings_at index key _ hfound (List.getElem?_eq_getElem hlt)

/-- The candidates are the lines that have every key of the query, in whatever order the lists are
intersected. -/
theorem IsNaiveIndex.candidates (h : IsNaiveIndex mode entries text granules
      (terms.map TermDictionaryEntry.key) postings) {queryKeys : List (List UInt8)}
    (hne : queryKeys ≠ []) {indexes order : List Nat}
    (hfound : List.Forall₂ (fun key index => termIndexForKey terms key = some index) queryKeys
      indexes) (hperm : order.Perm indexes) {maxWork : Nat} {candidates : List Nat}
    (hintersect : intersectPostings (order.map fun index => postings.getD index []) maxWork =
      .ok candidates) :
    candidates.Pairwise (· < ·) ∧ ∀ id, id ∈ candidates ↔
      ∃ line, (lines text)[id]? = some line ∧ ∀ key ∈ queryKeys, HasKey mode line key := by
  -- Every list that is intersected is the list of a key.
  have hlists : ∀ list ∈ order.map (fun index => postings.getD index []), ∃ key ∈ queryKeys,
      list.Pairwise (· < ·) ∧ ∀ id, id ∈ list ↔
        ∃ line, (lines text)[id]? = some line ∧ HasKey mode line key := by
    intro list hlist
    obtain ⟨index, hindex, rfl⟩ := List.mem_map.mp hlist
    obtain ⟨key, hkey, hsome⟩ := exists_of_forall₂_right hfound (hperm.mem_iff.mp hindex)
    exact ⟨key, hkey, h.list_at hsome⟩
  have hlists_ne : order.map (fun index => postings.getD index []) ≠ [] := by
    intro hnil
    rw [List.map_eq_nil_iff] at hnil
    subst hnil
    rw [← hperm.nil_eq, List.forall₂_nil_right_iff] at hfound
    exact hne hfound
  obtain ⟨hsorted, hmem⟩ := intersectPostings_eq_ok hlists_ne (fun list hlist => by
    obtain ⟨key, -, hpairwise, -⟩ := hlists list hlist
    exact hpairwise) hintersect
  refine ⟨hsorted, fun id => ?_⟩
  rw [hmem]
  constructor
  · intro hall
    obtain ⟨first, hfirst⟩ := List.exists_mem_of_ne_nil _ hlists_ne
    obtain ⟨key, -, -, hspec⟩ := hlists first hfirst
    obtain ⟨line, hline, -⟩ := (hspec id).mp (hall first hfirst)
    refine ⟨line, hline, fun other hother => ?_⟩
    obtain ⟨index, hindex, hsome⟩ := exists_of_forall₂_left hfound hother
    have hin := hall _ (List.mem_map.mpr ⟨index, hperm.mem_iff.mpr hindex, rfl⟩)
    obtain ⟨line', hline', hkey⟩ := ((h.list_at hsome).2 id).mp hin
    obtain rfl := Option.some.inj (hline.symm.trans hline')
    exact hkey
  · rintro ⟨line, hline, hkeys⟩ list hlist
    obtain ⟨key, hkey, -, hspec⟩ := hlists list hlist
    exact (hspec id).mpr ⟨line, hline, hkeys key hkey⟩

end Candidates

end Qzt
