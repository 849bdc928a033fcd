import Qzt.Search.IndexAdmission
import Qzt.Sidecar.Codecs

/-!
# The restored dictionary

A compact record keeps the key of a term, the number of its postings and their size.  The
dictionary that is made up from the records passes the checks on a dictionary from a file,
the posting lists are found at its offsets, and an index built from it is the one that was
written.
-/

namespace Qzt.Sidecar

open Foundation

section Restored

variable {env : Env} {map : PostingMap} {bytes : List UInt8} {postingOffset granuleCount : Nat}

/-! ## Fields -/

theorem restoredTerms_keys (env : Env) (postingOffset : Nat) (map : PostingMap) :
    (restoredTerms env postingOffset map).map TermDictionaryEntry.key = map.map Prod.fst := by
  induction map generalizing postingOffset with
  | nil => rfl
  | cons pair map ih =>
    rw [restoredTerms, List.map_cons, List.map_cons, ih]
    rfl

theorem restoredTerms_length (env : Env) (postingOffset : Nat) (map : PostingMap) :
    (restoredTerms env postingOffset map).length = map.length := by
  have hkeys := congrArg List.length (restoredTerms_keys env postingOffset map)
  rwa [List.length_map, List.length_map] at hkeys

theorem restoredTerms_flags {term : TermDictionaryEntry}
    (h : term ∈ restoredTerms env postingOffset map) : term.flags = 0 := by
  induction map generalizing postingOffset with
  | nil => cases h
  | cons pair map ih =>
    rcases List.mem_cons.mp h with rfl | hrest
    · rfl
    · exact ih hrest

/-- A term and its list in the restored dictionary. -/
theorem of_mem_zip_restoredTerms {pair : TermDictionaryEntry × List Nat}
    (h : pair ∈ (restoredTerms env postingOffset map).zip (map.map Prod.snd)) :
    pair.1.granuleFrequency = pair.2.length ∧ pair.2 ∈ map.map Prod.snd := by
  induction map generalizing postingOffset with
  | nil => cases h
  | cons entry map ih =>
    rcases List.mem_cons.mp h with rfl | hrest
    · exact ⟨rfl, List.mem_cons_self⟩
    · exact ⟨(ih hrest).1, List.mem_cons_of_mem _ (ih hrest).2⟩

/-! ## The checks of the openers -/

/-- The offsets of the restored terms are the ones that are expected. -/
theorem validateFileTerms_restoredTerms (hmap : Writable map)
    (hcounts : ∀ pair ∈ map, pair.2.length ≤ granuleCount)
    (hsum : postingOffset + (map.map fun pair => (postingBytes pair.2).length).sum < 2 ^ 64) :
    validateFileTerms env .compactV2 granuleCount (restoredTerms env postingOffset map)
      postingOffset 0 =
        .ok (postingOffset + (map.map fun pair => (postingBytes pair.2).length).sum) := by
  induction map generalizing postingOffset with
  | nil => rfl
  | cons pair map ih =>
    obtain ⟨key, list⟩ := pair
    obtain ⟨hkey, -⟩ := hmap.keys _ List.mem_cons_self
    obtain ⟨hlist, -, -⟩ := hmap.lists _ List.mem_cons_self
    rw [List.forall_mem_cons] at hcounts
    rw [List.map_cons, List.sum_cons, ← Nat.add_assoc] at hsum
    dsimp only at hkey hlist hsum
    have hsize := postingBytes_ne_nil hlist
    have hpos := List.length_pos_of_ne_nil hlist
    have hcount : list.length ≤ granuleCount := hcounts.1
    have hnext := ih hmap.tail hcounts.2 hsum
    -- No check of the compact encoding is on the hash or on the skip data.
    have hidentity : ¬ (key = [] ∨
        (TermEncoding.compactV2 = .legacyV1 ∧ keyHash env key ≠ keyHash env key)) := by
      simp [hkey]
    have hnumbers : ¬ ((0 : Nat) ≠ 0 ∨ list.length = 0 ∨ list.length > granuleCount ∨
        (postingBytes list).length = 0) := by
      omega
    have hplace : ¬ (postingOffset ≠ postingOffset ∨
        (TermEncoding.compactV2 = .legacyV1 ∧ ((0 : Nat) ≠ 0 ∨ (0 : Nat) % 24 ≠ 0)) ∨
        (True ∧ ((0 : Nat) ≠ 0 ∨ (0 : Nat) ≠ 0))) := by
      simp
    rw [List.map_cons, List.sum_cons, ← Nat.add_assoc, restoredTerms, validateFileTerms]
    simp only [bind_eq_ok_iff, rejectIf_eq_ok_iff, okOr_eq_ok_iff, checkedAdd_eq_some_iff]
    exact ⟨⟨⟩, hidentity, ⟨⟩, not_not_intro rfl, ⟨⟩, hnumbers, ⟨⟩, hplace, _, ⟨by omega, rfl⟩, 0,
      ⟨Nat.two_pow_pos 64, rfl⟩, hnext⟩

theorem validateFileTermDictionary_restoredTerms (hmap : Writable map)
    (hcounts : ∀ pair ∈ map, pair.2.length ≤ granuleCount) :
    validateFileTermDictionary env (restoredTerms env 0 map)
      (map.map fun pair => (postingBytes pair.2).length).sum .compactV2 granuleCount = .ok ⟨⟩ := by
  have hsize := hmap.size
  have hterms := @validateFileTerms_restoredTerms env map 0 granuleCount hmap hcounts (by omega)
  have hchain : (map.map Prod.fst).IsChain (· < ·) :=
    (List.pairwise_map.mpr hmap.sorted).isChain
  rw [Nat.zero_add] at hterms
  rw [validateFileTermDictionary, hterms, ok_bind, restoredTerms_keys]
  apply rejectIf_of_not
  rintro (hkeys | hsizes)
  · exact hkeys hchain
  · exact hsizes rfl

/-! ## Posting lists -/

/-- Every list is found behind the lists before it. -/
theorem decodePostingLoop_restoredTerms (hmap : Writable map) {maxPostingListSize remainingIds : Nat}
    (hsizes : ∀ pair ∈ map, (postingBytes pair.2).length ≤ maxPostingListSize)
    (hids : (map.map fun pair => pair.2.length).sum ≤ remainingIds) (hword : bytes.length < 2 ^ 64)
    (h : StandsAt bytes postingOffset (map.map fun pair => postingBytes pair.2).flatten) :
    decodePostingLoop bytes maxPostingListSize (restoredTerms env postingOffset map) remainingIds =
      .ok (map.map Prod.snd) := by
  induction map generalizing postingOffset remainingIds with
  | nil => rfl
  | cons pair map ih =>
    obtain ⟨key, list⟩ := pair
    obtain ⟨-, hincreases, hcount⟩ := hmap.lists _ List.mem_cons_self
    rw [List.forall_mem_cons] at hsizes
    rw [List.map_cons, List.sum_cons] at hids
    rw [List.map_cons, List.flatten_cons] at h
    dsimp only at hincreases hcount hsizes hids h
    have hinside := h.left.inside
    have hdecode := decodeDeltaVarintU64WithLimit_postingBytes hincreases hcount remainingIds
    rw [if_pos (by omega)] at hdecode
    have hnext := ih hmap.tail hsizes.2
      (show (map.map fun pair => pair.2.length).sum ≤ remainingIds - list.length by omega) h.right
    rw [restoredTerms, decodePostingLoop]
    dsimp only
    rw [rejectIf_of_not (Nat.not_lt.mpr hsizes.1), ok_bind, u64ToUsize_of_lt (by omega), ok_bind,
      u64ToUsize_of_lt (by omega), ok_bind, checkedAdd_of_lt (by omega), okOr_some, ok_bind,
      h.left.getRange, okOr_some, ok_bind, hdecode, ok_bind, usizeToU64_of_lt hcount, ok_bind,
      checkedSub_of_le (by omega), okOr_some, ok_bind, hnext]
    rfl

theorem validateDecodedPostings_restoredTerms (hcount : granuleCount < 2 ^ 64)
    (hwords : ∀ pair ∈ map, pair.2.length < 2 ^ 64)
    (hids : ∀ pair ∈ map, ∀ granuleId ∈ pair.2, granuleId < granuleCount) :
    validateDecodedPostings (restoredTerms env postingOffset map) (map.map Prod.snd) granuleCount =
      .ok ⟨⟩ := by
  have hlength : (restoredTerms env postingOffset map).length = (map.map Prod.snd).length := by
    rw [restoredTerms_length, List.length_map]
  rw [validateDecodedPostings, rejectIf_of_not (not_not_intro hlength), ok_bind,
    usizeToU64_of_lt hcount, ok_bind, checkAll_eq_ok_iff]
  intro pair hpair
  obtain ⟨hfrequency, hmem⟩ := of_mem_zip_restoredTerms hpair
  obtain ⟨entry, hentry, hlist⟩ := List.mem_map.mp hmem
  have hinside := hids entry hentry
  have hword := hwords entry hentry
  rw [hlist] at hinside hword
  rw [usizeToU64_of_lt hword, ok_bind]
  apply rejectIf_of_not
  rintro (hne | ⟨granuleId, hid, hge⟩)
  · exact hne hfrequency
  · exact Nat.not_lt.mpr hge (hinside granuleId hid)

/-! ## The index of the dictionary -/

/-- The encoding overwrites what the two dictionaries differ in. -/
theorem encodePostingLoop_restoredTerms (env : Env) (withSkips : Bool) (offset : Nat)
    (map : PostingMap) (postingOffset skipOffset : Nat) :
    encodePostingLoop withSkips (restoredTerms env offset map) (map.map Prod.snd) postingOffset
        skipOffset =
      encodePostingLoop withSkips (map.map fun pair => blankTerm env pair.1) (map.map Prod.snd)
        postingOffset skipOffset := by
  induction map generalizing offset postingOffset skipOffset with
  | nil => rfl
  | cons pair map ih =>
    simp only [restoredTerms, List.map_cons, encodePostingLoop, ih, blankTerm]

/-- What an index build takes, an index from the restored dictionary takes under looser limits, and
it is the same index. -/
theorem encodeParts_restoredTerms {entries : List ChunkEntry} {mode : BuildKeys}
    {text : List UInt8} (hlayout : Layout entries text.length)
    (hindexes : IndexesLines entries mode (lines text) (lineGranules entries text) map)
    {limits looser : IndexBuildLimits} (hsized : limits.Sized) (hloose : looser.Sized)
    (hgranules : limits.maxGranules ≤ looser.maxGranules)
    (hkeys : limits.maxDistinctKeys ≤ looser.maxDistinctKeys)
    (hids : limits.maxPostingIds ≤ looser.maxPostingIds)
    (hkeyBytes : limits.maxKeyBytes ≤ looser.maxKeyBytes)
    (hencodedBytes : limits.maxEncodedBytes ≤ looser.maxEncodedBytes) {withSkips : Bool}
    {encoded : EncodedPostingLists}
    (h : encodeParts text.length (lineGranules entries text)
      (map.map fun pair => blankTerm env pair.1) (map.map Prod.snd) limits withSkips = .ok encoded) :
    encodeParts text.length (lineGranules entries text) (restoredTerms env postingOffset map)
      (map.map Prod.snd) looser withSkips = .ok encoded := by
  obtain ⟨_, hparts, h⟩ := bind_eq_ok_iff.mp h
  obtain ⟨_, hvalid, h⟩ := bind_eq_ok_iff.mp h
  obtain ⟨_, -, h⟩ := bind_eq_ok_iff.mp h
  obtain ⟨size, hcharge, hloop⟩ := bind_eq_ok_iff.mp h
  have hincreases := hindexes.increases hlayout
  have hrestored := restoredTerms_keys env postingOffset map
  -- The totals do not depend on what the dictionaries differ in.
  have hlengths : ((restoredTerms env postingOffset map).map fun term => term.key.length) =
      (map.map fun pair => blankTerm env pair.1).map fun term => term.key.length := by
    have hmaps := congrArg (List.map List.length) hrestored
    rw [List.map_map, List.map_map] at hmaps
    rw [List.map_map]
    exact hmaps
  rw [IndexBuildLimits.checkParts_eq_ok_iff hsized, List.length_map] at hparts
  obtain ⟨hgranuleCount, hkeyCount, hkeyTotal, hidTotal⟩ := hparts
  have hcheck := (IndexBuildLimits.checkParts_eq_ok_iff hloose (u := ⟨⟩)).mpr
    ⟨Nat.le_trans hgranuleCount hgranules,
      (restoredTerms_length env postingOffset map).symm ▸ Nat.le_trans hkeyCount hkeys,
      hlengths ▸ Nat.le_trans hkeyTotal hkeyBytes, Nat.le_trans hidTotal hids⟩
  have hshape := hindexes.validateShape hlayout hrestored fun term => restoredTerms_flags
  have hle := ((chargePostingLists_eq_ok_iff hincreases hsized.maxEncodedBytes
    (Nat.zero_le _)).mp hcharge).1
  have hcharged := (@chargePostingLists_eq_ok_iff withSkips _ _ hincreases hloose.maxEncodedBytes 0
    _ (Nat.zero_le _)).mpr ⟨Nat.le_trans hle hencodedBytes, rfl⟩
  rw [encodeParts, hcheck, ok_bind, hvalid, ok_bind, hshape, ok_bind, encodePostingLists, hcharged,
    ok_bind, encodePostingLoop_restoredTerms, hloop]

end Restored

end Qzt.Sidecar
