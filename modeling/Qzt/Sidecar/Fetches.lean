import Qzt.Search.Answers
import Qzt.Sidecar.OpenInvariant
import Qzt.Sidecar.Openers

/-!
# What the file-backed sidecar fetches

The sections of an opened sidecar hold the list of every term and the record of every granule.
Fetching one of them from the file gives what the decoded sidecar holds at the same place.
-/

namespace Qzt.Sidecar

open Foundation

/-! ## Lists -/

/-- A term and its list, as the posting section holds them. -/
structure ListStored (bytes : List UInt8) (granuleCount maxSize : Nat)
    (term : TermDictionaryEntry) (list : List Nat) : Prop where
  stands : StandsAt bytes term.postingOffset (postingBytes list)
  size : term.postingSize = (postingBytes list).length
  size_le : term.postingSize ≤ maxSize
  frequency : term.granuleFrequency = list.length
  increases : IncreasesFrom none list
  ids : ∀ id ∈ list, id < granuleCount

/-- Every list was decoded from the place of its term. -/
theorem decodePostingLoop_stored {bytes : List UInt8} {maxSize remainingIds granuleCount : Nat}
    {terms : List TermDictionaryEntry} {postings : List (List Nat)}
    (h : decodePostingLoop bytes maxSize terms remainingIds = .ok postings)
    (hdecoded : List.Forall₂ (fun (term : TermDictionaryEntry) (list : List Nat) =>
      term.granuleFrequency = list.length ∧ ∀ id ∈ list, id < granuleCount) terms postings) :
    List.Forall₂ (ListStored bytes granuleCount maxSize) terms postings := by
  induction terms generalizing remainingIds postings with
  | nil =>
    obtain rfl := Except.ok.inj h
    exact .nil
  | cons term terms ih =>
    simp only [decodePostingLoop, bind_eq_ok_iff, u64ToUsize_eq_ok_iff, usizeToU64_eq_ok_iff,
      okOr_eq_ok_iff, checkedAdd_eq_some_iff, checkedSub_eq_some_iff, rejectIf_eq_ok_iff,
      pure_eq_ok, Except.ok.injEq, gt_iff_lt, Nat.not_lt] at h
    obtain ⟨_, hmax, _, ⟨-, rfl⟩, _, ⟨-, rfl⟩, _, ⟨-, rfl⟩, encoded, hrange, list, hdecode, _,
      ⟨-, rfl⟩, _, -, lists, hrest, rfl⟩ := h
    obtain ⟨⟨hfrequency, hids⟩, hothers⟩ := List.forall₂_cons.mp hdecoded
    obtain ⟨hstands, hlength⟩ := standsAt_of_getRange hrange
    obtain ⟨hincreases, hencoded⟩ :=
      deltaBytes_of_decodeDeltas (by rintro p ⟨⟩) (Nat.le_refl _) hdecode
    have hwritten : encoded = postingBytes list := hencoded
    rw [hwritten] at hstands hlength
    exact .cons ⟨hstands, Nat.add_left_cancel hlength, hmax, hfrequency, hincreases, hids⟩
      (ih hrest hothers)

namespace SectionsRead

variable {env : Env} {file : SidecarFile} {manifest : SidecarManifest} {details : SkeletonDetails}
  {limits : SidecarLimits} {granules : List SearchGranule} {terms : List TermDictionaryEntry}
  {postings : List (List Nat)}
  (h : SectionsRead env file manifest details limits granules terms postings)
include h

theorem stored :
    List.Forall₂ (ListStored file.postingBytes granules.length limits.maxPostingListSize) terms
      postings := by
  obtain ⟨_, -, hlists⟩ := bind_eq_ok_iff.mp h.postingSection
  obtain ⟨_, -, hlists⟩ := bind_eq_ok_iff.mp hlists
  have hdecoded := h.decoded
  simp only [validateDecodedPostings, bind_eq_ok_iff, usizeToU64_eq_ok_iff, checkAll_eq_ok_iff,
    rejectIf_eq_ok_iff, ne_eq, not_not] at hdecoded
  obtain ⟨_, hlength, _, ⟨-, rfl⟩, hpairs⟩ := hdecoded
  refine decodePostingLoop_stored hlists (List.forall₂_iff_zip.mpr ⟨hlength, ?_⟩)
  intro term list hmem
  obtain ⟨_, ⟨-, rfl⟩, hpair⟩ := hpairs _ hmem
  rw [not_or, not_not] at hpair
  exact ⟨hpair.1, fun id hid => Nat.lt_of_not_le fun hle => hpair.2 ⟨id, hid, hle⟩⟩

/-- The lists fill the section. -/
theorem extent : postingExtent terms = file.postingBytes.length := by
  obtain ⟨stop, hdictionary, htotal⟩ := bind_eq_ok_iff.mp h.dictionary
  simp only [rejectIf_eq_ok_iff, not_or, ne_eq, not_not] at htotal
  obtain ⟨-, -, hstop⟩ := validateFileTerms_eq_ok hdictionary
  rw [← h.describes.postings.2, ← htotal.2, hstop, Nat.zero_add]

/-- The granule at a position, and its record in the section. -/
theorem record_at {position : Nat} {granule : SearchGranule}
    (hgranule : granules[position]? = some granule) :
    ∃ record, StandsAt file.granuleBytes (8 + position * manifest.granuleEncoding.recordLen) record ∧
      record.length = manifest.granuleEncoding.recordLen ∧
      decodeGranuleRecord record position manifest.granuleEncoding = .ok granule := by
  obtain ⟨records, hbytes, -, hrecords, hrepresents⟩ := h.granule_records
  have hpairs := collect_eq_ok_iff.mp hrecords
  obtain ⟨hlt, -⟩ := List.getElem?_eq_some_iff.mp hgranule
  have hlt' : position < records.length := hpairs.length_eq ▸ hlt
  have hrecord := List.getElem?_eq_getElem hlt'
  have hencodes : encodeGranule manifest.granuleEncoding granule = .ok records[position] := by
    have hzip : (granules.zip records)[position]? = some (granule, records[position]) :=
      List.getElem?_zip_eq_some.mpr ⟨hgranule, hrecord⟩
    exact (List.forall₂_iff_zip.mp hpairs).2 (List.mem_of_getElem? hzip)
  have hlength := length_encodeGranule hencodes
  have hrepresentsAt := hrepresents position granule hgranule
  rw [Nat.zero_add] at hrepresentsAt
  -- The records before this one all have the length of a record.
  have hbefore : (records.take position).flatten.length =
      position * manifest.granuleEncoding.recordLen := by
    have htake : collect (encodeGranule manifest.granuleEncoding) (granules.take position) =
        .ok (records.take position) := by
      rw [collect_eq_ok_iff]
      exact List.forall₂_take position hpairs
    rw [length_flatten_of_collect htake, List.length_take_of_le (Nat.le_of_lt hlt)]
  refine ⟨records[position], ?_, hlength, ?_⟩
  · have hinner := standsAt_flatten hrecord
    rw [hbefore] at hinner
    have houter : StandsAt file.granuleBytes 8 records.flatten := by
      rw [hbytes]
      have hat := standsAt_append (leBytes 8 granules.length) records.flatten
      rwa [length_leBytes] at hat
    exact houter.trans hinner
  · have hword : records[position].length < 2 ^ 64 := by
      rw [hlength]
      cases manifest.granuleEncoding <;> decide
    exact (decodeGranuleRecord_iff hword).mpr ⟨hrepresentsAt, hencodes⟩

end SectionsRead

/-! ## Fetching -/

section Fetches

variable {env : Env} {bytes : List UInt8} {limits : SidecarLimits} {sidecar : QziSidecar}
  {parts : OpenedParts} (h : parts.Follows env bytes limits sidecar)
include h

theorem OpenedParts.Follows.sourceSize :
    sidecar.manifest.sourceSizeBytes = parts.details.summary.originalSize := by
  have hfooter := h.sourceFooter
  simp only [checkSourceFooter, bind_eq_ok_iff, rejectIf_eq_ok_iff, ne_eq, not_not] at hfooter
  exact hfooter.choose_spec.2

theorem OpenedParts.Follows.length_postings : parts.terms.length = parts.postings.length :=
  h.sections.stored.length_eq

/-- A term of the dictionary has its list. -/
theorem OpenedParts.Follows.listAt {index : Nat} (hindex : index < parts.terms.length) :
    ∃ term, parts.terms[index]? = some term ∧
      ListStored parts.file.postingBytes parts.granules.length limits.maxPostingListSize term
        (parts.postings.getD index []) := by
  have hlist : index < parts.postings.length := h.length_postings ▸ hindex
  refine ⟨parts.terms[index], List.getElem?_eq_getElem hindex, ?_⟩
  rw [List.getD_eq_getElem _ _ hlist]
  have hzip : (parts.terms.zip parts.postings)[index]? =
      some (parts.terms[index], parts.postings[index]) :=
    List.getElem?_zip_eq_some.mpr
      ⟨List.getElem?_eq_getElem hindex, List.getElem?_eq_getElem hlist⟩
  exact (List.forall₂_iff_zip.mp h.sections.stored).2 (List.mem_of_getElem? hzip)

/-- The dictionary states the number of ids of each list, and none where there is no list. -/
theorem OpenedParts.Follows.frequencyAt (index : Nat) :
    granuleFrequencyAt parts.terms index = (parts.postings.getD index []).length := by
  rcases Nat.lt_or_ge index parts.terms.length with hlt | hge
  · obtain ⟨term, hterm, hstored⟩ := h.listAt hlt
    rw [granuleFrequencyAt, hterm, ← hstored.frequency]
    rfl
  · rw [granuleFrequencyAt, List.getElem?_eq_none hge,
      List.getD_eq_default _ _ (h.length_postings ▸ hge)]
    rfl

theorem OpenedParts.Follows.sizeAt (index : Nat) : postingSizeAt parts.terms index =
    ((parts.postings.map postingBytes).getD index []).length := by
  rcases Nat.lt_or_ge index parts.terms.length with hlt | hge
  · obtain ⟨term, hterm, hstored⟩ := h.listAt hlt
    have hlist : index < parts.postings.length := h.length_postings ▸ hlt
    rw [List.getD_eq_getElem _ _ hlist] at hstored
    rw [postingSizeAt, hterm, List.getD_eq_getElem _ _ (by rwa [List.length_map]),
      List.getElem_map, ← hstored.size]
    rfl
  · have hnone : (parts.postings.map postingBytes).length ≤ index := by
      rw [List.length_map]
      exact h.length_postings ▸ hge
    rw [postingSizeAt, List.getElem?_eq_none hge, List.getD_eq_default _ _ hnone]
    rfl

/-- The charges for distinct terms are within the section. -/
theorem OpenedParts.Follows.sum_sizes_le {indexes : List Nat} (hnodup : indexes.Nodup)
    (hlt : ∀ index ∈ indexes, index < parts.terms.length) :
    (indexes.map (postingSizeAt parts.terms)).sum ≤ parts.file.postingBytes.length := by
  calc (indexes.map (postingSizeAt parts.terms)).sum
      ≤ ((List.range parts.terms.length).map (postingSizeAt parts.terms)).sum :=
        sum_amounts_le hnodup hlt
    _ = postingExtent parts.terms := by
        rw [map_range_postingSizeAt]
        rfl
    _ = parts.file.postingBytes.length := h.sections.extent

/-- A list has no more ids than bytes. -/
theorem OpenedParts.Follows.sum_frequencies_le (indexes : List Nat) :
    (indexes.map (granuleFrequencyAt parts.terms)).sum ≤
      (indexes.map (postingSizeAt parts.terms)).sum := by
  apply List.sum_le_sum
  intro index _
  rw [h.frequencyAt, h.sizeAt]
  rcases Nat.lt_or_ge index parts.postings.length with hlt | hge
  · rw [List.getD_eq_getElem _ _ hlt, List.getD_eq_getElem _ _ (by rwa [List.length_map]),
      List.getElem_map]
    exact length_le_length_deltaBytes none _
  · rw [List.getD_eq_default _ _ hge]
    exact Nat.zero_le _

variable (served : FaithfulSource parts.file.bytes)

theorem OpenedParts.Follows.length_list_lt (hword : parts.file.bytes.length < 2 ^ 64) {index : Nat}
    (hindex : index < parts.terms.length) :
    (parts.postings.getD index []).length < 2 ^ 64 := by
  obtain ⟨term, -, hstored⟩ := h.listAt hindex
  have hle : (parts.postings.getD index []).length ≤
      (postingBytes (parts.postings.getD index [])).length := length_le_length_deltaBytes none _
  have hlist := hstored.stands.inside
  have hsection := h.sections.sections_at.2.2.stands.inside
  omega

/-- The list of a term is fetched as it is in the section. -/
theorem OpenedParts.Follows.fetchPostings_eq {index maxIds : Nat}
    (hindex : index < parts.terms.length)
    (hids : (parts.postings.getD index []).length ≤ maxIds) :
    (parts.fileSidecar sidecar served.source limits).fetchPostings index maxIds =
      .ok (parts.postings.getD index []) := by
  obtain ⟨term, hterm, hstored⟩ := h.listAt hindex
  obtain ⟨-, -, hsection⟩ := h.sections.sections_at
  have hread := hsection.readVec_eq served hstored.stands
  have hinside := hsection.stands.inside
  have hlist := hstored.stands.inside
  have hword := served.len_lt
  rw [served.len_eq] at hword
  have hlength := h.length_list_lt hword hindex
  have hdecode := decodeDeltaVarintU64WithLimit_postingBytes hstored.increases hlength maxIds
  rw [← hstored.size] at hread
  rw [if_pos hids] at hdecode
  have hnone : ¬ ∃ granuleId ∈ parts.postings.getD index [],
      granuleId ≥ parts.granules.length := by
    rintro ⟨id, hid, hge⟩
    exact absurd (hstored.ids id hid) (Nat.not_lt.mpr hge)
  simp only [QziFileSidecar.fetchPostings, OpenedParts.fileSidecar, bind_eq_ok_iff, okOr_eq_ok_iff,
    rejectIf_eq_ok_iff, checkedAdd_eq_some_iff, usizeToU64_eq_ok_iff, pure_eq_ok]
  exact ⟨term, hterm, ⟨⟩, rejectIf_of_not (Nat.not_lt.mpr hstored.size_le), _, ⟨by omega, rfl⟩, _,
    ⟨by omega, rfl⟩, _, hread, _, hdecode, _, ⟨hlength, rfl⟩, ⟨⟩,
    not_not_intro hstored.frequency.symm, ⟨⟩, rejectIf_of_not hnone, rfl⟩

/-- The lists of terms whose numbers of ids fit are all fetched. -/
theorem OpenedParts.Follows.fetchPostingLists_eq {indexes : List Nat} {remainingIds : Nat}
    (hlt : ∀ index ∈ indexes, index < parts.terms.length)
    (hids : (indexes.map (granuleFrequencyAt parts.terms)).sum ≤ remainingIds) :
    (parts.fileSidecar sidecar served.source limits).fetchPostingLists indexes remainingIds =
      .ok (indexes.map fun index => parts.postings.getD index []) := by
  induction indexes generalizing remainingIds with
  | nil => rfl
  | cons index indexes ih =>
    obtain ⟨hindex, hrest⟩ := List.forall_mem_cons.mp hlt
    rw [List.map_cons, List.sum_cons] at hids
    have hfrequency := h.frequencyAt index
    have hword := served.len_lt
    rw [served.len_eq] at hword
    have hlength := h.length_list_lt hword hindex
    have hfetch : (parts.fileSidecar sidecar served.source limits).fetchPostings index
        remainingIds = .ok (parts.postings.getD index []) :=
      h.fetchPostings_eq served hindex (by omega)
    have hsub : checkedSub remainingIds (parts.postings.getD index []).length =
        some (remainingIds - (parts.postings.getD index []).length) :=
      checkedSub_of_le (by omega)
    have hterms : (parts.fileSidecar sidecar served.source limits).terms = parts.terms := rfl
    rw [QziFileSidecar.fetchPostingLists, hterms, rejectIf_of_not (by omega), ok_bind, hfetch,
      ok_bind, usizeToU64_of_lt hlength, ok_bind, hsub, okOr_some, ok_bind,
      ih hrest (by omega), ok_bind, List.map_cons]
    rfl

/-- The lists of a query are fetched exactly where both totals are within the options. -/
theorem OpenedParts.Follows.queryPostings_eq {indexes : List Nat} {options : SearchOptions}
    (hnodup : indexes.Nodup) (hlt : ∀ index ∈ indexes, index < parts.terms.length)
    (hbytesLimit : options.maxPostingBytesPerQuery ≤ limits.maxPostingBytesPerQuery)
    (hidsLimit : options.maxPostingIdsPerQuery ≤ limits.maxDecodedPostingIds) :
    (parts.fileSidecar sidecar served.source limits).queryPostings
        (indexes.map (postingSizeAt parts.terms)).sum indexes options =
      if (indexes.map (postingSizeAt parts.terms)).sum ≤ options.maxPostingBytesPerQuery ∧
          (indexes.map (granuleFrequencyAt parts.terms)).sum ≤ options.maxPostingIdsPerQuery then
        .ok (indexes.map fun index => parts.postings.getD index [])
      else .error .resourceLimitExceeded := by
  have hsizes := h.sum_sizes_le hnodup hlt
  have hfrequencies := h.sum_frequencies_le indexes
  have hinside := h.sections.sections_at.2.2.stands.inside
  have hword := served.len_lt
  rw [served.len_eq] at hword
  have hdeclared := @sumChecked_of_lt Nat indexes
    (fun index => .ok (granuleFrequencyAt parts.terms index)) (granuleFrequencyAt parts.terms) 0
    (fun _ _ => rfl) (by omega)
  have hterms : (parts.fileSidecar sidecar served.source limits).terms = parts.terms := rfl
  have hlimits : (parts.fileSidecar sidecar served.source limits).limits = limits := rfl
  rw [Nat.zero_add] at hdeclared
  rw [QziFileSidecar.queryPostings, hlimits, hterms]
  dsimp only
  rw [Nat.min_eq_right hbytesLimit, Nat.min_eq_right hidsLimit, hdeclared]
  by_cases hbytes : (indexes.map (postingSizeAt parts.terms)).sum ≤ options.maxPostingBytesPerQuery
  · rw [rejectIf_of_not (Nat.not_lt.mpr hbytes), ok_bind, ok_bind]
    by_cases hids : (indexes.map (granuleFrequencyAt parts.terms)).sum ≤
        options.maxPostingIdsPerQuery
    · -- The total fits the remaining ids, so that every list does.
      rw [rejectIf_of_not (Nat.not_lt.mpr hids), ok_bind, if_pos ⟨hbytes, hids⟩]
      exact h.fetchPostingLists_eq served hlt hids
    · rw [rejectIf_of (Nat.lt_of_not_le hids), error_bind, if_neg (fun hboth => hids hboth.2)]
  · rw [rejectIf_of (Nat.lt_of_not_le hbytes), error_bind, if_neg (fun hboth => hbytes hboth.1)]

/-! ## Granules -/

/-- The record of a granule is fetched as it is in the section. -/
theorem OpenedParts.Follows.fetchGranule_eq {id : Nat} {granule : SearchGranule}
    (hgranule : parts.granules[id]? = some granule) (hid : granule.granuleId = id) :
    (parts.fileSidecar sidecar served.source limits).fetchGranule id parts.details.chunkEntries =
      .ok granule := by
  obtain ⟨record, hstands, hlength, hdecode⟩ := h.sections.record_at hgranule
  obtain ⟨hsection, -, -⟩ := h.sections.sections_at
  have hread := hsection.readVec_eq served hstands
  have hinside := (hsection.stands.trans hstands).inside
  have hword := served.len_lt
  rw [served.len_eq] at hword
  obtain ⟨hlt, -⟩ := List.getElem?_eq_some_iff.mp hgranule
  have hspan := h.sections.spans granule (List.mem_of_getElem? hgranule)
  have hplace : id * sidecar.manifest.granuleEncoding.recordLen + 8 +
      sidecar.manifest.granules.offset + parts.file.sectionBase =
        parts.file.sectionBase + sidecar.manifest.granules.offset +
          (8 + id * sidecar.manifest.granuleEncoding.recordLen) := by
    omega
  rw [hlength, ← hplace] at hread
  simp only [QziFileSidecar.fetchGranule, OpenedParts.fileSidecar, bind_eq_ok_iff, okOr_eq_ok_iff,
    checkedMul_eq_some_iff, checkedAdd_eq_some_iff, pure_eq_ok]
  exact ⟨⟨⟩, rejectIf_of_not (Nat.not_le.mpr hlt), _, ⟨by omega, rfl⟩, _, ⟨by omega, rfl⟩, _,
    ⟨by omega, rfl⟩, _, ⟨by omega, rfl⟩, _, hread, _, hdecode, ⟨⟩,
    rejectIf_of_not (not_not_intro hid), ⟨⟩, by rw [h.sourceSize]; exact hspan, rfl⟩

end Fetches

/-- Binary search finds the position of a candidate. -/
theorem candidatePosition_eq {candidates : List Nat} (hsorted : candidates.Pairwise (· < ·))
    {position id : Nat} (hid : candidates[position]? = some id) :
    QziFileSidecar.candidatePosition candidates id = some position := by
  obtain ⟨hlt, hget⟩ := List.getElem?_eq_some_iff.mp hid
  have hsearch : partitionPoint (fun index : Nat =>
      (.ok (decide (∃ value ∈ candidates[index]?, value < id)) : Result Bool)) candidates.length =
        .ok position := by
    apply partitionPoint_eq (Nat.le_of_lt hlt)
    intro index hindex
    rw [Except.ok.injEq, decide_eq_decide, List.getElem?_eq_getElem hindex]
    simp only [Option.mem_def, Option.some.injEq, exists_eq_left']
    rw [← hget]
    have hless := List.pairwise_iff_getElem.mp hsorted
    constructor
    · intro hbelow
      by_contra hge
      rcases Nat.lt_or_eq_of_le (Nat.not_lt.mp hge) with habove | rfl
      · exact Nat.lt_asymm hbelow (hless position index hlt hindex habove)
      · exact Nat.lt_irrefl _ hbelow
    · exact hless index position hindex hlt
  rw [QziFileSidecar.candidatePosition, hsearch]
  exact if_pos hid

end Qzt.Sidecar
