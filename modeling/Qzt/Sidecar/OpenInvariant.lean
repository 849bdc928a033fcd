import Qzt.Reader.ExplicitLimits
import Qzt.Search.Failures
import Qzt.Sidecar.Limits
import Qzt.Sidecar.OpenSections
import Qzt.Sidecar.Search

/-!
# The invariant of an opened sidecar

The checks of the opener are spread over the layout, the decoders and the reconstruction of
the index.  Together they make the index well formed, which is what its searches rely on.
-/

namespace Qzt.Sidecar

open Foundation

/-! ## Parts of an index -/

namespace SidecarSearchIndex

/-- The granules of either kind of index. -/
def granules : SidecarSearchIndex → List SearchGranule
  | .token index => index.granules
  | .ngram index => index.granules

/-- The terms of either kind of index. -/
def terms : SidecarSearchIndex → List TermDictionaryEntry
  | .token index => index.terms
  | .ngram index => index.terms

/-- The posting lists of either kind of index. -/
def postings : SidecarSearchIndex → List (List Nat)
  | .token index => index.postings
  | .ngram index => index.postings

end SidecarSearchIndex

/-- A granule and a chunk share a byte. -/
def Intersects (granule : SearchGranule) (entry : ChunkEntry) : Prop :=
  max granule.logicalOffset entry.logicalOffset <
    min (granule.logicalOffset + granule.byteLength) (entry.logicalOffset + entry.uncompressedSize)

/-- What the record of a term says: its key, the number of its postings and their extent. -/
def storedRecord (term : TermDictionaryEntry) : List UInt8 × Nat × Nat × Nat :=
  (term.key, term.granuleFrequency, term.postingOffset, term.postingSize)

/-! ## Granules -/

section Granules

variable {granules : List SearchGranule} {entries : List ChunkEntry} {size : Nat}

/-- What the loop over the granules has checked. -/
theorem validateGranulesLoop_eq_ok {index : Nat} {previous : Option Nat}
    (h : validateGranulesLoop size index previous granules = .ok ⟨⟩) :
    (∀ position granule, granules[position]? = some granule →
      granule.granuleId = index + position) ∧
      (previous.toList ++ granules.map SearchGranule.logicalOffset).Pairwise (· ≤ ·) := by
  induction granules generalizing index previous with
  | nil =>
    refine ⟨fun position granule hget => ?_, ?_⟩
    · rw [List.getElem?_nil] at hget
      cases hget
    · cases previous with
      | none => exact List.Pairwise.nil
      | some offset => exact List.pairwise_singleton _ _
  | cons granule granules ih =>
    simp only [validateGranulesLoop, bind_eq_ok_iff, rejectIf_eq_ok_iff, ne_eq, not_not] at h
    obtain ⟨_, hid, _, -, _, -, _, hordered, _, -, hrest⟩ := h
    obtain ⟨hids, hsorted⟩ := ih hrest
    refine ⟨fun position other hother => ?_, ?_⟩
    · cases position with
      | zero =>
        obtain rfl := Option.some.inj hother
        exact hid
      | succ position =>
        rw [hids position other hother, Nat.add_assoc, Nat.add_comm 1]
    · rw [List.map_cons]
      cases previous with
      | none => exact hsorted
      | some offset =>
        have hle : offset ≤ granule.logicalOffset := by
          by_contra hlt
          exact hordered ⟨offset, rfl, Nat.lt_of_not_le hlt⟩
        refine List.pairwise_cons.mpr ⟨?_, hsorted⟩
        intro later hlater
        rcases List.mem_cons.mp hlater with rfl | hlater
        · exact hle
        · exact Nat.le_trans hle (List.rel_of_pairwise_cons hsorted hlater)

/-- A byte is not before a chunk exactly when its chunk is not. -/
theorem le_weightIndex_iff {sizes : List Nat} {offset index : Nat} (h : index < sizes.length) :
    index ≤ weightIndex sizes offset ↔ (sizes.take index).sum ≤ offset := by
  cases index with
  | zero => simp
  | succ index => exact lt_weightIndex_iff (Nat.lt_of_succ_lt h)

/-- The chunks that share a byte with a range of the text. -/
theorem intersects_iff (hlayout : Layout entries size) {granule : SearchGranule}
    (hpos : 0 < granule.byteLength) (hsize : granule.logicalOffset + granule.byteLength ≤ size)
    (index : Nat) :
    (∃ entry, entries[index]? = some entry ∧ Intersects granule entry) ↔
      weightIndex (chunkSizes entries) granule.logicalOffset ≤ index ∧
        index ≤ weightIndex (chunkSizes entries)
          (granule.logicalOffset + granule.byteLength - 1) := by
  rcases Nat.lt_or_ge index entries.length with hlt | hge
  · have hget := List.getElem?_eq_getElem hlt
    obtain ⟨-, hoffset, hbytes, hstop⟩ := hlayout.contiguous.getElem? hget
    have hindex : index < (chunkSizes entries).length := by rwa [length_chunkSizes]
    rw [Nat.zero_add] at hoffset hstop
    rw [le_weightIndex_iff hindex, ← Nat.not_lt, lt_weightIndex_iff hindex, ← hoffset, hstop,
      hget]
    simp only [Option.some.injEq, exists_eq_left', Intersects]
    omega
  · -- The chunk of a byte of the text is a chunk of the table.
    obtain ⟨hinside, -, -⟩ := weightIndex_spec
      (show granule.logicalOffset + granule.byteLength - 1 < (chunkSizes entries).sum by
        rw [hlayout.total]; omega)
    rw [length_chunkSizes] at hinside
    refine iff_of_false ?_ (by omega)
    rintro ⟨entry, hentry, -⟩
    rw [List.getElem?_eq_none hge] at hentry
    cases hentry

/-- A granule is valid exactly when it is a range of the text with the chunks that share a byte
with it. -/
theorem validateGranuleChunkSpan_iff (hlayout : Layout entries size) {granule : SearchGranule} :
    validateGranuleChunkSpan granule entries size = .ok ⟨⟩ ↔
      0 < granule.byteLength ∧ granule.logicalOffset + granule.byteLength ≤ size ∧
        ∀ index, granule.chunkStart ≤ index ∧ index < granule.chunkEnd ↔
          ∃ entry, entries[index]? = some entry ∧ Intersects granule entry := by
  constructor
  · intro h
    obtain ⟨hpos, hsize, hspan⟩ := VerificationPlan.validateGranuleChunkSpan_eq_ok h
    rw [chunkSpanForRange_eq hlayout (by omega) hsize] at hspan
    obtain ⟨hstart, hend⟩ := Prod.mk.injEq .. ▸ Except.ok.inj hspan
    refine ⟨hpos, hsize, fun index => ?_⟩
    rw [intersects_iff hlayout hpos hsize, ← hstart, ← hend, Nat.lt_succ_iff]
  · rintro ⟨hpos, hsize, hchunks⟩
    have hword := hlayout.size_lt
    have hcount := length_le_sum_chunkSizes fun entry hentry => hlayout.size_pos hentry
    have htotal := hlayout.total
    have hspan := chunkSpanForRange_eq hlayout
      (show granule.logicalOffset < granule.logicalOffset + granule.byteLength by omega) hsize
    have hordered := weightIndex_mono (chunkSizes entries)
      (show granule.logicalOffset ≤ granule.logicalOffset + granule.byteLength - 1 by omega)
    have hinside := (weightIndex_spec
      (show granule.logicalOffset + granule.byteLength - 1 < (chunkSizes entries).sum by
        omega)).1
    rw [length_chunkSizes] at hinside
    -- Two intervals with the same members, one of them not empty, have the same ends.
    have hmembers := fun index => (hchunks index).trans (intersects_iff hlayout hpos hsize index)
    generalize weightIndex (chunkSizes entries) granule.logicalOffset = first at *
    generalize weightIndex (chunkSizes entries)
      (granule.logicalOffset + granule.byteLength - 1) = last at *
    have hfirst := (hmembers first).mpr ⟨Nat.le_refl _, hordered⟩
    have hlast := (hmembers last).mpr ⟨hordered, Nat.le_refl _⟩
    have hstart := (hmembers granule.chunkStart).mp ⟨Nat.le_refl _, by omega⟩
    have hend := (hmembers (granule.chunkEnd - 1)).mp ⟨by omega, by omega⟩
    have hsame : (first, last + 1) = (granule.chunkStart, granule.chunkEnd) := by
      rw [Prod.mk.injEq]
      omega
    rw [validateGranuleChunkSpan, usizeToU64_of_lt (by omega), ok_bind, rejectIf_of_not (by omega),
      ok_bind, checkedAdd_of_lt (by omega), okOr_some, ok_bind, rejectIf_of_not (by omega), ok_bind,
      hspan, ok_bind, rejectIf_of_not (not_not_intro hsame)]

end Granules

/-! ## Terms and postings -/

section Postings

variable {env : Env} {bytes : List UInt8} {terms : List TermDictionaryEntry}
  {postings : List (List Nat)} {encoding : TermEncoding} {granuleCount postingOffset : Nat}

theorem postingExtent_cons (term : TermDictionaryEntry) (terms : List TermDictionaryEntry) :
    postingExtent (term :: terms) = term.postingSize + postingExtent terms := by
  rw [postingExtent, List.map_cons, List.sum_cons]
  rfl

/-- What the loop over the terms has checked. -/
theorem validateFileTerms_eq_ok {skipOffset stop : Nat}
    (h : validateFileTerms env encoding granuleCount terms postingOffset skipOffset = .ok stop) :
    (∀ term ∈ terms, term.key ≠ []) ∧
      (∀ (position : Nat) (term : TermDictionaryEntry), terms[position]? = some term →
        term.postingOffset = postingOffset + postingExtent (terms.take position)) ∧
      stop = postingOffset + postingExtent terms := by
  induction terms generalizing postingOffset skipOffset with
  | nil =>
    obtain rfl := Except.ok.inj h
    refine ⟨fun term hterm => absurd hterm List.not_mem_nil, fun position term hget => ?_, rfl⟩
    rw [List.getElem?_nil] at hget
    cases hget
  | cons term terms ih =>
    simp only [validateFileTerms, bind_eq_ok_iff, rejectIf_eq_ok_iff, okOr_eq_ok_iff,
      checkedAdd_eq_some_iff, not_or, ne_eq, not_not] at h
    obtain ⟨_, ⟨hkey, -⟩, _, -, _, -, _, ⟨hoffset, -⟩, _, ⟨-, rfl⟩, _, ⟨-, rfl⟩, hrest⟩ := h
    obtain ⟨hkeys, hplaces, hstop⟩ := ih hrest
    refine ⟨List.forall_mem_cons.mpr ⟨hkey, hkeys⟩, fun position other hother => ?_, ?_⟩
    · cases position with
      | zero =>
        obtain rfl := Option.some.inj hother
        rw [hoffset]
        rfl
      | succ position =>
        rw [hplaces position other hother, List.take_succ_cons, postingExtent_cons, Nat.add_assoc]
    · rw [hstop, postingExtent_cons, Nat.add_assoc]

/-- The lists are decoded from the places of their terms. -/
theorem decodePostingLoop_eq_ok {maxPostingListSize remainingIds : Nat}
    (hplaces : ∀ (position : Nat) (term : TermDictionaryEntry), terms[position]? = some term →
      term.postingOffset = postingOffset + postingExtent (terms.take position))
    (hinside : postingOffset ≤ bytes.length)
    (h : decodePostingLoop bytes maxPostingListSize terms remainingIds = .ok postings) :
    StandsAt bytes postingOffset (postings.map postingBytes).flatten ∧
      terms.map TermDictionaryEntry.postingSize =
        postings.map (fun list => (postingBytes list).length) ∧
      (∀ list ∈ postings, IncreasesFrom none list) ∧
      (postings.map List.length).sum ≤ remainingIds := by
  induction terms generalizing postingOffset remainingIds postings with
  | nil =>
    obtain rfl := Except.ok.inj h
    exact ⟨standsAt_nil hinside, rfl, fun _ hlist => absurd hlist List.not_mem_nil, Nat.zero_le _⟩
  | cons term terms ih =>
    simp only [decodePostingLoop, bind_eq_ok_iff, u64ToUsize_eq_ok_iff, usizeToU64_eq_ok_iff,
      okOr_eq_ok_iff, checkedAdd_eq_some_iff, checkedSub_eq_some_iff, pure_eq_ok,
      Except.ok.injEq] at h
    obtain ⟨_, -, _, ⟨-, rfl⟩, _, ⟨-, rfl⟩, _, ⟨-, rfl⟩, encoded, hrange, list, hdecode, _, ⟨-, rfl⟩,
      _, ⟨hroom, rfl⟩, lists, hrest, rfl⟩ := h
    obtain ⟨hstands, hlength⟩ := standsAt_of_getRange hrange
    obtain ⟨hincreases, hencoded⟩ :=
      deltaBytes_of_decodeDeltas (by rintro p ⟨⟩) (Nat.le_refl _) hdecode
    have hwritten : encoded = postingBytes list := hencoded
    have hfirst : term.postingOffset = postingOffset := hplaces 0 term rfl
    have hsize : term.postingSize = (postingBytes list).length := by
      rw [← hwritten]
      exact Nat.add_left_cancel hlength
    rw [hfirst, hwritten] at hstands
    have hlater : ∀ (position : Nat) (other : TermDictionaryEntry),
        terms[position]? = some other → other.postingOffset =
          postingOffset + (postingBytes list).length + postingExtent (terms.take position) := by
      intro position other hother
      have hplace := hplaces (position + 1) other hother
      rwa [List.take_succ_cons, postingExtent_cons, hsize, ← Nat.add_assoc] at hplace
    obtain ⟨hlistsAt, hsizes, hall, hids⟩ := ih hlater hstands.inside hrest
    refine ⟨hstands.append hlistsAt, ?_, List.forall_mem_cons.mpr ⟨hincreases, hall⟩, ?_⟩
    · rw [List.map_cons, List.map_cons, hsize, hsizes]
    · rw [List.map_cons, List.sum_cons]
      omega

/-- Terms with the same keys, counts and sizes, one extent behind the other, have one record. -/
theorem map_storedRecord_eq {other : List TermDictionaryEntry}
    (hkeys : terms.map TermDictionaryEntry.key = other.map TermDictionaryEntry.key)
    (hcounts : terms.map TermDictionaryEntry.granuleFrequency =
      other.map TermDictionaryEntry.granuleFrequency)
    (hsizes : terms.map TermDictionaryEntry.postingSize = other.map TermDictionaryEntry.postingSize)
    (hplaces : ∀ (position : Nat) (term : TermDictionaryEntry), terms[position]? = some term →
      term.postingOffset = postingOffset + postingExtent (terms.take position))
    (hothers : ∀ (position : Nat) (term : TermDictionaryEntry), other[position]? = some term →
      term.postingOffset = postingOffset + postingExtent (other.take position)) :
    terms.map storedRecord = other.map storedRecord := by
  induction terms generalizing other postingOffset with
  | nil =>
    obtain rfl := List.map_eq_nil_iff.mp hkeys.symm
    rfl
  | cons term terms ih =>
    cases other with
    | nil => cases hkeys
    | cons first other =>
      simp only [List.map_cons, List.cons.injEq] at hkeys hcounts hsizes
      have hfirst : term.postingOffset = first.postingOffset :=
        (hplaces 0 term rfl).trans (hothers 0 first rfl).symm
      have hlater : ∀ (position : Nat) (found : TermDictionaryEntry),
          terms[position]? = some found → found.postingOffset =
            postingOffset + term.postingSize + postingExtent (terms.take position) := by
        intro position found hfound
        have hplace := hplaces (position + 1) found hfound
        rwa [List.take_succ_cons, postingExtent_cons, ← Nat.add_assoc] at hplace
      have hrest := ih hkeys.2 hcounts.2 hsizes.2 hlater (by
        intro position found hfound
        have hplace := hothers (position + 1) found hfound
        rwa [List.take_succ_cons, postingExtent_cons, ← hsizes.1, ← Nat.add_assoc] at hplace)
      rw [List.map_cons, List.map_cons, hrest, storedRecord, storedRecord, hkeys.1, hcounts.1,
        hsizes.1, hfirst]

/-- What the encoder of an index writes into the terms. -/
theorem encodePostingLoop_writes {withSkips : Bool} {skipOffset : Nat}
    {encoded : EncodedPostingLists} (hlength : terms.length = postings.length)
    (hlists : ∀ list ∈ postings, IncreasesFrom none list)
    (h : encodePostingLoop withSkips terms postings postingOffset skipOffset = .ok encoded) :
    WrittenTerms terms postings encoded.terms ∧
      ∀ (position : Nat) (term : TermDictionaryEntry), encoded.terms[position]? = some term →
        term.postingOffset = postingOffset + postingExtent (encoded.terms.take position) := by
  induction terms generalizing postings postingOffset skipOffset encoded with
  | nil =>
    obtain rfl := List.length_eq_zero_iff.mp hlength.symm
    obtain rfl := Except.ok.inj h
    refine ⟨⟨rfl, rfl, rfl⟩, fun position term hget => ?_⟩
    dsimp only at hget
    rw [List.getElem?_nil] at hget
    cases hget
  | cons term terms ih =>
    cases postings with
    | nil => cases hlength
    | cons list lists =>
      obtain ⟨hlist, hlater⟩ := List.forall_mem_cons.mp hlists
      have hencode : encodeDeltaVarintU64 list = .ok (postingBytes list) := encodeDeltas_eq hlist
      rw [encodePostingLoop, hencode, ok_bind] at h
      -- Whatever the skip points are, the term gets the extent of its list.
      have hround : ∃ skips skipSize next rest, encodePostingLoop withSkips terms lists
          (postingOffset + (postingBytes list).length) next = .ok rest ∧
          encoded = { terms := { term with
                        documentFrequency := 0, granuleFrequency := list.length, postingOffset,
                        postingSize := (postingBytes list).length, skipOffset,
                        skipSize := skipSize } :: rest.terms
                      postings := postingBytes list :: rest.postings
                      skips := skips } := by
        cases withSkips with
        | false =>
          simp only [Bool.false_eq_true, if_false, bind_eq_ok_iff, pure_eq_ok, Except.ok.injEq,
            usizeToU64_eq_ok_iff, okOr_eq_ok_iff, checkedAdd_eq_some_iff] at h
          obtain ⟨_, -, _, ⟨-, rfl⟩, _, ⟨-, rfl⟩, _, -, skipSize, -, _, ⟨-, rfl⟩, next, -, rest,
            hrest, rfl⟩ := h
          exact ⟨_, skipSize, next, rest, hrest, rfl⟩
        | true =>
          simp only [if_true, bind_eq_ok_iff, pure_eq_ok, Except.ok.injEq,
            usizeToU64_eq_ok_iff, okOr_eq_ok_iff, checkedAdd_eq_some_iff] at h
          obtain ⟨_, -, _, ⟨-, rfl⟩, _, ⟨-, rfl⟩, _, -, skipSize, -, _, ⟨-, rfl⟩, next, -, rest,
            hrest, rfl⟩ := h
          exact ⟨_, skipSize, next, rest, hrest, rfl⟩
      obtain ⟨skips, skipSize, next, rest, hrest, rfl⟩ := hround
      obtain ⟨hwritten, hplaces⟩ := ih (Nat.succ.inj hlength) hlater hrest
      refine ⟨⟨congrArg (term.key :: ·) hwritten.keys,
        congrArg (list.length :: ·) hwritten.granuleFrequency,
        congrArg ((postingBytes list).length :: ·) hwritten.postingSize⟩, ?_⟩
      intro position other hother
      cases position with
      | zero =>
        obtain rfl := Option.some.inj hother
        rfl
      | succ position =>
        rw [hplaces position other hother, List.take_succ_cons, postingExtent_cons, Nat.add_assoc]

end Postings

/-! ## The restored index -/

section Restored

variable {manifest : SidecarManifest} {granules : List SearchGranule}
  {terms : List TermDictionaryEntry} {postings : List (List Nat)} {limits : SidecarLimits}
  {index : SidecarSearchIndex}

/-- Both kinds of index keep the granules and the postings, and encode the terms anew. -/
theorem encodeParts_of_restoreIndex
    (h : restoreIndex manifest granules terms postings limits = .ok index) :
    ∃ withSkips encoded, encodeParts manifest.sourceSizeBytes granules terms postings
        limits.reconstructionLimits withSkips = .ok encoded ∧
      index.granules = granules ∧ index.postings = postings ∧ index.terms = encoded.terms := by
  unfold restoreIndex at h
  split at h
  · rw [RawTokenIndex.fromParts_eq] at h
    obtain ⟨restored, hparts, h⟩ := bind_eq_ok_iff.mp h
    obtain ⟨encoded, hencoded, hrestored⟩ := bind_eq_ok_iff.mp hparts
    cases hrestored
    cases h
    exact ⟨false, encoded, hencoded, rfl, rfl, rfl⟩
  · split at h
    · obtain ⟨n, -, h⟩ := bind_eq_ok_iff.mp h
      obtain ⟨restored, hparts, h⟩ := bind_eq_ok_iff.mp h
      have hn : n ≠ 0 := by
        rintro rfl
        cases hparts
      rw [RawNgramIndex.fromParts_eq _ _ _ _ _ hn] at hparts
      obtain ⟨encoded, hencoded, hrestored⟩ := bind_eq_ok_iff.mp hparts
      cases hrestored
      cases h
      exact ⟨true, encoded, hencoded, rfl, rfl, rfl⟩
    · cases h

end Restored

/-- The invariant of an opened sidecar: what its file, its index and the chunks of its container
have to do with each other. -/
structure QziSidecar.WellFormed (env : Env) (sidecar : QziSidecar) (sidecarBytes : List UInt8)
    (limits : SidecarLimits) (details : SkeletonDetails) (file : SidecarFile) : Prop where
  /-- The header, the manifest and the sections tile the file. -/
  tiles : sidecarBytes = file.bytes
  describes : file.Describes sidecar.manifest
  /-- The index holds what the sections decode to. -/
  granuleSection : decodeGranules file.granuleBytes sidecar.manifest.granuleEncoding limits =
    .ok sidecar.index.granules
  termSection : ∃ terms, decodeTerms env file.termBytes sidecar.manifest.termEncoding limits =
      .ok terms ∧ terms.map storedRecord = sidecar.index.terms.map storedRecord ∧
    decodePostingSection file.postingBytes terms limits = .ok sidecar.index.postings
  /-- The keys are not empty and increase. -/
  keys_ne : ∀ term ∈ sidecar.index.terms, term.key ≠ []
  keys_sorted : (sidecar.index.terms.map TermDictionaryEntry.key).Pairwise (· < ·)
  /-- The extents of the terms tile the postings, in the order of the terms. -/
  extents : ∀ (position : Nat) (term : TermDictionaryEntry),
    sidecar.index.terms[position]? = some term →
      term.postingOffset = postingExtent (sidecar.index.terms.take position)
  extent : postingExtent sidecar.index.terms = file.postingBytes.length
  lists : file.postingBytes = (sidecar.index.postings.map postingBytes).flatten
  /-- Every list increases, has the declared number of ids, and names granules. -/
  postings : sidecar.index.postings.length = sidecar.index.terms.length
  list : ∀ (position : Nat) (term : TermDictionaryEntry) (list : List Nat),
    sidecar.index.terms[position]? = some term → sidecar.index.postings[position]? = some list →
      list.Pairwise (· < ·) ∧ list.length = term.granuleFrequency ∧
        ∀ id ∈ list, id < sidecar.index.granules.length
  idTotal : (sidecar.index.postings.map List.length).sum ≤ limits.maxDecodedPostingIds
  /-- The granules are numbered and in order. -/
  granuleIds : ∀ (position : Nat) (granule : SearchGranule),
    sidecar.index.granules[position]? = some granule → granule.granuleId = position
  offsets : (sidecar.index.granules.map SearchGranule.logicalOffset).Pairwise (· ≤ ·)
  /-- Every granule is a range of the source with the chunks that share a byte with it. -/
  ranges : ∀ granule ∈ sidecar.index.granules, 0 < granule.byteLength ∧
    granule.logicalOffset + granule.byteLength ≤ details.summary.originalSize
  chunks : ∀ granule ∈ sidecar.index.granules, ∀ index,
    granule.chunkStart ≤ index ∧ index < granule.chunkEnd ↔
      ∃ entry, details.chunkEntries[index]? = some entry ∧ Intersects granule entry

section Opened

variable {env : Env} {bytes sidecarBytes : List UInt8} {limits : SidecarLimits}
  {details : SkeletonDetails} {sidecar : QziSidecar}

/-- What was read and restored is well formed. -/
theorem QziSidecar.wellFormed_of_sectionsRead {file : SidecarFile} {granules : List SearchGranule}
    {terms : List TermDictionaryEntry} {postings : List (List Nat)}
    (hlayout : Layout details.chunkEntries details.summary.originalSize)
    (htiles : sidecarBytes = file.bytes)
    (hread : SectionsRead env file sidecar.manifest details limits granules terms postings)
    (hrestore : restoreIndex sidecar.manifest granules terms postings limits = .ok sidecar.index) :
    sidecar.WellFormed env sidecarBytes limits details file := by
  obtain ⟨withSkips, encoded, hparts, hgranules, hpostings, hterms⟩ :=
    encodeParts_of_restoreIndex hrestore
  -- The checks of the reconstruction.
  obtain ⟨_, -, hparts⟩ := bind_eq_ok_iff.mp hparts
  obtain ⟨_, hvalid, hparts⟩ := bind_eq_ok_iff.mp hparts
  obtain ⟨_, hshape, hparts⟩ := bind_eq_ok_iff.mp hparts
  obtain ⟨_, -, hloop⟩ := bind_eq_ok_iff.mp hparts
  obtain ⟨hids, hoffsets⟩ := validateGranulesLoop_eq_ok hvalid
  simp only [validateTermDictionaryShape, bind_eq_ok_iff, rejectIf_eq_ok_iff, ne_eq,
    not_not] at hshape
  obtain ⟨_, hlength, _, hchain, -⟩ := hshape
  -- The checks on the dictionary and on the lists.
  obtain ⟨stop, hdictionary, htotal⟩ := bind_eq_ok_iff.mp hread.dictionary
  simp only [rejectIf_eq_ok_iff, not_or, ne_eq, not_not] at htotal
  obtain ⟨hkeys, hplaces, hstop⟩ := validateFileTerms_eq_ok hdictionary
  obtain ⟨_, -, hlists⟩ := bind_eq_ok_iff.mp hread.postingSection
  obtain ⟨_, -, hlists⟩ := bind_eq_ok_iff.mp hlists
  obtain ⟨hlistsAt, hsizes, hincreases, hidTotal⟩ :=
    decodePostingLoop_eq_ok hplaces (Nat.zero_le _) hlists
  have hdecoded := hread.decoded
  simp only [validateDecodedPostings, bind_eq_ok_iff, usizeToU64_eq_ok_iff, checkAll_eq_ok_iff,
    rejectIf_eq_ok_iff] at hdecoded
  obtain ⟨_, -, _, ⟨-, rfl⟩, hpairs⟩ := hdecoded
  -- The lists fill the section, so encoding them again gives the extents of the file.
  have hbytes : (postings.map postingBytes).flatten = file.postingBytes := by
    apply hlistsAt.eq_of_length
    rw [List.length_flatten, List.map_map, ← hread.describes.postings.2, ← htotal.2, hstop,
      Nat.zero_add, postingExtent, hsizes]
    rfl
  obtain ⟨hwritten, hextents⟩ := encodePostingLoop_writes hlength hincreases hloop
  have hpairs' : List.Forall₂ (fun (term : TermDictionaryEntry) (list : List Nat) =>
      term.granuleFrequency = list.length ∧ ∀ id ∈ list, id < granules.length) terms postings := by
    refine List.forall₂_iff_zip.mpr ⟨hlength, fun {term list} hmem => ?_⟩
    obtain ⟨_, ⟨-, rfl⟩, hpair⟩ := hpairs _ hmem
    rw [not_or, ne_eq, not_not] at hpair
    exact ⟨hpair.1, fun id hid => Nat.lt_of_not_le fun hle => hpair.2 ⟨id, hid, hle⟩⟩
  have hcounts : terms.map TermDictionaryEntry.granuleFrequency = postings.map List.length :=
    List.forall₂_eq_eq_eq ▸ List.forall₂_map_left_iff.mpr
      (List.forall₂_map_right_iff.mpr (hpairs'.imp fun _ _ hpair => hpair.1))
  have hrecords : terms.map storedRecord = encoded.terms.map storedRecord :=
    map_storedRecord_eq hwritten.keys.symm (hcounts.trans hwritten.granuleFrequency.symm)
      (hsizes.trans hwritten.postingSize.symm) hplaces hextents
  exact
    { tiles := htiles
      describes := hread.describes
      granuleSection := hgranules ▸ hread.granuleSection
      termSection := ⟨terms, hread.termSection, hterms ▸ hrecords,
        hpostings ▸ hread.postingSection⟩
      keys_ne := by
        intro term hterm
        have hmem := List.mem_map_of_mem (f := TermDictionaryEntry.key) hterm
        rw [hterms, hwritten.keys] at hmem
        obtain ⟨other, hother, hkey⟩ := List.mem_map.mp hmem
        rw [← hkey]
        exact hkeys other hother
      keys_sorted := by
        rw [hterms, hwritten.keys]
        exact hchain.pairwise
      extents := by
        rw [hterms]
        intro position term hterm
        rw [hextents position term hterm, Nat.zero_add]
      extent := by
        rw [hterms, postingExtent, hwritten.postingSize, ← hbytes, List.length_flatten,
          List.map_map]
        rfl
      lists := by rw [hpostings, hbytes]
      postings := by
        have hcount := congrArg List.length hwritten.granuleFrequency
        rw [List.length_map, List.length_map] at hcount
        rw [hpostings, hterms, hcount]
      list := by
        rw [hterms, hpostings, hgranules]
        intro position term list hterm hlist
        have hcount := congrArg (fun counts => counts[position]?) hwritten.granuleFrequency
        simp only [List.getElem?_map, hterm, hlist, Option.map_some, Option.some.injEq] at hcount
        -- The list was decoded for the term at the same position of the file.
        have hlt := (List.getElem?_eq_some_iff.mp hlist).1
        have hother := List.getElem?_eq_getElem (show position < terms.length by rwa [hlength])
        have hzip : (terms.zip postings)[position]? = some (terms[position], list) :=
          List.getElem?_zip_eq_some.mpr ⟨hother, hlist⟩
        have hids := ((List.forall₂_iff_zip.mp hpairs').2 (List.mem_of_getElem? hzip)).2
        exact ⟨(hincreases list (List.mem_of_getElem? hlist)).1, hcount.symm, hids⟩
      idTotal := by rwa [hpostings]
      granuleIds := by
        rw [hgranules]
        intro position granule hgranule
        rw [hids position granule hgranule, Nat.zero_add]
      offsets := by rwa [hgranules]
      ranges := by
        rw [hgranules]
        intro granule hgranule
        obtain ⟨hpos, hsize, -⟩ :=
          (validateGranuleChunkSpan_iff hlayout).mp (hread.spans granule hgranule)
        exact ⟨hpos, hsize⟩
      chunks := by
        rw [hgranules]
        intro granule hgranule
        exact ((validateGranuleChunkSpan_iff hlayout).mp (hread.spans granule hgranule)).2.2 }

/-! ## Searches -/

/-- A well-formed index is one that a search can rely on. -/
theorem QziSidecar.WellFormed.searchable {file : SidecarFile}
    (h : sidecar.WellFormed env sidecarBytes limits details file)
    (hlayout : Layout details.chunkEntries details.summary.originalSize) :
    Searchable details.chunkEntries details.summary.originalSize sidecar.index.granules
      sidecar.index.postings := by
  have hlist : ∀ list ∈ sidecar.index.postings, list.Pairwise (· < ·) ∧
      ∀ id ∈ list, id < sidecar.index.granules.length := by
    intro list hmem
    obtain ⟨position, hlist⟩ := List.mem_iff_getElem?.mp hmem
    have hlt := (List.getElem?_eq_some_iff.mp hlist).1
    rw [h.postings] at hlt
    obtain ⟨hsorted, -, hids⟩ := h.list position _ list (List.getElem?_eq_getElem hlt) hlist
    exact ⟨hsorted, hids⟩
  have hencoded := (decodeGranules_iff.mp h.granuleSection).1.2
  obtain ⟨count, hcount, -⟩ := bind_eq_ok_iff.mp hencoded
  exact
    { increasing := fun list hmem => (hlist list hmem).1
      ids := fun list hmem => (hlist list hmem).2
      count := (usizeToU64_eq_ok_iff.mp hcount).1
      spans := by
        intro granule hgranule
        obtain ⟨hpos, hsize⟩ := h.ranges granule hgranule
        exact (validateGranuleChunkSpan_iff hlayout).mpr ⟨hpos, hsize, h.chunks granule hgranule⟩ }

variable {readerLimits : ResourceLimits} {reader : QztReader}

/-- A reader whose chunks all decode reads its text. -/
theorem decodesText_of_open
    (hopen : QztReader.openWithLimits env bytes readerLimits = .ok reader)
    (hdecodes : ∀ entry ∈ reader.details.chunkEntries, ∃ part,
      reader.decodeEntry env entry = .ok part) :
    DecodesText reader.details (reader.originalText env) (reader.readRangeCached env) := by
  obtain ⟨found, hdetails, hreader⟩ := bind_eq_ok_iff.mp hopen
  obtain rfl := Except.ok.inj hreader
  obtain ⟨parts, hfollows, -⟩ := SkeletonParts.follows_of_open hdetails
  have hcuts := cutsInto_of_open (servedInMemory bytes hfollows.word) hdetails
  rw [FaithfulSource.decodeEntry_eq] at hcuts
  refine ⟨?_, _, hcuts, fun _ _ _ => rfl, hdecodes⟩
  exact hcuts.layout.total.symm.trans
    (openSkeletonDetailsWithLimits_opened hdetails).layout.total

/-- A reader over the container that a sidecar was opened for is bound to the sidecar. -/
theorem validateReaderBinding_of_open {checksum : Checksum}
    (hopen : QztReader.openWithLimits env bytes readerLimits = .ok reader)
    (hsame : SameDetails details reader.details)
    (hchecksum : qztFooterChecksum env bytes details.footerPayloadOffset = .ok checksum)
    (hsource : checkSource sidecar.manifest details = .ok ⟨⟩)
    (hfooter : checkSourceFooter sidecar.manifest details checksum = .ok ⟨⟩) :
    reader.footerChecksum env = .ok checksum ∧
      validateReaderBinding sidecar.manifest reader.details checksum = .ok ⟨⟩ := by
  have hbytes : reader.bytes = bytes := by
    obtain ⟨found, -, hreader⟩ := bind_eq_ok_iff.mp hopen
    obtain rfl := Except.ok.inj hreader
    rfl
  simp only [checkSource, checkSourceFooter, bind_eq_ok_iff, rejectIf_eq_ok_iff, ne_eq,
    not_not] at hsource hfooter
  obtain ⟨_, hcontainer, horiginal⟩ := hsource
  obtain ⟨_, hstated, hsize⟩ := hfooter
  constructor
  · simp only [qztFooterChecksum, bind_eq_ok_iff, okOr_eq_ok_iff, pure_eq_ok,
      Except.ok.injEq] at hchecksum
    obtain ⟨start, hstart, stop, hstop, footer, hfooter, rfl⟩ := hchecksum
    rw [QztReader.footerChecksum, hbytes, hstop, okOr_some, ok_bind, ← hsame.footerPayloadOffset,
      hstart, ok_bind, hfooter, okOr_some, ok_bind]
    rfl
  · rw [validateReaderBinding, ← hsame.summary, ← hsame.metadata,
      rejectIf_of_not (not_not_intro hcontainer), ok_bind]
    apply rejectIf_of_not
    rintro (hbad | hbad | hbad)
    · exact hbad horiginal
    · exact hbad hstated
    · exact hbad hsize

end Opened

/-- Opening a sidecar establishes its invariant.  For every container, all bytes and all limits
that `open_with_limits` takes, the file, the index and the chunks of the container are well formed
together; and no search by a reader of the container, opened under any limits, whose chunks all
decode ends with an error about the shape of the index. -/
theorem QziSidecar.openWithLimits_wellFormed {env : Env} {bytes sidecarBytes : List UInt8}
    {limits : SidecarLimits} {sidecar : QziSidecar}
    (h : QziSidecar.openWithLimits env bytes sidecarBytes limits = .ok sidecar) :
    ∃ details file, openSkeletonDetails env bytes = .ok details ∧
      sidecar.WellFormed env sidecarBytes limits details file ∧
      ∀ readerLimits reader, QztReader.openWithLimits env bytes readerLimits = .ok reader →
        (∀ entry ∈ reader.details.chunkEntries, ∃ part, reader.decodeEntry env entry = .ok part) →
        ∀ query options e, sidecar.search env reader query options = .error e →
          e ≠ .containerCorrupt ∧ e ≠ .chunkTableInvalid := by
  obtain ⟨parts, htiles, hfollows⟩ := OpenedParts.follows_of_open h
  have hlayout := (openSkeletonDetailsWithLimits_opened hfollows.details).layout
  have hformed :=
    QziSidecar.wellFormed_of_sectionsRead hlayout htiles hfollows.sections hfollows.index
  refine ⟨parts.details, parts.file, hfollows.details, hformed, ?_⟩
  intro readerLimits reader hopen hdecodes query options e hsearch
  have hreaderDetails : openSkeletonDetailsWithLimits env bytes readerLimits =
      .ok reader.details := by
    obtain ⟨found, hfound, hreader⟩ := bind_eq_ok_iff.mp hopen
    obtain rfl := Except.ok.inj hreader
    exact hfound
  have hsame := sameDetails_of_open hfollows.details hreaderDetails
  have hsearchable := hformed.searchable hlayout
  rw [hsame.chunkEntries, hsame.summary] at hsearchable
  have htext := decodesText_of_open hopen hdecodes
  obtain ⟨hreaderChecksum, hbinding⟩ :=
    validateReaderBinding_of_open hopen hsame hfollows.footerChecksum hfollows.source
      hfollows.sourceFooter
  have hfails : FailsOnlyWith .resourceLimitExceeded
      (sidecar.search env reader query options) := by
    rw [QziSidecar.search, hreaderChecksum, ok_bind, hbinding, ok_bind]
    cases hindex : sidecar.index with
    | token index =>
      rw [hindex] at hsearchable
      exact RawTokenIndex.failsOnlyWith_searchImpl hsearchable htext
    | ngram index =>
      rw [hindex] at hsearchable
      exact RawNgramIndex.failsOnlyWith_searchImpl hsearchable htext
  rw [hfails e hsearch]
  exact ⟨by decide, by decide⟩

/-! ## Three lines -/

/-- A search without room for a term, in the token sidecar of a container: whether all chunks
decode, and the error. -/
def starvedSearch (container : List UInt8) : Result (Bool × Option QztError) := do
  let sidecarBytes ← tokenSidecar container
  let sidecar ← QziSidecar.openWithLimits Reference.env container sidecarBytes .default
  let reader ← QztReader.openWithLimits Reference.env container .default
  return (reader.details.chunkEntries.all fun entry => (reader.decodeEntry Reference.env entry).isOk,
    failureOf (sidecar.search Reference.env reader "alpha" { maxQueryTerms := 0 }))

set_option maxRecDepth 100000 in
theorem starvedSearch_staleContainer :
    starvedSearch staleContainer = .ok (true, some .resourceLimitExceeded) := by
  decide +kernel

/-- A sidecar of three lines, and a search in it that fails. -/
theorem openWithLimits_wellFormed_staleContainer : ∃ sidecarBytes sidecar reader details file e,
    QziSidecar.openWithLimits Reference.env staleContainer sidecarBytes .default = .ok sidecar ∧
    QztReader.openWithLimits Reference.env staleContainer .default = .ok reader ∧
    sidecar.WellFormed Reference.env sidecarBytes .default details file ∧
    sidecar.search Reference.env reader "alpha" { maxQueryTerms := 0 } = .error e ∧
    e ≠ .containerCorrupt ∧ e ≠ .chunkTableInvalid := by
  have hrun := starvedSearch_staleContainer
  unfold starvedSearch at hrun
  obtain ⟨sidecarBytes, -, hrun⟩ := bind_eq_ok_iff.mp hrun
  obtain ⟨sidecar, hsidecar, hrun⟩ := bind_eq_ok_iff.mp hrun
  obtain ⟨reader, hreader, hrun⟩ := bind_eq_ok_iff.mp hrun
  rw [pure_eq_ok, Except.ok.injEq, Prod.mk.injEq, List.all_eq_true] at hrun
  obtain ⟨hdecodes, hfailure⟩ := hrun
  have hall : ∀ entry ∈ reader.details.chunkEntries, ∃ part,
      reader.decodeEntry Reference.env entry = .ok part := by
    intro entry hentry
    have hok := hdecodes entry hentry
    cases hpart : reader.decodeEntry Reference.env entry with
    | ok part => exact ⟨part, rfl⟩
    | error e =>
      rw [hpart] at hok
      cases hok
  have hsearch := failureOf_eq_some hfailure
  obtain ⟨details, file, -, hformed, hsearches⟩ :=
    QziSidecar.openWithLimits_wellFormed hsidecar
  exact ⟨sidecarBytes, sidecar, reader, details, file, _, hsidecar, hreader, hformed, hsearch,
    hsearches .default reader hreader hall _ _ _ hsearch⟩

end Qzt.Sidecar
