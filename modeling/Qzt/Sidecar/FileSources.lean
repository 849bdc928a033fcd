import Qzt.Reader.FileSource
import Qzt.Sidecar.Pipeline

/-!
# Searches over files

The file-backed search reads two files, and both may return less than they are asked for and may
fail.  A report that it returns is the report over the bytes of the two files.
-/

namespace Qzt

open Foundation

/-! ## Verification -/

/-- Whatever a read returns, the other returns too. -/
def RangeRead.Within (read other : RangeRead) : Prop :=
  ∀ offset length cache, Admits (read offset length cache) (other offset length cache)

namespace VerificationPlan

variable {plan : VerificationPlan} {read other : RangeRead} (h : read.Within other)
include h

theorem admits_probeRight (granuleEnd : Nat) (state : CandidateVerification) :
    Admits ({ plan with readRangeCached := read }.probeRight granuleEnd state)
      ({ plan with readRangeCached := other }.probeRight granuleEnd state) := by
  apply admits_bind_right
  intro nextDecoded _
  dsimp only
  split
  · exact admits_refl _
  · iterate 3
      apply admits_bind_right
      intro _ _
    rename_i limit _
    cases limit with
    | some reason => exact admits_refl _
    | none => exact admits_bind (h _ _ _) fun _ _ => admits_refl _

theorem admits_matchGranule (granule : SearchGranule) (granuleEnd readStart : Nat)
    (decoded : List UInt8) (state : CandidateVerification) :
    Admits ({ plan with readRangeCached := read }.matchGranule granule granuleEnd readStart decoded
        state)
      ({ plan with readRangeCached := other }.matchGranule granule granuleEnd readStart decoded
        state) := by
  iterate 2
    apply admits_bind_right
    intro _ _
  rename_i original _
  have hcontinues : Admits
      ({ plan with readRangeCached := read }.continuesRight original granuleEnd state)
      ({ plan with readRangeCached := other }.continuesRight original granuleEnd state) := by
    rw [continuesRight, continuesRight]
    dsimp only
    split
    · exact admits_probeRight h _ _
    · exact admits_refl _
  have hpush : ∀ spans state, { plan with readRangeCached := read }.pushHits granule spans state =
      { plan with readRangeCached := other }.pushHits granule spans state := by
    intro spans
    induction spans with
    | nil => exact fun _ => rfl
    | cons span spans ih =>
      intro state
      rw [pushHits, pushHits]
      simp only [ih]
  apply admits_bind hcontinues
  rintro ⟨rightContinues, state⟩ _
  dsimp only
  split
  · exact admits_refl _
  · apply admits_bind_right
    intro count _
    rw [hpush]
    exact admits_refl _

theorem admits_verifyCandidate (granuleId : Nat) (state : CandidateVerification) :
    Admits ({ plan with readRangeCached := read }.verifyCandidate granuleId state)
      ({ plan with readRangeCached := other }.verifyCandidate granuleId state) := by
  iterate 4
    apply admits_bind_right
    intro _ _
  dsimp only
  split
  · exact admits_refl _
  · iterate 2
      apply admits_bind_right
      intro _ _
    rename_i limit _
    cases limit with
    | some reason => exact admits_refl _
    | none =>
      apply admits_bind (h _ _ _)
      rintro ⟨decoded, cache⟩ _
      exact admits_matchGranule h _ _ _ _ _

theorem admits_verifyLoop (candidates : List Nat) (state : CandidateVerification) :
    Admits ({ plan with readRangeCached := read }.verifyLoop candidates state)
      ({ plan with readRangeCached := other }.verifyLoop candidates state) := by
  induction candidates generalizing state with
  | nil => exact admits_refl _
  | cons granuleId candidates ih =>
    apply admits_bind (admits_verifyCandidate h granuleId state)
    intro state _
    split
    · exact admits_refl _
    · exact ih state

end VerificationPlan

end Qzt

namespace Qzt.Sidecar

open Foundation

/-! ## Opening -/

section Opening

variable {env : Env} {source other : ReadAt} (h : source.Within other)
include h

theorem admits_readVec (offset size : Nat) :
    Admits (readVec source offset size) (readVec other offset size) := by
  apply admits_bind_right
  intro len _
  exact admits_readExactAtQzt h _ _

theorem admits_readManifestAt (len : Nat) (limits : SidecarLimits) :
    Admits (readManifestAt source len limits) (readManifestAt other len limits) := by
  apply admits_bind_right
  intro _ _
  apply admits_bind (admits_readExactAtQzt h _ _)
  intro header _
  iterate 5
    apply admits_bind_right
    intro _ _
  apply admits_bind (admits_readVec h _ _)
  intro manifestBytes _
  exact admits_refl _

theorem admits_verifySectionChecksum (len sectionBase : Nat) (sectionRef : SectionRef) :
    Admits (verifySectionChecksum env source len sectionBase sectionRef)
      (verifySectionChecksum env other len sectionBase sectionRef) := by
  iterate 3
    apply admits_bind_right
    intro _ _
  rename_i start _ _ _ _ _
  intro u hchecked
  cases hhash : hashReadAtRange env source start sectionRef.size with
  | error kind =>
    rw [hhash] at hchecked
    cases hchecked
  | ok hasher =>
    rw [hhash] at hchecked
    rw [hashReadAtRange, admits_hashReadAtLoop h _ _ _ _ hasher hhash]
    exact hchecked

theorem admits_openSectionsAt (len : Nat) (manifest : SidecarManifest) (sectionBase : Nat)
    (limits : SidecarLimits) :
    Admits (openSectionsAt env source len manifest sectionBase limits)
      (openSectionsAt env other len manifest sectionBase limits) := by
  have hcount : Admits (readGranuleCount source manifest sectionBase limits)
      (readGranuleCount other manifest sectionBase limits) := by
    iterate 2
      apply admits_bind_right
      intro _ _
    apply admits_bind (admits_readVec h _ _)
    intro countBytes _
    exact admits_refl _
  apply admits_bind_right
  intro _ _
  apply admits_bind (admits_checkAll fun sectionRef _ => admits_verifySectionChecksum h _ _ _)
  intro _ _
  apply admits_bind hcount
  intro granuleCount _
  apply admits_bind_right
  intro termsOffset _
  apply admits_bind (admits_readVec h _ _)
  intro termBytes _
  exact admits_refl _

end Opening

/-- A sidecar that opens over sources within others opens over the others, and is the same but for
its source. -/
theorem openReadAtWithLimits_within {env : Env} {source other containerSource containerOther : ReadAt}
    (h : source.Within other) (hcontainer : containerSource.Within containerOther)
    {len containerLen : Nat} {details : SkeletonDetails} {limits : SidecarLimits}
    {sidecar : QziFileSidecar}
    (hopen : QziFileSidecar.openReadAtWithLimits env source len
      ⟨containerSource, containerLen, details⟩ limits = .ok sidecar) :
    sidecar.source = source ∧
      QziFileSidecar.openReadAtWithLimits env other len ⟨containerOther, containerLen, details⟩
        limits = .ok { sidecar with source := other } := by
  obtain ⟨⟨manifest, manifestEnd⟩, hmanifest, hopen⟩ := bind_eq_ok_iff.mp hopen
  obtain ⟨_, hresources, hopen⟩ := bind_eq_ok_iff.mp hopen
  obtain ⟨_, hsource, hopen⟩ := bind_eq_ok_iff.mp hopen
  obtain ⟨checksum, hchecksum, hopen⟩ := bind_eq_ok_iff.mp hopen
  obtain ⟨_, hfooter, hopen⟩ := bind_eq_ok_iff.mp hopen
  obtain ⟨_, htype, hopen⟩ := bind_eq_ok_iff.mp hopen
  obtain ⟨⟨granuleCount, terms⟩, hsections, hopen⟩ := bind_eq_ok_iff.mp hopen
  obtain rfl := Except.ok.inj hopen
  refine ⟨rfl, ?_⟩
  have hcalmChecksum : QztFileReader.footerChecksum env ⟨containerOther, containerLen, details⟩ =
      .ok checksum := by
    refine admits_bind_right ?_ checksum hchecksum
    intro stop _
    exact admits_hashPhysicalRange hcontainer _ _
  dsimp only at hresources hsource hfooter htype hsections
  rw [QziFileSidecar.openReadAtWithLimits, admits_readManifestAt h _ _ _ hmanifest, ok_bind]
  dsimp only
  rw [hresources, ok_bind, hsource, ok_bind, hcalmChecksum, ok_bind, hfooter, ok_bind, htype,
    ok_bind, admits_openSectionsAt h _ _ _ _ _ hsections]
  rfl

/-! ## Searching -/

namespace QziFileSidecar

variable {sidecar : QziFileSidecar} {other : ReadAt} (h : sidecar.source.Within other)
include h

theorem admits_fetchPostings_within (termIndex maxIds : Nat) :
    Admits (sidecar.fetchPostings termIndex maxIds)
      ({ sidecar with source := other }.fetchPostings termIndex maxIds) := by
  iterate 4
    apply admits_bind_right
    intro _ _
  apply admits_bind (admits_readVec h _ _)
  intro bytes _
  exact admits_refl _

theorem admits_fetchPostingLists_within (termIndexes : List Nat) (remainingIds : Nat) :
    Admits (sidecar.fetchPostingLists termIndexes remainingIds)
      ({ sidecar with source := other }.fetchPostingLists termIndexes remainingIds) := by
  induction termIndexes generalizing remainingIds with
  | nil => exact admits_refl _
  | cons termIndex termIndexes ih =>
    apply admits_bind_right
    intro _ _
    apply admits_bind (admits_fetchPostings_within h _ _)
    intro postings _
    apply admits_bind_right
    intro count _
    apply admits_bind_right
    intro remaining _
    apply admits_bind (ih remaining)
    intro lists _
    exact admits_refl _

theorem admits_queryPostings_within (postingBytesRead : Nat) (termIndexes : List Nat)
    (options : SearchOptions) :
    Admits (sidecar.queryPostings postingBytesRead termIndexes options)
      ({ sidecar with source := other }.queryPostings postingBytesRead termIndexes options) := by
  iterate 3
    apply admits_bind_right
    intro _ _
  exact admits_fetchPostingLists_within h _ _

theorem admits_fetchGranule_within (granuleId : Nat) (entries : List ChunkEntry) :
    Admits (sidecar.fetchGranule granuleId entries)
      ({ sidecar with source := other }.fetchGranule granuleId entries) := by
  iterate 5
    apply admits_bind_right
    intro _ _
  apply admits_bind (admits_readVec h _ _)
  intro bytes _
  exact admits_refl _

theorem admits_searchPostings_within {details : SkeletonDetails} {read otherRead : RangeRead}
    (hreads : read.Within otherRead) {postingLists : List (List Nat)} {spansFor : SpanMatcher}
    {tokenBoundaries : Bool} {metrics : SearchMetrics} {planner : PlannerDecision}
    {options : SearchOptions} :
    Admits
      (sidecar.searchPostings details read postingLists spansFor tokenBoundaries metrics planner
        options)
      ({ sidecar with source := other }.searchPostings details otherRead postingLists spansFor
        tokenBoundaries metrics planner options) := by
  iterate 2
    apply admits_bind_right
    intro _ _
  dsimp only
  split
  · exact admits_refl _
  · split
    · exact admits_refl _
    · apply admits_bind (admits_collect fun id _ => admits_fetchGranule_within h id _)
      intro granules _
      apply admits_bind_right
      intro candidateChunks _
      refine admits_bind ?_ fun verification _ => admits_refl _
      exact @VerificationPlan.admits_verifyLoop
        { entries := details.chunkEntries
          originalSize := details.summary.originalSize
          granuleAt := _
          readRangeCached := otherRead, spansFor, tokenBoundaries, options } _ _ hreads _ _

theorem admits_searchImpl_within {details : SkeletonDetails} {read otherRead : RangeRead}
    (hreads : read.Within otherRead) {query : String} {options : SearchOptions} :
    Admits (sidecar.searchImpl details query options read)
      ({ sidecar with source := other }.searchImpl details query options otherRead) := by
  iterate 2
    apply admits_bind_right
    intro _ _
  dsimp only
  split
  · exact admits_refl _
  · apply admits_bind_right
    intro found _
    split
    · exact admits_refl _
    · apply admits_bind (admits_queryPostings_within h _ _ _)
      intro lists _
      exact admits_searchPostings_within h hreads

end QziFileSidecar

/-- A search over two files.  However short the reads of the container and of the sidecar are, and
whichever of them fail, a report that the file-backed search returns is the report that it returns
over sources that read all they are asked for. -/
theorem fileSearch_undisturbed {env : Env} (container sidecarFile : PositionedFile)
    (schedule sidecarSchedule : Nat → Nat → Nat) {readerLimits : ResourceLimits}
    {limits : SidecarLimits} {fileReader : QztFileReader} {fileSidecar : QziFileSidecar}
    (hreader : QztFileReader.openReadAtWithLimits env (container.source schedule)
      container.bytes.length readerLimits = .ok fileReader)
    (hsidecar : QziFileSidecar.openReadAtWithLimits env (sidecarFile.source sidecarSchedule)
      sidecarFile.bytes.length fileReader limits = .ok fileSidecar) :
    ∃ calmReader calmSidecar,
      QztFileReader.openReadAtWithLimits env container.undisturbed.source container.bytes.length
        readerLimits = .ok calmReader ∧
      QziFileSidecar.openReadAtWithLimits env sidecarFile.undisturbed.source
        sidecarFile.bytes.length calmReader limits = .ok calmSidecar ∧
      ∀ query options, Admits (fileSidecar.search env fileReader query options)
        (calmSidecar.search env calmReader query options) := by
  have hcontainer := container.source_within schedule
  have hfile := sidecarFile.source_within sidecarSchedule
  obtain ⟨details, hdetails, hmade⟩ := bind_eq_ok_iff.mp hreader
  obtain rfl := Except.ok.inj hmade
  obtain ⟨hsource, hopened⟩ := openReadAtWithLimits_within hfile hcontainer hsidecar
  refine ⟨⟨container.undisturbed.source, container.bytes.length, details⟩,
    { fileSidecar with source := sidecarFile.undisturbed.source }, ?_, hopened, ?_⟩
  · rw [QztFileReader.openReadAtWithLimits,
      admits_openSkeletonDetailsReadAt hcontainer _ _ _ hdetails]
    rfl
  · intro query options
    rw [← hsource] at hfile
    have hchecksum : Admits (QztFileReader.footerChecksum env
        ⟨container.source schedule, container.bytes.length, details⟩)
        (QztFileReader.footerChecksum env
          ⟨container.undisturbed.source, container.bytes.length, details⟩) := by
      apply admits_bind_right
      intro stop _
      exact admits_hashPhysicalRange hcontainer _ _
    have hreads : RangeRead.Within (QztFileReader.readRangeCached env
        ⟨container.source schedule, container.bytes.length, details⟩)
        (QztFileReader.readRangeCached env
          ⟨container.undisturbed.source, container.bytes.length, details⟩) := by
      intro offset length cache
      exact admits_readRangeFromEntriesCached (decodeEntry_within hcontainer) _ _ _ _ _
    apply admits_bind hchecksum
    intro checksum _
    apply admits_bind_right
    intro _ _
    exact QziFileSidecar.admits_searchImpl_within hfile hreads

/-- Three lines and their token sidecar, read one byte at a time. -/
theorem fileSearch_undisturbed_staleContainer :
    ∃ (container sidecarFile : PositionedFile) (fileReader calmReader : QztFileReader)
      (fileSidecar calmSidecar : QziFileSidecar), container.bytes = staleContainer ∧
      QztFileReader.openReadAtWithLimits Reference.env (container.source fun _ _ => 0)
        container.bytes.length .default = .ok fileReader ∧
      QziFileSidecar.openReadAtWithLimits Reference.env (sidecarFile.source fun _ _ => 0)
        sidecarFile.bytes.length fileReader .default = .ok fileSidecar ∧
      Admits (fileSidecar.search Reference.env fileReader "BETA" {})
        (calmSidecar.search Reference.env calmReader "BETA" {}) := by
  obtain ⟨details, sidecarBytes, sidecar, hlt, hword, hdetails, -, hopen⟩ := staleContainer_rebuilt
  obtain ⟨parts, rfl, hfollows⟩ := OpenedParts.follows_of_open hopen
  obtain ⟨served, hsource, hlen⟩ := PositionedFile.trickle_served hlt fun _ _ => 0
  obtain ⟨sidecarServed, hsidecarSource, hsidecarLen⟩ :=
    PositionedFile.trickle_served hword fun _ _ => 0
  have hdefault : openSkeletonDetailsWithLimits Reference.env staleContainer .default =
      .ok details := hdetails
  have hreader : QztFileReader.openReadAtWithLimits Reference.env
      ((PositionedFile.trickle staleContainer hlt).source fun _ _ => 0) staleContainer.length
      .default = .ok (served.fileReader details) := by
    rw [← hsource, ← hlen, QztFileReader.openReadAtWithLimits, served.openSkeletonDetailsReadAt_eq,
      hdefault]
    rfl
  have hsidecar := hfollows.opensAt served (sameDetails_of_open hfollows.details hdefault)
    sidecarServed
  rw [hsidecarSource, hsidecarLen] at hsidecar
  obtain ⟨calmReader, calmSidecar, -, -, hsearch⟩ :=
    fileSearch_undisturbed (PositionedFile.trickle staleContainer hlt)
      (PositionedFile.trickle parts.file.bytes hword) (fun _ _ => 0) (fun _ _ => 0) hreader hsidecar
  exact ⟨_, _, _, calmReader, _, calmSidecar, rfl, hreader, hsidecar, hsearch "BETA" {}⟩

end Qzt.Sidecar
