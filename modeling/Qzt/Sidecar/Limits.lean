import Qzt.Container.FixedLaws
import Qzt.Reader.DenseStarts
import Qzt.Sidecar.Open

/-!
# Looser limits open no less, or nothing

Every limit is compared with a size or a count, and a looser limit admits what the tighter
one did.  The granule limit is also multiplied by the record length before it is compared:
when that product leaves 64 bits the sidecar is refused, whatever its size.
-/

namespace Qzt.Sidecar

open Foundation

/-- Every limit is at most the corresponding looser one. -/
structure SidecarLimits.AtMost (limits looser : SidecarLimits) : Prop where
  manifestSize : limits.maxManifestSize ≤ looser.maxManifestSize
  termsSize : limits.maxTermsSize ≤ looser.maxTermsSize
  termCount : limits.maxTermCount ≤ looser.maxTermCount
  granuleCount : limits.maxGranuleCount ≤ looser.maxGranuleCount
  postingsSize : limits.maxPostingsSize ≤ looser.maxPostingsSize
  postingListSize : limits.maxPostingListSize ≤ looser.maxPostingListSize
  postingBytesPerQuery : limits.maxPostingBytesPerQuery ≤ looser.maxPostingBytesPerQuery
  decodedPostingIds : limits.maxDecodedPostingIds ≤ looser.maxDecodedPostingIds

/-! ## Counters -/

theorem chargeBuild_admits {value amount limit looser : Nat} (h : limit ≤ looser) :
    Admits (chargeBuild value amount limit) (chargeBuild value amount looser) := by
  unfold chargeBuild
  refine admits_bind_right fun next _ => ?_
  refine admits_bind (admits_rejectIf fun hover => ?_) fun _ _ => admits_refl _
  exact Nat.lt_of_le_of_lt h hover

theorem chargeAll_admits {α : Type} {amount : α → Result Nat} {limit looser : Nat}
    (h : limit ≤ looser) (as : List α) (value : Nat) :
    Admits (chargeAll amount limit as value) (chargeAll amount looser as value) := by
  induction as generalizing value with
  | nil => exact admits_refl _
  | cons a as ih =>
    simp only [chargeAll]
    refine admits_bind_right fun n _ => ?_
    exact admits_bind (chargeBuild_admits h) fun value _ => ih value

/-- Posting lists decode alike while the count stays below both bounds. -/
theorem decodeDeltas_admits {maxValues looser : Nat} (h : maxValues ≤ looser) (fuel count : Nat)
    (previous : Option Nat) (bytes : List UInt8) :
    Admits (decodeDeltas maxValues fuel count previous bytes)
      (decodeDeltas looser fuel count previous bytes) := by
  induction fuel generalizing count previous bytes with
  | zero => exact admits_refl _
  | succ fuel ih =>
    simp only [decodeDeltas]
    split
    · exact admits_refl _
    · refine admits_bind_right fun count' _ => ?_
      refine admits_bind (admits_rejectIf fun hover => Nat.le_trans h hover) fun _ _ => ?_
      refine admits_bind_right fun pair _ => ?_
      refine admits_bind_right fun value _ => ?_
      exact admits_bind (ih _ _ _) fun _ _ => admits_refl _

/-- The identifiers that remain under the looser bound are never fewer. -/
theorem decodePostingLoop_admits {bytes : List UInt8} {maxSize looserSize : Nat}
    (hsize : maxSize ≤ looserSize) (terms : List TermDictionaryEntry) {remaining looser : Nat}
    (hremaining : remaining ≤ looser) :
    Admits (decodePostingLoop bytes maxSize terms remaining)
      (decodePostingLoop bytes looserSize terms looser) := by
  induction terms generalizing remaining looser with
  | nil => exact admits_refl _
  | cons term terms ih =>
    simp only [decodePostingLoop]
    refine admits_bind (admits_rejectIf fun hover => Nat.lt_of_le_of_lt hsize hover) fun _ _ => ?_
    refine admits_bind_right fun start _ => ?_
    refine admits_bind_right fun size _ => ?_
    refine admits_bind_right fun stop _ => ?_
    refine admits_bind_right fun encoded _ => ?_
    refine admits_bind (decodeDeltas_admits hremaining _ _ _ _) fun posting _ => ?_
    refine admits_bind_right fun length _ => ?_
    -- The budgets of the two runs differ from here on, so the step is taken apart.
    intro postings hrun
    obtain ⟨left, hleft, hafter⟩ := bind_eq_ok_iff.mp hrun
    obtain ⟨rest, hrest, hdone⟩ := bind_eq_ok_iff.mp hafter
    rw [okOr_eq_ok_iff, checkedSub_eq_some_iff] at hleft
    obtain ⟨hle, rfl⟩ := hleft
    have hle' : length ≤ looser := Nat.le_trans hle hremaining
    rw [checkedSub_of_le hle', okOr_some, ok_bind,
      ih (Nat.sub_le_sub_right hremaining length) rest hrest]
    exact hdone

/-! ## Sections -/

variable {env : Env} {limits looser : SidecarLimits}

theorem decodeGranules_admits (h : limits.AtMost looser) (bytes : List UInt8)
    (encoding : GranuleEncoding) :
    Admits (decodeGranules bytes encoding limits) (decodeGranules bytes encoding looser) := by
  unfold decodeGranules
  refine admits_bind_right fun pair _ => ?_
  refine admits_bind (admits_rejectIf fun hover => ?_) fun _ _ => admits_refl _
  exact Nat.lt_of_le_of_lt h.granuleCount hover

theorem decodeTerms_admits (h : limits.AtMost looser) (bytes : List UInt8)
    (encoding : TermEncoding) :
    Admits (decodeTerms env bytes encoding limits) (decodeTerms env bytes encoding looser) := by
  unfold decodeTerms
  refine admits_bind_right fun size _ => ?_
  refine admits_bind (admits_rejectIf fun hover => ?_) fun _ _ => ?_
  · exact Nat.lt_of_le_of_lt h.termsSize hover
  refine admits_bind_right fun pair _ => ?_
  refine admits_bind (admits_rejectIf fun hover => ?_) fun _ _ => admits_refl _
  exact Nat.lt_of_le_of_lt h.termCount hover

theorem decodePostingSection_admits (h : limits.AtMost looser) (bytes : List UInt8)
    (terms : List TermDictionaryEntry) :
    Admits (decodePostingSection bytes terms limits) (decodePostingSection bytes terms looser) := by
  unfold decodePostingSection
  refine admits_bind_right fun size _ => ?_
  refine admits_bind (admits_rejectIf fun hover => ?_) fun _ _ => ?_
  · exact Nat.lt_of_le_of_lt h.postingsSize hover
  exact decodePostingLoop_admits h.postingListSize terms h.decodedPostingIds

theorem checkParts_admits (h : limits.AtMost looser) (granules : List SearchGranule)
    (terms : List TermDictionaryEntry) (postings : List (List Nat)) :
    Admits (limits.reconstructionLimits.checkParts granules terms postings)
      (looser.reconstructionLimits.checkParts granules terms postings) := by
  unfold IndexBuildLimits.checkParts
  refine admits_bind_right fun granuleCount _ => ?_
  refine admits_bind (chargeBuild_admits h.granuleCount) fun _ _ => ?_
  refine admits_bind_right fun termCount _ => ?_
  refine admits_bind (chargeBuild_admits h.termCount) fun _ _ => ?_
  refine admits_bind (chargeAll_admits h.termsSize _ _) fun _ _ => ?_
  exact admits_bind (chargeAll_admits h.decodedPostingIds _ _) fun _ _ => admits_refl _

/-- The encoder of the restored lists has no limit of its own, so only the parts are checked. -/
theorem restoreIndex_admits (h : limits.AtMost looser) (manifest : SidecarManifest)
    (granules : List SearchGranule) (terms : List TermDictionaryEntry)
    (postings : List (List Nat)) :
    Admits (restoreIndex manifest granules terms postings limits)
      (restoreIndex manifest granules terms postings looser) := by
  unfold restoreIndex
  split
  · refine admits_bind ?_ fun _ _ => admits_refl _
    exact admits_bind (checkParts_admits h granules terms postings) fun _ _ => admits_refl _
  · split
    · refine admits_bind_right fun n _ => ?_
      refine admits_bind ?_ fun _ _ => admits_refl _
      refine admits_bind_right fun _ _ => ?_
      exact admits_bind (checkParts_admits h granules terms postings) fun _ _ => admits_refl _
    · exact admits_refl _

theorem openSections_admits (h : limits.AtMost looser) (sidecarBytes : List UInt8)
    (manifest : SidecarManifest) (sectionBase : Nat) (details : SkeletonDetails) :
    Admits (openSections env sidecarBytes manifest sectionBase details limits)
      (openSections env sidecarBytes manifest sectionBase details looser) := by
  unfold openSections
  refine admits_bind_right fun payloadSize _ => ?_
  refine admits_bind_right fun _ _ => ?_
  refine admits_bind_right fun granuleBytes _ => ?_
  refine admits_bind_right fun termBytes _ => ?_
  refine admits_bind_right fun postingBytes _ => ?_
  refine admits_bind (decodeGranules_admits h granuleBytes _) fun granules _ => ?_
  refine admits_bind_right fun _ _ => ?_
  refine admits_bind (decodeTerms_admits h termBytes _) fun terms _ => ?_
  refine admits_bind_right fun granuleCount _ => ?_
  refine admits_bind_right fun _ _ => ?_
  refine admits_bind (decodePostingSection_admits h postingBytes terms) fun postings _ => ?_
  refine admits_bind_right fun _ _ => ?_
  exact restoreIndex_admits h manifest granules terms postings

theorem openSectionsAt_admits (h : limits.AtMost looser) (source : ReadAt) (len : Nat)
    (manifest : SidecarManifest) (sectionBase : Nat) :
    Admits (openSectionsAt env source len manifest sectionBase limits)
      (openSectionsAt env source len manifest sectionBase looser) := by
  have hcount : Admits (readGranuleCount source manifest sectionBase limits)
      (readGranuleCount source manifest sectionBase looser) := by
    unfold readGranuleCount
    refine admits_bind_right fun _ _ => ?_
    refine admits_bind_right fun granuleSectionOffset _ => ?_
    refine admits_bind_right fun countBytes _ => ?_
    refine admits_bind_right fun granuleCount _ => ?_
    refine admits_bind (admits_rejectIf fun hover => ?_) fun _ _ => admits_refl _
    exact Nat.lt_of_le_of_lt h.granuleCount hover
  unfold openSectionsAt
  refine admits_bind_right fun _ _ => ?_
  refine admits_bind_right fun _ _ => ?_
  refine admits_bind hcount fun granuleCount _ => ?_
  refine admits_bind_right fun termsOffset _ => ?_
  refine admits_bind_right fun termBytes _ => ?_
  exact admits_bind (decodeTerms_admits h termBytes _) fun _ _ => admits_refl _

/-! ## The manifest -/

theorem readManifest_admits (h : limits.AtMost looser) (sidecarBytes : List UInt8) :
    Admits (readManifest sidecarBytes limits) (readManifest sidecarBytes looser) := by
  unfold readManifest
  refine admits_bind_right fun _ _ => ?_
  refine admits_bind_right fun manifestSize _ => ?_
  refine admits_bind (admits_rejectIf fun hover => ?_) fun _ _ => admits_refl _
  exact Nat.lt_of_le_of_lt h.manifestSize hover

theorem readManifestAt_admits (h : limits.AtMost looser) (source : ReadAt) (len : Nat) :
    Admits (readManifestAt source len limits) (readManifestAt source len looser) := by
  unfold readManifestAt
  refine admits_bind_right fun _ _ => ?_
  refine admits_bind_right fun header _ => ?_
  refine admits_bind_right fun _ _ => ?_
  refine admits_bind_right fun manifestSize _ => ?_
  refine admits_bind (admits_rejectIf fun hover => ?_) fun _ _ => admits_refl _
  exact Nat.lt_of_le_of_lt h.manifestSize hover

/-- The manifest that the bytes of a sidecar declare. -/
def declaredManifest (sidecarBytes : List UInt8) : Result SidecarManifest :=
  decodeManifest (slice sidecarBytes sidecarHeaderLen (leNat (slice sidecarBytes 8 8)))

theorem readManifest_declared {sidecarBytes : List UInt8} {found : SidecarManifest × Nat}
    (h : readManifest sidecarBytes limits = .ok found) :
    declaredManifest sidecarBytes = .ok found.1 := by
  unfold readManifest at h
  obtain ⟨_, -, h⟩ := bind_eq_ok_iff.mp h
  obtain ⟨manifestSize, hsize, h⟩ := bind_eq_ok_iff.mp h
  obtain ⟨_, -, h⟩ := bind_eq_ok_iff.mp h
  obtain ⟨size, hword, h⟩ := bind_eq_ok_iff.mp h
  obtain ⟨manifestEnd, hend, h⟩ := bind_eq_ok_iff.mp h
  obtain ⟨manifestBytes, hbytes, h⟩ := bind_eq_ok_iff.mp h
  obtain ⟨manifest, hdecode, h⟩ := bind_eq_ok_iff.mp h
  obtain rfl := Except.ok.inj h
  rw [u64ToUsize_eq_ok_iff] at hword
  rw [okOr_eq_ok_iff, checkedAdd_eq_some_iff] at hend
  rw [okOr_eq_ok_iff, getRange?_eq_some_iff] at hbytes
  have hnat := (readLe_eq_ok_iff.mp hsize).2
  rw [declaredManifest, hnat, hword.2, ← hdecode, ← hbytes.2, ← hend.2, Nat.add_sub_cancel_left]

theorem readManifestAt_declared {sidecarBytes : List UInt8} (served : FaithfulSource sidecarBytes)
    {found : SidecarManifest × Nat}
    (h : readManifestAt served.source served.len limits = .ok found) :
    declaredManifest sidecarBytes = .ok found.1 := by
  unfold readManifestAt at h
  obtain ⟨_, hlong, h⟩ := bind_eq_ok_iff.mp h
  obtain ⟨header, hheader, h⟩ := bind_eq_ok_iff.mp h
  obtain ⟨_, -, h⟩ := bind_eq_ok_iff.mp h
  obtain ⟨manifestSize, hsize, h⟩ := bind_eq_ok_iff.mp h
  obtain ⟨_, -, h⟩ := bind_eq_ok_iff.mp h
  obtain ⟨manifestEnd, hend, h⟩ := bind_eq_ok_iff.mp h
  obtain ⟨_, hinside, h⟩ := bind_eq_ok_iff.mp h
  obtain ⟨manifestBytes, hbytes, h⟩ := bind_eq_ok_iff.mp h
  obtain ⟨manifest, hdecode, h⟩ := bind_eq_ok_iff.mp h
  obtain rfl := Except.ok.inj h
  rw [rejectIf_eq_ok_iff, served.len_eq, Nat.not_lt] at hlong hinside
  rw [okOr_eq_ok_iff, checkedAdd_eq_some_iff] at hend
  obtain rfl := hend.2
  rw [served.readExactAtQzt_eq (by simpa using hlong), Except.ok.injEq] at hheader
  obtain ⟨len, hlen, hbytes⟩ := bind_eq_ok_iff.mp hbytes
  obtain ⟨-, rfl⟩ := u64ToUsize_eq_ok_iff.mp hlen
  rw [served.readExactAtQzt_eq hinside, Except.ok.injEq] at hbytes
  have hword : slice header 8 8 = slice sidecarBytes 8 8 := by
    rw [← hheader]
    simp [slice, sidecarHeaderLen, List.drop_take]
  have hnat := (readLe_eq_ok_iff.mp hsize).2
  rw [hword] at hnat
  rw [declaredManifest, hnat, hbytes, hdecode]

/-- The granule limit, in bytes of the records that the sidecar declares, is a 64-bit number. -/
def GranuleLimitFits (sidecarBytes : List UInt8) (limits : SidecarLimits) : Prop :=
  ∀ manifest, declaredManifest sidecarBytes = .ok manifest →
    limits.maxGranuleCount * manifest.granuleEncoding.recordLen + 8 < 2 ^ 64

theorem validateManifestResourceLimits_eq_ok_iff {manifest : SidecarManifest} {u : Unit} :
    validateManifestResourceLimits manifest limits = .ok u ↔
      limits.maxGranuleCount * manifest.granuleEncoding.recordLen + 8 < 2 ^ 64 ∧
        manifest.granules.size ≤ limits.maxGranuleCount * manifest.granuleEncoding.recordLen + 8 ∧
          manifest.terms.size ≤ limits.maxTermsSize ∧
            manifest.postings.size ≤ limits.maxPostingsSize := by
  simp only [validateManifestResourceLimits, bind_eq_ok_iff, okOr_eq_ok_iff, checkedMul_eq_some_iff,
    checkedAdd_eq_some_iff, rejectIf_eq_ok_iff, Nat.not_lt, gt_iff_lt]
  constructor
  · rintro ⟨_, ⟨-, rfl⟩, _, ⟨hfits, rfl⟩, _, hgranules, _, hterms, hpostings⟩
    exact ⟨hfits, hgranules, hterms, hpostings⟩
  · rintro ⟨hfits, hgranules, hterms, hpostings⟩
    have hrecords := Nat.lt_of_le_of_lt (Nat.le_add_right _ 8) hfits
    exact ⟨_, ⟨hrecords, rfl⟩, _, ⟨hfits, rfl⟩, ⟨⟩, hgranules, ⟨⟩, hterms, hpostings⟩

/-- The overflow is all that a looser limit can add. -/
theorem validateManifestResourceLimits_looser (h : limits.AtMost looser)
    {manifest : SidecarManifest} {u : Unit}
    (hok : validateManifestResourceLimits manifest limits = .ok u) :
    validateManifestResourceLimits manifest looser = .ok u ↔
      looser.maxGranuleCount * manifest.granuleEncoding.recordLen + 8 < 2 ^ 64 := by
  rw [validateManifestResourceLimits_eq_ok_iff] at hok ⊢
  obtain ⟨-, hgranules, hterms, hpostings⟩ := hok
  refine ⟨And.left, fun hfits => ⟨hfits, ?_, ?_, ?_⟩⟩
  · refine Nat.le_trans hgranules (Nat.add_le_add_right ?_ 8)
    exact Nat.mul_le_mul_right _ h.granuleCount
  · exact Nat.le_trans hterms h.termsSize
  · exact Nat.le_trans hpostings h.postingsSize

/-! ## Opening under looser limits -/

/-- A chain that passes the resource check passes it under looser limits exactly when the granule
limit fits; what follows the check admits the rest. -/
theorem looser_iff {α β : Type} {read read' : Result (SidecarManifest × Nat)}
    {rest rest' : SidecarManifest × Nat → Result α} {view : α → β} (h : limits.AtMost looser)
    (hread : Admits read read') {sidecarBytes : List UInt8}
    (hdeclared : ∀ found, read = .ok found → declaredManifest sidecarBytes = .ok found.1)
    (hrest : ∀ found a, rest found = .ok a → ∃ a', rest' found = .ok a' ∧ view a' = view a)
    {opened : α}
    (hopen : (do
      let found ← read
      validateManifestResourceLimits found.1 limits
      rest found) = .ok opened) :
    (∃ opened', (do
      let found ← read'
      validateManifestResourceLimits found.1 looser
      rest' found) = .ok opened' ∧ view opened' = view opened) ↔
      GranuleLimitFits sidecarBytes looser := by
  obtain ⟨found, hfound, hopen⟩ := bind_eq_ok_iff.mp hopen
  obtain ⟨u, hvalid, hopen⟩ := bind_eq_ok_iff.mp hopen
  have hfits := validateManifestResourceLimits_looser h hvalid
  have hmanifest := hdeclared found hfound
  rw [hread found hfound, ok_bind]
  constructor
  · rintro ⟨opened', hopened', -⟩ manifest hdecode
    obtain ⟨u', hvalid', -⟩ := bind_eq_ok_iff.mp hopened'
    rw [hmanifest, Except.ok.injEq] at hdecode
    rw [← hdecode]
    exact hfits.mp hvalid'
  · intro hgranules
    rw [hfits.mpr (hgranules found.1 hmanifest), ok_bind]
    exact hrest found opened hopen

/-- What `QziSidecar::open_with_limits` does behind the resource check. -/
def openBound (env : Env) (qztBytes sidecarBytes : List UInt8) (limits : SidecarLimits)
    (found : SidecarManifest × Nat) : Result QziSidecar := do
  let details ← openSkeletonDetails env qztBytes
  checkSource found.1 details
  checkSourceFooter found.1 details (← qztFooterChecksum env qztBytes details.footerPayloadOffset)
  let index ← openSections env sidecarBytes found.1 found.2 details limits
  return { manifest := found.1, index }

/-- What `QziFileSidecar::open_read_at_with_limits` does behind the resource check. -/
def openBoundAt (env : Env) (source : ReadAt) (len : Nat) (container : QztFileReader)
    (limits : SidecarLimits) (found : SidecarManifest × Nat) : Result QziFileSidecar := do
  checkSource found.1 container.details
  checkSourceFooter found.1 container.details (← container.footerChecksum env)
  checkIndexType found.1
  let (granuleCount, terms) ← openSectionsAt env source len found.1 found.2 limits
  return { manifest := found.1, source, sectionBase := found.2, granuleCount, terms, limits }

theorem openBound_admits (h : limits.AtMost looser) (qztBytes sidecarBytes : List UInt8)
    (found : SidecarManifest × Nat) :
    Admits (openBound env qztBytes sidecarBytes limits found)
      (openBound env qztBytes sidecarBytes looser found) := by
  unfold openBound
  refine admits_bind_right fun details _ => ?_
  refine admits_bind_right fun _ _ => ?_
  refine admits_bind_right fun footerChecksum _ => ?_
  refine admits_bind_right fun _ _ => ?_
  exact admits_bind (openSections_admits h _ _ _ _) fun _ _ => admits_refl _

/-- The limits stay in the opened sidecar; the rest of it is the same. -/
theorem openBoundAt_looser (h : limits.AtMost looser) {source : ReadAt} {len : Nat}
    {container : QztFileReader} {found : SidecarManifest × Nat} {opened : QziFileSidecar}
    (hopen : openBoundAt env source len container limits found = .ok opened) :
    openBoundAt env source len container looser found = .ok { opened with limits := looser } := by
  unfold openBoundAt at hopen ⊢
  obtain ⟨_, hsource, hopen⟩ := bind_eq_ok_iff.mp hopen
  obtain ⟨footerChecksum, hchecksum, hopen⟩ := bind_eq_ok_iff.mp hopen
  obtain ⟨_, hfooter, hopen⟩ := bind_eq_ok_iff.mp hopen
  obtain ⟨_, htype, hopen⟩ := bind_eq_ok_iff.mp hopen
  obtain ⟨sections, hsections, hopen⟩ := bind_eq_ok_iff.mp hopen
  obtain rfl := Except.ok.inj hopen
  rw [hsource, ok_bind, hchecksum, ok_bind, hfooter, ok_bind, htype, ok_bind,
    openSectionsAt_admits h _ _ _ _ sections hsections, ok_bind]
  rfl

/-- A sidecar that opens under some limits opens under looser ones, with the same manifest and the
same index or dictionary, exactly when the looser granule limit does not overflow. -/
theorem openLooser_iff_granuleLimitFits {env : Env} {limits looser : SidecarLimits}
    (qztBytes sidecarBytes : List UInt8) (h : limits.AtMost looser) :
    (∀ opened, QziSidecar.openWithLimits env qztBytes sidecarBytes limits = .ok opened →
      (QziSidecar.openWithLimits env qztBytes sidecarBytes looser = .ok opened ↔
        GranuleLimitFits sidecarBytes looser)) ∧
    ∀ (served : FaithfulSource sidecarBytes) (container : QztFileReader) (opened : QziFileSidecar),
      QziFileSidecar.openReadAtWithLimits env served.source served.len container limits =
          .ok opened →
        ((∃ opened', QziFileSidecar.openReadAtWithLimits env served.source served.len container
            looser = .ok opened' ∧ opened'.manifest = opened.manifest ∧
              opened'.terms = opened.terms) ↔
          GranuleLimitFits sidecarBytes looser) := by
  constructor
  · intro opened hopen
    have hiff := @looser_iff limits looser _ _ _ _ (openBound env qztBytes sidecarBytes limits)
      (openBound env qztBytes sidecarBytes looser) id h (readManifest_admits h sidecarBytes)
      sidecarBytes (fun _ hfound => readManifest_declared hfound)
      (fun found a ha => ⟨a, openBound_admits h _ _ found a ha, rfl⟩) opened hopen
    rw [← hiff]
    constructor
    · intro hlooser
      exact ⟨opened, hlooser, rfl⟩
    · intro ⟨opened', hlooser, hsame⟩
      rw [id, id] at hsame
      rw [← hsame]
      exact hlooser
  · intro served container opened hopen
    have hiff := @looser_iff limits looser _ _ _ _
      (openBoundAt env served.source served.len container limits)
      (openBoundAt env served.source served.len container looser)
      (fun opened => (opened.manifest, opened.terms)) h
      (readManifestAt_admits h served.source served.len) sidecarBytes
      (fun _ hfound => readManifestAt_declared served hfound)
      (fun found a ha => ⟨_, openBoundAt_looser h ha, rfl⟩) opened hopen
    rw [← hiff]
    simp only [Prod.mk.injEq]
    rfl

/-! ## A limit that overflows -/

/-- The token sidecar of a container in memory. -/
def tokenSidecar (container : List UInt8) : Result (List UInt8) := do
  let reader ← QztFileReader.openReadAt Reference.env (memorySource container) container.length
  buildSearchSidecarFromFile Reference.env reader .token

/-- The default limits, with the largest granule count. -/
def widestGranules : SidecarLimits :=
  { SidecarLimits.default with maxGranuleCount := 2 ^ 64 - 1 }

theorem default_atMost_widestGranules : SidecarLimits.default.AtMost widestGranules :=
  ⟨Nat.le_refl _, Nat.le_refl _, Nat.le_refl _, by decide, Nat.le_refl _, Nat.le_refl _,
    Nat.le_refl _, Nat.le_refl _⟩

/-- The error of a result. -/
def failureOf {α : Type} : Result α → Option QztError
  | .ok _ => none
  | .error e => some e

theorem failureOf_eq_none {α : Type} {result : Result α} (h : failureOf result = none) :
    ∃ a, result = .ok a := by
  cases result with
  | ok a => exact ⟨a, rfl⟩
  | error e => cases h

theorem failureOf_eq_some {α : Type} {result : Result α} {e : QztError}
    (h : failureOf result = some e) : result = .error e := by
  cases result with
  | ok a => cases h
  | error e' => rw [Option.some.inj h]

/-- A container opened with its own token sidecar, in memory and as files: the errors. -/
def openOutcome (container : List UInt8) (limits : SidecarLimits) :
    Result (Option QztError × Option QztError) := do
  let sidecarBytes ← tokenSidecar container
  let reader ← QztFileReader.openReadAt Reference.env (memorySource container) container.length
  return (failureOf (QziSidecar.openWithLimits Reference.env container sidecarBytes limits),
    failureOf (QziFileSidecar.openReadAtWithLimits Reference.env (memorySource sidecarBytes)
      sidecarBytes.length reader limits))

set_option maxRecDepth 100000 in
theorem openOutcome_staleContainer :
    openOutcome staleContainer .default = .ok (none, none) ∧
      openOutcome staleContainer widestGranules =
        .ok (some .resourceLimitExceeded, some .resourceLimitExceeded) := by
  decide +kernel

theorem openOutcome_eq_ok {container : List UInt8} {limits : SidecarLimits}
    {inMemory asFile : Option QztError}
    (h : openOutcome container limits = .ok (inMemory, asFile)) :
    ∃ sidecarBytes reader, tokenSidecar container = .ok sidecarBytes ∧
      QztFileReader.openReadAt Reference.env (memorySource container) container.length = .ok reader ∧
      failureOf (QziSidecar.openWithLimits Reference.env container sidecarBytes limits) = inMemory ∧
      failureOf (QziFileSidecar.openReadAtWithLimits Reference.env (memorySource sidecarBytes)
        sidecarBytes.length reader limits) = asFile := by
  unfold openOutcome at h
  obtain ⟨sidecarBytes, hbuild, h⟩ := bind_eq_ok_iff.mp h
  obtain ⟨reader, hreader, h⟩ := bind_eq_ok_iff.mp h
  rw [pure_eq_ok, Except.ok.injEq, Prod.mk.injEq] at h
  exact ⟨sidecarBytes, reader, hbuild, hreader, h⟩

/-- The two outcomes are about one sidecar and one reader. -/
theorem staleContainer_outcomes : ∃ sidecarBytes reader,
    tokenSidecar staleContainer = .ok sidecarBytes ∧
    QztFileReader.openReadAt Reference.env (memorySource staleContainer) staleContainer.length =
      .ok reader ∧
    ∀ limits failure, (limits, failure) ∈ [(SidecarLimits.default, none),
        (widestGranules, some QztError.resourceLimitExceeded)] →
      failureOf (QziSidecar.openWithLimits Reference.env staleContainer sidecarBytes limits) =
        failure ∧
      failureOf (QziFileSidecar.openReadAtWithLimits Reference.env (memorySource sidecarBytes)
        sidecarBytes.length reader limits) = failure := by
  obtain ⟨hdefault, hwidest⟩ := openOutcome_staleContainer
  obtain ⟨sidecarBytes, reader, hbuild, hreader, hfirst⟩ := openOutcome_eq_ok hdefault
  obtain ⟨sidecarBytes', reader', hbuild', hreader', hsecond⟩ := openOutcome_eq_ok hwidest
  rw [hbuild, Except.ok.injEq] at hbuild'
  rw [hreader, Except.ok.injEq] at hreader'
  rw [← hbuild', ← hreader'] at hsecond
  refine ⟨sidecarBytes, reader, hbuild, hreader, ?_⟩
  intro limits failure hmem
  rw [List.mem_pair, Prod.mk.injEq, Prod.mk.injEq] at hmem
  rcases hmem with ⟨rfl, rfl⟩ | ⟨rfl, rfl⟩
  · exact hfirst
  · exact hsecond

/-- The sidecar that was just built opens under the default limits, and neither opener takes it
under the largest granule limit. -/
theorem openLooser_staleContainer : ∃ sidecarBytes reader inMemory asFile,
    tokenSidecar staleContainer = .ok sidecarBytes ∧
    QztFileReader.openReadAt Reference.env (memorySource staleContainer) staleContainer.length =
      .ok reader ∧
    SidecarLimits.default.AtMost widestGranules ∧
    QziSidecar.openWithLimits Reference.env staleContainer sidecarBytes .default = .ok inMemory ∧
    QziSidecar.openWithLimits Reference.env staleContainer sidecarBytes widestGranules =
      .error .resourceLimitExceeded ∧
    QziFileSidecar.openReadAtWithLimits Reference.env (memorySource sidecarBytes)
      sidecarBytes.length reader .default = .ok asFile ∧
    QziFileSidecar.openReadAtWithLimits Reference.env (memorySource sidecarBytes)
      sidecarBytes.length reader widestGranules = .error .resourceLimitExceeded := by
  obtain ⟨sidecarBytes, reader, hbuild, hreader, houtcomes⟩ := staleContainer_outcomes
  obtain ⟨hmemory, hfile⟩ := houtcomes .default none List.mem_cons_self
  obtain ⟨hmemory', hfile'⟩ := houtcomes widestGranules _ (List.mem_cons_of_mem _ List.mem_cons_self)
  obtain ⟨inMemory, hinMemory⟩ := failureOf_eq_none hmemory
  obtain ⟨asFile, hasFile⟩ := failureOf_eq_none hfile
  exact ⟨sidecarBytes, reader, inMemory, asFile, hbuild, hreader, default_atMost_widestGranules,
    hinMemory, failureOf_eq_some hmemory', hasFile, failureOf_eq_some hfile'⟩

/-- Both directions at one sidecar: the default limits fit, the largest granule limit does not. -/
theorem openLooser_iff_granuleLimitFits_staleContainer : ∃ sidecarBytes inMemory,
    QziSidecar.openWithLimits Reference.env staleContainer sidecarBytes .default = .ok inMemory ∧
    GranuleLimitFits sidecarBytes .default ∧ ¬ GranuleLimitFits sidecarBytes widestGranules := by
  obtain ⟨sidecarBytes, reader, -, -, houtcomes⟩ := staleContainer_outcomes
  obtain ⟨hmemory, -⟩ := houtcomes .default none List.mem_cons_self
  obtain ⟨hmemory', -⟩ := houtcomes widestGranules _ (List.mem_cons_of_mem _ List.mem_cons_self)
  obtain ⟨inMemory, hinMemory⟩ := failureOf_eq_none hmemory
  have hsame : SidecarLimits.default.AtMost SidecarLimits.default :=
    ⟨Nat.le_refl _, Nat.le_refl _, Nat.le_refl _, Nat.le_refl _, Nat.le_refl _, Nat.le_refl _,
      Nat.le_refl _, Nat.le_refl _⟩
  refine ⟨sidecarBytes, inMemory, hinMemory, ?_, ?_⟩
  · exact ((openLooser_iff_granuleLimitFits staleContainer sidecarBytes hsame).1 inMemory
      hinMemory).mp hinMemory
  · intro hfits
    have hlooser := ((openLooser_iff_granuleLimitFits staleContainer sidecarBytes
      default_atMost_widestGranules).1 inMemory hinMemory).mpr hfits
    rw [failureOf_eq_some hmemory'] at hlooser
    cases hlooser

end Qzt.Sidecar
