import Qzt.Reader.ExplicitLimits
import Qzt.Sidecar.OpenSections

/-!
# The two openers

The decoded sidecar reads every section; the file-backed one hashes the sections and reads the
terms.  A file whose parts pass the checks is opened by both.
-/

namespace Qzt.Sidecar

open Foundation

/-! ## The file -/

namespace SidecarFile

variable (file : SidecarFile)

/-- The offset of the first section. -/
def sectionBase : Nat :=
  sidecarHeaderLen + file.manifestBytes.length

theorem length_bytes : file.bytes.length = file.sectionBase +
    (file.granuleBytes.length + file.termBytes.length + file.postingBytes.length) := by
  have hmagic : sidecarMagic.length = 8 := rfl
  have hheader : sidecarHeaderLen = 16 := rfl
  simp only [bytes, sectionBase, List.length_append, length_leBytes]
  omega

/-- The header and the manifest. -/
theorem front_at : StandsAt file.bytes 0 sidecarMagic ∧
    StandsAt file.bytes 8 (leBytes 8 file.manifestBytes.length) ∧
    StandsAt file.bytes sidecarHeaderLen file.manifestBytes := by
  have hall : StandsAt file.bytes 0 (sidecarMagic ++ leBytes 8 file.manifestBytes.length ++
      file.manifestBytes ++ file.granuleBytes ++ file.termBytes ++ file.postingBytes) :=
    standsAt_self file.bytes
  have hfront := hall.left.left.left
  have hmanifest := hfront.right
  rw [List.length_append, length_leBytes] at hmanifest
  exact ⟨hfront.left.left, hfront.left.right, hmanifest⟩

/-- The sections. -/
theorem sections_at : StandsAt file.bytes file.sectionBase file.granuleBytes ∧
    StandsAt file.bytes (file.sectionBase + file.granuleBytes.length) file.termBytes ∧
    StandsAt file.bytes (file.sectionBase + (file.granuleBytes.length + file.termBytes.length))
      file.postingBytes := by
  have hall : StandsAt file.bytes 0 (sidecarMagic ++ leBytes 8 file.manifestBytes.length ++
      file.manifestBytes ++ file.granuleBytes ++ file.termBytes ++ file.postingBytes) :=
    standsAt_self file.bytes
  have hpostings := hall.right
  have hterms := hall.left.right
  have hgranules := hall.left.left.right
  have hfront : (sidecarMagic ++ leBytes 8 file.manifestBytes.length ++
      file.manifestBytes).length = file.sectionBase := by
    rw [List.length_append, List.length_append, length_leBytes]
    rfl
  rw [List.length_append, List.length_append, hfront, Nat.zero_add, Nat.add_assoc] at hpostings
  rw [List.length_append, hfront, Nat.zero_add] at hterms
  rw [hfront, Nat.zero_add] at hgranules
  exact ⟨hgranules, hterms, hpostings⟩

variable {file} {manifest : SidecarManifest} {limits : SidecarLimits}

/-- The front of the file, as the decoded sidecar reads it. -/
theorem readManifest_eq (hdecodes : decodeManifest file.manifestBytes = .ok manifest)
    (hsize : file.manifestBytes.length ≤ limits.maxManifestSize)
    (hword : file.bytes.length < 2 ^ 64) :
    readManifest file.bytes limits = .ok (manifest, file.sectionBase) := by
  obtain ⟨hmagicAt, hsizeAt, hmanifestAt⟩ := file.front_at
  have hheader : sidecarHeaderLen = 16 := rfl
  have hinside := hmanifestAt.inside
  have hmagic : file.bytes.take 8 = sidecarMagic := hmagicAt.slice
  have hread : readLe 8 (slice file.bytes 8 8) = .ok file.manifestBytes.length := by
    have hslice := hsizeAt.slice
    rw [length_leBytes] at hslice
    rw [hslice]
    exact readLe_leBytes (by omega)
  have hfront : ¬ (file.bytes.length < sidecarHeaderLen ∨ file.bytes.take 8 ≠ sidecarMagic) := by
    rw [hmagic]
    rintro (hshort | hmagic)
    · omega
    · exact hmagic rfl
  rw [readManifest, rejectIf_of_not hfront, ok_bind, hread, ok_bind,
    rejectIf_of_not (Nat.not_lt.mpr hsize), ok_bind, u64ToUsize_of_lt (by omega), ok_bind,
    checkedAdd_of_lt (by omega), okOr_some, ok_bind, hmanifestAt.getRange, okOr_some, ok_bind,
    hdecodes]
  rfl

/-- The front of the file, as the file-backed sidecar reads it. -/
theorem readManifestAt_eq (served : FaithfulSource file.bytes)
    (hdecodes : decodeManifest file.manifestBytes = .ok manifest)
    (hsize : file.manifestBytes.length ≤ limits.maxManifestSize) :
    readManifestAt served.source served.len limits = .ok (manifest, file.sectionBase) := by
  obtain ⟨hmagicAt, hsizeAt, hmanifestAt⟩ := file.front_at
  have hheader : sidecarHeaderLen = 16 := rfl
  have hinside := hmanifestAt.inside
  have hword := served.len_lt
  rw [served.len_eq] at hword
  -- The header is read in one piece, and its two fields are cut out of it.
  have hmagic : (slice file.bytes 0 sidecarHeaderLen).take 8 = sidecarMagic := by
    have hslice := hmagicAt.slice
    rw [← hslice]
    exact @slice_slice _ file.bytes 0 sidecarHeaderLen 0 8 (by decide)
  have hread : readLe 8 (slice (slice file.bytes 0 sidecarHeaderLen) 8 8) =
      .ok file.manifestBytes.length := by
    have hslice := hsizeAt.slice
    rw [length_leBytes] at hslice
    rw [slice_slice (by decide), Nat.zero_add, hslice]
    exact readLe_leBytes (by omega)
  rw [readManifestAt, served.len_eq, rejectIf_of_not (by omega), ok_bind,
    served.readExactAtQzt_eq (by omega), ok_bind, rejectIf_of_not (not_not_intro hmagic), ok_bind,
    hread, ok_bind, rejectIf_of_not (Nat.not_lt.mpr hsize), ok_bind, checkedAdd_of_lt (by omega),
    okOr_some, ok_bind, rejectIf_of_not (by omega), ok_bind, readVec, u64ToUsize_of_lt (by omega),
    ok_bind, served.readExactAtQzt_eq hinside, hmanifestAt.slice, ok_bind, hdecodes]
  rfl

end SidecarFile

/-! ## Sections behind a source -/

namespace SectionAt

variable {env : Env} {sidecarBytes : List UInt8} {sectionBase : Nat} {sectionRef : SectionRef}
  {found : List UInt8} (served : FaithfulSource sidecarBytes)
  (h : SectionAt env sidecarBytes sectionBase sectionRef found)
include h

/-- The section passes the check of the file-backed opener. -/
theorem verifies : verifySectionChecksum env served.source served.len sectionBase sectionRef =
    .ok ⟨⟩ := by
  have hinside := h.stands.inside
  have hsize := h.size
  have hword := served.len_lt
  rw [served.len_eq] at hword
  obtain ⟨hasher, hloop, habsorbed⟩ := served.hashReadAtLoop_spec (Nat.le_refl found.length)
    hinside env.blake3.absorbed_new
  have hrange : hashReadAtRange env served.source (sectionBase + sectionRef.offset)
      found.length = .ok hasher := hloop
  have hsame : Checksum.fromHasher env hasher = sectionRef.checksum := by
    rw [h.checksum, Checksum.fromHasher, Checksum.blake3, habsorbed.finalize, List.nil_append,
      h.stands.slice]
  rw [verifySectionChecksum, checkedAdd_of_lt (by omega), okOr_some, ok_bind, hsize,
    checkedAdd_of_lt (by omega), okOr_some, ok_bind, served.len_eq,
    rejectIf_of_not (Nat.not_lt.mpr hinside), ok_bind, hrange]
  exact rejectIf_of_not (not_not_intro hsame)

/-- A part of a section is read from the source. -/
theorem readVec_eq {start : Nat} {part : List UInt8} (hpart : StandsAt found start part) :
    readVec served.source (sectionBase + sectionRef.offset + start) part.length = .ok part := by
  have hstands := h.stands.trans hpart
  have hinside := hstands.inside
  have hword := served.len_lt
  rw [served.len_eq] at hword
  rw [readVec, u64ToUsize_of_lt (by omega), ok_bind, served.readExactAtQzt_eq hinside,
    hstands.slice]

end SectionAt

namespace SectionsRead

variable {env : Env} {file : SidecarFile} {manifest : SidecarManifest} {details : SkeletonDetails}
  {limits : SidecarLimits} {granules : List SearchGranule} {terms : List TermDictionaryEntry}
  {postings : List (List Nat)}
  (h : SectionsRead env file manifest details limits granules terms postings)
include h

/-- Each section is where the manifest says. -/
theorem sections_at :
    SectionAt env file.bytes file.sectionBase manifest.granules file.granuleBytes ∧
    SectionAt env file.bytes file.sectionBase manifest.terms file.termBytes ∧
    SectionAt env file.bytes file.sectionBase manifest.postings file.postingBytes := by
  obtain ⟨hgranules, hterms, hpostings⟩ := file.sections_at
  obtain ⟨hgranulesSum, htermsSum, hpostingsSum⟩ := h.checksums
  refine ⟨⟨?_, h.describes.granules.2, hgranulesSum⟩, ⟨?_, h.describes.terms.2, htermsSum⟩,
    ⟨?_, h.describes.postings.2, hpostingsSum⟩⟩
  · rw [h.describes.granules.1]
    exact hgranules
  · rw [h.describes.terms.1]
    exact hterms
  · rw [h.describes.postings.1]
    exact hpostings

theorem layout (hword : file.bytes.length < 2 ^ 64) :
    validateManifestLayout manifest (file.bytes.length - file.sectionBase) = .ok ⟨⟩ := by
  have hlength := file.length_bytes
  have hindexSize := h.indexSize
  obtain ⟨hgranulesOffset, hgranulesSize⟩ := h.describes.granules
  obtain ⟨htermsOffset, htermsSize⟩ := h.describes.terms
  obtain ⟨hpostingsOffset, hpostingsSize⟩ := h.describes.postings
  rw [validateManifestLayout]
  rw [checkedAdd_of_lt (by omega), okOr_some, ok_bind, checkedAdd_of_lt (by omega), okOr_some,
    ok_bind, rejectIf_of_not (by omega), ok_bind, rejectIf_of_not (by omega), ok_bind,
    rejectIf_of_not (by omega)]

/-- The granule section: the count, and one record after the other. -/
theorem granule_records : ∃ records,
    file.granuleBytes = leBytes 8 granules.length ++ records.flatten ∧
      granules.length < 2 ^ 64 ∧
      collect (encodeGranule manifest.granuleEncoding) granules = .ok records ∧
      RepresentsFrom manifest.granuleEncoding 0 granules := by
  obtain ⟨⟨hrepresents, hwritten⟩, -, -⟩ := decodeGranules_iff.mp h.granuleSection
  simp only [encodeGranules, bind_eq_ok_iff, usizeToU64_eq_ok_iff, pure_eq_ok,
    Except.ok.injEq] at hwritten
  obtain ⟨_, ⟨hcount, rfl⟩, records, hrecords, hbytes⟩ := hwritten
  exact ⟨records, hbytes.symm, hcount, hrecords, hrepresents⟩

/-- The sections make up the index. -/
theorem openSections_eq (hword : file.bytes.length < 2 ^ 64) :
    openSections env file.bytes manifest file.sectionBase details limits =
      restoreIndex manifest granules terms postings limits := by
  obtain ⟨hgranules, hterms, hpostings⟩ := h.sections_at
  obtain ⟨-, -, hcount, -⟩ := h.granule_records
  have hspans : checkAll (fun granule => validateGranuleChunkSpan granule details.chunkEntries
      details.summary.originalSize) granules = .ok ⟨⟩ := checkAll_eq_ok_iff.mpr h.spans
  rw [openSections, usizeToU64_of_lt (by omega), ok_bind, h.layout hword, ok_bind,
    hgranules.slices hword, ok_bind, hterms.slices hword, ok_bind, hpostings.slices hword, ok_bind,
    h.granuleSection, ok_bind, hspans, ok_bind, h.termSection, ok_bind, usizeToU64_of_lt hcount,
    ok_bind, h.dictionary, ok_bind, h.postingSection, ok_bind, h.decoded, ok_bind]

theorem readGranuleCount_eq (served : FaithfulSource file.bytes) :
    readGranuleCount served.source manifest file.sectionBase limits = .ok granules.length := by
  obtain ⟨hgranules, -, -⟩ := h.sections_at
  obtain ⟨records, hbytes, hcount, hrecords, -⟩ := h.granule_records
  obtain ⟨-, -, hlimit⟩ := decodeGranules_iff.mp h.granuleSection
  have hcountAt : StandsAt file.granuleBytes 0 (leBytes 8 granules.length) := by
    rw [hbytes]
    exact (standsAt_self _).left
  have hread := hgranules.readVec_eq served hcountAt
  have hlength := congrArg List.length hbytes
  have hinside := hgranules.stands.inside
  have hsize := hgranules.size
  have hword := served.len_lt
  rw [served.len_eq] at hword
  rw [List.length_append, length_leBytes, length_flatten_of_collect hrecords] at hlength
  rw [length_leBytes, Nat.add_zero] at hread
  rw [readGranuleCount, rejectIf_of_not (by omega), ok_bind, checkedAdd_of_lt (by omega), okOr_some,
    ok_bind, hread, ok_bind, readLe_leBytes hcount, ok_bind, rejectIf_of_not (by omega), ok_bind,
    checkedMul_of_lt (by omega), okOr_some, ok_bind, checkedAdd_of_lt (by omega), okOr_some, ok_bind,
    rejectIf_of_not (by omega), ok_bind]
  rfl

/-- What the decoded sidecar has read, the file-backed one finds. -/
theorem openSectionsAt_eq (served : FaithfulSource file.bytes) :
    openSectionsAt env served.source served.len manifest file.sectionBase limits =
      .ok (granules.length, terms) := by
  obtain ⟨hgranules, hterms, hpostings⟩ := h.sections_at
  have hword := served.len_lt
  rw [served.len_eq] at hword
  have hchecksums : checkAll (verifySectionChecksum env served.source served.len file.sectionBase)
      [manifest.granules, manifest.terms, manifest.postings] = .ok ⟨⟩ := by
    rw [checkAll_eq_ok_iff]
    simp only [List.forall_mem_cons, List.not_mem_nil, false_implies, implies_true, and_true]
    exact ⟨hgranules.verifies served, hterms.verifies served, hpostings.verifies served⟩
  have hinside := hterms.stands.inside
  have hread := hterms.readVec_eq served (standsAt_self file.termBytes)
  rw [Nat.add_zero] at hread
  have hlayout := h.layout hword
  rw [← served.len_eq] at hlayout
  rw [openSectionsAt, hlayout, ok_bind, hchecksums, ok_bind, h.readGranuleCount_eq served, ok_bind,
    checkedAdd_of_lt (by omega), okOr_some, ok_bind, hterms.size, hread, ok_bind, h.termSection,
    ok_bind, h.dictionary, ok_bind]
  rfl

end SectionsRead

/-! ## The openers -/

section Openers

variable {env : Env} {bytes : List UInt8} {limits : SidecarLimits} {sidecar : QziSidecar}
  {parts : OpenedParts}

theorem checkIndexType_of_restoreIndex {manifest : SidecarManifest} {granules : List SearchGranule}
    {terms : List TermDictionaryEntry} {postings : List (List Nat)} {index : SidecarSearchIndex}
    (h : restoreIndex manifest granules terms postings limits = .ok index) :
    checkIndexType manifest = .ok ⟨⟩ := by
  unfold restoreIndex at h
  unfold checkIndexType
  split at h
  · rename_i htoken
    rw [if_pos htoken]
  · rename_i htoken
    rw [if_neg htoken]
    split at h
    · rename_i hngram
      obtain ⟨n, hn, h⟩ := bind_eq_ok_iff.mp h
      obtain ⟨restored, hparts, -⟩ := bind_eq_ok_iff.mp h
      rw [RawNgramIndex.fromParts] at hparts
      obtain ⟨_, hpositive, -⟩ := bind_eq_ok_iff.mp hparts
      rw [rejectIf_eq_ok_iff] at hpositive
      rw [if_pos hngram, hn, ok_bind]
      exact rejectIf_of_not hpositive
    · cases h

/-- The checksum of the footer in memory is the one behind a source. -/
theorem qztFooterChecksum_iff (served : FaithfulSource bytes) {details : SkeletonDetails}
    {checksum : Checksum} :
    qztFooterChecksum env bytes details.footerPayloadOffset = .ok checksum ↔
      (served.fileReader details).footerChecksum env = .ok checksum := by
  have hlen : (served.fileReader details).len = bytes.length := served.len_eq
  have hword := served.len_lt
  rw [served.len_eq] at hword
  simp only [qztFooterChecksum, QztFileReader.footerChecksum, hlen, bind_eq_ok_iff, okOr_eq_ok_iff,
    u64ToUsize_eq_ok_iff, checkedSub_eq_some_iff, getRange?_eq_some_iff, pure_eq_ok,
    Except.ok.injEq]
  constructor
  · rintro ⟨_, ⟨-, rfl⟩, _, ⟨hle, rfl⟩, _, ⟨⟨hstart, hstop⟩, rfl⟩, rfl⟩
    exact ⟨_, ⟨hle, rfl⟩, served.hashPhysicalRange_eq details hstart hstop⟩
  · rintro ⟨_, ⟨hle, rfl⟩, hhash⟩
    by_cases hrange : details.footerPayloadOffset ≤ bytes.length - footerTrailerLen ∧
        bytes.length - footerTrailerLen ≤ bytes.length
    · have hsame := @FaithfulSource.hashPhysicalRange_eq env _ served details _ _ hrange.1 hrange.2
      have hchecksum := Except.ok.inj (hsame.symm.trans hhash)
      exact ⟨_, ⟨by omega, rfl⟩, _, ⟨hle, rfl⟩, _, ⟨hrange, rfl⟩, hchecksum⟩
    · have herror := (@FaithfulSource.hashPhysicalRange_of_not env _ served details _ _
        hrange).symm.trans hhash
      cases herror

/-- The decoded sidecar opens a file whose parts follow. -/
theorem OpenedParts.Follows.opens (h : parts.Follows env bytes limits sidecar)
    (hword : parts.file.bytes.length < 2 ^ 64) :
    QziSidecar.openWithLimits env bytes parts.file.bytes limits = .ok sidecar := by
  rw [QziSidecar.openWithLimits,
    SidecarFile.readManifest_eq h.sections.describes.decodes h.manifestSize hword, ok_bind]
  dsimp only
  rw [h.resources, ok_bind, h.details, ok_bind, h.source, ok_bind, h.footerChecksum, ok_bind,
    h.sourceFooter, ok_bind, h.sections.openSections_eq hword, h.index, ok_bind]
  rfl

/-- The file-backed sidecar over the file of the parts. -/
def OpenedParts.fileSidecar (parts : OpenedParts) (sidecar : QziSidecar) (source : ReadAt)
    (limits : SidecarLimits) : QziFileSidecar where
  manifest := sidecar.manifest
  source := source
  sectionBase := parts.file.sectionBase
  granuleCount := parts.granules.length
  terms := parts.terms
  limits := limits

/-- The file-backed sidecar opens it too, over the same container under any limits. -/
theorem OpenedParts.Follows.opensAt (h : parts.Follows env bytes limits sidecar)
    (container : FaithfulSource bytes) {details : SkeletonDetails}
    (hsame : SameDetails parts.details details) (served : FaithfulSource parts.file.bytes) :
    QziFileSidecar.openReadAtWithLimits env served.source served.len
        (container.fileReader details) limits =
      .ok (parts.fileSidecar sidecar served.source limits) := by
  have hdetails : (container.fileReader details).details = details := rfl
  have hsource := h.source
  have hfooter := h.sourceFooter
  have hchecksum := h.footerChecksum
  rw [hsame.footerPayloadOffset] at hchecksum
  rw [checkSource, hsame.summary, hsame.metadata] at hsource
  rw [checkSourceFooter, hsame.summary] at hfooter
  rw [QziFileSidecar.openReadAtWithLimits,
    SidecarFile.readManifestAt_eq served h.sections.describes.decodes h.manifestSize, ok_bind]
  dsimp only
  rw [h.resources, ok_bind, hdetails, checkSource, hsource, ok_bind,
    (qztFooterChecksum_iff container).mp hchecksum, ok_bind, checkSourceFooter, hfooter,
    ok_bind, checkIndexType_of_restoreIndex h.index, ok_bind,
    h.sections.openSectionsAt_eq served, ok_bind]
  rfl

end Openers

end Qzt.Sidecar
