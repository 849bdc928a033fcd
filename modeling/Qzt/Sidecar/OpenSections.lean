import Qzt.Search.PostingCodec
import Qzt.Sidecar.Inverses

/-!
# What an opened sidecar was read from

The decoded sidecar cuts its file into the manifest and the three sections.  The checks on the
layout leave no byte out, and each part of the index is what its section decodes to.
-/

namespace Qzt.Sidecar

open Foundation

/-! ## The file -/

/-- The parts of a sidecar file behind its header. -/
structure SidecarFile where
  manifestBytes : List UInt8
  granuleBytes : List UInt8
  termBytes : List UInt8
  postingBytes : List UInt8
  deriving DecidableEq

/-- The header and the parts, one behind the other. -/
def SidecarFile.bytes (file : SidecarFile) : List UInt8 :=
  sidecarMagic ++ leBytes 8 file.manifestBytes.length ++ file.manifestBytes ++ file.granuleBytes ++
    file.termBytes ++ file.postingBytes

/-- A manifest whose sections are the parts of the file. -/
structure SidecarFile.Describes (file : SidecarFile) (manifest : SidecarManifest) : Prop where
  decodes : decodeManifest file.manifestBytes = .ok manifest
  granules : manifest.granules.offset = 0 ∧ manifest.granules.size = file.granuleBytes.length
  terms : manifest.terms.offset = file.granuleBytes.length ∧
    manifest.terms.size = file.termBytes.length
  postings : manifest.postings.offset = file.granuleBytes.length + file.termBytes.length ∧
    manifest.postings.size = file.postingBytes.length

section Sections

variable {env : Env} {sidecarBytes : List UInt8} {manifest : SidecarManifest} {sectionBase : Nat}
  {details : SkeletonDetails} {limits : SidecarLimits}

/-- The header and the manifest stand at the front. -/
theorem standsAt_of_readManifest {found : SidecarManifest × Nat}
    (h : readManifest sidecarBytes limits = .ok found) :
    ∃ manifestBytes, StandsAt sidecarBytes 0
        (sidecarMagic ++ leBytes 8 manifestBytes.length ++ manifestBytes) ∧
      decodeManifest manifestBytes = .ok found.1 ∧ found.2 = 16 + manifestBytes.length ∧
      manifestBytes.length ≤ limits.maxManifestSize := by
  unfold readManifest at h
  obtain ⟨_, hheader, h⟩ := bind_eq_ok_iff.mp h
  obtain ⟨manifestSize, hsize, h⟩ := bind_eq_ok_iff.mp h
  obtain ⟨_, hlimit, h⟩ := bind_eq_ok_iff.mp h
  obtain ⟨_, hword, h⟩ := bind_eq_ok_iff.mp h
  obtain ⟨-, rfl⟩ := u64ToUsize_eq_ok_iff.mp hword
  obtain ⟨manifestEnd, hend, h⟩ := bind_eq_ok_iff.mp h
  obtain ⟨manifestBytes, hbytes, h⟩ := bind_eq_ok_iff.mp h
  obtain ⟨manifest, hdecode, h⟩ := bind_eq_ok_iff.mp h
  obtain rfl := Except.ok.inj h
  rw [rejectIf_eq_ok_iff, not_or, Nat.not_lt, ne_eq, not_not] at hheader
  obtain ⟨hlong, hmagic⟩ := hheader
  rw [okOr_eq_ok_iff, checkedAdd_eq_some_iff] at hend
  obtain ⟨-, rfl⟩ := hend
  rw [okOr_eq_ok_iff] at hbytes
  rw [rejectIf_eq_ok_iff, gt_iff_lt, Nat.not_lt] at hlimit
  obtain ⟨hmanifestAt, hlength⟩ := standsAt_of_getRange hbytes
  have hsixteen : sidecarHeaderLen = 16 := rfl
  have height : sidecarMagic.length = 8 := rfl
  obtain rfl : manifestSize = manifestBytes.length := Nat.add_left_cancel hlength
  have hmagicAt : StandsAt sidecarBytes 0 sidecarMagic := by
    rw [← hmagic]
    exact @standsAt_slice _ sidecarBytes 0 8 (by omega)
  have hsizeAt : StandsAt sidecarBytes 8 (leBytes 8 manifestBytes.length) := by
    rw [leBytes_of_readLe hsize]
    exact standsAt_slice (by omega)
  refine ⟨manifestBytes, ?_, hdecode, rfl, hlimit⟩
  apply StandsAt.append
  · exact hmagicAt.append (by rwa [height])
  · rwa [List.length_append, length_leBytes, height]

/-- A section stands where its reference says, and has the size and the checksum it states. -/
structure SectionAt (env : Env) (sidecarBytes : List UInt8) (sectionBase : Nat)
    (sectionRef : SectionRef) (found : List UInt8) : Prop where
  stands : StandsAt sidecarBytes (sectionBase + sectionRef.offset) found
  size : sectionRef.size = found.length
  checksum : sectionRef.checksum = Checksum.blake3 env found

theorem sectionAt_of_sectionSlice {sectionRef : SectionRef} {found : List UInt8}
    (h : sectionSlice env sidecarBytes sectionBase sectionRef = .ok found) :
    SectionAt env sidecarBytes sectionBase sectionRef found := by
  unfold sectionSlice at h
  obtain ⟨_, hoffset, h⟩ := bind_eq_ok_iff.mp h
  obtain ⟨-, rfl⟩ := u64ToUsize_eq_ok_iff.mp hoffset
  obtain ⟨start, hstart, h⟩ := bind_eq_ok_iff.mp h
  obtain ⟨_, hsize, h⟩ := bind_eq_ok_iff.mp h
  obtain ⟨-, rfl⟩ := u64ToUsize_eq_ok_iff.mp hsize
  obtain ⟨stop, hstop, h⟩ := bind_eq_ok_iff.mp h
  obtain ⟨bytes, hbytes, h⟩ := bind_eq_ok_iff.mp h
  obtain ⟨_, hchecksum, h⟩ := bind_eq_ok_iff.mp h
  obtain rfl := Except.ok.inj h
  rw [okOr_eq_ok_iff, checkedAdd_eq_some_iff] at hstart hstop
  obtain ⟨-, rfl⟩ := hstart
  obtain ⟨-, rfl⟩ := hstop
  rw [okOr_eq_ok_iff] at hbytes
  rw [rejectIf_eq_ok_iff, not_not] at hchecksum
  obtain ⟨hstands, hlength⟩ := standsAt_of_getRange hbytes
  exact ⟨hstands, Nat.add_left_cancel hlength, hchecksum.symm⟩

theorem SectionAt.slices {sectionRef : SectionRef} {found : List UInt8}
    (hword : sidecarBytes.length < 2 ^ 64)
    (h : SectionAt env sidecarBytes sectionBase sectionRef found) :
    sectionSlice env sidecarBytes sectionBase sectionRef = .ok found := by
  have hinside := h.stands.inside
  rw [sectionSlice, u64ToUsize_of_lt (by omega), ok_bind, checkedAdd_of_lt (by omega), okOr_some,
    ok_bind, h.size, u64ToUsize_of_lt (by omega), ok_bind, checkedAdd_of_lt (by omega), okOr_some,
    ok_bind, h.stands.getRange, okOr_some, ok_bind, rejectIf_of_not (not_not_intro h.checksum.symm)]
  rfl

/-! ## What was read -/

/-- The parts of the file with what they decode to, and the checks that this has passed. -/
structure SectionsRead (env : Env) (file : SidecarFile) (manifest : SidecarManifest)
    (details : SkeletonDetails) (limits : SidecarLimits) (granules : List SearchGranule)
    (terms : List TermDictionaryEntry) (postings : List (List Nat)) : Prop where
  describes : file.Describes manifest
  indexSize : manifest.indexSizeBytes =
    file.granuleBytes.length + file.termBytes.length + file.postingBytes.length
  checksums : manifest.granules.checksum = Checksum.blake3 env file.granuleBytes ∧
    manifest.terms.checksum = Checksum.blake3 env file.termBytes ∧
    manifest.postings.checksum = Checksum.blake3 env file.postingBytes
  granuleSection : decodeGranules file.granuleBytes manifest.granuleEncoding limits = .ok granules
  spans : ∀ granule ∈ granules,
    validateGranuleChunkSpan granule details.chunkEntries details.summary.originalSize = .ok ⟨⟩
  termSection : decodeTerms env file.termBytes manifest.termEncoding limits = .ok terms
  dictionary : validateFileTermDictionary env terms manifest.postings.size manifest.termEncoding
    granules.length = .ok ⟨⟩
  postingSection : decodePostingSection file.postingBytes terms limits = .ok postings
  decoded : validateDecodedPostings terms postings granules.length = .ok ⟨⟩

/-- The sections, with the manifest before them, are the whole file. -/
theorem sectionsRead_of_openSections {index : SidecarSearchIndex} {manifestBytes : List UInt8}
    (hfront : StandsAt sidecarBytes 0
      (sidecarMagic ++ leBytes 8 manifestBytes.length ++ manifestBytes))
    (hmanifest : decodeManifest manifestBytes = .ok manifest)
    (hbase : sectionBase = 16 + manifestBytes.length)
    (h : openSections env sidecarBytes manifest sectionBase details limits = .ok index) :
    ∃ file granules terms postings, sidecarBytes = SidecarFile.bytes file ∧
      file.manifestBytes = manifestBytes ∧
      SectionsRead env file manifest details limits granules terms postings ∧
      restoreIndex manifest granules terms postings limits = .ok index := by
  unfold openSections at h
  obtain ⟨_, hpayload, h⟩ := bind_eq_ok_iff.mp h
  obtain ⟨-, rfl⟩ := usizeToU64_eq_ok_iff.mp hpayload
  obtain ⟨_, hlayout, h⟩ := bind_eq_ok_iff.mp h
  obtain ⟨granuleBytes, hgranuleSlice, h⟩ := bind_eq_ok_iff.mp h
  obtain ⟨termBytes, htermSlice, h⟩ := bind_eq_ok_iff.mp h
  obtain ⟨postingBytes, hpostingSlice, h⟩ := bind_eq_ok_iff.mp h
  obtain ⟨granules, hgranules, h⟩ := bind_eq_ok_iff.mp h
  obtain ⟨_, hspans, h⟩ := bind_eq_ok_iff.mp h
  obtain ⟨terms, hterms, h⟩ := bind_eq_ok_iff.mp h
  obtain ⟨_, hcount, h⟩ := bind_eq_ok_iff.mp h
  obtain ⟨-, rfl⟩ := usizeToU64_eq_ok_iff.mp hcount
  obtain ⟨_, hdictionary, h⟩ := bind_eq_ok_iff.mp h
  obtain ⟨postings, hpostings, h⟩ := bind_eq_ok_iff.mp h
  obtain ⟨_, hdecoded, h⟩ := bind_eq_ok_iff.mp h
  obtain ⟨hgranulesAt, hgranulesSize, hgranulesChecksum⟩ := sectionAt_of_sectionSlice hgranuleSlice
  obtain ⟨htermsAt, htermsSize, htermsChecksum⟩ := sectionAt_of_sectionSlice htermSlice
  obtain ⟨hpostingsAt, hpostingsSize, hpostingsChecksum⟩ := sectionAt_of_sectionSlice hpostingSlice
  simp only [validateManifestLayout, bind_eq_ok_iff, okOr_eq_ok_iff, checkedAdd_eq_some_iff,
    rejectIf_eq_ok_iff, not_or, ne_eq, not_not, Nat.not_lt] at hlayout
  obtain ⟨_, ⟨-, rfl⟩, _, ⟨-, rfl⟩, _,
    ⟨hgranulesOffset, htermsOffset, hpostingsOffset, hindexSize⟩, _, hatLeast, hatMost⟩ := hlayout
  have hinside := hfront.inside
  have hheader : (sidecarMagic ++ leBytes 8 manifestBytes.length).length = 16 := by
    rw [List.length_append, length_leBytes]
    rfl
  rw [List.length_append, hheader] at hinside
  -- Each section stands where the one before it ends.
  have hfile : StandsAt sidecarBytes 0
      (SidecarFile.bytes ⟨manifestBytes, granuleBytes, termBytes, postingBytes⟩) := by
    apply StandsAt.append
    · apply StandsAt.append
      · apply hfront.append
        rw [List.length_append, hheader, Nat.zero_add, ← hbase]
        rwa [hgranulesOffset, Nat.add_zero] at hgranulesAt
      · rw [List.length_append, List.length_append, hheader, ← hbase, Nat.zero_add]
        rwa [htermsOffset, hgranulesSize] at htermsAt
    · rw [List.length_append, List.length_append, List.length_append, hheader, ← hbase, Nat.zero_add,
        Nat.add_assoc]
      rwa [hpostingsOffset, hgranulesSize, htermsSize] at hpostingsAt
  have hlength : (SidecarFile.bytes ⟨manifestBytes, granuleBytes, termBytes, postingBytes⟩).length =
      sidecarBytes.length := by
    rw [SidecarFile.bytes, List.length_append, List.length_append, List.length_append,
      List.length_append, hheader]
    dsimp only
    omega
  refine ⟨⟨manifestBytes, granuleBytes, termBytes, postingBytes⟩, granules, terms, postings,
    (hfile.eq_of_length hlength).symm, rfl, ?_, h⟩
  exact
    { describes := ⟨hmanifest, ⟨hgranulesOffset, hgranulesSize⟩,
        ⟨by rw [htermsOffset, hgranulesSize], htermsSize⟩,
        ⟨by rw [hpostingsOffset, hgranulesSize, htermsSize], hpostingsSize⟩⟩
      indexSize := by rw [hindexSize, hgranulesSize, htermsSize, hpostingsSize]
      checksums := ⟨hgranulesChecksum, htermsChecksum, hpostingsChecksum⟩
      granuleSection := hgranules
      spans := checkAll_eq_ok_iff.mp hspans
      termSection := hterms
      dictionary := hdictionary
      postingSection := hpostings
      decoded := hdecoded }

/-! ## What was opened -/

/-- The values that the opener goes through. -/
structure OpenedParts where
  file : SidecarFile
  details : SkeletonDetails
  footerChecksum : Checksum
  granules : List SearchGranule
  terms : List TermDictionaryEntry
  postings : List (List Nat)

/-- The file passes every check against its container, and its sections make up the index. -/
structure OpenedParts.Follows (parts : OpenedParts) (env : Env) (bytes : List UInt8)
    (limits : SidecarLimits) (sidecar : QziSidecar) : Prop where
  details : openSkeletonDetails env bytes = .ok parts.details
  footerChecksum : qztFooterChecksum env bytes parts.details.footerPayloadOffset =
    .ok parts.footerChecksum
  source : checkSource sidecar.manifest parts.details = .ok ⟨⟩
  sourceFooter : checkSourceFooter sidecar.manifest parts.details parts.footerChecksum = .ok ⟨⟩
  manifestSize : parts.file.manifestBytes.length ≤ limits.maxManifestSize
  resources : validateManifestResourceLimits sidecar.manifest limits = .ok ⟨⟩
  sections : SectionsRead env parts.file sidecar.manifest parts.details limits parts.granules
    parts.terms parts.postings
  index : restoreIndex sidecar.manifest parts.granules parts.terms parts.postings limits =
    .ok sidecar.index

theorem OpenedParts.follows_of_open {bytes : List UInt8} {sidecar : QziSidecar}
    (h : QziSidecar.openWithLimits env bytes sidecarBytes limits = .ok sidecar) :
    ∃ parts : OpenedParts, sidecarBytes = parts.file.bytes ∧
      parts.Follows env bytes limits sidecar := by
  unfold QziSidecar.openWithLimits at h
  obtain ⟨⟨manifest, manifestEnd⟩, hmanifest, h⟩ := bind_eq_ok_iff.mp h
  obtain ⟨_, hresources, h⟩ := bind_eq_ok_iff.mp h
  obtain ⟨details, hdetails, h⟩ := bind_eq_ok_iff.mp h
  obtain ⟨_, hsource, h⟩ := bind_eq_ok_iff.mp h
  obtain ⟨checksum, hchecksum, h⟩ := bind_eq_ok_iff.mp h
  obtain ⟨_, hfooter, h⟩ := bind_eq_ok_iff.mp h
  obtain ⟨index, hsections, h⟩ := bind_eq_ok_iff.mp h
  obtain rfl := Except.ok.inj h
  obtain ⟨manifestBytes, hfront, hdecodes, hend, hsize⟩ := standsAt_of_readManifest hmanifest
  obtain ⟨file, granules, terms, postings, htiles, rfl, hread, hrestore⟩ :=
    sectionsRead_of_openSections hfront hdecodes hend hsections
  exact ⟨⟨file, details, checksum, granules, terms, postings⟩, htiles,
    { details := hdetails
      footerChecksum := hchecksum
      source := hsource
      sourceFooter := hfooter
      manifestSize := hsize
      resources := hresources
      sections := hread
      index := hrestore }⟩

end Sections

end Qzt.Sidecar
