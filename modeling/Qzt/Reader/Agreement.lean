import Qzt.Reader.Readers

/-!
# The two readers agree

A positioned source that serves exactly a byte string is indistinguishable from the
byte string itself: opening succeeds or fails in the same way, and every read and every
verification gives the same result.
-/

namespace Qzt

open Foundation

/-- A positioned source that serves exactly `bytes`; its length is a `u64`. -/
structure FaithfulSource (bytes : List UInt8) where
  source : ReadAt
  len : Nat
  len_eq : len = bytes.length
  len_lt : len < 2 ^ 64
  readExactAt_eq : ∀ offset size, offset + size ≤ bytes.length →
    source.readExactAt offset size = .ok (slice bytes offset size)

/-- Positioned reads of a byte string in memory. -/
def memorySource (bytes : List UInt8) : ReadAt where
  readExactAt := fun offset size =>
    if offset + size ≤ bytes.length then .ok (slice bytes offset size) else .error .unexpectedEof

/-- The memory source serves its bytes. -/
def servedInMemory (bytes : List UInt8) (h : bytes.length < 2 ^ 64) : FaithfulSource bytes where
  source := memorySource bytes
  len := bytes.length
  len_eq := rfl
  len_lt := h
  readExactAt_eq := fun _ _ hle => if_pos hle

variable {env : Env} {bytes : List UInt8} (served : FaithfulSource bytes)

namespace FaithfulSource

/-- An in-range positioned read returns the slice. -/
theorem readExactAtQzt_eq {offset size : Nat} (h : offset + size ≤ bytes.length) :
    readExactAtQzt served.source offset size = .ok (slice bytes offset size) := by
  simp [readExactAtQzt, served.readExactAt_eq offset size h]

/-- A checked range of the byte string. -/
theorem slicePhysical_of_le {range : PhysicalRange}
    (hend : range.offset + range.size < 2 ^ 64)
    (hlen : range.offset + range.size ≤ bytes.length) :
    slicePhysical bytes range = .ok (slice bytes range.offset range.size) := by
  have hstop := checkedPhysicalEnd_of_lt hend
  have hrange : getRange? bytes range.offset (range.offset + range.size)
      = some (slice bytes range.offset range.size) := by
    rw [getRange?_eq_some_iff]
    exact ⟨⟨by omega, hlen⟩, by rw [Nat.add_sub_cancel_left]⟩
  simp only [slicePhysical, hstop, ok_bind, rejectIf_of_not (Nat.not_lt.mpr hlen), hrange, okOr_some]

/-- The two block readers are one function. -/
theorem readPhysicalAt_eq (range : PhysicalRange) :
    readPhysicalAt served.source served.len range = slicePhysical bytes range := by
  rcases Nat.lt_or_ge (range.offset + range.size) (2 ^ 64) with hend | hend
  · have hstop := checkedPhysicalEnd_of_lt hend
    have hsize : u64ToUsize range.size = .ok range.size := u64ToUsize_of_lt (by omega)
    rcases Nat.lt_or_ge bytes.length (range.offset + range.size) with hlen | hlen
    · simp only [readPhysicalAt, slicePhysical, hstop, ok_bind, served.len_eq,
        rejectIf_of (show range.offset + range.size > bytes.length from hlen), error_bind]
    · rw [slicePhysical_of_le hend hlen]
      simp only [readPhysicalAt, hstop, ok_bind, served.len_eq,
        rejectIf_of_not (Nat.not_lt.mpr hlen), hsize]
      exact served.readExactAtQzt_eq hlen
  · have hstop := checkedPhysicalEnd_of_ge hend
    simp only [readPhysicalAt, slicePhysical, hstop, error_bind]

theorem readBlockRefAt_eq (block : BlockRef) :
    readBlockRefAt served.source served.len block = sliceBlockRef bytes block :=
  served.readPhysicalAt_eq _

/-! ## Opening -/

theorem parseDictionaryDescriptorsAt_eq (containerId : ContainerId) (limits : ResourceLimits)
    (descriptors : List BlockDescriptor) (dictionaries : List DictionaryEntry) :
    parseDictionaryDescriptorsAt env served.source served.len containerId limits descriptors
        dictionaries
      = parseDictionaryDescriptors env bytes containerId limits descriptors dictionaries := by
  induction descriptors generalizing dictionaries with
  | nil => rfl
  | cons descriptor descriptors ih =>
    simp only [parseDictionaryDescriptorsAt, parseDictionaryDescriptors, served.readPhysicalAt_eq,
      ih]

theorem parseDenseDescriptorsAt_eq (chunkEntries : List ChunkEntry) (limits : ResourceLimits)
    (descriptors : List BlockDescriptor) (dense : Option DenseLineIndex) :
    parseDenseDescriptorsAt env served.source served.len chunkEntries limits descriptors dense
      = parseDenseDescriptors env bytes chunkEntries limits descriptors dense := by
  induction descriptors generalizing dense with
  | nil => rfl
  | cons descriptor descriptors ih =>
    simp only [parseDenseDescriptorsAt, parseDenseDescriptors, served.readPhysicalAt_eq, ih]

theorem parseDocumentDescriptorsAt_eq (containerId : ContainerId) (limits : ResourceLimits)
    (descriptors : List BlockDescriptor) (documentIndex : Option DocumentIndex) :
    parseDocumentDescriptorsAt env served.source served.len containerId limits descriptors
        documentIndex
      = parseDocumentDescriptors env bytes containerId limits descriptors documentIndex := by
  induction descriptors generalizing documentIndex with
  | nil => rfl
  | cons descriptor descriptors ih =>
    simp only [parseDocumentDescriptorsAt, parseDocumentDescriptors, served.readPhysicalAt_eq, ih]

/-- The two openers are one function. -/
theorem openSkeletonDetailsReadAt_eq (limits : ResourceLimits) :
    openSkeletonDetailsReadAt env served.source served.len limits
      = openSkeletonDetailsWithLimits env bytes limits := by
  have hlen := served.len_eq
  have hsize : usizeToU64 bytes.length = .ok bytes.length :=
    usizeToU64_of_lt (hlen ▸ served.len_lt)
  simp only [openSkeletonDetailsReadAt, openSkeletonDetailsWithLimits, hlen, hsize, ok_bind]
  by_cases hheader : bytes.length < headerLen
  · simp only [rejectIf_of hheader, error_bind]
  by_cases htrailer : bytes.length < headerLen + footerTrailerLen
  · simp only [rejectIf_of_not hheader, rejectIf_of htrailer, ok_bind, error_bind]
  have hsub := checkedSub_of_le (show footerTrailerLen ≤ bytes.length by omega)
  have hhead := served.readExactAtQzt_eq (show 0 + headerLen ≤ bytes.length by omega)
  have htail := served.readExactAtQzt_eq
    (show bytes.length - footerTrailerLen + footerTrailerLen ≤ bytes.length by omega)
  have hphysical : readPhysicalAt served.source bytes.length = slicePhysical bytes := by
    funext range
    rw [← hlen, served.readPhysicalAt_eq]
  have hblock : readBlockRefAt served.source bytes.length = sliceBlockRef bytes := by
    funext block
    rw [← hlen, served.readBlockRefAt_eq]
  have hdictionaries : parseDictionaryBlocksAt env served.source bytes.length
      = parseDictionaryBlocks env bytes := by
    funext indexRoot containerId limits
    rw [← hlen]
    exact served.parseDictionaryDescriptorsAt_eq ..
  have hdense : parseDenseLineIndexAt env served.source bytes.length
      = parseDenseLineIndex env bytes := by
    funext indexRoot chunkEntries limits
    rw [← hlen]
    exact served.parseDenseDescriptorsAt_eq ..
  have hdocuments : parseDocumentIndexAt env served.source bytes.length
      = parseDocumentIndex env bytes := by
    funext indexRoot containerId limits
    rw [← hlen]
    exact served.parseDocumentDescriptorsAt_eq ..
  simp only [rejectIf_of_not hheader, rejectIf_of_not htrailer, hsub, hhead, htail, hphysical,
    hblock, hdictionaries, hdense, hdocuments, okOr_some, ok_bind]

/-! ## Hashing in pieces -/

/-- Hashing a positioned range in pieces absorbs the bytes of the range. -/
theorem hashReadAtLoop_spec {fuel position remaining : Nat} {hasher : env.blake3.Hasher}
    {seen : List UInt8} (hfuel : remaining ≤ fuel) (hrange : position + remaining ≤ bytes.length)
    (hseen : env.blake3.Absorbed hasher seen) :
    ∃ hasher', hashReadAtLoop env served.source fuel position remaining hasher = .ok hasher' ∧
      env.blake3.Absorbed hasher' (seen ++ slice bytes position remaining) := by
  induction fuel generalizing position remaining hasher seen with
  | zero =>
    obtain rfl : remaining = 0 := by omega
    exact ⟨hasher, rfl, by simpa using hseen⟩
  | succ fuel ih =>
    by_cases hpos : remaining > 0
    · -- one piece, then the rest of the range
      have hlt := served.len_lt
      rw [served.len_eq] at hlt
      have hbuffer : 0 < hashBufferSize := by decide
      have hread := served.readExactAt_eq position (min remaining hashBufferSize) (by omega)
      have hnext := checkedAdd_of_lt (show position + min remaining hashBufferSize < 2 ^ 64 by omega)
      obtain ⟨hasher', hloop, habsorbed⟩ := @ih (position + min remaining hashBufferSize)
        (remaining - min remaining hashBufferSize) _ _ (by omega) (by omega)
        (hseen.update (slice bytes position (min remaining hashBufferSize)))
      refine ⟨hasher', ?_, ?_⟩
      · rw [hashReadAtLoop, if_pos hpos]
        simp only [hread, ok_bind, hnext, okOr_some, hloop]
      · rw [List.append_assoc, slice_append_slice] at habsorbed
        rwa [show min remaining hashBufferSize + (remaining - min remaining hashBufferSize)
          = remaining by omega] at habsorbed
    · obtain rfl : remaining = 0 := by omega
      exact ⟨hasher, rfl, by simpa using hseen⟩

end FaithfulSource

/-! ## Reading -/

/-- A reader over memory and a reader over a positioned source that return the same value or the
same error code from every operation. -/
structure SameReads (env : Env) (reader : QztReader) (fileReader : QztFileReader) : Prop where
  exportAll : fileReader.exportAll env = reader.exportAll env
  readRange : ∀ offset length,
    fileReader.readRange env offset length = reader.readRange env offset length
  readRangeWithMetrics : ∀ offset length,
    fileReader.readRangeWithMetrics env offset length
      = reader.readRangeWithMetrics env offset length
  readTextRange : ∀ offset length,
    fileReader.readTextRange env offset length = reader.readTextRange env offset length
  readRangeVerified : ∀ offset length expected,
    fileReader.readRangeVerified env offset length expected
      = reader.readRangeVerified env offset length expected
  readDocument : ∀ docId, fileReader.readDocument env docId = reader.readDocument env docId
  readDocumentVerified : ∀ docId expected,
    fileReader.readDocumentVerified env docId expected
      = reader.readDocumentVerified env docId expected
  readLineRaw : ∀ line, fileReader.readLineRaw env line = reader.readLineRaw env line
  readLineText : ∀ line, fileReader.readLineText env line = reader.readLineText env line
  verify : ∀ level, fileReader.verify env level = reader.verify env level

/-- The file reader over a served byte string. -/
def FaithfulSource.fileReader (served : FaithfulSource bytes) (details : SkeletonDetails) :
    QztFileReader where
  source := served.source
  len := served.len
  details := details

namespace FaithfulSource

theorem readPhysical_eq (details : SkeletonDetails) (range : PhysicalRange) :
    (served.fileReader details).readPhysical range
      = QztReader.slicePhysical { bytes, details } range :=
  served.readPhysicalAt_eq range

theorem decodeEntry_eq (details : SkeletonDetails) :
    (served.fileReader details).decodeEntry env = QztReader.decodeEntry env { bytes, details } := by
  funext entry
  simp only [QztFileReader.decodeEntry, QztReader.decodeEntry, served.readPhysical_eq]
  rfl

/-- Hashing a physical range in pieces is hashing the slice. -/
theorem hashPhysicalRange_eq (details : SkeletonDetails) {start stop : Nat} (hstart : start ≤ stop)
    (hstop : stop ≤ bytes.length) :
    (served.fileReader details).hashPhysicalRange env start stop
      = .ok (Checksum.blake3 env (slice bytes start (stop - start))) := by
  have hlen : (served.fileReader details).len = bytes.length := served.len_eq
  have hok : ¬ (stop > (served.fileReader details).len ∨ start > stop) := by omega
  obtain ⟨hasher, hloop, habsorbed⟩ := served.hashReadAtLoop_spec (Nat.le_refl (stop - start))
    (show start + (stop - start) ≤ bytes.length by omega) (env.blake3.absorbed_new)
  have hrange : hashReadAtRange env (served.fileReader details).source start (stop - start)
      = .ok hasher := hloop
  simp only [QztFileReader.hashPhysicalRange, rejectIf_of_not hok, ok_bind, hrange,
    Checksum.fromHasher, Checksum.blake3, habsorbed.finalize, List.nil_append]

theorem hashPhysicalRange_of_not (details : SkeletonDetails) {start stop : Nat}
    (h : ¬ (start ≤ stop ∧ stop ≤ bytes.length)) :
    (served.fileReader details).hashPhysicalRange env start stop
      = .error .physicalRangeOutOfBounds := by
  have hlen : (served.fileReader details).len = bytes.length := served.len_eq
  have hbad : stop > (served.fileReader details).len ∨ start > stop := by omega
  simp only [QztFileReader.hashPhysicalRange, rejectIf_of hbad, error_bind]

theorem verifyNormalEntry_eq (details : SkeletonDetails) (entry : ChunkEntry) :
    (served.fileReader details).verifyNormalEntry env entry
      = QztReader.verifyNormalEntry env { bytes, details } entry := by
  simp only [QztFileReader.verifyNormalEntry, QztReader.verifyNormalEntry, QztReader.slicePhysical]
  rcases Nat.lt_or_ge (entry.physicalOffset + entry.compressedSize) (2 ^ 64) with hend | hend
  · have hstop := checkedPhysicalEnd_of_lt hend
    simp only [hstop, ok_bind]
    rcases Nat.lt_or_ge bytes.length (entry.physicalOffset + entry.compressedSize) with hlen | hlen
    · rw [served.hashPhysicalRange_of_not details (by omega)]
      simp only [rejectIf_of (show entry.physicalOffset + entry.compressedSize > bytes.length
        from hlen), error_bind]
    · have hrange : getRange? bytes entry.physicalOffset
          (entry.physicalOffset + entry.compressedSize)
          = some (slice bytes entry.physicalOffset
              (entry.physicalOffset + entry.compressedSize - entry.physicalOffset)) := by
        rw [getRange?_eq_some_iff]
        exact ⟨⟨by omega, hlen⟩, rfl⟩
      rw [served.hashPhysicalRange_eq details (by omega) hlen]
      simp only [rejectIf_of_not (Nat.not_lt.mpr hlen), ok_bind, hrange, okOr_some]
  · have hstop := checkedPhysicalEnd_of_ge hend
    simp only [hstop, error_bind]

theorem verifyPrefix_eq (details : SkeletonDetails) :
    (served.fileReader details).verifyPrefix env
      = QztReader.verifyPrefix env { bytes, details } := by
  simp only [QztFileReader.verifyPrefix, QztReader.verifyPrefix, QztFileReader.hashPhysicalPrefix]
  have hdetails : (served.fileReader details).details = details := rfl
  rw [hdetails]
  cases details.footerPayload.containerChecksum with
  | none => rfl
  | some expected =>
    rcases Nat.lt_or_ge bytes.length details.footerPayloadOffset with hlen | hlen
    · rw [served.hashPhysicalRange_of_not details (by omega)]
      simp only [getRange?, if_neg (show ¬ (0 ≤ details.footerPayloadOffset ∧
        details.footerPayloadOffset ≤ bytes.length) by omega), okOr_none, error_bind]
    · rw [served.hashPhysicalRange_eq details (Nat.zero_le _) hlen]
      simp only [getRange?, if_pos (show 0 ≤ details.footerPayloadOffset ∧
        details.footerPayloadOffset ≤ bytes.length by omega), okOr_some, ok_bind]

theorem verifyNormal_eq (details : SkeletonDetails) :
    (served.fileReader details).verifyNormal env
      = QztReader.verifyNormal env { bytes, details } := by
  have hentry : (served.fileReader details).verifyNormalEntry env
      = QztReader.verifyNormalEntry env { bytes, details } :=
    funext fun entry => served.verifyNormalEntry_eq details entry
  simp only [QztFileReader.verifyNormal, QztReader.verifyNormal, hentry, served.verifyPrefix_eq]
  rfl

/-- Every operation of the two readers agrees once the details agree. -/
theorem sameReads (details : SkeletonDetails) :
    SameReads env { bytes, details } (served.fileReader details) := by
  have hdecode : (served.fileReader details).decodeEntry env =
      (QztReader.mk bytes details).decodeEntry env := served.decodeEntry_eq details
  have hrange : ∀ offset length, (served.fileReader details).readRange env offset length
      = QztReader.readRange env { bytes, details } offset length := by
    intro offset length
    simp only [QztFileReader.readRange, QztReader.readRange, hdecode]
    rfl
  have hline : ∀ line, (served.fileReader details).readLineRaw env line
      = QztReader.readLineRaw env { bytes, details } line := by
    intro line
    simp only [QztFileReader.readLineRaw, QztReader.readLineRaw, hdecode]
    rfl
  have hdocument : ∀ docId, (served.fileReader details).readDocument env docId
      = QztReader.readDocument env { bytes, details } docId := by
    intro docId
    simp only [QztFileReader.readDocument, QztReader.readDocument, hrange]
    rfl
  exact {
    exportAll := by
      simp only [QztFileReader.exportAll, QztReader.exportAll, hdecode]
      rfl
    readRange := hrange
    readRangeWithMetrics := by
      intro offset length
      simp only [QztFileReader.readRangeWithMetrics, QztReader.readRangeWithMetrics, hdecode]
      rfl
    readTextRange := by
      intro offset length
      simp only [QztFileReader.readTextRange, QztReader.readTextRange, hrange]
    readRangeVerified := by
      intro offset length expected
      simp only [QztFileReader.readRangeVerified, QztReader.readRangeVerified, hrange]
    readDocument := hdocument
    readDocumentVerified := by
      intro docId expected
      simp only [QztFileReader.readDocumentVerified, QztReader.readDocumentVerified, hdocument]
    readLineRaw := hline
    readLineText := by
      intro line
      simp only [QztFileReader.readLineText, QztReader.readLineText, hline]
    verify := by
      intro level
      cases level with
      | quick => rfl
      | normal => exact served.verifyNormal_eq details
      | deep =>
        simp only [QztFileReader.verify, QztReader.verify, QztFileReader.verifyDeep,
          QztReader.verifyDeep, served.verifyNormal_eq, hdecode]
        rfl }

end FaithfulSource

/-- Two attempts to open one container: both succeed with the same details and readers that agree,
or both fail with the same error code. -/
def OpensAlike (env : Env) : Result QztReader → Result QztFileReader → Prop
  | .ok reader, .ok fileReader =>
    fileReader.details = reader.details ∧ SameReads env reader fileReader
  | .error e, .error e' => e = e'
  | _, _ => False

/-- For every byte string, hostile or not, and every limits, the reader over a faithful source is
indistinguishable from the reader over memory. -/
theorem fileReader_agrees_with_reader (env : Env) (bytes : List UInt8)
    (served : FaithfulSource bytes) (limits : ResourceLimits) :
    OpensAlike env (QztReader.openWithLimits env bytes limits)
      (QztFileReader.openReadAtWithLimits env served.source served.len limits) := by
  simp only [QztReader.openWithLimits, QztFileReader.openReadAtWithLimits,
    served.openSkeletonDetailsReadAt_eq]
  cases openSkeletonDetailsWithLimits env bytes limits with
  | error e => rfl
  | ok details => exact ⟨rfl, served.sameReads details⟩

end Qzt
