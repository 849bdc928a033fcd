import Qzt.Reader.TextRanges

/-!
# A file behind the reader (`io.rs`)

A positioned read of a file may return fewer bytes than it was asked for, and may fail.  The loop of
`read_exact_at` asks again for the rest.  What a reader over such a file answers is what the reader
over its bytes answers, or an error.
-/

namespace Qzt

open Foundation

/-! ## Positioned reads of a file -/

/-- A file of at most `u64::MAX` bytes.  `readAt call offset size` is what the `call`-th call of
`FileExt::read_at` returns: the number of bytes, or an error. -/
structure PositionedFile where
  bytes : List UInt8
  length_lt : bytes.length < 2 ^ 64
  readAt : Nat → Nat → Nat → Except IoErrorKind Nat
  /-- A call fills at most its buffer, and not beyond the end of the file. -/
  atMost : ∀ {call offset size count}, readAt call offset size = .ok count →
    count ≤ size ∧ count ≤ bytes.length - offset
  /-- A call returns nothing only at the end of the file. -/
  progress : ∀ {call offset size}, readAt call offset size = .ok 0 →
    size = 0 ∨ bytes.length ≤ offset

namespace PositionedFile

variable (file : PositionedFile)

/-- `File::read_exact_at`, from the `call`-th call of `read_at` on. -/
def readExactAt (call offset size : Nat) : Except IoErrorKind (List UInt8) :=
  if size = 0 then .ok []
  else
    match file.readAt call offset size with
    | .error kind => .error kind
    | .ok read =>
      if read = 0 then .error .unexpectedEof
      else do
        let current ← okOr .invalidInput (checkedAdd offset read)
        let rest ← readExactAt (call + 1) current (size - read)
        return slice file.bytes offset read ++ rest
termination_by size
decreasing_by omega

/-- A call that failed with an error. -/
def FailsWith (kind : IoErrorKind) : Prop :=
  ∃ call offset size, file.readAt call offset size = .error kind

/-- The loop reads the range that it was asked for, finds that the file ends before it, or passes
the error of a call on. -/
inductive Outcome (offset size : Nat) : Except IoErrorKind (List UInt8) → Prop
  | read (hrange : size = 0 ∨ offset + size ≤ file.bytes.length) :
      Outcome offset size (.ok (slice file.bytes offset size))
  | ends (hrange : ¬ (size = 0 ∨ offset + size ≤ file.bytes.length)) :
      Outcome offset size (.error .unexpectedEof)
  | fails {kind : IoErrorKind} (h : file.FailsWith kind) : Outcome offset size (.error kind)

theorem readExactAt_outcome (call offset size : Nat) :
    file.Outcome offset size (file.readExactAt call offset size) := by
  induction size using Nat.strong_induction_on generalizing call offset with
  | _ size ih =>
    rw [readExactAt]
    by_cases hzero : size = 0
    · rw [if_pos hzero, hzero]
      have hread : file.Outcome offset 0 (.ok (slice file.bytes offset 0)) := .read (.inl rfl)
      rwa [slice_length_zero] at hread
    · rw [if_neg hzero]
      cases hread : file.readAt call offset size with
      | error kind => exact .fails ⟨call, offset, size, hread⟩
      | ok read =>
        obtain ⟨hfills, hinside⟩ := file.atMost hread
        dsimp only
        by_cases hnone : read = 0
        · rw [if_pos hnone]
          subst hnone
          have hend := (file.progress hread).resolve_left hzero
          exact .ends (by omega)
        · -- The offset stays within the file, so that it does not overflow.
          have hlength := file.length_lt
          rw [if_neg hnone, checkedAdd_of_lt (by omega), okOr_some, ok_bind]
          have hrest := ih (size - read) (by omega) (call + 1) (offset + read)
          generalize hresult : file.readExactAt (call + 1) (offset + read) (size - read) = result
            at hrest
          cases hrest with
          | read hrange =>
            have hwhole : slice file.bytes offset read ++
                slice file.bytes (offset + read) (size - read) = slice file.bytes offset size := by
              rw [slice_append_slice, Nat.add_sub_cancel' hfills]
            rw [ok_bind, hwhole]
            exact .read (by omega)
          | ends hrange => exact .ends (by omega)
          | fails h => exact .fails h

/-- The file as a source.  `schedule` says at which call of `read_at` a read starts. -/
def source (schedule : Nat → Nat → Nat) : ReadAt where
  readExactAt := fun offset size => file.readExactAt (schedule offset size) offset size

/-- The file with calls that read all they are asked for. -/
def undisturbed : FaithfulSource file.bytes where
  source :=
    { readExactAt := fun offset size =>
        if size = 0 ∨ offset + size ≤ file.bytes.length then .ok (slice file.bytes offset size)
        else .error .unexpectedEof }
  len := file.bytes.length
  len_eq := rfl
  len_lt := file.length_lt
  readExactAt_eq := fun _ _ hrange => if_pos (.inr hrange)

/-- Without failures the file serves its bytes faithfully. -/
theorem served_of_never (hnever : ∀ kind, ¬ file.FailsWith kind) (schedule : Nat → Nat → Nat) :
    ∃ served : FaithfulSource file.bytes, served.source = file.source schedule ∧
      served.len = file.bytes.length := by
  have hread : ∀ offset size, offset + size ≤ file.bytes.length →
      (file.source schedule).readExactAt offset size = .ok (slice file.bytes offset size) := by
    intro offset size hrange
    have houtcome := file.readExactAt_outcome (schedule offset size) offset size
    change file.readExactAt (schedule offset size) offset size = _
    generalize file.readExactAt (schedule offset size) offset size = result at houtcome
    cases houtcome with
    | read _ => rfl
    | ends hends => exact absurd (.inr hrange) hends
    | fails hfails => exact absurd hfails (hnever _)
  exact ⟨⟨file.source schedule, file.bytes.length, rfl, file.length_lt, hread⟩, rfl, rfl⟩

/-- A file that returns one byte at a time. -/
def trickle (bytes : List UInt8) (h : bytes.length < 2 ^ 64) : PositionedFile where
  bytes := bytes
  length_lt := h
  readAt := fun _ offset size => .ok (min (min size 1) (bytes.length - offset))
  atMost := by
    intro call offset size count hcount
    obtain rfl := Except.ok.inj hcount
    omega
  progress := by
    intro call offset size hcount
    have hnone := Except.ok.inj hcount
    omega

theorem trickle_served {bytes : List UInt8} (h : bytes.length < 2 ^ 64)
    (schedule : Nat → Nat → Nat) : ∃ served : FaithfulSource bytes,
      served.source = (trickle bytes h).source schedule ∧ served.len = bytes.length := by
  apply (trickle bytes h).served_of_never
  rintro kind ⟨call, offset, size, hfails⟩
  cases hfails

end PositionedFile

/-! ## Reads that may fail -/

/-- Whatever a source returns, the other returns too. -/
def ReadAt.Within (source other : ReadAt) : Prop :=
  ∀ offset size, Admits (source.readExactAt offset size) (other.readExactAt offset size)

theorem PositionedFile.source_within (file : PositionedFile) (schedule : Nat → Nat → Nat) :
    (file.source schedule).Within file.undisturbed.source := by
  intro offset size bytes h
  change file.readExactAt (schedule offset size) offset size = .ok bytes at h
  have houtcome := file.readExactAt_outcome (schedule offset size) offset size
  rw [h] at houtcome
  cases houtcome with
  | read hrange => exact if_pos hrange

section Collections

variable {ε α β : Type} {f f' : α → Except ε β}

theorem admits_collect {items : List α} (h : ∀ item ∈ items, Admits (f item) (f' item)) :
    Admits (collect f items) (collect f' items) := by
  intro results hresults
  rw [collect_eq_ok_iff] at hresults ⊢
  rw [List.forall₂_iff_zip] at hresults ⊢
  refine ⟨hresults.1, ?_⟩
  intro item result hmem
  exact h item (List.of_mem_zip hmem).1 result (hresults.2 hmem)

theorem admits_checkAll {check check' : α → Except ε Unit} {items : List α}
    (h : ∀ item ∈ items, Admits (check item) (check' item)) :
    Admits (checkAll check items) (checkAll check' items) := by
  rintro ⟨⟩ hall
  rw [checkAll_eq_ok_iff] at hall ⊢
  intro item hitem
  exact h item hitem ⟨⟩ (hall item hitem)

end Collections

section Within

variable {env : Env} {source other : ReadAt} (h : source.Within other)
include h

theorem admits_readExactAtQzt (offset len : Nat) :
    Admits (readExactAtQzt source offset len) (readExactAtQzt other offset len) := by
  intro bytes hread
  rw [readExactAtQzt] at hread ⊢
  cases hsource : source.readExactAt offset len with
  | error kind =>
    rw [hsource] at hread
    cases hread
  | ok found =>
    rw [hsource] at hread
    rw [h offset len found hsource]
    exact hread

theorem admits_readPhysicalAt (finalFileSize : Nat) (range : PhysicalRange) :
    Admits (readPhysicalAt source finalFileSize range)
      (readPhysicalAt other finalFileSize range) := by
  apply admits_bind_right
  intro stop _
  apply admits_bind_right
  intro _ _
  apply admits_bind_right
  intro len _
  exact admits_readExactAtQzt h range.offset len

/-! ### Opening -/

theorem admits_parseDictionaryBlocksAt {finalFileSize : Nat} {containerId : ContainerId}
    {limits : ResourceLimits} (descriptors : List BlockDescriptor)
    (dictionaries : List DictionaryEntry) :
    Admits (parseDictionaryDescriptorsAt env source finalFileSize containerId limits descriptors
        dictionaries)
      (parseDictionaryDescriptorsAt env other finalFileSize containerId limits descriptors
        dictionaries) := by
  induction descriptors generalizing dictionaries with
  | nil => exact admits_refl _
  | cons descriptor descriptors ih =>
    apply admits_bind_right
    intro _ _
    apply admits_bind_right
    intro _ _
    apply admits_bind (admits_readPhysicalAt h _ _)
    intro bytes _
    apply admits_bind_right
    intro _ _
    apply admits_bind_right
    intro _ _
    apply admits_bind_right
    intro block _
    apply admits_bind_right
    intro _ _
    apply admits_bind_right
    intro dictionaries _
    exact ih dictionaries

theorem admits_parseDenseLineIndexAt {finalFileSize : Nat} {chunkEntries : List ChunkEntry}
    {limits : ResourceLimits} (descriptors : List BlockDescriptor)
    (dense : Option DenseLineIndex) :
    Admits (parseDenseDescriptorsAt env source finalFileSize chunkEntries limits descriptors dense)
      (parseDenseDescriptorsAt env other finalFileSize chunkEntries limits descriptors dense) := by
  induction descriptors generalizing dense with
  | nil => exact admits_refl _
  | cons descriptor descriptors ih =>
    apply admits_bind_right
    intro _ _
    apply admits_bind_right
    intro _ _
    apply admits_bind (admits_readPhysicalAt h _ _)
    intro bytes _
    apply admits_bind_right
    intro _ _
    apply admits_bind_right
    intro dense _
    exact ih (some dense)

theorem admits_parseDocumentIndexAt {finalFileSize : Nat} {containerId : ContainerId}
    {limits : ResourceLimits} (descriptors : List BlockDescriptor)
    (documentIndex : Option DocumentIndex) :
    Admits (parseDocumentDescriptorsAt env source finalFileSize containerId limits descriptors
        documentIndex)
      (parseDocumentDescriptorsAt env other finalFileSize containerId limits descriptors
        documentIndex) := by
  induction descriptors generalizing documentIndex with
  | nil => exact admits_refl _
  | cons descriptor descriptors ih =>
    apply admits_bind_right
    intro _ _
    apply admits_bind_right
    intro _ _
    apply admits_bind (admits_readPhysicalAt h _ _)
    intro bytes _
    apply admits_bind_right
    intro _ _
    apply admits_bind_right
    intro _ _
    apply admits_bind_right
    intro block _
    apply admits_bind_right
    intro _ _
    exact ih (some block)

theorem admits_openSkeletonDetailsReadAt (finalFileSize : Nat) (limits : ResourceLimits) :
    Admits (openSkeletonDetailsReadAt env source finalFileSize limits)
      (openSkeletonDetailsReadAt env other finalFileSize limits) := by
  iterate 2
    apply admits_bind_right
    intro _ _
  -- The header and the trailer.
  apply admits_bind (admits_readExactAtQzt h _ _)
  intro headerBytes _
  iterate 2
    apply admits_bind_right
    intro _ _
  apply admits_bind (admits_readExactAtQzt h _ _)
  intro trailerBytes _
  apply admits_bind_right
  intro trailer _
  -- The footer payload, the metadata, the index root and the chunk table.
  apply admits_bind (admits_readPhysicalAt h _ _)
  intro footerPayloadBytes _
  iterate 7
    apply admits_bind_right
    intro _ _
  apply admits_bind (admits_readPhysicalAt h _ _)
  intro metadataBytes _
  iterate 5
    apply admits_bind_right
    intro _ _
  apply admits_bind (admits_readPhysicalAt h _ _)
  intro indexRootBytes _
  iterate 7
    apply admits_bind_right
    intro _ _
  apply admits_bind (admits_readPhysicalAt h _ _)
  intro chunkTableBytes _
  iterate 4
    apply admits_bind_right
    intro _ _
  -- The optional blocks.
  apply admits_bind (admits_parseDictionaryBlocksAt h _ _)
  intro dictionaries _
  apply admits_bind_right
  intro _ _
  apply admits_bind (admits_parseDenseLineIndexAt h _ _)
  intro denseLineIndex _
  apply admits_bind (admits_parseDocumentIndexAt h _ _)
  intro documentIndex _
  exact admits_refl _

/-! ### Hashing -/

theorem admits_hashReadAtLoop (fuel position remaining : Nat) (hasher : env.blake3.Hasher) :
    Admits (hashReadAtLoop env source fuel position remaining hasher)
      (hashReadAtLoop env other fuel position remaining hasher) := by
  induction fuel generalizing position remaining hasher with
  | zero => exact admits_refl _
  | succ fuel ih =>
    rw [hashReadAtLoop, hashReadAtLoop]
    split
    · apply admits_bind (h _ _)
      intro buffer _
      apply admits_bind_right
      intro position _
      exact ih _ _ _
    · exact admits_refl _

theorem admits_hashPhysicalRange {len : Nat} {details : SkeletonDetails} (start stop : Nat) :
    Admits (QztFileReader.hashPhysicalRange env ⟨source, len, details⟩ start stop)
      (QztFileReader.hashPhysicalRange env ⟨other, len, details⟩ start stop) := by
  apply admits_bind_right
  intro _ _ checksum hchecksum
  dsimp only at hchecksum ⊢
  cases hhash : hashReadAtRange env source start (stop - start) with
  | error kind =>
    rw [hhash] at hchecksum
    cases hchecksum
  | ok hasher =>
    rw [hhash] at hchecksum
    rw [hashReadAtRange, admits_hashReadAtLoop h _ _ _ _ hasher hhash]
    exact hchecksum

end Within

/-! ## Decoders that may fail -/

/-- Whatever a decoder returns, the other returns too. -/
def DecodeEntry.Within (decode other : DecodeEntry) : Prop :=
  ∀ entry, Admits (decode entry) (other entry)

section Decoders

variable {env : Env} {decode other : DecodeEntry} (h : decode.Within other)
include h

theorem admits_copyRange {offset stop : Nat} (entries : List ChunkEntry) (output : List UInt8)
    (cache : ChunkDecodeCache) :
    Admits (copyRange offset stop decode entries output cache)
      (copyRange offset stop other entries output cache) := by
  induction entries generalizing output cache with
  | nil => exact admits_refl _
  | cons entry entries ih =>
    apply admits_bind_right
    intro chunkEnd _
    split
    · exact admits_refl _
    · have hcached : Admits (cache.decodedEntry entry decode) (cache.decodedEntry entry other) := by
        rw [ChunkDecodeCache.decodedEntry, ChunkDecodeCache.decodedEntry]
        split
        · apply admits_bind (h entry)
          intro decoded _
          exact admits_refl _
        · exact admits_refl _
      apply admits_bind hcached
      intro cache _
      iterate 2
        apply admits_bind_right
        intro _ _
      exact ih _ _

theorem admits_readRangeFromEntriesCached (entries : List ChunkEntry)
    (originalSize offset length : Nat) (cache : ChunkDecodeCache) :
    Admits (readRangeFromEntriesCached entries originalSize offset length cache decode)
      (readRangeFromEntriesCached entries originalSize offset length cache other) := by
  iterate 2
    apply admits_bind_right
    intro _ _
  split
  · exact admits_refl _
  · apply admits_bind_right
    intro index _
    apply admits_bind (admits_copyRange h _ _ _)
    intro copied _
    exact admits_refl _

theorem admits_readRangeWithMetricsFromEntries (entries : List ChunkEntry)
    (originalSize offset length : Nat) :
    Admits (readRangeWithMetricsFromEntries entries originalSize offset length decode)
      (readRangeWithMetricsFromEntries entries originalSize offset length other) := by
  apply admits_bind (admits_readRangeFromEntriesCached h _ _ _ _ _)
  intro found _
  exact admits_refl _

theorem admits_continueLine (entries : List ChunkEntry) (output : List UInt8) :
    Admits (continueLine decode entries output) (continueLine other entries output) := by
  induction entries generalizing output with
  | nil => exact admits_refl _
  | cons entry entries ih =>
    apply admits_bind (h entry)
    intro decoded _
    dsimp only
    split
    · exact admits_refl _
    · exact ih _

theorem admits_readLineFromEntries (details : SkeletonDetails) (line : Nat) :
    Admits (readLineFromEntries details line decode) (readLineFromEntries details line other) := by
  iterate 3
    apply admits_bind_right
    intro _ _
  apply admits_bind (h _)
  intro startDecoded _
  apply admits_bind_right
  intro localStart _
  dsimp only
  split
  · exact admits_refl _
  · exact admits_continueLine h _ _

theorem admits_verifyDeepLoop {details : SkeletonDetails} (chunkIndex : Nat)
    (entries : List ChunkEntry) (state : DeepState env) :
    Admits (verifyDeepLoop env details decode chunkIndex entries state)
      (verifyDeepLoop env details other chunkIndex entries state) := by
  induction entries generalizing chunkIndex state with
  | nil => exact admits_refl _
  | cons entry entries ih =>
    have hentry : Admits (verifyDeepEntry env details decode chunkIndex entry state)
        (verifyDeepEntry env details other chunkIndex entry state) := by
      iterate 2
        apply admits_bind_right
        intro _ _
      apply admits_bind (h entry)
      intro decoded _
      exact admits_refl _
    apply admits_bind hentry
    intro state _
    exact ih _ _

theorem admits_verifyDeepEntries (details : SkeletonDetails) :
    Admits (verifyDeepEntries env details decode) (verifyDeepEntries env details other) := by
  apply admits_bind (admits_verifyDeepLoop h _ _ _)
  intro state _
  exact admits_refl _

end Decoders

/-! ## Readers over a file -/

/-- Whatever an operation of the file reader returns, the reader over memory returns too. -/
structure ReadsWithin (env : Env) (fileReader : QztFileReader) (reader : QztReader) : Prop where
  decodeEntry : DecodeEntry.Within (fileReader.decodeEntry env) (reader.decodeEntry env)
  exportAll : Admits (fileReader.exportAll env) (reader.exportAll env)
  readRange : ∀ offset length,
    Admits (fileReader.readRange env offset length) (reader.readRange env offset length)
  readRangeWithMetrics : ∀ offset length,
    Admits (fileReader.readRangeWithMetrics env offset length)
      (reader.readRangeWithMetrics env offset length)
  readTextRange : ∀ offset length,
    Admits (fileReader.readTextRange env offset length) (reader.readTextRange env offset length)
  readRangeVerified : ∀ offset length expected,
    Admits (fileReader.readRangeVerified env offset length expected)
      (reader.readRangeVerified env offset length expected)
  readDocument : ∀ docId, Admits (fileReader.readDocument env docId) (reader.readDocument env docId)
  readDocumentVerified : ∀ docId expected,
    Admits (fileReader.readDocumentVerified env docId expected)
      (reader.readDocumentVerified env docId expected)
  readLineRaw : ∀ line, Admits (fileReader.readLineRaw env line) (reader.readLineRaw env line)
  readLineText : ∀ line, Admits (fileReader.readLineText env line) (reader.readLineText env line)
  verify : ∀ level, Admits (fileReader.verify env level) (reader.verify env level)

section FileReaders

variable {env : Env} {source other : ReadAt} {len : Nat} {details : SkeletonDetails}
  (h : source.Within other)
include h

theorem decodeEntry_within : DecodeEntry.Within (QztFileReader.decodeEntry env ⟨source, len, details⟩)
    (QztFileReader.decodeEntry env ⟨other, len, details⟩) := by
  intro entry
  have hphysical : ∀ range : PhysicalRange, Admits
      (QztFileReader.readPhysical ⟨source, len, details⟩ range)
      (QztFileReader.readPhysical ⟨other, len, details⟩ range) := by
    intro range
    iterate 3
      apply admits_bind_right
      intro _ _
    exact admits_readExactAtQzt h _ _
  apply admits_bind (hphysical _)
  intro compressed _
  exact admits_refl _

theorem admits_readRange (offset length : Nat) :
    Admits (QztFileReader.readRange env ⟨source, len, details⟩ offset length)
      (QztFileReader.readRange env ⟨other, len, details⟩ offset length) := by
  apply admits_bind (admits_readRangeWithMetricsFromEntries (decodeEntry_within h) _ _ _ _)
  intro report _
  exact admits_refl _

theorem admits_readDocument (docId : String) :
    Admits (QztFileReader.readDocument env ⟨source, len, details⟩ docId)
      (QztFileReader.readDocument env ⟨other, len, details⟩ docId) := by
  apply admits_bind_right
  intro document _
  exact admits_readRange h _ _

theorem admits_verifyNormal :
    Admits (QztFileReader.verifyNormal env ⟨source, len, details⟩)
      (QztFileReader.verifyNormal env ⟨other, len, details⟩) := by
  have hentries : ∀ entry ∈ details.chunkEntries, Admits
      (QztFileReader.verifyNormalEntry env ⟨source, len, details⟩ entry)
      (QztFileReader.verifyNormalEntry env ⟨other, len, details⟩ entry) := by
    intro entry _
    apply admits_bind_right
    intro stop _
    apply admits_bind (admits_hashPhysicalRange h _ _)
    intro actual _
    exact admits_refl _
  have hprefix : Admits (QztFileReader.verifyPrefix env ⟨source, len, details⟩)
      (QztFileReader.verifyPrefix env ⟨other, len, details⟩) := by
    rw [QztFileReader.verifyPrefix, QztFileReader.verifyPrefix]
    dsimp only
    cases details.footerPayload.containerChecksum with
    | none => exact admits_refl _
    | some expected =>
      apply admits_bind (admits_hashPhysicalRange h _ _)
      intro actual _
      exact admits_refl _
  apply admits_bind (admits_checkAll hentries)
  intro _ _
  apply admits_bind hprefix
  intro _ _
  exact admits_refl _

theorem admits_verify (level : VerifyLevel) :
    Admits (QztFileReader.verify env ⟨source, len, details⟩ level)
      (QztFileReader.verify env ⟨other, len, details⟩ level) := by
  cases level with
  | quick => exact admits_refl _
  | normal => exact admits_verifyNormal h
  | deep =>
    apply admits_bind (admits_verifyNormal h)
    intro _ _
    exact admits_verifyDeepEntries (decodeEntry_within h) _

end FileReaders

/-- A source within a faithful one: its reader is within the reader over memory. -/
theorem readsWithin_of_within {env : Env} {bytes : List UInt8} {source : ReadAt}
    (served : FaithfulSource bytes) (h : source.Within served.source) (details : SkeletonDetails) :
    ReadsWithin env ⟨source, served.len, details⟩ ⟨bytes, details⟩ := by
  have hsame := @FaithfulSource.sameReads env bytes served details
  exact
    { decodeEntry := by
        rw [← served.decodeEntry_eq details]
        exact decodeEntry_within h
      exportAll := by
        rw [← hsame.exportAll]
        apply admits_bind (admits_collect fun entry _ => decodeEntry_within h entry)
        intro decoded _
        exact admits_refl _
      readRange := by
        intro offset length
        rw [← hsame.readRange]
        exact admits_readRange h _ _
      readRangeWithMetrics := by
        intro offset length
        rw [← hsame.readRangeWithMetrics]
        exact admits_readRangeWithMetricsFromEntries (decodeEntry_within h) _ _ _ _
      readTextRange := by
        intro offset length
        rw [← hsame.readTextRange]
        exact admits_bind (admits_readRange h _ _) fun _ _ => admits_refl _
      readRangeVerified := by
        intro offset length expected
        rw [← hsame.readRangeVerified]
        exact admits_bind (admits_readRange h _ _) fun _ _ => admits_refl _
      readDocument := by
        intro docId
        rw [← hsame.readDocument]
        exact admits_readDocument h _
      readDocumentVerified := by
        intro docId expected
        rw [← hsame.readDocumentVerified]
        exact admits_bind (admits_readDocument h _) fun _ _ => admits_refl _
      readLineRaw := by
        intro line
        rw [← hsame.readLineRaw]
        exact admits_readLineFromEntries (decodeEntry_within h) _ _
      readLineText := by
        intro line
        rw [← hsame.readLineText]
        exact admits_bind (admits_readLineFromEntries (decodeEntry_within h) _ _) fun _ _ =>
          admits_refl _
      verify := by
        intro level
        rw [← hsame.verify]
        exact admits_verify h level }

/-- A reader that opens over a file, whatever the reads of the file do. -/
theorem PositionedFile.opens_within {env : Env} (file : PositionedFile) {schedule : Nat → Nat → Nat}
    {limits : ResourceLimits} {fileReader : QztFileReader}
    (hopen : QztFileReader.openReadAtWithLimits env (file.source schedule) file.bytes.length
      limits = .ok fileReader) :
    ∃ reader, QztReader.openWithLimits env file.bytes limits = .ok reader ∧
      fileReader.details = reader.details ∧ ReadsWithin env fileReader reader := by
  have hwithin := file.source_within schedule
  obtain ⟨details, hdetails, hmade⟩ := bind_eq_ok_iff.mp hopen
  obtain rfl := Except.ok.inj hmade
  have hcalm := admits_openSkeletonDetailsReadAt hwithin _ _ _ hdetails
  have hmemory : openSkeletonDetailsWithLimits env file.bytes limits = .ok details := by
    rw [← file.undisturbed.openSkeletonDetailsReadAt_eq]
    exact hcalm
  refine ⟨{ bytes := file.bytes, details }, ?_, rfl, readsWithin_of_within _ hwithin details⟩
  rw [QztReader.openWithLimits, hmemory]
  rfl

/-- A reader over a file.  However short the reads of the file are and whichever of them fail, what
the reader opens and returns is what the reader over the bytes of the file opens and returns.  If no
call fails, the two readers cannot be told apart. -/
theorem fileReads_sound (env : Env) (file : PositionedFile) (schedule : Nat → Nat → Nat)
    (limits : ResourceLimits) :
    (∀ fileReader, QztFileReader.openReadAtWithLimits env (file.source schedule) file.bytes.length
        limits = .ok fileReader →
      ∃ reader, QztReader.openWithLimits env file.bytes limits = .ok reader ∧
        fileReader.details = reader.details ∧ ReadsWithin env fileReader reader) ∧
    ((∀ kind, ¬ file.FailsWith kind) →
      OpensAlike env (QztReader.openWithLimits env file.bytes limits)
        (QztFileReader.openReadAtWithLimits env (file.source schedule) file.bytes.length
          limits)) := by
  constructor
  · exact fun _ hopen => file.opens_within hopen
  · intro hnever
    obtain ⟨served, hsource, hlen⟩ := file.served_of_never hnever schedule
    rw [← hsource, ← hlen, QztReader.openWithLimits, QztFileReader.openReadAtWithLimits,
      served.openSkeletonDetailsReadAt_eq]
    cases openSkeletonDetailsWithLimits env file.bytes limits with
    | error e => rfl
    | ok details => exact ⟨rfl, served.sameReads details⟩

end Qzt
