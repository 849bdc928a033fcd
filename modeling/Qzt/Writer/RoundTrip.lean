import Qzt.Format.Reference
import Qzt.Reader.DeepContract
import Qzt.Writer.Reopening

/-!
# A packed container opens, verifies and exports its input

The blocks that the writer assembles belong together (`packBytesInternal_sound`), the
opener reads them back (`Assembly.Sound.opens`), and deep verification succeeds on a
table whose frames decode to its parts.  The one fact taken from zstd is that decoding
a frame of the encoder gives back its input.
-/

namespace Qzt

open Foundation

/-! ## Reading an assembly -/

namespace Assembly

variable {env : Env} {assembly : Assembly}

variable (env assembly) in
/-- The reader over an assembly. -/
def reader : QztReader where
  bytes := assembly.bytes env
  details := assembly.details env

namespace Sound

variable (h : assembly.Sound env)
include h

/-- The compressed bytes of an entry are the frame of its part. -/
theorem slice_entry {index : Nat} {part : List UInt8}
    (hpart : assembly.parts[index]? = some part) :
    (assembly.reader env).slicePhysical
      ⟨(chunkEntryOf env assembly.level (assembly.parts.take index) part).physicalOffset,
        (chunkEntryOf env assembly.level (assembly.parts.take index) part).compressedSize⟩ =
          .ok (chunkFrame env assembly.level part) :=
  slice_frame hpart h.length_lt

theorem decodeEntry_eq (hzstd : env.RoundTrips) {index : Nat} {part : List UInt8}
    (hpart : assembly.parts[index]? = some part) :
    (assembly.reader env).decodeEntry env
      (chunkEntryOf env assembly.level (assembly.parts.take index) part) = .ok part := by
  have hmem := List.mem_of_getElem? hpart
  have hsize : part.length ≤ 64 * 1024 * 1024 := h.parts.sizes part hmem
  have hencode : encodeChunk env part assembly.level = .ok (chunkFrame env assembly.level part) := by
    rw [encodeChunk, (h.parts.compress part hmem).encodes, okOr_some]
  have hdecode : decodeChunk env (chunkFrame env assembly.level part) []
      (chunkEntryOf env assembly.level (assembly.parts.take index) part).uncompressedSize =
        .ok part := hzstd part assembly.level _ (by omega) hencode
  have hdictionary : dictionaryFor (assembly.reader env).details.dictionaries
      (chunkEntryOf env assembly.level (assembly.parts.take index) part).dictionaryId = .ok [] := rfl
  rw [QztReader.decodeEntry, h.slice_entry hpart, ok_bind, decodeCompressedEntry,
    rejectIf_of_not (fun hbad => hbad rfl), ok_bind, hdictionary, ok_bind, hdecode, ok_bind,
    usizeToU64_of_lt (by omega), ok_bind, rejectIf_of_not (fun hbad => hbad rfl), ok_bind, rejectIf_of_not (fun hbad => hbad rfl),
    ok_bind]
  rfl

/-- Every entry decodes to its part. -/
theorem decodesTo (hzstd : env.RoundTrips) :
    DecodesTo ((assembly.reader env).decodeEntry env) (assembly.entries env) assembly.parts := by
  rw [DecodesTo, List.forall₂_iff_get]
  refine ⟨length_entries, ?_⟩
  intro i hi hj
  obtain ⟨part, hpart, hentry⟩ := WriterParts.entry_eq (List.getElem?_eq_getElem hi)
  obtain ⟨_, rfl⟩ := List.getElem?_eq_some_iff.mp hpart
  rw [List.get_eq_getElem, List.get_eq_getElem, hentry]
  exact h.decodeEntry_eq hzstd hpart

theorem exports (hzstd : env.RoundTrips) :
    (assembly.reader env).exportAll env = .ok assembly.parts.flatten := by
  rw [QztReader.exportAll, show (assembly.reader env).details.chunkEntries = assembly.entries env
    from rfl, collect_eq_ok_iff.mpr (h.decodesTo hzstd), ok_bind]
  rfl

/-- The dense index stores the line starts of the parts. -/
theorem denseMatches :
    DenseMatches (assembly.details env) 0 (assembly.entries env) assembly.parts := by
  intro i entry part hentry hpart index hindex
  obtain ⟨-, hbuilt⟩ := h.dense index hindex
  simp only [DenseLineIndex.fromOriginalBytes, bind_eq_ok_iff, collect_eq_ok_iff, pure_eq_ok,
    Except.ok.injEq] at hbuilt
  obtain ⟨denses, hdenses, rfl⟩ := hbuilt
  obtain ⟨hi, hget⟩ := List.getElem?_eq_some_iff.mp hentry
  have hj : i < denses.length := by
    rw [← hdenses.length_eq]
    exact hi
  have hdense := hdenses.get hi hj
  rw [List.get_eq_getElem, hget] at hdense
  obtain ⟨-, -, -, hoffsets⟩ := entryFromOriginalBytes_eq_ok hdense
  -- The range of the entry is its part.
  obtain ⟨part', hpart', hdescribes⟩ := h.parts.describes.getElem? hentry
  rw [hpart, Option.some.injEq] at hpart'
  subst hpart'
  have hslice : slice assembly.parts.flatten entry.logicalOffset entry.uncompressedSize = part := by
    obtain ⟨hk, rfl⟩ := List.getElem?_eq_some_iff.mp hpart
    rw [hdescribes.logicalOffset, hdescribes.uncompressedSize, List.nil_append]
    conv_lhs =>
      enter [1]
      rw [← List.take_append_drop i assembly.parts, List.drop_eq_getElem_cons hk,
        List.flatten_append, List.flatten_cons]
    exact slice_append_left _ _ _
  rw [hslice] at hoffsets
  exact ⟨_, by rw [Nat.zero_add]; exact List.getElem?_eq_getElem hj, hoffsets⟩

theorem deepVerified (hzstd : env.RoundTrips) :
    DeepVerified env (assembly.details env) ((assembly.reader env).decodeEntry env)
      assembly.parts where
  decodes := h.decodesTo hzstd
  describes := h.parts.describes
  valid := h.valid
  dense := h.denseMatches
  size := h.size.symm
  checksum := h.checksum.symm
  lineCount := h.lineCount.symm
  newlineMode := h.newlineMode.symm
  documents := by
    intro index hindex document hdocument
    obtain ⟨spans, hbuilt⟩ := h.documents index hindex
    exact (buildDocumentIndex_matches h.size h.lineCount hbuilt).2 document hdocument

theorem verifyNormal_eq :
    (assembly.reader env).verifyNormal env = .ok (reportForLevel (assembly.details env) .normal 0) := by
  have hentries : checkAll ((assembly.reader env).verifyNormalEntry env) (assembly.entries env) =
      .ok ⟨⟩ := by
    rw [checkAll_eq_ok_iff]
    intro entry hentry
    obtain ⟨index, hget⟩ := List.mem_iff_getElem?.mp hentry
    obtain ⟨part, hpart, rfl⟩ := WriterParts.entry_eq hget
    rw [QztReader.verifyNormalEntry, h.slice_entry hpart, ok_bind]
    exact rejectIf_of_not fun hbad => hbad rfl
  have hbefore : getRange? (assembly.reader env).bytes 0
      (assembly.reader env).details.footerPayloadOffset = some (assembly.prefixBytes env) := by
    have hrange := getRange?_append_left [] (assembly.prefixBytes env)
      (assembly.footerPayloadBytes ++ (assembly.trailer env).encode)
    rw [List.nil_append, List.length_nil, Nat.zero_add, length_prefixBytes] at hrange
    exact hrange
  have hverify : (assembly.reader env).verifyPrefix env = .ok ⟨⟩ := by
    have hchecksum : (assembly.reader env).details.footerPayload.containerChecksum =
        some (Checksum.blake3 env (assembly.prefixBytes env)) := rfl
    rw [QztReader.verifyPrefix, hchecksum]
    simp only
    rw [hbefore, okOr_some, ok_bind]
    exact rejectIf_of_not fun hbad => hbad rfl
  rw [QztReader.verifyNormal, show (assembly.reader env).details.chunkEntries =
    assembly.entries env from rfl, hentries, ok_bind, hverify, ok_bind]
  rfl

theorem verifies (hzstd : env.RoundTrips) :
    ∃ report, (assembly.reader env).verify env .deep = .ok report := by
  have hlen := h.parts.length_lt
  have hdeep := verifyDeepEntries_succeeds (h.deepVerified hzstd) (by
    have hsize : (assembly.details env).summary.originalSize = assembly.metadata.originalSize := rfl
    rw [hsize, h.size]
    omega)
  refine ⟨reportForLevel (assembly.details env) .deep
    (assembly.details env).summary.originalSize, ?_⟩
  rw [QztReader.verify, QztReader.verifyDeep, h.verifyNormal_eq, ok_bind]
  exact hdeep

theorem opens_reader : QztReader.open env (assembly.bytes env) = .ok (assembly.reader env) := by
  rw [QztReader.open, h.opens, ok_bind]
  rfl

end Sound

end Assembly

/-! ## What a successful pack went through -/

/-- A plan is the plan of a split of well-formed text. -/
theorem planChunks_eq_ok {options : ChunkerOptions} (hoptions : options.Admissible)
    {input : List UInt8} {plan : ChunkPlan} (h : planChunks input options = .ok plan) :
    Utf8.Valid input ∧ ∃ parts, SplitsWithin options input parts ∧ plan = planOf parts := by
  by_cases hvalid : Utf8.Valid input
  · by_cases hsplits : ∃ parts, SplitsWithin options input parts
    · obtain ⟨parts, hparts⟩ := hsplits
      rw [planChunks_of_splits hoptions hvalid hparts, Except.ok.injEq] at h
      exact ⟨hvalid, parts, hparts, h.symm⟩
    · rw [planChunks_of_not_splits hoptions hvalid fun parts hparts => hsplits ⟨parts, hparts⟩] at h
      cases h
  · rw [planChunks_invalid hoptions hvalid] at h
    cases h

/-- The first step of the chunk loop succeeds only on a part that compresses. -/
theorem compresses_of_compressChunks {env : Env} {level : Int32} {done : List (List UInt8)}
    {part rest : List UInt8} {chunks : List PlannedChunk} {physicalOffset : Nat}
    {result : List ChunkEntry × List (List UInt8)}
    (h : compressChunks env (done.flatten ++ (part ++ rest)) level
      (plannedChunk done part :: chunks) physicalOffset = .ok result) :
    Compresses env level part := by
  have hrange := getRange?_append_left done.flatten part rest
  simp only [compressChunks, plannedChunk, bind_eq_ok_iff, u64ToUsize_eq_ok_iff, okOr_eq_ok_iff,
    checkedAdd_eq_some_iff, encodeChunk, rejectIf_eq_ok_iff, usizeToU64_eq_ok_iff,
    ResourceLimits.enforceChunkSizes_eq_ok_iff] at h
  obtain ⟨_, ⟨-, rfl⟩, _, ⟨-, rfl⟩, _, ⟨-, rfl⟩, uncompressed, hpart, frame, hframe, _, hne, _,
    ⟨-, rfl⟩, _, ⟨hle, -⟩, -⟩ := h
  rw [hrange, Option.some.injEq] at hpart
  subst hpart
  have hchunk : chunkFrame env level part = frame := by rw [chunkFrame, hframe, Option.getD_some]
  exact ⟨by rw [hchunk, hframe], by rw [hchunk]; exact hne, by rw [hchunk]; exact hle⟩

/-- The chunk loop succeeds only when every part compresses. -/
theorem compressChunks_eq_ok {env : Env} {level : Int32} (done : List (List UInt8))
    {parts : List (List UInt8)} (hdone : ∀ part ∈ done, Compresses env level part)
    (hparts : ∀ part ∈ done ++ parts,
      part.length ≤ ResourceLimits.default.maxUncompressedChunkSize)
    (hcount : (done ++ parts).length ≤ maxChunkCount)
    {result : List ChunkEntry × List (List UInt8)}
    (h : compressChunks env (done.flatten ++ parts.flatten) level
      (mapWithHistory plannedChunk done parts)
      (headerLen + (chunkFrames env level done).length) = .ok result) :
    ∀ part ∈ parts, Compresses env level part := by
  induction parts generalizing done result with
  | nil => simp
  | cons part parts ih =>
    rw [List.flatten_cons, mapWithHistory] at h
    have hpart := compresses_of_compressChunks h
    have hcountDone : done.length ≤ maxChunkCount := by
      rw [List.length_append] at hcount
      omega
    have hfits : FitsParts done := fitsParts_of_forall fun p hp => hparts p (by simp [hp])
    rw [compressChunks_step hpart (hparts part (by simp)) (hfits.length_lt hcountDone)
      (length_chunkFrames_lt hcountDone hdone), map_eq_ok_iff] at h
    obtain ⟨rest, hrest, -⟩ := h
    have hdone' : ∀ p ∈ done ++ [part], Compresses env level p := by
      intro p hp
      rcases List.mem_append.mp hp with hp | hp
      · exact hdone p hp
      · rw [List.mem_singleton.mp hp]
        exact hpart
    have hflatten : (done ++ [part]).flatten ++ parts.flatten =
        done.flatten ++ (part ++ parts.flatten) := by simp
    rw [← hflatten] at hrest
    have htail := ih (done ++ [part]) hdone' (by simpa using hparts) (by simpa using hcount) hrest
    rw [List.forall_mem_cons]
    exact ⟨hpart, htail⟩

theorem generateDenseLineIndex_eq_ok {mode : DenseLineIndexMode} {plan : ChunkPlan}
    {input : List UInt8} {entries : List ChunkEntry} {dense : Option DenseLineIndex}
    (h : generateDenseLineIndex mode plan input entries = .ok dense) {index : DenseLineIndex}
    (hindex : dense = some index) : checkDenseAllocation entries = .ok ⟨⟩ ∧
      DenseLineIndex.fromOriginalBytes input entries = .ok index := by
  subst hindex
  have hgenerate : (do
      checkDenseAllocation entries
      let index ← DenseLineIndex.fromOriginalBytes input entries
      return some index : Result (Option DenseLineIndex)) = .ok (some index) := by
    cases mode with
    | «omit» => cases h
    | generate => exact h
    | generateIfAtLeast minLines =>
      simp only [generateDenseLineIndex] at h
      split at h
      · exact h
      · cases h
  simp only [bind_eq_ok_iff, pure_eq_ok, Except.ok.injEq, Option.some.injEq] at hgenerate
  obtain ⟨⟨⟩, hallocation, _, hbuilt, rfl⟩ := hgenerate
  exact ⟨hallocation, hbuilt⟩

/-- The document index that is written was built from the input. -/
theorem documents_built {env : Env} {input : List UInt8} {containerId : ContainerId}
    {entries : List ChunkEntry} {documentSpans : Option (List DocumentSpan)}
    {generated supplied : Option DocumentIndex}
    (hgenerated : transposeMap (fun spans => buildDocumentIndex env spans input containerId entries)
      documentSpans = .ok generated)
    (hchecked : checkSome (checkDocumentIndex env input containerId entries true generated.isSome)
      (generated.or supplied) = .ok ⟨⟩) {index : DocumentIndex}
    (hindex : generated.or supplied = some index) :
    ∃ spans, buildDocumentIndex env spans input containerId entries = .ok index := by
  cases generated with
  | some generated =>
    rw [Option.some_or, Option.some.injEq] at hindex
    obtain ⟨spans, -, hbuilt⟩ := transposeMap_eq_ok_some hgenerated
    exact ⟨spans, by rw [hbuilt, hindex]⟩
  | none =>
    -- A supplied index is rebuilt and compared.
    rw [hindex] at hchecked
    simp only [checkSome, checkDocumentIndex, bind_eq_ok_iff, Option.isSome_none, Bool.not_false,
      Bool.and_self, if_true, rejectIf_eq_ok_iff, ne_eq, not_not] at hchecked
    obtain ⟨_, -, rebuilt, hrebuilt, rfl⟩ := hchecked
    exact ⟨_, hrebuilt⟩

theorem newlineMode_asStr_mem (mode : NewlineMode) :
    mode.asStr ∈ ["none", "lf", "crlf", "mixed"] := by
  cases mode <;> decide

/-- The writer's blocks belong together, and the documents are those of the spans. -/
theorem packBytesInternal_assembly {env : Env} {input container : List UInt8}
    {containerId : ContainerId} {options : WriterOptions} {denseMode : DenseLineIndexMode}
    {documentIndex : Option DocumentIndex} {documentSpans : Option (List DocumentSpan)}
    {profile : String}
    (h : packBytesInternal env input containerId options denseMode documentIndex documentSpans
      profile true = .ok container) :
    ∃ assembly : Assembly, assembly.Sound env ∧ container = assembly.bytes env ∧
      assembly.parts.flatten = input ∧
        ∀ spans, documentSpans = some spans → ∃ index, assembly.documents = some index ∧
          buildDocumentIndex env spans input containerId (assembly.entries env) = .ok index := by
  unfold packBytesInternal at h
  obtain ⟨_, hoptions, h⟩ := bind_eq_ok_iff.mp h
  obtain ⟨_, hprofile, h⟩ := bind_eq_ok_iff.mp h
  obtain ⟨_, -, h⟩ := bind_eq_ok_iff.mp h
  obtain ⟨_, -, h⟩ := bind_eq_ok_iff.mp h
  obtain ⟨plan, hplan, h⟩ := bind_eq_ok_iff.mp h
  obtain ⟨_, -, h⟩ := bind_eq_ok_iff.mp h
  obtain ⟨⟨entries, compressed⟩, hcompress, h⟩ := bind_eq_ok_iff.mp h
  obtain ⟨dense, hdense, h⟩ := bind_eq_ok_iff.mp h
  obtain ⟨generated, hgenerated, h⟩ := bind_eq_ok_iff.mp h
  obtain ⟨⟨⟩, hchecked, h⟩ := bind_eq_ok_iff.mp h
  have hadmissible := validateWriterOptions_eq_ok hoptions
  obtain ⟨hvalid, parts, hsplits, rfl⟩ := planChunks_eq_ok hadmissible hplan
  have hflatten := hsplits.1.flatten
  have hsizes : ∀ part ∈ parts,
      part.length ≤ ResourceLimits.default.maxUncompressedChunkSize := fun part hpart =>
    Nat.le_trans (hsplits.1.parts_bounds hadmissible.target_le_max part hpart).2 hadmissible.max_le
  have hheader : headerLen + (chunkFrames env options.zstdLevel []).length = headerLen := rfl
  have hinput : [].flatten ++ parts.flatten = input := by rw [hflatten]; rfl
  -- Every part compresses, so the table and the frames are those of the split.
  have hall : ∀ part ∈ parts, Compresses env options.zstdLevel part := by
    refine @compressChunks_eq_ok _ _ [] _ (by simp) (by simpa using hsizes)
      (by simpa using hsplits.2) (entries, compressed) ?_
    rw [hheader, hinput]
    exact hcompress
  have htable := compressChunks_of_compresses [] (by simpa using hall) (by simpa using hsizes)
    (by simpa using hsplits.2)
  rw [hheader, hinput] at htable
  have hresult : (entries, compressed) = (chunkTableOf env options.zstdLevel parts,
      parts.map (chunkFrame env options.zstdLevel)) := by
    have hboth := hcompress.symm.trans htable
    rw [Except.ok.injEq] at hboth
    exact hboth
  rw [Prod.mk.injEq] at hresult
  obtain ⟨rfl, rfl⟩ := hresult
  obtain ⟨assembly, hwritten, rfl, hid, hlevel, hparts, hdenseEq, hdocumentsEq, hmetadata⟩ :=
    @assembleContainer_eq_ok env input container containerId parts
      { denseLineIndex := dense, documentIndex := generated.or documentIndex, profile,
        writerOptions := options } hsplits.2 hall h
  simp only [validateProfile, rejectIf_eq_ok_iff, not_not] at hprofile
  simp only at hlevel hdenseEq hdocumentsEq
  have hentries : assembly.entries env = chunkTableOf env options.zstdLevel parts := by
    rw [Assembly.entries, hlevel, hparts]
  refine ⟨assembly, ?_, rfl, by rw [hparts, hflatten], ?_⟩
  rotate_left
  · rintro spans rfl
    obtain ⟨index, hbuilt, hsome⟩ := bind_eq_ok_iff.mp hgenerated
    obtain rfl : some index = generated := Except.ok.inj hsome
    refine ⟨index, hdocumentsEq, ?_⟩
    rw [hentries]
    exact hbuilt
  refine ⟨hwritten, ?_, ?_, ?_, ?_, ?_, ?_, ?_, ?_, ?_, ?_⟩
  · rw [hlevel, hparts]
    exact ⟨hsplits.2, hall, fun part hpart => (hsplits.1.parts_bounds hadmissible.target_le_max part hpart).1,
      hsizes⟩
  · rw [hparts]
    exact hsplits.1.parts_valid hadmissible.target_le_max hvalid
  · rw [hmetadata, hid]
    rfl
  · rw [hmetadata]
    exact ⟨newlineMode_asStr_mem _, List.mem_cons_self, hprofile, Nat.ne_of_gt hadmissible.target_pos,
      hadmissible.target_le_max, rfl⟩
  · rw [hmetadata, hparts, hflatten]
    rfl
  · rw [hmetadata, hparts, hflatten]
    rfl
  · rw [hmetadata, hparts]
    rfl
  · rw [hmetadata, hparts]
    rfl
  · intro index hindex
    rw [hdenseEq] at hindex
    rw [hentries, hparts, hflatten]
    exact generateDenseLineIndex_eq_ok hdense hindex
  · intro index hindex
    rw [hdocumentsEq] at hindex
    rw [hentries, hparts, hflatten, hid]
    exact documents_built hgenerated hchecked hindex

/-- The writer's blocks belong together. -/
theorem packBytesInternal_sound {env : Env} {input container : List UInt8}
    {containerId : ContainerId} {options : WriterOptions} {denseMode : DenseLineIndexMode}
    {documentIndex : Option DocumentIndex} {documentSpans : Option (List DocumentSpan)}
    {profile : String}
    (h : packBytesInternal env input containerId options denseMode documentIndex documentSpans
      profile true = .ok container) :
    ∃ assembly : Assembly, assembly.Sound env ∧ container = assembly.bytes env ∧
      assembly.parts.flatten = input := by
  obtain ⟨assembly, hsound, hbytes, hinput, -⟩ := packBytesInternal_assembly h
  exact ⟨assembly, hsound, hbytes, hinput⟩

theorem pack_sound {env : Env} {builder : WriterBuilder} {input container : List UInt8}
    (h : builder.pack env input = .ok container) :
    ∃ assembly : Assembly, assembly.Sound env ∧ container = assembly.bytes env ∧
      assembly.parts.flatten = input := by
  unfold WriterBuilder.pack at h
  obtain ⟨_, -, h⟩ := bind_eq_ok_iff.mp h
  obtain ⟨_, -, h⟩ := bind_eq_ok_iff.mp h
  obtain ⟨_, -, h⟩ := bind_eq_ok_iff.mp h
  obtain ⟨containerId, -, h⟩ := bind_eq_ok_iff.mp h
  exact packBytesInternal_sound h

/-! ## The round trip -/

/-- A packed container opens, passes deep verification and exports its input. -/
theorem pack_roundTrip (env : Env) (hzstd : env.RoundTrips) (builder : WriterBuilder)
    (input container : List UInt8) (hpack : builder.pack env input = .ok container) :
    ∃ reader report, QztReader.open env container = .ok reader ∧
      reader.verify env .deep = .ok report ∧ reader.exportAll env = .ok input := by
  obtain ⟨assembly, hsound, rfl, rfl⟩ := pack_sound hpack
  obtain ⟨report, hreport⟩ := hsound.verifies hzstd
  exact ⟨assembly.reader env, report, hsound.opens_reader, hreport, hsound.exports hzstd⟩

/-- The memory profile with a dense index and one document inside the second line. -/
def sampleBuilder : WriterBuilder where
  profile := "memory"
  denseLineIndex := some true
  documentSpans := some [{ docId := "d", logicalOffset := 2, byteLength := 2 }]

/-- Two lines, the second without a line ending. -/
def sampleInput : List UInt8 := [0x61, 0x0a, 0xc3, 0xa9]

set_option maxRecDepth 100000 in
theorem pack_sampleInput :
    ∃ container, sampleBuilder.pack Reference.env sampleInput = .ok container := by
  have hok : (sampleBuilder.pack Reference.env sampleInput).isOk = true := by decide +kernel
  revert hok
  cases sampleBuilder.pack Reference.env sampleInput with
  | error e => exact (nomatch ·)
  | ok container => exact fun _ => ⟨container, rfl⟩

theorem pack_roundTrip_sample :
    ∃ container reader report, sampleBuilder.pack Reference.env sampleInput = .ok container ∧
      QztReader.open Reference.env container = .ok reader ∧
      reader.verify Reference.env .deep = .ok report ∧
      reader.exportAll Reference.env = .ok [0x61, 0x0a, 0xc3, 0xa9] := by
  obtain ⟨container, hpack⟩ := pack_sampleInput
  obtain ⟨reader, report, hround⟩ := pack_roundTrip Reference.env Reference.env_roundTrips
    sampleBuilder sampleInput container hpack
  exact ⟨container, reader, report, hpack, hround⟩

/-- The sample container is opened and verified, so every read of it is served. -/
theorem verifyDeep_servesText_sample :
    ∃ container reader text, sampleBuilder.pack Reference.env sampleInput = .ok container ∧
      QztReader.openWithLimits Reference.env container .default = .ok reader ∧
      ServesText Reference.env reader text := by
  obtain ⟨container, hpack⟩ := pack_sampleInput
  obtain ⟨assembly, hsound, rfl, -⟩ := pack_sound hpack
  obtain ⟨report, hreport⟩ := hsound.verifies Reference.env_roundTrips
  have hopen : QztReader.openWithLimits Reference.env (assembly.bytes Reference.env) .default =
      .ok (assembly.reader Reference.env) := hsound.opens_reader
  obtain ⟨text, hserves⟩ := verifyDeep_servesText hopen hreport
  exact ⟨_, _, text, hpack, hopen, hserves⟩

end Qzt
