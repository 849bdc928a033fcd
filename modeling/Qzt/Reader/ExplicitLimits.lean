import Qzt.Container.Rules
import Qzt.Format.Reference
import Qzt.Reader.Readers
import Qzt.Writer.Reopening

/-!
# Limits given by the caller

`open_with_limits` validates every CBOR block under the caller's limits, and the schema
decoders validate the same bytes once more, under the default limits.  A file that follows
every rule with the caller's limits alone is therefore opened exactly when its CBOR blocks
stay within the default limits as well.
-/

namespace Qzt

open Foundation

/-! ## The blocks that are validated twice -/

/-- The bytes pass CBOR validation under `limits`. -/
def ValidUnder (limits : CborLimits) (blockBytes : List UInt8) : Prop :=
  ∃ value, validateDeterministicWithLimits blockBytes limits = .ok value

theorem BlockSchema.validUnder_of_decode {α : Type} {block : BlockSchema α} {limits : CborLimits}
    {blockBytes : List UInt8} {a : α} (h : block.decodeUnder limits blockBytes = .ok a) :
    ValidUnder limits blockBytes := by
  simp only [decodeUnder, bind_eq_ok_iff] at h
  obtain ⟨value, hvalue, -⟩ := h
  exact ⟨value, hvalue⟩

theorem BlockSchema.decodeUnder_of_validUnder {α : Type} {block : BlockSchema α}
    {limits limits' : CborLimits} {blockBytes : List UInt8} {a : α}
    (h : block.decodeUnder limits blockBytes = .ok a) (hvalid : ValidUnder limits' blockBytes) :
    block.decodeUnder limits' blockBytes = .ok a := by
  obtain ⟨value, hvalue⟩ := hvalid
  exact decodeUnder_congr hvalue h

/-- The bytes a descriptor refers to. -/
def BlockDescriptor.blockBytes (bytes : List UInt8) (descriptor : BlockDescriptor) : List UInt8 :=
  slice bytes descriptor.offset descriptor.size

/-- The CBOR blocks of a container. -/
def SkeletonParts.cborBlocks (parts : SkeletonParts) (bytes : List UInt8) : List (List UInt8) :=
  [parts.footerPayloadBytes, parts.metadataBytes, parts.indexRootBytes] ++
    (parts.indexRoot.blocksOfType "dictionary").map (BlockDescriptor.blockBytes bytes) ++
    (parts.indexRoot.blocksOfType "document_index").map (BlockDescriptor.blockBytes bytes)

/-! ## Optional blocks under other limits -/

section Optional

variable {env : Env} {bytes : List UInt8} {containerId : ContainerId} {limits : ResourceLimits}
  {cbor cbor' : CborLimits} {descriptors : List BlockDescriptor}

theorem parseDictionariesUnder_validUnder {dictionaries result : List DictionaryEntry}
    (h : parseDictionariesUnder env bytes containerId limits cbor descriptors dictionaries =
      .ok result) :
    ∀ descriptor ∈ descriptors, ValidUnder cbor (descriptor.blockBytes bytes) := by
  induction descriptors generalizing dictionaries with
  | nil => exact fun descriptor hmem => absurd hmem List.not_mem_nil
  | cons descriptor descriptors ih =>
    simp only [parseDictionariesUnder, bind_eq_ok_iff] at h
    obtain ⟨_, -, _, -, blockBytes, hslice, _, -, _, -, block, hblock, _, -, _, -, hrest⟩ := h
    obtain rfl := slicePhysical_eq_ok hslice
    exact List.forall_mem_cons.mpr ⟨BlockSchema.validUnder_of_decode hblock, ih hrest⟩

theorem parseDictionariesUnder_congr {dictionaries result : List DictionaryEntry}
    (h : parseDictionariesUnder env bytes containerId limits cbor descriptors dictionaries =
      .ok result)
    (hvalid : ∀ descriptor ∈ descriptors, ValidUnder cbor' (descriptor.blockBytes bytes)) :
    parseDictionariesUnder env bytes containerId limits cbor' descriptors dictionaries =
      .ok result := by
  induction descriptors generalizing dictionaries with
  | nil => exact h
  | cons descriptor descriptors ih =>
    obtain ⟨hfirst, hothers⟩ := List.forall_mem_cons.mp hvalid
    simp only [parseDictionariesUnder, bind_eq_ok_iff] at h
    obtain ⟨_, hcodec, _, hsize, blockBytes, hslice, _, hchecksum, _, hadmitted, block, hblock, _,
      hid, next, happend, hrest⟩ := h
    obtain rfl := slicePhysical_eq_ok hslice
    rw [parseDictionariesUnder, hcodec, ok_bind, hsize, ok_bind, hslice, ok_bind, hchecksum,
      ok_bind, hadmitted, ok_bind, BlockSchema.decodeUnder_of_validUnder hblock hfirst, ok_bind,
      hid, ok_bind, happend, ok_bind]
    exact ih hrest hothers

theorem parseDocumentsUnder_validUnder {documentIndex result : Option DocumentIndex}
    (h : parseDocumentsUnder env bytes containerId limits cbor descriptors documentIndex =
      .ok result) :
    ∀ descriptor ∈ descriptors, ValidUnder cbor (descriptor.blockBytes bytes) := by
  induction descriptors generalizing documentIndex with
  | nil => exact fun descriptor hmem => absurd hmem List.not_mem_nil
  | cons descriptor descriptors ih =>
    simp only [parseDocumentsUnder, bind_eq_ok_iff] at h
    obtain ⟨_, -, _, -, blockBytes, hslice, _, -, _, -, block, hblock, _, -, hrest⟩ := h
    obtain rfl := slicePhysical_eq_ok hslice
    exact List.forall_mem_cons.mpr ⟨BlockSchema.validUnder_of_decode hblock, ih hrest⟩

theorem parseDocumentsUnder_congr {documentIndex result : Option DocumentIndex}
    (h : parseDocumentsUnder env bytes containerId limits cbor descriptors documentIndex =
      .ok result)
    (hvalid : ∀ descriptor ∈ descriptors, ValidUnder cbor' (descriptor.blockBytes bytes)) :
    parseDocumentsUnder env bytes containerId limits cbor' descriptors documentIndex =
      .ok result := by
  induction descriptors generalizing documentIndex with
  | nil => exact h
  | cons descriptor descriptors ih =>
    obtain ⟨hfirst, hothers⟩ := List.forall_mem_cons.mp hvalid
    simp only [parseDocumentsUnder, bind_eq_ok_iff] at h
    obtain ⟨_, hcodec, _, hsingle, blockBytes, hslice, _, hchecksum, _, hadmitted, block, hblock, _,
      hid, hrest⟩ := h
    obtain rfl := slicePhysical_eq_ok hslice
    rw [parseDocumentsUnder, hcodec, ok_bind, hsingle, ok_bind, hslice, ok_bind, hchecksum,
      ok_bind, hadmitted, ok_bind, BlockSchema.decodeUnder_of_validUnder hblock hfirst, ok_bind,
      hid, ok_bind]
    exact ih hrest hothers

end Optional

/-! ## The rules under other limits -/

namespace SkeletonParts.Follows

variable {env : Env} {bytes : List UInt8} {limits limits' : ResourceLimits} {cbor cbor' : CborLimits}
  {parts parts' : SkeletonParts}

theorem cborBlocks_validUnder (h : parts.Follows env bytes limits cbor) :
    ∀ block ∈ parts.cborBlocks bytes, ValidUnder cbor block := by
  intro block hblock
  simp only [cborBlocks, List.mem_append, List.mem_cons, List.not_mem_nil, or_false,
    List.mem_map] at hblock
  rcases hblock with ((rfl | rfl | rfl) | ⟨descriptor, hmem, rfl⟩) | ⟨descriptor, hmem, rfl⟩
  · exact BlockSchema.validUnder_of_decode h.footer
  · exact BlockSchema.validUnder_of_decode h.metadata
  · exact BlockSchema.validUnder_of_decode h.indexRoot
  · exact parseDictionariesUnder_validUnder h.dictionaries descriptor hmem
  · exact parseDocumentsUnder_validUnder h.documents descriptor hmem

/-- Only the validity of the CBOR blocks depends on the second limits. -/
theorem of_validUnder (h : parts.Follows env bytes limits cbor)
    (hvalid : ∀ block ∈ parts.cborBlocks bytes, ValidUnder cbor' block) :
    parts.Follows env bytes limits cbor' := by
  simp only [cborBlocks, List.forall_mem_append, List.forall_mem_cons, List.forall_mem_map] at hvalid
  obtain ⟨⟨⟨hfooter, hmetadata, hindexRoot, -⟩, hdictionaries⟩, hdocuments⟩ := hvalid
  exact
    { h with
      footer := BlockSchema.decodeUnder_of_validUnder h.footer hfooter
      metadata := BlockSchema.decodeUnder_of_validUnder h.metadata hmetadata
      indexRoot := BlockSchema.decodeUnder_of_validUnder h.indexRoot hindexRoot
      dictionaries := parseDictionariesUnder_congr h.dictionaries hdictionaries
      documents := parseDocumentsUnder_congr h.documents hdocuments }

/-- What the rules find in a file before they come to its optional blocks. -/
structure SameContents (parts parts' : SkeletonParts) : Prop where
  header : parts.header = parts'.header
  trailer : parts.trailer = parts'.trailer
  footerPayloadBytes : parts.footerPayloadBytes = parts'.footerPayloadBytes
  footerPayload : parts.footerPayload = parts'.footerPayload
  metadataBytes : parts.metadataBytes = parts'.metadataBytes
  metadata : parts.metadata = parts'.metadata
  indexRootBytes : parts.indexRootBytes = parts'.indexRootBytes
  indexRoot : parts.indexRoot = parts'.indexRoot
  chunkEntries : parts.chunkEntries = parts'.chunkEntries

/-- A file has one content, whatever the limits. -/
theorem sameContents (h : parts.Follows env bytes limits cbor)
    (h' : parts'.Follows env bytes limits' cbor') : SameContents parts parts' := by
  have hheader := Except.ok.inj (h.header.symm.trans h'.header)
  have htrailer := Except.ok.inj (h.trailer.symm.trans h'.trailer)
  have hfooterSlice := h'.footerSlice
  rw [← htrailer] at hfooterSlice
  have hfooterBytes := Except.ok.inj (h.footerSlice.symm.trans hfooterSlice)
  have hfooter := h'.footer
  rw [← hfooterBytes] at hfooter
  have hpayload := BlockSchema.decodeUnder_unique h.footer hfooter
  -- The footer payload says where the metadata and the index root are.
  have hmetadataSlice := h'.metadataSlice
  rw [← hpayload] at hmetadataSlice
  have hmetadataBytes := Except.ok.inj (h.metadataSlice.symm.trans hmetadataSlice)
  have hmetadata := h'.metadata
  rw [← hmetadataBytes] at hmetadata
  have hindexRootSlice := h'.indexRootSlice
  rw [← hpayload] at hindexRootSlice
  have hindexRootBytes := Except.ok.inj (h.indexRootSlice.symm.trans hindexRootSlice)
  have hindexRoot := h'.indexRoot
  rw [← hindexRootBytes] at hindexRoot
  have hroot := BlockSchema.decodeUnder_unique h.indexRoot hindexRoot
  -- The index root says where the chunk table is.
  have hchunkTable := h'.chunkTable
  rw [← hroot] at hchunkTable
  have htable := Except.ok.inj (h.chunkTable.symm.trans hchunkTable)
  have htableSlice := h'.chunkTableSlice
  rw [← htable] at htableSlice
  have htableBytes := Except.ok.inj (h.chunkTableSlice.symm.trans htableSlice)
  have hentries := h'.chunkEntries
  rw [← htableBytes, ← hroot] at hentries
  exact
    { header := hheader
      trailer := htrailer
      footerPayloadBytes := hfooterBytes
      footerPayload := hpayload
      metadataBytes := hmetadataBytes
      metadata := BlockSchema.decodeUnder_unique h.metadata hmetadata
      indexRootBytes := hindexRootBytes
      indexRoot := hroot
      chunkEntries := Except.ok.inj (h.chunkEntries.symm.trans hentries) }

/-- A file has one list of CBOR blocks, whatever the limits. -/
theorem cborBlocks_unique (h : parts.Follows env bytes limits cbor)
    (h' : parts'.Follows env bytes limits cbor') :
    parts.cborBlocks bytes = parts'.cborBlocks bytes := by
  have hsame := h.sameContents h'
  rw [cborBlocks, cborBlocks, hsame.footerPayloadBytes, hsame.metadataBytes, hsame.indexRootBytes,
    hsame.indexRoot]

/-- A file that follows the rules with the caller's limits is opened exactly when its CBOR blocks
are valid under the default limits. -/
theorem opens_iff (h : parts.Follows env bytes limits limits.cborLimits) :
    (∃ details, openSkeletonDetailsWithLimits env bytes limits = .ok details) ↔
      ∀ block ∈ parts.cborBlocks bytes, ValidUnder .default block := by
  constructor
  · rintro ⟨details, hopen⟩
    obtain ⟨parts', h', -⟩ := follows_of_open hopen
    rw [h.cborBlocks_unique h']
    exact h'.cborBlocks_validUnder
  · intro hvalid
    exact ⟨_, (h.of_validUnder hvalid).opens⟩

end SkeletonParts.Follows

/-- Two opens of one file under different limits agree on what the limits do not bound. -/
structure SameDetails (details details' : SkeletonDetails) : Prop where
  summary : details.summary = details'.summary
  chunkEntries : details.chunkEntries = details'.chunkEntries
  metadata : details.metadata = details'.metadata
  footerPayloadOffset : details.footerPayloadOffset = details'.footerPayloadOffset

theorem sameDetails_of_open {env : Env} {bytes : List UInt8} {limits limits' : ResourceLimits}
    {details details' : SkeletonDetails}
    (h : openSkeletonDetailsWithLimits env bytes limits = .ok details)
    (h' : openSkeletonDetailsWithLimits env bytes limits' = .ok details') :
    SameDetails details details' := by
  obtain ⟨parts, hfollows, rfl⟩ := SkeletonParts.follows_of_open h
  obtain ⟨parts', hfollows', rfl⟩ := SkeletonParts.follows_of_open h'
  have hsame := hfollows.sameContents hfollows'
  refine ⟨?_, hsame.chunkEntries, hsame.metadata, ?_⟩
  · simp only [SkeletonParts.details, skeletonDetails, hsame.header, hsame.indexRoot]
  · simp only [SkeletonParts.details, skeletonDetails, hsame.trailer]

/-- A file that satisfies all rules of the reader, every limit being the caller's, is opened under
these limits exactly when its CBOR blocks are valid under the default limits too. -/
theorem openWithLimits_iff_default {env : Env} {bytes : List UInt8} {limits : ResourceLimits}
    {parts : SkeletonParts} (h : parts.Follows env bytes limits limits.cborLimits) :
    (∃ reader, QztReader.openWithLimits env bytes limits = .ok reader) ↔
      ∀ block ∈ parts.cborBlocks bytes, ∃ value, validateDeterministic block = .ok value := by
  have hopen : (∃ reader, QztReader.openWithLimits env bytes limits = .ok reader) ↔
      ∃ details, openSkeletonDetailsWithLimits env bytes limits = .ok details := by
    constructor
    · rintro ⟨reader, hreader⟩
      simp only [QztReader.openWithLimits, bind_eq_ok_iff] at hreader
      obtain ⟨details, hdetails, -⟩ := hreader
      exact ⟨details, hdetails⟩
    · rintro ⟨details, hdetails⟩
      refine ⟨{ bytes := bytes, details := details }, ?_⟩
      rw [QztReader.openWithLimits, hdetails, ok_bind, pure_eq_ok]
  rw [hopen]
  exact h.opens_iff

/-! ## A long writer name -/

/-- A footer payload that also names its writer, an entry that the reader allows and ignores. -/
def FooterPayload.entriesWithWriter (payload : FooterPayload) (writer : String) : CborMap :=
  payload.entries ++ [textPair "writer" (.text writer)]

section WithWriter

variable {payload : FooterPayload} {writer : String}

variable (payload writer) in
theorem entriesWithWriter_keys : (payload.entriesWithWriter writer).map Prod.fst =
    (payload.keys ++ ["writer"]).map .text := by
  rw [FooterPayload.entriesWithWriter, List.map_append, payload.entries_keys, List.map_append]
  rfl

variable (payload) in
theorem keysWithWriter_nodup : (payload.keys ++ ["writer"]).Nodup := by
  unfold FooterPayload.keys
  cases payload.containerChecksum <;> simp

variable (payload) in
theorem keysWithWriter_subset : payload.keys ++ ["writer"] ⊆ footerKeys :=
  List.append_subset.mpr ⟨payload.keys_subset, by simp [footerKeys]⟩

theorem encodable_entriesWithWriter (hflags : payload.footerFlags = 0) (hblake3 : payload.Blake3)
    (hindexRoot : payload.indexRoot.offset < 2 ^ 64 ∧ payload.indexRoot.size < 2 ^ 64)
    (hmetadata : payload.metadata.offset < 2 ^ 64 ∧ payload.metadata.size < 2 ^ 64)
    (hsize : payload.finalFileSize < 2 ^ 64) (hwriter : (textBytes writer).length < 2 ^ 64) :
    Encodable (.map (payload.entriesWithWriter writer)) := by
  have hshort : ∀ key ∈ footerKeys, (textBytes key).length < 2 ^ 32 := by decide
  have hcount : (payload.keys ++ ["writer"]).length < 2 ^ 64 := by
    unfold FooterPayload.keys
    cases payload.containerChecksum <;> simp
  refine Encodable.textMap (entriesWithWriter_keys payload writer) (keysWithWriter_nodup payload)
    hcount (fun key hkey => hshort key (keysWithWriter_subset payload hkey)) ?_
  simp only [FooterPayload.entriesWithWriter, FooterPayload.entries, List.forall_mem_append,
    List.forall_mem_cons, textPair, List.not_mem_nil, false_implies, implies_true, and_true]
  refine ⟨⟨⟨.text (by decide), encodable_versionValue, .bytes ?_,
    encodable_blockRefValue hindexRoot.1 hindexRoot.2 (hblake3.indexRoot ▸ by decide),
    encodable_blockRefValue hmetadata.1 hmetadata.2 (hblake3.metadata ▸ by decide),
    encodable_u64Value hsize, ?_⟩, ?_⟩, .text hwriter⟩
  · rw [List.Vector.toList_length]
    decide
  · rw [hflags]
    exact encodable_u64Value (by decide)
  · cases hsome : payload.containerChecksum with
    | none => simp
    | some checksum =>
      simp only [List.mem_singleton, forall_eq]
      exact encodable_checksumValue (hblake3.containerChecksum checksum hsome ▸ by decide)

/-- The writer entry is read over. -/
theorem decodeUnder_entriesWithWriter {limits : CborLimits} {blockBytes : List UInt8}
    {value : CborValue} (hflags : payload.footerFlags = 0) (hblake3 : payload.Blake3)
    (hencode : encodeDeterministic (.map (payload.entriesWithWriter writer)) = .ok blockBytes)
    (hvalid : validateDeterministicWithLimits blockBytes limits = .ok value) :
    FooterPayload.block.decodeUnder limits blockBytes = .ok payload := by
  obtain ⟨map, rfl, hprologue, hmap⟩ := @checkPrologue_eq_ok _ footerKeys _ schemaFooter
    .invalidFooterPayload _ (validateDeterministicWithLimits_same hencode hvalid)
    (entriesWithWriter_keys payload writer) (keysWithWriter_nodup payload)
    (keysWithWriter_subset payload)
    (by simp [FooterPayload.entriesWithWriter, FooterPayload.entries])
    (by simp [FooterPayload.entriesWithWriter, FooterPayload.entries])
  have hread : FooterPayload.read (.map map) = .ok payload := by
    refine FooterPayload.read_of_readMap hmap (List.subset_append_left _ _) ?_ hflags hblake3
    intro hnone
    simp [FooterPayload.keys, hnone]
  rw [BlockSchema.decodeUnder, hvalid, ok_bind]
  exact (congrArg (· >>= fun _ => FooterPayload.read (.map map)) hprologue).trans hread

end WithWriter

/-- The references of a footer payload, in terms of the blocks. -/
theorem footerPayload_references (env : Env) (assembly : Assembly) :
    assembly.footerOffset env = (assembly.footerPayload env).indexRoot.offset +
      (assembly.footerPayload env).indexRoot.size ∧
    (assembly.footerPayload env).indexRoot.size = assembly.indexRootBytes.length ∧
    (assembly.footerPayload env).metadata.offset = headerLen + (assembly.frames env).length ∧
    (assembly.footerPayload env).metadata.size = assembly.metadataBytes.length :=
  ⟨rfl, rfl, rfl, rfl⟩

/-- An empty text around any footer payload. -/
def emptyText (env : Env) (footerPayloadBytes : List UInt8) : Assembly :=
  .ofEmptyText env emptyTextId (encodedForm (.map (emptyIndexRoot env).entries)) footerPayloadBytes

theorem emptyText_footerPayloadBytes (env : Env) (footerPayloadBytes : List UInt8) :
    (emptyText env footerPayloadBytes).footerPayloadBytes = footerPayloadBytes := rfl

/-- The footer payload bytes decide the file size only. -/
theorem emptyText_footerPayload (env : Env) (footerPayloadBytes : List UInt8) :
    (emptyText env footerPayloadBytes).footerPayload env =
      { (emptyText env []).footerPayload env with
        finalFileSize := (emptyText env []).footerOffset env + footerPayloadBytes.length +
          footerTrailerLen } := rfl

/-- An empty text is accepted when its metadata, index root and footer payload are. -/
theorem emptyText_accepted {env : Env} {limits : ResourceLimits} {cbor : CborLimits}
    {footerPayloadBytes : List UInt8}
    (hlt : (emptyText env []).footerOffset env + footerPayloadBytes.length + footerTrailerLen <
      2 ^ 64)
    (hadmitted : ValidUnder limits.cborLimits footerPayloadBytes)
    (hfooter : FooterPayload.block.decodeUnder cbor footerPayloadBytes =
      .ok ((emptyText env footerPayloadBytes).footerPayload env))
    (hmetadata : Assembly.BlockAccepted limits cbor Metadata.block
      (emptyText env []).metadataBytes (emptyText env []).metadata)
    (hindexRoot : Assembly.BlockAccepted limits cbor IndexRoot.block
      (emptyText env []).indexRootBytes ((emptyText env []).indexRoot env)) :
    (emptyText env footerPayloadBytes).Accepted env limits cbor where
  length_lt := by
    rw [Assembly.length_bytes]
    exact hlt
  containerId := rfl
  footerAdmitted := hadmitted
  footer := hfooter
  metadata := hmetadata
  indexRoot := hindexRoot
  blockSizes := by
    intro block hblock
    obtain rfl := List.mem_singleton.mp hblock
    exact Nat.zero_le _
  table := by
    show validateChunkTableBlock [] 0 0 (planOf []).lineCount = .ok []
    rfl
  chunkSizes := by
    intro entry hentry
    cases hentry
  dense := rfl
  documents := rfl

/-- The footer payload of an empty text in a file of 16 778 937 bytes. -/
def longFooterPayload : FooterPayload :=
  { (emptyText Reference.env []).footerPayload Reference.env with finalFileSize := 16778937 }

/-- 16 MiB. -/
def longWriterLen : Nat := 16777216

/-- A writer name of 16 MiB. -/
def longWriter : String := String.ofList (List.replicate longWriterLen 'a')

/-- An empty text whose footer payload names the writer at length. -/
def longWriterText : Assembly :=
  emptyText Reference.env (encodedForm (.map (longFooterPayload.entriesWithWriter longWriter)))

/-- The default limits, with room for 32 MiB in a CBOR block. -/
def roomyLimits : ResourceLimits := { ResourceLimits.default with maxCborAllocation := 2 ^ 25 }

theorem length_longWriter : (textBytes longWriter).length = longWriterLen :=
  length_textBytes_replicate longWriterLen

set_option maxRecDepth 100000 in
theorem usage_longFooterPayload :
    (usageEntries longFooterPayload.entries).items = 42 ∧
      (usageEntries longFooterPayload.entries).allocation = 509 ∧
      (usageEntries longFooterPayload.entries).encodedBytes = 372 := by
  decide +kernel

/-- The usage of the long footer payload: 16 MiB and the rest. -/
theorem usage_entriesWithWriter {writer : String} (hwriter : (textBytes writer).length = longWriterLen) :
    (CborValue.map (longFooterPayload.entriesWithWriter writer)).usage =
      { items := 45, allocation := 16777738, encodedBytes := 16777601 } := by
  obtain ⟨hitems, hallocation, hbytes⟩ := usage_longFooterPayload
  have hkey : CborValue.usage (.text "writer") =
      { items := 1, allocation := 6, encodedBytes := 7 } := by decide
  have hcount : longFooterPayload.entries.length = 8 := rfl
  have hhead : headLen longWriterLen = 5 := by decide
  have hshort : headLen 9 = 1 := by decide
  rw [CborValue.usage, FooterPayload.entriesWithWriter, usageEntries_append, List.length_append,
    hcount, List.length_singleton, hshort]
  simp only [usageEntries, textPair, hkey, CborValue.usage, hwriter, stringUsage, hhead]
  ext <;> simp only [CborUsage.add_items, CborUsage.add_allocation, CborUsage.add_encodedBytes,
    hitems, hallocation, hbytes] <;> rfl

set_option maxRecDepth 100000 in
/-- The blocks before the footer payload are small and are read back. -/
theorem emptyText_blocks :
    (emptyText Reference.env []).footerOffset Reference.env = 1272 ∧
      (emptyText Reference.env []).metadataBytes.length = 795 ∧
      (emptyText Reference.env []).indexRootBytes.length = 349 ∧
      Metadata.block.decodeUnder roomyLimits.cborLimits
        (emptyText Reference.env []).metadataBytes =
          .ok (emptyText Reference.env []).metadata ∧
      IndexRoot.block.decodeUnder roomyLimits.cborLimits
        (emptyText Reference.env []).indexRootBytes =
          .ok ((emptyText Reference.env []).indexRoot Reference.env) := by
  decide +kernel

theorem longFooterPayload_blake3 : longFooterPayload.Blake3 := by
  refine ⟨rfl, rfl, ?_⟩
  intro checksum hchecksum
  cases hchecksum
  rfl

theorem longFooter_roundTrips :
    RoundTrips (.map (longFooterPayload.entriesWithWriter longWriter)) := by
  obtain ⟨hoffset, hmetadata, hindexRoot, -⟩ := emptyText_blocks
  obtain ⟨hend, hroot, hstart, hmeta⟩ :=
    footerPayload_references Reference.env (emptyText Reference.env [])
  have hframes : (emptyText Reference.env []).frames Reference.env = [] := rfl
  rw [hframes, List.length_nil] at hstart
  have hindexRootRef : longFooterPayload.indexRoot =
      ((emptyText Reference.env []).footerPayload Reference.env).indexRoot := rfl
  have hmetadataRef : longFooterPayload.metadata =
      ((emptyText Reference.env []).footerPayload Reference.env).metadata := rfl
  have hsize : longFooterPayload.finalFileSize = 16778937 := rfl
  rw [headerLen] at hstart
  refine (encodable_entriesWithWriter rfl longFooterPayload_blake3 ?_ ?_ ?_ ?_).roundTrips
  · rw [hindexRootRef]
    omega
  · rw [hmetadataRef]
    omega
  · omega
  · rw [length_longWriter, longWriterLen]
    omega

theorem length_longFooter :
    (encodedForm (.map (longFooterPayload.entriesWithWriter longWriter))).length = 16777601 := by
  rw [longFooter_roundTrips.length, usage_entriesWithWriter length_longWriter]

theorem depth_longFooter :
    (CborValue.map (longFooterPayload.entriesWithWriter longWriter)).depth ≤ maxNestingDepth := by
  have hdepth : ∀ writer : String,
      (CborValue.map (longFooterPayload.entriesWithWriter writer)).depth = 3 := fun _ => rfl
  rw [hdepth]
  decide

/-- The long footer payload is the one its assembly calls for. -/
theorem longWriterText_footerPayload :
    longWriterText.footerPayload Reference.env = longFooterPayload := by
  rw [longWriterText, emptyText_footerPayload, length_longFooter, emptyText_blocks.1]
  rfl

theorem longFooter_validates :
    validateDeterministicWithLimits
      (encodedForm (.map (longFooterPayload.entriesWithWriter longWriter)))
      roomyLimits.cborLimits =
        .ok (CborValue.map (longFooterPayload.entriesWithWriter longWriter)).sorted := by
  refine longFooter_roundTrips.validates depth_longFooter ?_ ?_ ?_
  · rw [length_longFooter]
    decide
  · rw [usage_entriesWithWriter length_longWriter]
    decide
  · rw [usage_entriesWithWriter length_longWriter]
    decide

theorem longWriterText_accepted :
    longWriterText.Accepted Reference.env roomyLimits roomyLimits.cborLimits := by
  obtain ⟨hoffset, hmetadataSize, hindexRootSize, hmetadata, hindexRoot⟩ := emptyText_blocks
  have hmax : roomyLimits.maxIndexBlockSize = 64 * 1024 * 1024 := rfl
  refine emptyText_accepted ?_ ⟨_, longFooter_validates⟩ ?_
    ⟨?_, BlockSchema.validUnder_of_decode hmetadata, hmetadata⟩
    ⟨?_, BlockSchema.validUnder_of_decode hindexRoot, hindexRoot⟩
  · rw [hoffset, length_longFooter, footerTrailerLen]
    omega
  · have hpayload := longWriterText_footerPayload
    rw [longWriterText] at hpayload
    rw [hpayload]
    exact decodeUnder_entriesWithWriter rfl longFooterPayload_blake3 longFooter_roundTrips.encodes
      longFooter_validates
  · omega
  · omega

/-- A container of 16 MiB that follows every rule under limits of 32 MiB, and is not opened under
them. -/
theorem openWithLimits_longWriter :
    (longWriterText.skeletonParts Reference.env).Follows Reference.env
        (longWriterText.bytes Reference.env) roomyLimits roomyLimits.cborLimits ∧
      ¬ ∃ reader, QztReader.openWithLimits Reference.env (longWriterText.bytes Reference.env)
        roomyLimits = .ok reader := by
  refine ⟨longWriterText_accepted.follows, ?_⟩
  rintro ⟨reader, hopen⟩
  simp only [QztReader.openWithLimits, bind_eq_ok_iff] at hopen
  obtain ⟨details, hopen, -⟩ := hopen
  -- The footer payload is one of the blocks that the default limits have to admit.
  have hvalid := longWriterText_accepted.follows.opens_iff.mp ⟨details, hopen⟩
    longWriterText.footerPayloadBytes (by simp [SkeletonParts.cborBlocks, Assembly.skeletonParts])
  obtain ⟨value, hvalue⟩ := hvalid
  rw [longWriterText, emptyText_footerPayloadBytes] at hvalue
  have hword : (encodedForm (.map (longFooterPayload.entriesWithWriter longWriter))).length <
      2 ^ 64 := by
    rw [length_longFooter]
    decide
  have husage := longFooter_roundTrips.usage_le_of_validates depth_longFooter hword hvalue
  rw [usage_entriesWithWriter length_longWriter] at husage
  exact absurd husage.2 (by decide)

theorem openWithLimits_iff_default_longWriter :
    (∃ reader, QztReader.openWithLimits Reference.env (longWriterText.bytes Reference.env)
        roomyLimits = .ok reader) ↔
      ∀ block ∈ (longWriterText.skeletonParts Reference.env).cborBlocks
          (longWriterText.bytes Reference.env),
        ∃ value, validateDeterministic block = .ok value :=
  openWithLimits_iff_default longWriterText_accepted.follows

end Qzt
