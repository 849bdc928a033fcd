import Qzt.Reader.DocumentHashes
import Qzt.Reader.LineReads

/-!
# The pass of deep verification

After any prefix of the chunks the running state is a function of the text decoded so
far (`DeepState.Tracks`).  A chunk passes exactly when its entry describes the decoded
part, the part is UTF-8 and the dense index stores its line starts.  So the pass
succeeds on tables that describe their text, and only on those.
-/

namespace Qzt

open Foundation

/-- The running state after the text `text`. -/
structure DeepState.Tracks {env : Env} (details : SkeletonDetails) (text : List UInt8)
    (state : DeepState env) : Prop where
  originalHasher : env.blake3.Absorbed state.originalHasher text
  lineStartsSeen : state.text.lineStartsSeen = countLines text
  newlines : state.text.newlines = newlineState text
  decodedBytes : state.decodedBytes = text.length
  documents : ∀ documentIndex, details.documentIndex = some documentIndex →
    ∃ hasher, state.documentHasher = some hasher ∧ hasher.Tracks documentIndex.documents text
  noDocuments : details.documentIndex = none → state.documentHasher = none

theorem verifyDenseChunk_eq_ok_iff {details : SkeletonDetails} {index : Nat} {entry : ChunkEntry}
    {part : List UInt8} (hlen : part.length < 2 ^ 64) :
    verifyDenseChunk details.denseLineIndex index part entry.flags = .ok ⟨⟩ ↔
      DenseMatchesAt details index entry part := by
  unfold verifyDenseChunk DenseMatchesAt
  cases details.denseLineIndex with
  | none => simp
  | some dense =>
    simp only [Option.some.injEq, forall_eq']
    rw [DenseLineIndex.verifyChunk, lineStartOffsets_eq hlen, ok_bind]
    simp [bind_eq_ok_iff]

section Pass

variable {env : Env} {details : SkeletonDetails} {decodeEntry : DecodeEntry}
  {state : DeepState env} {text part : List UInt8} {entry : ChunkEntry} {index : Nat}

theorem DeepState.tracks_new (env : Env) (details : SkeletonDetails) :
    (DeepState.new env details).Tracks details [] where
  originalHasher := env.blake3.absorbed_new
  lineStartsSeen := rfl
  newlines := rfl
  decodedBytes := rfl
  documents := by
    intro documentIndex h
    refine ⟨.new documentIndex, ?_, DocumentHasher.tracks_new documentIndex⟩
    rw [DeepState.new, h, Option.map_some]
  noDocuments := by
    intro h
    rw [DeepState.new, h, Option.map_none]

theorem feedDocumentHasher_tracks (h : state.Tracks details text)
    (hlen : text.length + part.length < 2 ^ 64) :
    ∃ hasher, feedDocumentHasher state.documentHasher text.length part = .ok hasher ∧
      (∀ documentIndex, details.documentIndex = some documentIndex →
        ∃ fed, hasher = some fed ∧ fed.Tracks documentIndex.documents (text ++ part)) ∧
      (details.documentIndex = none → hasher = none) := by
  cases hindex : details.documentIndex with
  | none =>
    rw [h.noDocuments hindex]
    exact ⟨none, rfl, by simp, by simp⟩
  | some documentIndex =>
    obtain ⟨hasher, hsome, htracks⟩ := h.documents documentIndex hindex
    obtain ⟨fed, hfeed, htracks'⟩ := htracks.feed hlen
    refine ⟨some fed, ?_, ?_, by simp⟩
    · rw [hsome, feedDocumentHasher, hfeed]
      rfl
    · intro documentIndex' heq
      cases heq
      exact ⟨fed, rfl, htracks'⟩

theorem StreamingTextAnalysis.update_eq {analysis : StreamingTextAnalysis} {before : List UInt8}
    (hseen : analysis.lineStartsSeen = countLines before)
    (hnewlines : analysis.newlines = newlineState before)
    (hlen : before.length + part.length < 2 ^ 64) :
    analysis.update part (continuationFlag before) =
      .ok ⟨countLines (before ++ part), newlineState (before ++ part)⟩ := by
  have hstarts := length_partLineStarts_le before part
  have hcount := countLines_le before
  have hcounts := newlineState_counts before
  simp only [StreamingTextAnalysis.update]
  rw [localLineStarts_continuationFlag, usizeToU64_of_lt (by omega), ok_bind, hseen,
    checkedAdd_of_lt (by omega), okOr_some, ok_bind, hnewlines,
    NewlineState.update_of_lt (by omega) (by omega), ok_bind, countLines_append,
    newlineState_append]
  rfl

/-- The state after the chunk that holds `part`. -/
private theorem DeepState.Tracks.next (h : state.Tracks details text)
    (hlen : text.length + part.length < 2 ^ 64) :
    ∃ state' : DeepState env, state'.Tracks details (text ++ part) ∧
      state.text.update part (continuationFlag text) = .ok state'.text ∧
      feedDocumentHasher state.documentHasher text.length part = .ok state'.documentHasher ∧
      state'.originalHasher = env.blake3.update state.originalHasher part ∧
      state'.decodedBytes = state.decodedBytes + part.length := by
  obtain ⟨hasher, hfeed, hdocuments, hnone⟩ := feedDocumentHasher_tracks h hlen
  have hupdate := StreamingTextAnalysis.update_eq h.lineStartsSeen h.newlines hlen
  refine ⟨⟨env.blake3.update state.originalHasher part,
    ⟨countLines (text ++ part), newlineState (text ++ part)⟩, hasher,
    state.decodedBytes + part.length⟩, ⟨?_, rfl, rfl, ?_, hdocuments, hnone⟩, hupdate, hfeed, rfl,
    rfl⟩
  · exact h.originalHasher.update part
  · rw [List.length_append, ← h.decodedBytes]

/-- A chunk whose entry describes its part passes. -/
theorem verifyDeepEntry_succeeds {done : List (List UInt8)} (h : state.Tracks details done.flatten)
    (hpart : DescribesPart done entry part) (hdecode : decodeEntry entry = .ok part)
    (hvalid : Utf8.Valid part) (hdense : DenseMatchesAt details index entry part)
    (hlen : done.flatten.length + part.length < 2 ^ 64) :
    ∃ state', verifyDeepEntry env details decodeEntry index entry state = .ok state' ∧
      state'.Tracks details (done.flatten ++ part) := by
  obtain ⟨state', htracks, hupdate, hfeed, hhasher, hbytes⟩ := h.next hlen
  have hcount := length_partLineStarts_le done.flatten part
  have hutf8 : ¬ (fromUtf8 part).isNone = true := by
    have hsome := (isSome_fromUtf8_iff part).mpr hvalid
    rw [Option.isSome_iff_ne_none] at hsome
    simpa using hsome
  refine ⟨state', ?_, htracks⟩
  rw [verifyDeepEntry, h.newlines, hpart.logicalOffset, expectedFlags_eq, hpart.flags,
    rejectIf_of_not (by simp), ok_bind, hpart.firstLine, h.lineStartsSeen,
    rejectIf_of_not (by simp), ok_bind, hdecode, ok_bind, rejectIf_of_not hutf8, ok_bind,
    ← hpart.flags, (verifyDenseChunk_eq_ok_iff (by omega)).mpr hdense, ok_bind, hpart.flags,
    localLineStarts_continuationFlag, usizeToU64_of_lt (by omega), ok_bind, hpart.lineCount,
    rejectIf_of_not (by simp), ok_bind]
  simp only
  rw [hupdate, ok_bind, hfeed, ok_bind, usizeToU64_of_lt (by omega), ok_bind, h.decodedBytes,
    checkedAdd_of_lt hlen, okOr_some, ok_bind, ← hhasher, ← h.decodedBytes, ← hbytes]
  rfl

/-- A chunk that passes has an entry that describes its part. -/
theorem verifyDeepEntry_sound {done : List (List UInt8)} (h : state.Tracks details done.flatten)
    (hid : entry.chunkId = done.length) (hoffset : entry.logicalOffset = done.flatten.length)
    (hpos : 0 < entry.uncompressedSize)
    (hlen : done.flatten.length + entry.uncompressedSize < 2 ^ 64)
    (hsize : ∀ part, decodeEntry entry = .ok part → part.length = entry.uncompressedSize)
    {state' : DeepState env}
    (hpass : verifyDeepEntry env details decodeEntry index entry state = .ok state') :
    ∃ part, decodeEntry entry = .ok part ∧ DescribesPart done entry part ∧ Utf8.Valid part ∧
      DenseMatchesAt details index entry part ∧ state'.Tracks details (done.flatten ++ part) := by
  have hsteps := hpass
  simp only [verifyDeepEntry, bind_eq_ok_iff, rejectIf_eq_ok_iff, ne_eq, not_not,
    usizeToU64_eq_ok_iff] at hsteps
  obtain ⟨_, hflags, _, hfirst, part, hdecode, _, hutf8, ⟨⟩, hdense, _, ⟨-, rfl⟩, _, hcount, _⟩ :=
    hsteps
  have hlength := hsize part hdecode
  rw [h.newlines, hoffset, expectedFlags_eq] at hflags
  rw [hflags, localLineStarts_continuationFlag] at hcount
  have hdescribes : DescribesPart done entry part :=
    { chunkId := hid, logicalOffset := hoffset, uncompressedSize := hlength.symm
      firstLine := hfirst.trans h.lineStartsSeen, lineCount := hcount, flags := hflags
      part_ne_nil := List.ne_nil_of_length_pos (by omega) }
  have hvalid : Utf8.Valid part := by
    rw [← isSome_fromUtf8_iff]
    cases hdecoded : fromUtf8 part with
    | none => simp [hdecoded] at hutf8
    | some s => rfl
  have hmatches := (verifyDenseChunk_eq_ok_iff (by omega)).mp hdense
  obtain ⟨state'', hsucceeds, htracks⟩ :=
    verifyDeepEntry_succeeds h hdescribes hdecode hvalid hmatches (by omega)
  rw [hsucceeds, Except.ok.injEq] at hpass
  exact ⟨part, hdecode, hdescribes, hvalid, hmatches, hpass ▸ htracks⟩

/-! ## The whole pass -/

theorem DenseMatches.cons_iff {first : Nat} {entries : List ChunkEntry}
    {parts : List (List UInt8)} :
    DenseMatches details first (entry :: entries) (part :: parts) ↔
      DenseMatchesAt details first entry part ∧ DenseMatches details (first + 1) entries parts := by
  constructor
  · intro h
    refine ⟨h 0 entry part rfl rfl, ?_⟩
    intro index entry' part' hentry hpart
    rw [Nat.add_assoc, Nat.add_comm 1]
    exact h (index + 1) entry' part' hentry hpart
  · rintro ⟨hfirst, hrest⟩ index entry' part' hentry hpart
    cases index with
    | zero =>
      cases hentry
      cases hpart
      exact hfirst
    | succ index =>
      have hnext := hrest index entry' part' hentry hpart
      rw [Nat.add_assoc, Nat.add_comm 1] at hnext
      exact hnext

/-- The pass succeeds on a table that describes its parts. -/
theorem verifyDeepLoop_succeeds {done parts : List (List UInt8)} {entries : List ChunkEntry}
    (h : state.Tracks details done.flatten) (hdescribes : Describes done entries parts)
    (hdecodes : DecodesTo decodeEntry entries parts) (hvalid : ∀ part ∈ parts, Utf8.Valid part)
    (hdense : DenseMatches details done.length entries parts)
    (hlen : (done ++ parts).flatten.length < 2 ^ 64) :
    ∃ state', verifyDeepLoop env details decodeEntry done.length entries state = .ok state' ∧
      state'.Tracks details (done ++ parts).flatten := by
  induction hdescribes generalizing state with
  | nil => exact ⟨state, rfl, by simpa using h⟩
  | @cons done entry entries part parts hpart _ ih =>
    obtain ⟨hdecode, hdecodes⟩ := List.forall₂_cons.mp hdecodes
    obtain ⟨hfirst, hrest⟩ := DenseMatches.cons_iff.mp hdense
    rw [List.forall_mem_cons] at hvalid
    have hlength : done.flatten.length + part.length < 2 ^ 64 := by
      rw [List.flatten_append, List.flatten_cons, List.length_append, List.length_append] at hlen
      omega
    obtain ⟨next, hnext, htracks⟩ :=
      verifyDeepEntry_succeeds h hpart hdecode hvalid.1 hfirst hlength
    rw [verifyDeepLoop, hnext, ok_bind]
    have happend : done ++ [part] ++ parts = done ++ part :: parts := by simp
    have hdone : (done ++ [part]).length = done.length + 1 := by simp
    rw [← happend] at hlen ⊢
    rw [← hdone] at hrest ⊢
    exact ih (by simpa using htracks) hdecodes hvalid.2 hrest hlen

/-- The pass succeeds only on a table that describes its parts. -/
theorem verifyDeepLoop_sound {done : List (List UInt8)} {entries : List ChunkEntry}
    (h : state.Tracks details done.flatten)
    (hcontiguous : Contiguous done.length done.flatten.length entries)
    (hlen : done.flatten.length + (chunkSizes entries).sum < 2 ^ 64)
    (hsize : ∀ entry part, decodeEntry entry = .ok part → part.length = entry.uncompressedSize)
    {state' : DeepState env}
    (hpass : verifyDeepLoop env details decodeEntry done.length entries state = .ok state') :
    ∃ parts, DecodesTo decodeEntry entries parts ∧ Describes done entries parts ∧
      (∀ part ∈ parts, Utf8.Valid part) ∧ DenseMatches details done.length entries parts ∧
      state'.Tracks details (done ++ parts).flatten := by
  induction entries generalizing done state with
  | nil =>
    cases hpass
    refine ⟨[], .nil, .nil, by simp, ?_, by simpa using h⟩
    intro index entry part hentry
    simp at hentry
  | cons entry entries ih =>
    obtain ⟨hid, hoffset, hpos, hrest⟩ := hcontiguous
    rw [chunkSizes_cons, List.sum_cons] at hlen
    simp only [verifyDeepLoop, bind_eq_ok_iff] at hpass
    obtain ⟨next, hnext, hloop⟩ := hpass
    obtain ⟨part, hdecode, hdescribes, hvalid, hdense, htracks⟩ :=
      verifyDeepEntry_sound h hid hoffset hpos (by omega) (hsize entry) hnext
    have hlength := hsize entry part hdecode
    have hdone : (done ++ [part]).length = done.length + 1 := by simp
    have hflatten : (done ++ [part]).flatten = done.flatten ++ part := by simp
    have htotal : (done ++ [part]).flatten.length =
        done.flatten.length + entry.uncompressedSize := by
      rw [hflatten, List.length_append, hlength]
    rw [← hflatten] at htracks
    rw [← hdone, ← htotal] at hrest
    rw [← hdone] at hloop
    obtain ⟨parts, hdecodes, hparts, hvalids, hdenses, hlast⟩ :=
      ih htracks hrest (by omega) hloop
    rw [hdone] at hdenses
    refine ⟨part :: parts, .cons hdecode hdecodes, .cons hdescribes hparts, ?_,
      DenseMatches.cons_iff.mpr ⟨hdense, hdenses⟩, by simpa using hlast⟩
    rw [List.forall_mem_cons]
    exact ⟨hvalid, hvalids⟩

end Pass

/-! ## Documents -/

/-- A document entry describes its range of the text. -/
structure DocumentMatches (env : Env) (details : SkeletonDetails) (text : List UInt8)
    (document : DocumentEntry) : Prop where
  range : document.logicalOffset + document.byteLength ≤ details.summary.originalSize
  lines : document.firstLine + document.lineCount ≤ details.metadata.lineCount
  docIdHash : document.docIdHash = digestPrefix16 (env.blake3.hash (textBytes document.docId))
  checksum : document.checksum =
    Checksum.blake3 env (slice text document.logicalOffset document.byteLength)
  chunks : documentChunkRange details.chunkEntries document.logicalOffset document.byteLength =
    .ok (document.chunkStart, document.chunkEnd)

section Documents

variable {env : Env} {details : SkeletonDetails} {text : List UInt8}

/-- The hash of the pass is the hash of the range. -/
theorem documentChecksum_eq {documents : List DocumentEntry} {hasher : DocumentHasher env}
    (h : hasher.Tracks documents text) {index : Nat} {document : DocumentEntry}
    (hget : documents[index]? = some document)
    (hrange : document.logicalOffset + document.byteLength ≤ text.length)
    (hlen : text.length < 2 ^ 64) :
    documentChecksum env index document hasher.results =
      .ok (Checksum.blake3 env (slice text document.logicalOffset document.byteLength)) := by
  rw [documentChecksum]
  split
  · rename_i hzero
    rw [hzero, slice_length_zero]
  · have hdocument := DocumentHasher.isDocument_of_getElem? hget (by omega) (by omega)
    have hlookup := h.lookup hdocument hrange (by omega)
    rw [Nat.add_sub_cancel_left] at hlookup
    rw [hlookup, okOr_some, ok_bind]
    rfl

/-- A document that passes every check. -/
theorem verifyDocument_succeeds {documents : List DocumentEntry} {hasher : DocumentHasher env}
    (h : hasher.Tracks documents text) {index originalSize lineCount : Nat}
    {document : DocumentEntry} {entries : List ChunkEntry} (hget : documents[index]? = some document)
    (hlen : text.length < 2 ^ 64) (hsize : originalSize = text.length)
    (hrange : document.logicalOffset + document.byteLength ≤ text.length)
    (hlines : document.firstLine + document.lineCount ≤ lineCount) (hword : lineCount < 2 ^ 64)
    (hid : document.docIdHash = digestPrefix16 (env.blake3.hash (textBytes document.docId)))
    (hchecksum : document.checksum =
      Checksum.blake3 env (slice text document.logicalOffset document.byteLength))
    (hchunks : documentChunkRange entries document.logicalOffset document.byteLength =
      .ok (document.chunkStart, document.chunkEnd)) :
    verifyDocument env originalSize lineCount entries hasher.results index document = .ok ⟨⟩ := by
  rw [verifyDocument, checkedLogicalEnd_of_lt (by omega), ok_bind, rejectIf_of_not (by omega),
    ok_bind, checkedLogicalEnd_of_lt (by omega), ok_bind, rejectIf_of_not (by omega), ok_bind,
    rejectIf_of_not (by simp [hid]), ok_bind, documentChecksum_eq h hget hrange hlen, ok_bind,
    rejectIf_of_not (by simp [hchecksum]), ok_bind, hchunks, ok_bind]
  exact rejectIf_of_not (by simp)

/-- The checks on one document. -/
theorem verifyDocument_eq_ok_iff {documents : List DocumentEntry} {hasher : DocumentHasher env}
    (h : hasher.Tracks documents text) {index : Nat} {document : DocumentEntry}
    (hget : documents[index]? = some document) (hlen : text.length < 2 ^ 64)
    (hsize : details.summary.originalSize = text.length)
    (hlines : details.metadata.lineCount < 2 ^ 64) :
    verifyDocument env details.summary.originalSize details.metadata.lineCount
        details.chunkEntries hasher.results index document = .ok ⟨⟩ ↔
      DocumentMatches env details text document := by
  constructor
  · intro hok
    simp only [verifyDocument, bind_eq_ok_iff, checkedLogicalEnd_eq_ok_iff, rejectIf_eq_ok_iff,
      ne_eq, not_not, not_or] at hok
    obtain ⟨_, ⟨-, rfl⟩, _, hrange, _, ⟨-, rfl⟩, _, hlineEnd, _, hid, actual, hactual, _, hsum,
      chunks, hchunks, hstart, hstop⟩ := hok
    rw [documentChecksum_eq h hget (by omega) hlen, Except.ok.injEq] at hactual
    refine ⟨by omega, by omega, hid, ?_, ?_⟩
    · rw [← hsum, hactual]
    · rw [hchunks, hstart, hstop]
  · intro hmatches
    have hrange := hmatches.range
    rw [hsize] at hrange
    exact verifyDocument_succeeds h hget hlen hsize hrange hmatches.lines hlines hmatches.docIdHash
      hmatches.checksum hmatches.chunks

theorem verifyDocuments_eq_ok_iff {documents : List DocumentEntry} {hasher : DocumentHasher env}
    (h : hasher.Tracks documents text) (hlen : text.length < 2 ^ 64)
    (hsize : details.summary.originalSize = text.length)
    (hlines : details.metadata.lineCount < 2 ^ 64) (first : Nat) {rest : List DocumentEntry}
    (hrest : rest = documents.drop first) :
    verifyDocuments env details.summary.originalSize details.metadata.lineCount
        details.chunkEntries hasher.results first rest = .ok ⟨⟩ ↔
      ∀ document ∈ rest, DocumentMatches env details text document := by
  induction rest generalizing first with
  | nil => simp [verifyDocuments]
  | cons document rest ih =>
    have hget : documents[first]? = some document := by
      rw [← List.head?_drop, ← hrest]
      rfl
    have htail : rest = documents.drop (first + 1) := by
      rw [← List.tail_drop, ← hrest]
      rfl
    rw [verifyDocuments, bind_eq_ok_iff, List.forall_mem_cons,
      ← verifyDocument_eq_ok_iff h hget hlen hsize hlines, ← ih (first + 1) htail]
    constructor
    · rintro ⟨⟨⟩, hhead, htail⟩
      exact ⟨hhead, htail⟩
    · rintro ⟨hhead, htail⟩
      exact ⟨⟨⟩, hhead, htail⟩

end Documents

/-! ## Deep verification -/

/-- What deep verification establishes about the decoded parts. -/
structure DeepVerified (env : Env) (details : SkeletonDetails) (decodeEntry : DecodeEntry)
    (parts : List (List UInt8)) : Prop where
  decodes : DecodesTo decodeEntry details.chunkEntries parts
  describes : Describes [] details.chunkEntries parts
  valid : ∀ part ∈ parts, Utf8.Valid part
  dense : DenseMatches details 0 details.chunkEntries parts
  size : parts.flatten.length = details.summary.originalSize
  checksum : Checksum.blake3 env parts.flatten = details.metadata.originalChecksum
  lineCount : countLines parts.flatten = details.metadata.lineCount
  newlineMode : (NewlineMode.fromCounts (newlineState parts.flatten).lfCount
    (newlineState parts.flatten).crlfCount).asStr = details.metadata.newlineMode
  documents : ∀ documentIndex, details.documentIndex = some documentIndex →
    ∀ document ∈ documentIndex.documents, DocumentMatches env details parts.flatten document

section Verified

variable {env : Env} {details : SkeletonDetails} {decodeEntry : DecodeEntry}

theorem verifyDeepDocuments_eq_ok_iff {text : List UInt8} {state : DeepState env}
    (h : state.Tracks details text) (hlen : text.length < 2 ^ 64)
    (hsize : details.summary.originalSize = text.length)
    (hlines : details.metadata.lineCount < 2 ^ 64) :
    verifyDeepDocuments env details state = .ok ⟨⟩ ↔
      ∀ documentIndex, details.documentIndex = some documentIndex →
        ∀ document ∈ documentIndex.documents, DocumentMatches env details text document := by
  unfold verifyDeepDocuments
  cases hindex : details.documentIndex with
  | none => simp
  | some documentIndex =>
    obtain ⟨hasher, hsome, htracks⟩ := h.documents documentIndex hindex
    simp only [DeepState.documentHashes, hsome, Option.some.injEq, forall_eq']
    exact verifyDocuments_eq_ok_iff htracks hlen hsize hlines 0 (by simp)

/-- Deep verification fails on anything else. -/
theorem verifyDeepEntries_sound
    (hlayout : Layout details.chunkEntries details.summary.originalSize)
    (hsize : ∀ entry part, decodeEntry entry = .ok part → part.length = entry.uncompressedSize)
    {report : VerifyReport} (hok : verifyDeepEntries env details decodeEntry = .ok report) :
    ∃ parts, DeepVerified env details decodeEntry parts := by
  simp only [verifyDeepEntries, bind_eq_ok_iff, rejectIf_eq_ok_iff, ne_eq, not_not] at hok
  obtain ⟨state, hpass, _, hbytes, _, hchecksum, _, hlines, _, hmode, ⟨⟩, hdocuments, -⟩ := hok
  obtain ⟨parts, hdecodes, hdescribes, hvalid, hdense, htracks⟩ :=
    @verifyDeepLoop_sound _ _ _ _ [] _ (DeepState.tracks_new env details) hlayout.contiguous
      (by simpa [hlayout.total] using hlayout.size_lt) hsize state hpass
  rw [List.nil_append] at htracks
  have hlength : parts.flatten.length = details.summary.originalSize := by
    rw [← htracks.decodedBytes, hbytes]
  have hsizeLt := hlayout.size_lt
  have hcount := countLines_le parts.flatten
  have hlineCount : countLines parts.flatten = details.metadata.lineCount := by
    rw [← htracks.lineStartsSeen, hlines]
  refine ⟨parts, hdecodes, hdescribes, hvalid, hdense, hlength, ?_, hlineCount, ?_, ?_⟩
  · rw [← hchecksum, Checksum.fromHasher, htracks.originalHasher.finalize]
    rfl
  · rw [← hmode, StreamingTextAnalysis.newlineMode, htracks.newlines]
  · exact (verifyDeepDocuments_eq_ok_iff htracks (by omega) hlength.symm (by omega)).mp hdocuments

/-- Deep verification succeeds on a table that describes its text. -/
theorem verifyDeepEntries_succeeds {parts : List (List UInt8)}
    (h : DeepVerified env details decodeEntry parts)
    (hlen : details.summary.originalSize < 2 ^ 64) :
    verifyDeepEntries env details decodeEntry =
      .ok (reportForLevel details .deep details.summary.originalSize) := by
  have hlength := h.size
  have hcount := countLines_le parts.flatten
  have hlineCount := h.lineCount
  obtain ⟨state, hpass, htracks⟩ := @verifyDeepLoop_succeeds _ _ _ _ [] parts _
    (DeepState.tracks_new env details) h.describes h.decodes h.valid h.dense
    (by rw [List.nil_append]; omega)
  rw [List.nil_append] at htracks
  have hdocuments := (verifyDeepDocuments_eq_ok_iff htracks (by omega) hlength.symm
    (by omega)).mpr h.documents
  rw [List.length_nil] at hpass
  rw [verifyDeepEntries, hpass, ok_bind, htracks.decodedBytes, h.size, rejectIf_of_not (by simp),
    ok_bind, Checksum.fromHasher, htracks.originalHasher.finalize, ← h.checksum,
    rejectIf_of_not (by simp [Checksum.blake3]), ok_bind, htracks.lineStartsSeen, h.lineCount,
    rejectIf_of_not (by simp), ok_bind, StreamingTextAnalysis.newlineMode, htracks.newlines,
    h.newlineMode, rejectIf_of_not (by simp), ok_bind, hdocuments, ok_bind]
  rfl

end Verified

end Qzt
