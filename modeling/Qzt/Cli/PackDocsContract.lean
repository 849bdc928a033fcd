import Qzt.Cli.FilesContract
import Qzt.Cli.PackDocs
import Qzt.Cli.Reads
import Qzt.Reader.TextRanges
import Qzt.Writer.PackedDocuments

/-!
# The documents that `pack-docs` packs are the ones that `doc` reads

A run leaves the output as it was or puts a container there, and the container holds one
document for each input: its name and the bytes the input had.  Nothing is left of a container
that could not be written whole.
-/

namespace Qzt

open Foundation Disk

variable {host : Host} {env : Env} {special : Path → Except IoError (List UInt8)} {start s : Disk}
  {done : List Step} {tree : Tree}

/-! ## Loading the inputs -/

/-- A document, by its identifier and its text, is the one of an input path. -/
structure Loads (special : Path → Except IoError (List UInt8)) (tree : Tree) (docIdPrefix : String)
    (inputPath : String) (document : String × List UInt8) : Prop where
  docId : packDocsDocumentId inputPath docIdPrefix = some document.1
  text : readTree special tree (Path.ofString inputPath) = .ok document.2

/-- The spans of documents that are laid end to end. -/
def documentSpansFrom : Nat → List (String × List UInt8) → List DocumentSpan
  | _, [] => []
  | offset, (docId, text) :: documents =>
    { docId, logicalOffset := offset, byteLength := text.length } ::
      documentSpansFrom (offset + text.length) documents

theorem loadLoop_ensures {docIdPrefix : String} (inputPaths : List String) :
    ∀ {input : List UInt8} {spans : List DocumentSpan} {s : Disk}, At start done tree s →
      Ensures (loadLoop special docIdPrefix inputPaths input spans) s
        (fun loaded s' => At start done tree s' ∧ ∃ documents,
          List.Forall₂ (Loads special tree docIdPrefix) inputPaths documents ∧
            loaded.1 = input ++ (documents.map Prod.snd).flatten ∧
              loaded.2 = spans ++ documentSpansFrom input.length documents)
        (fun _ s' => At start done tree s') := by
  induction inputPaths with
  | nil =>
    intro input spans s h
    exact ensures_pure ⟨h, [], .nil, by simp, by simp [documentSpansFrom]⟩
  | cons inputPath inputPaths ih =>
    intro input spans s h
    apply ensures_bind
    apply ensures_lift
    · intro docId hdocId
      rw [okOr_eq_ok_iff] at hdocId
      apply ensures_bind
      apply ensures_liftIo
      refine (readFile_ensures h).mono ?_ (fun _ _ hat => hat)
      rintro bytes s₁ ⟨hread, hat⟩
      apply ensures_bind
      apply ensures_liftQzt
      · intro offset hoffset
        obtain ⟨-, rfl⟩ := usizeToU64_eq_ok_iff.mp hoffset
        apply ensures_bind
        apply ensures_liftQzt
        · intro byteLength hlength
          obtain ⟨-, rfl⟩ := usizeToU64_eq_ok_iff.mp hlength
          refine (ih hat).mono ?_ (fun _ _ hat' => hat')
          rintro loaded s₂ ⟨hat₂, documents, hloads, hinput, hspans⟩
          refine ⟨hat₂, (docId, bytes) :: documents, .cons ⟨hdocId, hread⟩ hloads, ?_, ?_⟩
          · rw [hinput, List.map_cons, List.flatten_cons, List.append_assoc]
          · rw [hspans, List.length_append, documentSpansFrom, List.append_assoc, List.singleton_append]
        · exact fun _ _ => hat
      · exact fun _ _ => hat
    · exact fun _ _ => h

/-! ## What the container holds -/

/-- A reader that holds these documents in this order, and no others. -/
structure Holds (env : Env) (reader : QztFileReader) (documents : List (String × List UInt8)) :
    Prop where
  listed : ∃ index, reader.details.documentIndex = some index ∧
    index.documents.map DocumentEntry.docId = documents.map Prod.fst
  distinct : (documents.map Prod.fst).Nodup
  exportAll : reader.exportAll env = .ok (documents.map Prod.snd).flatten
  found : ∀ document ∈ documents, ∀ noVerify,
    docBytes env reader document.1 noVerify = .ok document.2
  missing : ∀ docId, docId ∉ documents.map Prod.fst → ∀ noVerify,
    docBytes env reader docId noVerify = .error (.qzt .documentNotFound)

/-- The entry of a document in a text. -/
structure EntryOf (text : List UInt8) (document : String × List UInt8) (entry : DocumentEntry) :
    Prop where
  docId : entry.docId = document.1
  slice_eq : slice text entry.logicalOffset entry.byteLength = document.2

/-- The entries of the spans are those of the documents that were laid end to end. -/
theorem entriesOf_listed {documents : List (String × List UInt8)} :
    ∀ {before : List UInt8} {entries : List DocumentEntry},
      List.Forall₂ DocumentSpan.ListedAs (documentSpansFrom before.length documents) entries →
        List.Forall₂ (EntryOf (before ++ (documents.map Prod.snd).flatten)) documents entries := by
  induction documents with
  | nil =>
    intro before entries h
    cases h
    exact .nil
  | cons document documents ih =>
    intro before entries h
    obtain ⟨docId, text⟩ := document
    cases h with
    | cons hentry hentries =>
      rw [← List.length_append] at hentries
      have hrest := ih hentries
      rw [List.append_assoc] at hrest
      refine .cons ⟨hentry.docId, ?_⟩ hrest
      rw [hentry.logicalOffset, hentry.byteLength]
      exact slice_append_left _ _ _

theorem lookup_buildDocumentLookup_of_notMem {index : DocumentIndex} {docId : String}
    (h : docId ∉ index.documents.map DocumentEntry.docId) :
    (buildDocumentLookup (some index)).lookup docId = none := by
  rw [buildDocumentLookup, List.lookup_eq_none_iff]
  intro pair hpair
  obtain ⟨i, hi, rfl⟩ := List.mem_mapIdx.mp hpair
  rw [bne_iff_ne]
  rintro rfl
  exact h (List.mem_map_of_mem (List.getElem_mem hi))

theorem docBytes_eq {reader : QztReader} {fileReader : QztFileReader} {index : DocumentIndex}
    {entry : DocumentEntry} {text : List UInt8} (hsame : SameReads env reader fileReader)
    (hdetails : fileReader.details = reader.details)
    (hopened : Opened reader.bytes reader.details)
    (hindex : reader.details.documentIndex = some index) (hentry : entry ∈ index.documents)
    (hread : reader.readDocumentVerified env entry.docId entry.checksum = .ok text)
    (noVerify : Bool) : docBytes env fileReader entry.docId noVerify = .ok text := by
  cases noVerify with
  | true =>
    -- the verified read has read the document
    rw [QztReader.readDocumentVerified] at hread
    obtain ⟨bytes, hbytes, hchecked⟩ := bind_eq_ok_iff.mp hread
    obtain ⟨_, -, hmade⟩ := bind_eq_ok_iff.mp hchecked
    cases hmade
    rw [docBytes, if_pos rfl, hsame.readDocument, hbytes]
    rfl
  | false =>
    obtain ⟨pos, hpos⟩ := List.mem_iff_getElem?.mp hentry
    have hlookup : reader.details.documentLookup.lookup entry.docId = some pos := by
      rw [hopened.documentLookup, hindex]
      exact lookup_buildDocumentLookup (hopened.nodup index hindex) hpos
    rw [docBytes, if_neg Bool.false_ne_true, hdetails, hindex, hlookup]
    simp only [okOr_some, Context.lift, ok_bind, Context.item, hpos, hsame.readDocumentVerified,
      hread]

theorem docBytes_missing {reader : QztReader} {fileReader : QztFileReader} {index : DocumentIndex}
    {docId : String} (hsame : SameReads env reader fileReader)
    (hdetails : fileReader.details = reader.details)
    (hopened : Opened reader.bytes reader.details)
    (hindex : reader.details.documentIndex = some index)
    (habsent : docId ∉ index.documents.map DocumentEntry.docId) (noVerify : Bool) :
    docBytes env fileReader docId noVerify = .error (.qzt .documentNotFound) := by
  have hlookup : reader.details.documentLookup.lookup docId = none := by
    rw [hopened.documentLookup, hindex]
    exact lookup_buildDocumentLookup_of_notMem habsent
  cases noVerify with
  | true =>
    rw [docBytes, if_pos rfl, hsame.readDocument, QztReader.readDocument, findDocument, hindex,
      okOr_some, ok_bind, hlookup]
    rfl
  | false =>
    rw [docBytes, if_neg Bool.false_ne_true, hdetails, hindex, hlookup]
    rfl

/-- A container of documents laid end to end holds them, through any faithful source. -/
theorem holds_of_documented {container : List UInt8} {reader : QztReader} {index : DocumentIndex}
    {documents : List (String × List UInt8)}
    (hopen : QztReader.openWithLimits env container .default = .ok reader)
    (h : Documented env reader (documentSpansFrom 0 documents) (documents.map Prod.snd).flatten index)
    (served : FaithfulSource container) :
    Holds env (served.fileReader reader.details) documents := by
  obtain ⟨-, hsame⟩ := served.opens hopen
  have hopened : Opened reader.bytes reader.details := by
    rw [QztReader.openWithLimits] at hopen
    obtain ⟨details, hdetails, heq⟩ := bind_eq_ok_iff.mp hopen
    cases heq
    exact openSkeletonDetailsWithLimits_opened hdetails
  have hentries : List.Forall₂ (EntryOf (documents.map Prod.snd).flatten) documents
      index.documents := by
    have hplaced := @entriesOf_listed documents [] index.documents h.listed
    rwa [List.nil_append] at hplaced
  have hids : index.documents.map DocumentEntry.docId = documents.map Prod.fst := by
    have hsames := hentries.imp fun _ _ hof => hof.docId
    rw [← List.forall₂_eq_eq_eq, List.forall₂_map_left_iff, List.forall₂_map_right_iff]
    exact hsames.flip
  refine ⟨⟨index, h.indexed, hids⟩, ?_, ?_, ?_, ?_⟩
  · rw [← hids]
    exact hopened.nodup index h.indexed
  · exact hsame.exportAll.trans h.serves.exportAll
  · intro document hdocument noVerify
    obtain ⟨entry, hentry, hof⟩ := exists_of_forall₂_left hentries hdocument
    obtain ⟨-, hread⟩ := h.serves.documents index h.indexed entry hentry
    rw [hof.slice_eq] at hread
    rw [← hof.docId]
    exact docBytes_eq hsame rfl hopened h.indexed hentry hread noVerify
  · intro docId hdocId noVerify
    rw [← hids] at hdocId
    exact docBytes_missing hsame rfl hopened h.indexed hdocId noVerify

/-- The tree `after` has a container of the documents that `before` had at the inputs. -/
def Packed (env : Env) (special : Path → Except IoError (List UInt8)) (args : PackDocsArgs)
    (before after : Tree) : Prop :=
  ∃ documents state, List.Forall₂ (Loads special before args.docIdPrefix) args.inputPaths documents ∧
    after (Path.ofString args.outputPath).location = some (.file state) ∧
    HoldsText env state.bytes (documents.map Prod.snd).flatten ∧
    ∀ served : FaithfulSource state.bytes, ∃ reader,
      QztFileReader.openReadAtWithLimits env served.source served.len .default = .ok reader ∧
        Holds env reader documents

theorem packed_of_pack (hzstd : env.RoundTrips) {args : PackDocsArgs} {before after : Tree}
    {documents : List (String × List UInt8)} {container : List UInt8} {state : FileState}
    (hloads : List.Forall₂ (Loads special before args.docIdPrefix) args.inputPaths documents)
    (hpack : (packDocsBuilder args.options args.profile args.denseLineIndex
      (documentSpansFrom 0 documents)).pack env (documents.map Prod.snd).flatten = .ok container)
    (hbytes : state.bytes = container)
    (hafter : after (Path.ofString args.outputPath).location = some (.file state)) :
    Packed env special args before after := by
  obtain ⟨reader, index, hopen, hdocumented⟩ := pack_documented hzstd rfl hpack
  subst hbytes
  refine ⟨documents, state, hloads, hafter, holdsText_of_pack hzstd hpack, ?_⟩
  intro served
  obtain ⟨hfile, -⟩ := served.opens hopen
  exact ⟨_, hfile, holds_of_documented hopen hdocumented served⟩

/-! ## A run -/

/-- What a run of `pack-docs` leaves that was started. -/
def PackDocsRun (env : Env) (special : Path → Except IoError (List UInt8)) (args : PackDocsArgs)
    (before : Tree) (packed : Prop) (after : Tree) : Prop :=
  OutputRun special (Path.ofString args.outputPath) (args.inputPaths.map Path.ofString)
    (Packed env special args before) before packed after

theorem packDocs_ensures (hzstd : env.RoundTrips) (args : PackDocsArgs)
    (fault : Option (WriteFault IoError)) :
    Ensures (packDocs special env host args fault) start
      (fun _ s' => PackDocsRun env special args start.tree True s'.tree)
      (fun _ s' => PackDocsRun env special args start.tree False s'.tree) := by
  apply ensures_bind
  refine (checkOutputCollision_ensures (At.refl start)).mono ?_ (fun _ _ h => .unstarted h.2)
  rintro _ s₁ ⟨hat, -⟩
  apply ensures_bind
  refine (loadLoop_ensures args.inputPaths hat).mono ?_ (fun _ _ hat => .unstarted hat)
  rintro ⟨input, spans⟩ s₂ ⟨hat₂, documents, hloads, hinput, hspans⟩
  rw [List.nil_append] at hinput hspans
  dsimp only at hinput hspans
  apply ensures_bind
  apply ensures_liftQzt
  · intro container hpack
    rw [hinput, hspans] at hpack
    have hpacked : ∀ after, HasBytes (Path.ofString args.outputPath) container after →
        Packed env special args start.tree after := by
      rintro after ⟨state, hbytes, hfile⟩
      exact packed_of_pack hzstd hloads hpack hbytes hfile
    rw [← hat₂.tree_eq]
    refine (writeContainerAtomically_run special fault).mono ?_ ?_
    · exact fun _ s₃ hrun => hrun.mono (hat₂.tree_eq ▸ hpacked s₃.tree)
    · exact fun _ s₃ hrun => hrun.mono (hat₂.tree_eq ▸ hpacked s₃.tree)
  · exact fun _ _ => .unstarted hat₂

/-! ## Arguments -/

/-- What `parse` has checked of its arguments. -/
structure PackDocsArgs.Valid (self : PackDocsArgs) : Prop where
  target_pos : 0 < self.options.chunker.targetChunkSize
  target_le_max : self.options.chunker.targetChunkSize ≤ self.options.chunker.maxChunkSize
  inputs : self.inputPaths ≠ []
  documents : ∃ docIds, docIds.Nodup ∧ List.Forall₂ (fun inputPath docId =>
    packDocsDocumentId inputPath self.docIdPrefix = some docId) self.inputPaths docIds

theorem validateLoop_eq_ok {docIdPrefix : String} {inputPaths seen : List String} {u : PUnit}
    (h : PackDocsArgs.validateLoop docIdPrefix inputPaths seen = .ok u) :
    ∃ docIds, docIds.Nodup ∧ (∀ docId ∈ docIds, docId ∉ seen) ∧
      List.Forall₂ (fun inputPath docId =>
        packDocsDocumentId inputPath docIdPrefix = some docId) inputPaths docIds := by
  induction inputPaths generalizing seen with
  | nil => exact ⟨[], List.nodup_nil, by simp, .nil⟩
  | cons inputPath inputPaths ih =>
    simp only [PackDocsArgs.validateLoop, bind_eq_ok_iff, okOr_eq_ok_iff, rejectIf_eq_ok_iff] at h
    obtain ⟨docId, hdocId, _, hnew, hrest⟩ := h
    obtain ⟨docIds, hnodup, hseen, hdocuments⟩ := ih hrest
    refine ⟨docId :: docIds, ?_, ?_, .cons hdocId hdocuments⟩
    · refine List.nodup_cons.mpr ⟨fun hmem => ?_, hnodup⟩
      exact hseen docId hmem List.mem_cons_self
    · intro other hother
      rcases List.mem_cons.mp hother with rfl | hmem
      · exact hnew
      · exact fun hold => hseen other hmem (List.mem_cons_of_mem _ hold)

theorem PackDocsArgs.validate_valid {kindText : IoErrorKind → String} {self : PackDocsArgs}
    {u : PUnit} (hinputs : self.inputPaths ≠ []) (h : self.validate kindText = .ok u) :
    self.Valid := by
  simp only [PackDocsArgs.validate, bind_eq_ok_iff, rejectIf_eq_ok_iff, mapError_eq_ok_iff,
    ChunkerOptions.validate] at h
  obtain ⟨_, ⟨_, hpos, horder⟩, _, -, hloop⟩ := h
  obtain ⟨docIds, hnodup, -, hdocuments⟩ := validateLoop_eq_ok hloop
  exact ⟨by omega, by omega, hinputs, docIds, hnodup, hdocuments⟩

theorem PackDocsArgs.parse_valid {kindText : IoErrorKind → String} {args : List String}
    {parsed : PackDocsArgs} (h : PackDocsArgs.parse kindText args = .ok parsed) :
    parsed.Valid := by
  simp only [PackDocsArgs.parse, bind_eq_ok_iff, okOr_eq_ok_iff, rejectIf_eq_ok_iff,
    Except.ok.injEq] at h
  obtain ⟨locals, -, _, hinputs, outputPath, -, _, hvalid, rfl⟩ := h
  exact PackDocsArgs.validate_valid hinputs hvalid

/-- `qzt pack-docs a.txt d/b.txt --doc-id-prefix doc- -o out.qzt`. -/
def runSample : PackDocsExit × Disk :=
  (runPackDocs FileReads.trickling.special Reference.env (.following 7 fun _ => "")
    ["a.txt", "d/b.txt", "--doc-id-prefix", "doc-", "-o", "out.qzt"] none).run sampleDisk

set_option maxRecDepth 100000 in
theorem runSample_packed : runSample.1 = .packed := by
  decide +kernel

/-- The arguments of the run. -/
def sampleArgs : PackDocsArgs where
  inputPaths := ["a.txt", "d/b.txt"]
  outputPath := "out.qzt"
  docIdPrefix := "doc-"
  options := .default
  profile := "core"
  denseLineIndex := none

/-- A document whose file is known. -/
theorem Loads.eq {docIdPrefix inputPath docId : String} {document : String × List UInt8}
    {text : List UInt8} (h : Loads special tree docIdPrefix inputPath document)
    (hdocId : packDocsDocumentId inputPath docIdPrefix = some docId)
    (htext : readTree special tree (Path.ofString inputPath) = .ok text) :
    document = (docId, text) := by
  have hfst := Option.some.inj (h.docId.symm.trans hdocId)
  have hsnd := Except.ok.inj (h.text.symm.trans htext)
  exact Prod.ext hfst hsnd

end Qzt
