import Qzt.Search.NgramSearch
import Qzt.Search.TokenSearch
import Qzt.Sidecar.Lossless
import Qzt.Sidecar.SearchAgreement
import Qzt.Writer.RoundTrip

/-!
# From a text to its hits

The commands `pack`, `sidecar-rebuild` and `search --sidecar` one after the other.  The index that a
sidecar restores is the index of the packed text, and the file-backed search answers as a search in
that index.
-/

namespace Qzt.Sidecar

open Foundation

/-- `search_file` of the index in a sidecar. -/
def SidecarSearchIndex.searchFile (env : Env) (self : SidecarSearchIndex) (reader : QztFileReader)
    (query : String) (options : SearchOptions) : Result SearchReport :=
  match self with
  | .token index => index.searchFile env reader query options
  | .ngram index => index.searchFile env reader query options

/-- What a search of a kind is to find in a text. -/
def SidecarIndexKind.Finds (kind : SidecarIndexKind) (text : List UInt8) (query : String)
    (hits : List SearchHit) : Prop :=
  match kind with
  | .token => (∃ word, IsToken (textBytes query) word) → ListsTokens text (textBytes query) hits
  | .ngram n => n ≤ query.toList.length → '\n' ∉ query.toList.dropLast →
      ListsOccurrences text (textBytes query) hits

section Pipeline

variable {env : Env} {bytes : List UInt8} {limits : ResourceLimits} {reader : QztReader}

/-- The text of a container is what it exports. -/
theorem originalText_of_exportAll {text : List UInt8} (h : reader.exportAll env = .ok text) :
    reader.originalText env = text := by
  obtain ⟨parts, hparts, htext⟩ := bind_eq_ok_iff.mp h
  obtain rfl := Except.ok.inj htext
  have hdecodes := collect_eq_ok_iff.mp hparts
  have hchunks : reader.details.chunkEntries.map (chunkText (reader.decodeEntry env)) = parts := by
    rw [← List.forall₂_eq_eq_eq, List.forall₂_map_left_iff]
    refine hdecodes.imp ?_
    intro entry part hpart
    rw [chunkText, hpart]
  rw [QztReader.originalText, originalText, hchunks]

/-- The index of a kind over an opened container searches its text. -/
theorem SidecarIndexKind.finds (served : FaithfulSource bytes)
    (hopen : QztReader.openWithLimits env bytes limits = .ok reader) {kind : SidecarIndexKind}
    {buildOptions : SidecarBuildOptions} {index : SidecarSearchIndex}
    (hbuild : kind.buildIndex env (served.fileReader reader.details) buildOptions = .ok index)
    {query : String} {options : SearchOptions} {report : SearchReport}
    (hsearch : index.searchFile env (served.fileReader reader.details) query options = .ok report)
    (huncapped : report.capped = false) :
    kind.Finds (reader.originalText env) query report.hits := by
  cases kind with
  | token =>
    intro hsome
    obtain ⟨built, htoken, hindex⟩ := bind_eq_ok_iff.mp hbuild
    obtain rfl := Except.ok.inj hindex
    obtain ⟨parts, hparts, hgranules, hterms, hpostings, -⟩ := buildFromFile_token htoken
    have hindexOf := indexOf_of_buildEncoded served hopen (by decide) hparts
    rw [hgranules, hterms, hpostings] at hindexOf
    obtain ⟨readRangeCached, hreads, hrun⟩ := @readsChunksOf_either env bytes limits reader served
      hopen (built.searchImpl reader.details query options) report (.inr hsearch)
    obtain ⟨queryKeys, candidates, found, hnodup, hkeys, hcandidates, hhits⟩ :=
      RawTokenIndex.searchImpl_lines hindexOf hreads hsome hrun huncapped
    rw [hhits]
    exact hcandidates.listsTokens hindexOf.naive hnodup hkeys
  | ngram n =>
    intro hlong hline
    obtain ⟨built, hngram, hindex⟩ := bind_eq_ok_iff.mp hbuild
    obtain rfl := Except.ok.inj hindex
    obtain ⟨hwidth, -, hindexOf⟩ := indexOf_ngram served hopen hngram
    have hpositive : 0 < n := Nat.pos_of_ne_zero (buildFromFile_ngram hngram).1
    have hne : query.toList ≠ [] := by
      intro hnil
      rw [hnil, List.length_nil] at hlong
      exact Nat.not_lt.mpr hlong hpositive
    obtain ⟨readRangeCached, hreads, hrun⟩ := @readsChunksOf_either env bytes limits reader served
      hopen (built.searchImpl reader.details query options) report (.inr hsearch)
    rw [← hwidth] at hindexOf
    have hwide : built.declaration.n ≤ query.toList.length := hwidth ▸ hlong
    obtain ⟨queryKeys, candidates, found, hkeys, hcandidates, hhits, -⟩ :=
      RawNgramIndex.searchImpl_lines hindexOf hreads hwide hrun huncapped
    rw [hhits, textBytes_eq]
    exact hcandidates.listsOccurrences hindexOf.naive hindexOf.valid hne hline hkeys

/-- What a build writes is searched, behind a source, as the index that is built. -/
theorem searchFile_of_build {details : SkeletonDetails} (served : FaithfulSource bytes)
    (hdetails : openSkeletonDetails env bytes = .ok details) {kind : SidecarIndexKind}
    {sidecarBytes : List UInt8}
    (h : buildSearchSidecarFromFile env (served.fileReader details) kind = .ok sidecarBytes)
    (sidecarSource : FaithfulSource sidecarBytes) :
    ∃ index fileSidecar, kind.buildIndex env (served.fileReader details) {} = .ok index ∧
      QziFileSidecar.openReadAt env sidecarSource.source sidecarSource.len
        (served.fileReader details) = .ok fileSidecar ∧
      ∀ query options,
        (fileSidecar.search env (served.fileReader details) query options).map
            SearchReport.answer =
          (index.searchFile env (served.fileReader details) query
            (SidecarLimits.default.clip options)).map SearchReport.answer := by
  obtain ⟨parts, sidecar, rfl, rfl, -, hfollows, hindex⟩ :=
    follows_of_build served hdetails cover_default h
  refine ⟨sidecar.index, parts.fileSidecar sidecar sidecarSource.source .default, hindex,
    hfollows.opensAt served ⟨rfl, rfl, rfl, rfl⟩ sidecarSource, ?_⟩
  intro query options
  have hreader : QztReader.openWithLimits env bytes .default =
      .ok { bytes, details := parts.details } := by
    rw [QztReader.openWithLimits]
    have hdefault : openSkeletonDetailsWithLimits env bytes .default = .ok parts.details := hdetails
    rw [hdefault]
    rfl
  have hanswers := hfollows.search_answers served sidecarSource hreader query options
  have hbound := validateReaderBinding_of_open hreader ⟨rfl, rfl, rfl, rfl⟩
    hfollows.footerChecksum hfollows.source hfollows.sourceFooter
  have hreads : (served.fileReader parts.details).readRangeCached env =
      QztReader.readRangeCached env { bytes, details := parts.details } := by
    funext offset length cache
    rw [QztFileReader.readRangeCached, served.decodeEntry_eq]
    rfl
  refine hanswers.trans ?_
  rw [QziSidecar.search, hbound.1, ok_bind, hbound.2, ok_bind]
  cases hkind : sidecar.index with
  | token index =>
    change (index.searchImpl parts.details query _ _).map SearchReport.answer =
      (index.searchImpl parts.details query _
        ((served.fileReader parts.details).readRangeCached env)).map SearchReport.answer
    rw [hreads]
  | ngram index =>
    change (index.searchImpl parts.details query _ _).map SearchReport.answer =
      (index.searchImpl parts.details query _
        ((served.fileReader parts.details).readRangeCached env)).map SearchReport.answer
    rw [hreads]

/-- A sidecar that is built for a container and opened from its file answers every query as the
index that is built from the container, errors included. -/
theorem sidecarRebuild_searches {fileReader : QztFileReader} (served : FaithfulSource bytes)
    (hopen : QztFileReader.openReadAt env served.source served.len = .ok fileReader)
    (kind : SidecarIndexKind) {sidecarBytes : List UInt8}
    (h : buildSearchSidecarFromFile env fileReader kind = .ok sidecarBytes)
    (sidecarSource : FaithfulSource sidecarBytes) :
    ∃ index fileSidecar, kind.buildIndex env fileReader {} = .ok index ∧
      QziFileSidecar.openReadAt env sidecarSource.source sidecarSource.len fileReader =
        .ok fileSidecar ∧
      ∀ query options,
        (fileSidecar.search env fileReader query options).map SearchReport.answer =
          (index.searchFile env fileReader query (SidecarLimits.default.clip options)).map
            SearchReport.answer := by
  rw [QztFileReader.openReadAt, QztFileReader.openReadAtWithLimits,
    served.openSkeletonDetailsReadAt_eq] at hopen
  obtain ⟨details, hdetails, hreader⟩ := bind_eq_ok_iff.mp hopen
  obtain rfl : served.fileReader details = fileReader := Except.ok.inj hreader
  exact searchFile_of_build served hdetails h sidecarSource

/-- Three lines. -/
theorem sidecarRebuild_searches_staleContainer : ∃ fileReader sidecarBytes index fileSidecar,
    QztFileReader.openReadAt Reference.env (memorySource staleContainer) staleContainer.length =
        .ok fileReader ∧
      buildSearchSidecarFromFile Reference.env fileReader .token = .ok sidecarBytes ∧
      SidecarIndexKind.token.buildIndex Reference.env fileReader {} = .ok index ∧
      QziFileSidecar.openReadAt Reference.env (memorySource sidecarBytes) sidecarBytes.length
        fileReader = .ok fileSidecar ∧
      (fileSidecar.search Reference.env fileReader "BETA" {}).map SearchReport.answer =
        (index.searchFile Reference.env fileReader "BETA" (SidecarLimits.default.clip {})).map
          SearchReport.answer := by
  obtain ⟨details, sidecarBytes, sidecar, hlt, hword, hdetails, hbuild, -⟩ :=
    staleContainer_rebuilt
  have hopen : QztFileReader.openReadAt Reference.env (memorySource staleContainer)
      staleContainer.length =
        .ok { source := memorySource staleContainer, len := staleContainer.length, details } := by
    have hsource : openSkeletonDetailsReadAt Reference.env (memorySource staleContainer)
        staleContainer.length .default =
          openSkeletonDetailsWithLimits Reference.env staleContainer .default :=
      (servedInMemory staleContainer hlt).openSkeletonDetailsReadAt_eq .default
    have hdefault : openSkeletonDetailsWithLimits Reference.env staleContainer .default =
        .ok details := hdetails
    rw [QztFileReader.openReadAt, QztFileReader.openReadAtWithLimits, hsource, hdefault]
    rfl
  obtain ⟨index, fileSidecar, hindex, hopened, hanswers⟩ :=
    sidecarRebuild_searches (servedInMemory staleContainer hlt) hopen .token hbuild
      (servedInMemory sidecarBytes hword)
  exact ⟨_, sidecarBytes, index, fileSidecar, hopen, hbuild, hindex, hopened, hanswers "BETA" {}⟩

/-- Pack, rebuild the sidecar, search with it.  Whatever text is packed, a file-backed search that
no limit stops lists exactly what its kind is to find in that text. -/
theorem packedText_searched (hzstd : env.RoundTrips) {builder : WriterBuilder}
    {input container : List UInt8} (hpack : builder.pack env input = .ok container)
    (served : FaithfulSource container) :
    ∃ fileReader, QztFileReader.openReadAt env served.source served.len = .ok fileReader ∧
      ∀ (kind : SidecarIndexKind) (sidecarBytes : List UInt8),
        buildSearchSidecarFromFile env fileReader kind = .ok sidecarBytes →
        ∀ sidecarSource : FaithfulSource sidecarBytes, ∃ fileSidecar,
          QziFileSidecar.openReadAt env sidecarSource.source sidecarSource.len fileReader =
            .ok fileSidecar ∧
          ∀ query options report, fileSidecar.search env fileReader query options = .ok report →
            report.capped = false → kind.Finds input query report.hits := by
  obtain ⟨assembly, hsound, rfl, rfl⟩ := pack_sound hpack
  have hreader : QztReader.openWithLimits env (assembly.bytes env) .default =
      .ok (assembly.reader env) := hsound.opens_reader
  obtain ⟨hfile, -⟩ := served.opens hreader
  have htext : (assembly.reader env).originalText env = assembly.parts.flatten :=
    originalText_of_exportAll (hsound.exports hzstd)
  refine ⟨served.fileReader (assembly.details env), hfile, ?_⟩
  intro kind sidecarBytes hbuild sidecarSource
  obtain ⟨index, fileSidecar, hindex, hopened, hanswers⟩ :=
    searchFile_of_build served hsound.opens hbuild sidecarSource
  refine ⟨fileSidecar, hopened, ?_⟩
  intro query options report hsearch huncapped
  have hanswer := hanswers query options
  rw [hsearch] at hanswer
  -- The search in the index that is built gives the same hits, and is not capped either.
  cases hdirect : index.searchFile env (served.fileReader (assembly.details env)) query
      (SidecarLimits.default.clip options) with
  | error e =>
    rw [hdirect] at hanswer
    cases hanswer
  | ok direct =>
    rw [hdirect] at hanswer
    have hsame : report.answer = direct.answer := Except.ok.inj hanswer
    have hhits : report.hits = direct.hits := congrArg SearchAnswer.hits hsame
    have hcapped : report.capped = direct.capped := congrArg SearchAnswer.capped hsame
    have hfinds := SidecarIndexKind.finds served hreader hindex hdirect (hcapped ▸ huncapped)
    rwa [htext, ← hhits] at hfinds

end Pipeline

/-! ## A packed text -/

/-- The sample text is packed, indexed by its tokens, and searched. -/
def searchSample (query : String) : Result (List UInt8 × List UInt8 × SearchReport) := do
  let container ← sampleBuilder.pack Reference.env sampleInput
  let reader ← QztFileReader.openReadAt Reference.env (memorySource container) container.length
  let sidecarBytes ← buildSearchSidecarFromFile Reference.env reader .token
  let sidecar ← QziFileSidecar.openReadAt Reference.env (memorySource sidecarBytes)
    sidecarBytes.length reader
  let report ← sidecar.search Reference.env reader query {}
  return (container, sidecarBytes, report)

/-- What the search shows, and that its files are short. -/
def searchSampleOutcome (query : String) : Result (List (Nat × Nat) × Bool × Bool) := do
  let (container, sidecarBytes, report) ← searchSample query
  return (report.hits.map fun hit => (hit.logicalOffset, hit.byteLength), report.capped,
    container.length < 2 ^ 64 && sidecarBytes.length < 2 ^ 64)

set_option maxRecDepth 100000 in
theorem searchSampleOutcome_capital :
    searchSampleOutcome "A" = .ok ([(0, 1)], false, true) := by
  simp only [searchSampleOutcome, searchSample, QziFileSidecar.search, QziFileSidecar.searchImpl,
    QziFileSidecar.searchPostings, QziFileSidecar.orderTerms, countChunks, countChunkSpans,
    mergeSort_by_eq_insertion]
  decide +kernel

/-- The letter on the first line, asked for as a capital. -/
theorem packedText_searched_sample : ∃ container fileReader sidecarBytes fileSidecar report,
    sampleBuilder.pack Reference.env sampleInput = .ok container ∧
      QztFileReader.openReadAt Reference.env (memorySource container) container.length =
        .ok fileReader ∧
      buildSearchSidecarFromFile Reference.env fileReader .token = .ok sidecarBytes ∧
      QziFileSidecar.openReadAt Reference.env (memorySource sidecarBytes) sidecarBytes.length
        fileReader = .ok fileSidecar ∧
      fileSidecar.search Reference.env fileReader "A" {} = .ok report ∧
      report.hits.map (fun hit => (hit.logicalOffset, hit.byteLength)) = [(0, 1)] ∧
      ListsTokens sampleInput (textBytes "A") report.hits := by
  obtain ⟨⟨container, sidecarBytes, report⟩, hrun, houtcome⟩ :=
    bind_eq_ok_iff.mp searchSampleOutcome_capital
  obtain ⟨_, hpack, hrun⟩ := bind_eq_ok_iff.mp hrun
  obtain ⟨fileReader, hreader, hrun⟩ := bind_eq_ok_iff.mp hrun
  obtain ⟨_, hbuild, hrun⟩ := bind_eq_ok_iff.mp hrun
  obtain ⟨fileSidecar, hsidecar, hrun⟩ := bind_eq_ok_iff.mp hrun
  obtain ⟨_, hsearch, hrun⟩ := bind_eq_ok_iff.mp hrun
  cases hrun
  dsimp only at houtcome
  simp only [pure_eq_ok, Except.ok.injEq, Prod.mk.injEq, Bool.and_eq_true,
    decide_eq_true_eq] at houtcome
  obtain ⟨hhits, hcapped, hlt, hlt'⟩ := houtcome
  obtain ⟨opened, hopened, hall⟩ := packedText_searched Reference.env_roundTrips hpack
    (servedInMemory container hlt)
  obtain rfl := Except.ok.inj (hreader.symm.trans hopened)
  obtain ⟨openedSidecar, hopenedSidecar, hfinds⟩ :=
    hall .token sidecarBytes hbuild (servedInMemory sidecarBytes hlt')
  obtain rfl := Except.ok.inj (hsidecar.symm.trans hopenedSidecar)
  have hword : ∃ word, IsToken (textBytes "A") word :=
    ⟨_, 0, 1, mem_runs_iff.mp (by decide), rfl⟩
  exact ⟨container, fileReader, sidecarBytes, fileSidecar, report, hpack, hreader, hbuild, hsidecar,
    hsearch, hhits, hfinds "A" {} report hsearch hcapped hword⟩

end Qzt.Sidecar
