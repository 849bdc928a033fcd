import Qzt.Foundation.Sorting
import Qzt.Reader.DenseStarts
import Qzt.Search.ConfirmedHits
import Qzt.Sidecar.Admission
import Qzt.Sidecar.OpenSections
import Qzt.Sidecar.Search

/-!
# No false hit from an untrusted sidecar

A sidecar is bound to its container, but what its granules, terms and postings say is not
checked against the text.  Both searches take from it only where to look: every hit is
confirmed in the text.
-/

namespace Qzt.Sidecar

open Foundation

/-- A hit is true of a text: what a search in an index of the type asks for is there. -/
structure TrueHit (indexType : String) (text : List UInt8) (query : String) (hit : SearchHit) :
    Prop where
  inside : hit.logicalOffset + hit.byteLength ≤ text.length
  substring : indexType = "ngram" →
    slice text hit.logicalOffset hit.byteLength = textBytes query
  token : indexType = "token" →
    IsTokenHit text (textBytes query) hit.logicalOffset (hit.logicalOffset + hit.byteLength)

section Untrusted

variable {env : Env} {bytes text : List UInt8} {reader : QztReader} {details : SkeletonDetails}
  {limits : ResourceLimits} {sidecarLimits : SidecarLimits} {readRangeCached : RangeRead}
  {options : SearchOptions} {query : String} {report : SearchReport} {indexType : String}

theorem trueHit_of_token {hit : SearchHit} (htype : indexType = "token")
    (h : IsTokenHit text (textBytes query) hit.logicalOffset
      (hit.logicalOffset + hit.byteLength)) : TrueHit indexType text query hit where
  inside := h.run.stop_le
  substring := by
    rw [htype]
    exact fun hngram => absurd hngram (by decide)
  token := fun _ => h

theorem trueHit_of_ngram {hit : SearchHit} (htype : indexType = "ngram")
    (h : hit.logicalOffset + hit.byteLength ≤ text.length ∧
      slice text hit.logicalOffset hit.byteLength = textBytes query) :
    TrueHit indexType text query hit where
  inside := h.1
  substring := fun _ => h.2
  token := by
    rw [htype]
    exact fun htoken => absurd htoken (by decide)

/-- Both readers of an opened container read its text. -/
theorem readsText_of_open (served : FaithfulSource bytes)
    (hopen : QztReader.openWithLimits env bytes limits = .ok reader) :
    ReadsText reader.details (reader.originalText env) (reader.readRangeCached env) ∧
      ReadsText reader.details (reader.originalText env)
        ((served.fileReader reader.details).readRangeCached env) := by
  obtain ⟨details, hdetails, hreader⟩ := bind_eq_ok_iff.mp hopen
  obtain rfl := Except.ok.inj hreader
  have hcuts := cutsInto_of_open served hdetails
  rw [served.decodeEntry_eq] at hcuts
  have hsize : (QztReader.originalText env { bytes, details }).length =
      details.summary.originalSize :=
    hcuts.layout.total.symm.trans (openSkeletonDetailsWithLimits_opened hdetails).layout.total
  refine ⟨⟨hsize, _, hcuts, fun _ _ _ => rfl⟩, ⟨hsize, _, hcuts, ?_⟩⟩
  intro offset length cache
  rw [QztFileReader.readRangeCached, served.decodeEntry_eq]
  rfl

/-! ## The decoded sidecar -/

/-- The restored index is of the type that the manifest states. -/
theorem QziSidecar.index_of_openWithLimits {container sidecarBytes : List UInt8}
    {sidecar : QziSidecar}
    (h : QziSidecar.openWithLimits env container sidecarBytes sidecarLimits = .ok sidecar) :
    (sidecar.manifest.indexType = "token" ∧ ∃ index, sidecar.index = .token index) ∨
      (sidecar.manifest.indexType = "ngram" ∧ ∃ index, sidecar.index = .ngram index) := by
  obtain ⟨parts, -, hfollows⟩ := OpenedParts.follows_of_open h
  have hrestore := hfollows.index
  unfold restoreIndex at hrestore
  split at hrestore
  · rename_i htoken
    obtain ⟨restored, -, hrestore⟩ := bind_eq_ok_iff.mp hrestore
    exact .inl ⟨htoken, _, (Except.ok.inj hrestore).symm⟩
  · split at hrestore
    · rename_i hngram
      obtain ⟨n, -, hrestore⟩ := bind_eq_ok_iff.mp hrestore
      obtain ⟨restored, -, hrestore⟩ := bind_eq_ok_iff.mp hrestore
      exact .inr ⟨hngram, _, (Except.ok.inj hrestore).symm⟩
    · cases hrestore

theorem QziSidecar.search_sound {sidecar : QziSidecar}
    (hindex : (sidecar.manifest.indexType = "token" ∧ ∃ index, sidecar.index = .token index) ∨
      (sidecar.manifest.indexType = "ngram" ∧ ∃ index, sidecar.index = .ngram index))
    (hreads : ReadsText reader.details text (reader.readRangeCached env))
    (h : sidecar.search env reader query options = .ok report) {hit : SearchHit}
    (hhit : hit ∈ report.hits) : TrueHit sidecar.manifest.indexType text query hit := by
  unfold QziSidecar.search at h
  obtain ⟨checksum, -, h⟩ := bind_eq_ok_iff.mp h
  obtain ⟨_, -, h⟩ := bind_eq_ok_iff.mp h
  rcases hindex with ⟨htype, index, hindex⟩ | ⟨htype, index, hindex⟩
  · rw [hindex] at h
    exact trueHit_of_token htype (RawTokenIndex.searchImpl_sound hreads h hhit)
  · rw [hindex] at h
    exact trueHit_of_ngram htype (RawNgramIndex.searchImpl_sound hreads h hhit)

/-! ## The file-backed sidecar -/

namespace QziFileSidecar

variable {sidecar : QziFileSidecar}

theorem indexType_of_openReadAtWithLimits {source : ReadAt} {len : Nat} {container : QztFileReader}
    (h : openReadAtWithLimits env source len container sidecarLimits = .ok sidecar) :
    sidecar.manifest.indexType = "token" ∨ sidecar.manifest.indexType = "ngram" := by
  unfold openReadAtWithLimits at h
  obtain ⟨⟨manifest, manifestEnd⟩, -, h⟩ := bind_eq_ok_iff.mp h
  obtain ⟨_, -, h⟩ := bind_eq_ok_iff.mp h
  obtain ⟨_, -, h⟩ := bind_eq_ok_iff.mp h
  obtain ⟨checksum, -, h⟩ := bind_eq_ok_iff.mp h
  obtain ⟨_, -, h⟩ := bind_eq_ok_iff.mp h
  obtain ⟨_, htype, h⟩ := bind_eq_ok_iff.mp h
  obtain ⟨⟨granuleCount, terms⟩, -, h⟩ := bind_eq_ok_iff.mp h
  cases h
  unfold checkIndexType at htype
  split at htype
  · exact .inl ‹_›
  · split at htype
    · exact .inr ‹_›
    · cases htype

theorem searchPostings_sound {spansFor : SpanMatcher} {tokenBoundaries : Bool}
    {all : List UInt8 → Bool → Bool → List TokenSpan} {lists : List (List Nat)}
    {metrics : SearchMetrics} {planner : PlannerDecision}
    (hreads : ReadsText details text readRangeCached)
    (hspans : ∀ bytes limit left right, spansFor bytes limit left right =
      (all bytes left right).take limit)
    (h : sidecar.searchPostings details readRangeCached lists spansFor tokenBoundaries metrics
      planner options = .ok report) {hit : SearchHit} (hhit : hit ∈ report.hits) :
    ∃ plan : VerificationPlan, plan.tokenBoundaries = tokenBoundaries ∧
      ∃ granule : SearchGranule, granule.logicalOffset + granule.byteLength ≤ text.length ∧
        hit ∈ plan.confirmed text all granule := by
  unfold searchPostings at h
  obtain ⟨candidates, -, h⟩ := bind_eq_ok_iff.mp h
  obtain ⟨candidateGranules, -, h⟩ := bind_eq_ok_iff.mp h
  dsimp only at h
  split at h
  · cases h
    exact absurd hhit List.not_mem_nil
  · split at h
    · cases h
      exact absurd hhit List.not_mem_nil
    · rename_i hresults
      obtain ⟨granules, -, h⟩ := bind_eq_ok_iff.mp h
      obtain ⟨candidateChunks, -, h⟩ := bind_eq_ok_iff.mp h
      -- Which granules the plan looks up does not matter to what it reads.
      have hserves := @ReadsText.serves _ _ options _ hreads granules _ tokenBoundaries _ hspans
      refine ⟨_, ?_, VerificationPlan.confirmed_of_report ?_ ?_ h hhit⟩
      · rfl
      · exact ⟨hserves.length, hserves.reads, hserves.spans⟩
      · exact hresults

theorem searchImpl_sound
    (htype : sidecar.manifest.indexType = "token" ∨ sidecar.manifest.indexType = "ngram")
    (hreads : ReadsText details text readRangeCached)
    (h : sidecar.searchImpl details query options readRangeCached = .ok report) {hit : SearchHit}
    (hhit : hit ∈ report.hits) : TrueHit sidecar.manifest.indexType text query hit := by
  unfold searchImpl at h
  dsimp only at h
  obtain ⟨queryKeys, hkeys, h⟩ := bind_eq_ok_iff.mp h
  obtain ⟨termLookups, -, h⟩ := bind_eq_ok_iff.mp h
  split at h
  · cases h
    exact absurd hhit List.not_mem_nil
  · obtain ⟨found, -, h⟩ := bind_eq_ok_iff.mp h
    split at h
    · cases h
      exact absurd hhit List.not_mem_nil
    · obtain ⟨lists, -, h⟩ := bind_eq_ok_iff.mp h
      rcases htype with htoken | hngram
      · rw [htoken] at hkeys h
        obtain ⟨plan, hboundaries, granule, hrange, hconfirmed⟩ := searchPostings_sound hreads
          (fun bytes limit left right => verifiedSpans_eq bytes queryKeys limit left right) h hhit
        obtain ⟨-, hmem⟩ := uniqueQueryKeys_eq_ok hkeys
        exact trueHit_of_token htoken
          (isTokenHit_of_confirmed hboundaries hrange hmem hconfirmed)
      · rw [hngram] at h
        have hspans : ∀ (bytes : List UInt8) (limit : Nat) (left right : Bool),
            substringSpans bytes (textBytes query) limit =
              ((fun bytes (_ _ : Bool) => occurrenceSpans bytes (textBytes query)) bytes left
                right).take limit :=
          fun bytes limit _ _ => substringSpans_eq bytes (textBytes query) limit
        obtain ⟨plan, -, granule, hrange, hconfirmed⟩ :=
          searchPostings_sound hreads hspans h hhit
        exact trueHit_of_ngram hngram (occurs_of_confirmed hrange hconfirmed)

end QziFileSidecar

end Untrusted

/-- Search never reports a false hit.  For every container, every sidecar that one of the two
openers takes under any limits, whatever its sections hold, every query and all options, each hit
of a report lies in the original text; what it covers is the query, for an n-gram sidecar, and for
a token sidecar a maximal run of token bytes that is a token of the query, up to the case of ASCII
letters, on a line where every token of the query is such a run. -/
theorem sidecarSearch_sound {env : Env} {bytes : List UInt8} {limits : ResourceLimits}
    {reader : QztReader} (served : FaithfulSource bytes)
    (hopen : QztReader.openWithLimits env bytes limits = .ok reader) (query : String)
    (options : SearchOptions) :
    (∀ (container sidecarBytes : List UInt8) (sidecarLimits : SidecarLimits) (sidecar : QziSidecar)
      (report : SearchReport),
      QziSidecar.openWithLimits env container sidecarBytes sidecarLimits = .ok sidecar →
      sidecar.search env reader query options = .ok report →
      (sidecar.manifest.indexType = "token" ∨ sidecar.manifest.indexType = "ngram") ∧
        ∀ hit ∈ report.hits,
          TrueHit sidecar.manifest.indexType (reader.originalText env) query hit) ∧
    ∀ (source : ReadAt) (len : Nat) (container : QztFileReader) (sidecarLimits : SidecarLimits)
      (sidecar : QziFileSidecar) (report : SearchReport),
      QziFileSidecar.openReadAtWithLimits env source len container sidecarLimits = .ok sidecar →
      sidecar.search env (served.fileReader reader.details) query options = .ok report →
      (sidecar.manifest.indexType = "token" ∨ sidecar.manifest.indexType = "ngram") ∧
        ∀ hit ∈ report.hits,
          TrueHit sidecar.manifest.indexType (reader.originalText env) query hit := by
  obtain ⟨hmemory, hfile⟩ := readsText_of_open served hopen
  constructor
  · intro container sidecarBytes sidecarLimits sidecar report hsidecar hsearch
    have hindex := QziSidecar.index_of_openWithLimits hsidecar
    exact ⟨hindex.imp And.left And.left,
      fun hit hhit => QziSidecar.search_sound hindex hmemory hsearch hhit⟩
  · intro source len container sidecarLimits sidecar report hsidecar hsearch
    have htype := QziFileSidecar.indexType_of_openReadAtWithLimits hsidecar
    obtain ⟨checksum, -, hsearch⟩ := bind_eq_ok_iff.mp hsearch
    obtain ⟨_, -, hsearch⟩ := bind_eq_ok_iff.mp hsearch
    exact ⟨htype, fun hit hhit => QziFileSidecar.searchImpl_sound htype hfile hsearch hhit⟩

/-! ## A forged granule -/

/-- A token sidecar with the granule of the second line replaced by a range that starts and ends in
the lines around it. -/
def forgedSidecar (reader : QztFileReader) : Result (List UInt8) := do
  let checksum ← reader.footerChecksum Reference.env
  let parts ← buildParts Reference.env reader .token {}
  assembleSidecar Reference.env reader.details checksum
    { parts with granules := parts.granules.modify 1 fun granule =>
        { granule with logicalOffset := 3, byteLength := 10 } } .lineImpliedV2

/-- A container and its forged sidecar, opened in both ways, with a search in each. -/
def runForgedSearch (container : List UInt8) (query : String) :
    Result (QztReader × List UInt8 × (QziSidecar × SearchReport) ×
      (QziFileSidecar × SearchReport)) := do
  let reader ← QztReader.openWithLimits Reference.env container .default
  let fileReader : QztFileReader :=
    { source := memorySource container, len := container.length, details := reader.details }
  let sidecarBytes ← forgedSidecar fileReader
  let inMemory ← QziSidecar.openWithLimits Reference.env container sidecarBytes .default
  let asFile ← QziFileSidecar.openReadAtWithLimits Reference.env (memorySource sidecarBytes)
    sidecarBytes.length fileReader .default
  let memoryReport ← inMemory.search Reference.env reader query {}
  let fileReport ← asFile.search Reference.env fileReader query {}
  return (reader, sidecarBytes, (inMemory, memoryReport), (asFile, fileReport))

/-- What the searches show: the text and the hits of both. -/
def forgedSearchOutcome (container : List UInt8) (query : String) :
    Result (List UInt8 × List (Nat × Nat) × List (Nat × Nat)) := do
  let (reader, _, (_, memoryReport), (_, fileReport)) ← runForgedSearch container query
  let places := fun report : SearchReport =>
    report.hits.map fun hit => (hit.logicalOffset, hit.byteLength)
  return (reader.originalText Reference.env, places memoryReport, places fileReport)

set_option maxRecDepth 100000 in
/-- The word on the second line, found from a range that clips the lines before and behind it. -/
theorem forgedSearchOutcome_staleContainer :
    forgedSearchOutcome staleContainer "beta" =
      .ok (textBytes "alpha\nbeta\ngamma\n", [(6, 4)], [(6, 4)]) ∧
    staleContainer.length < 2 ^ 64 := by
  simp only [forgedSearchOutcome, runForgedSearch, QziSidecar.search, RawTokenIndex.search,
    RawTokenIndex.searchImpl, RawNgramIndex.search, RawNgramIndex.searchImpl, searchCandidates,
    countCandidateChunks, countChunkSpans, QziFileSidecar.search, QziFileSidecar.searchImpl,
    QziFileSidecar.orderTerms, QziFileSidecar.searchPostings, countChunks, mergeSort_rarestFirst,
    mergeSort_by_eq_insertion]
  decide +kernel

/-- Both searches of the forged sidecar. -/
theorem sidecarSearch_sound_staleContainer : ∃ reader sidecarBytes inMemory memoryReport asFile
    fileReport,
    QztReader.openWithLimits Reference.env staleContainer .default = .ok reader ∧
    forgedSidecar { source := memorySource staleContainer, len := staleContainer.length,
                    details := reader.details } = .ok sidecarBytes ∧
    QziSidecar.openWithLimits Reference.env staleContainer sidecarBytes .default = .ok inMemory ∧
    inMemory.search Reference.env reader "beta" {} = .ok memoryReport ∧
    QziFileSidecar.openReadAtWithLimits Reference.env (memorySource sidecarBytes)
      sidecarBytes.length { source := memorySource staleContainer, len := staleContainer.length,
                            details := reader.details } .default = .ok asFile ∧
    asFile.search Reference.env { source := memorySource staleContainer,
                                  len := staleContainer.length, details := reader.details } "beta"
      {} = .ok fileReport ∧
    memoryReport.hits.map (fun hit => (hit.logicalOffset, hit.byteLength)) = [(6, 4)] ∧
    fileReport.hits.map (fun hit => (hit.logicalOffset, hit.byteLength)) = [(6, 4)] ∧
    (∀ hit ∈ memoryReport.hits, TrueHit inMemory.manifest.indexType
      (textBytes "alpha\nbeta\ngamma\n") "beta" hit) ∧
    ∀ hit ∈ fileReport.hits, TrueHit asFile.manifest.indexType
      (textBytes "alpha\nbeta\ngamma\n") "beta" hit := by
  obtain ⟨houtcome, hlt⟩ := forgedSearchOutcome_staleContainer
  obtain ⟨⟨reader, sidecarBytes, ⟨inMemory, memoryReport⟩, ⟨asFile, fileReport⟩⟩, hrun, houtcome⟩ :=
    bind_eq_ok_iff.mp houtcome
  obtain ⟨_, hopen, hrun⟩ := bind_eq_ok_iff.mp hrun
  obtain ⟨_, hforged, hrun⟩ := bind_eq_ok_iff.mp hrun
  obtain ⟨_, hmemory, hrun⟩ := bind_eq_ok_iff.mp hrun
  obtain ⟨_, hfile, hrun⟩ := bind_eq_ok_iff.mp hrun
  obtain ⟨_, hmemorySearch, hrun⟩ := bind_eq_ok_iff.mp hrun
  obtain ⟨_, hfileSearch, hrun⟩ := bind_eq_ok_iff.mp hrun
  cases hrun
  dsimp only at houtcome
  rw [pure_eq_ok, Except.ok.injEq, Prod.mk.injEq, Prod.mk.injEq] at houtcome
  obtain ⟨htext, hmemoryHits, hfileHits⟩ := houtcome
  obtain ⟨hfirst, hsecond⟩ :=
    sidecarSearch_sound (servedInMemory staleContainer hlt) hopen "beta" {}
  obtain ⟨-, hmemoryTrue⟩ := hfirst _ _ _ _ _ hmemory hmemorySearch
  obtain ⟨-, hfileTrue⟩ := hsecond _ _ _ _ _ _ hfile hfileSearch
  rw [htext] at hmemoryTrue hfileTrue
  exact ⟨reader, sidecarBytes, inMemory, memoryReport, asFile, fileReport, hopen, hforged, hmemory,
    hmemorySearch, hfile, hfileSearch, hmemoryHits, hfileHits, hmemoryTrue, hfileTrue⟩

end Qzt.Sidecar
