import Qzt.Cli.ContextLines
import Qzt.Container.Opened
import Qzt.Reader.Agreement
import Qzt.Reader.DeepContract
import Qzt.Reader.DenseStarts

/-!
# Context views are faithful and within their budgets

A view of any hit in any container: its excerpt is the original text, contains the hit,
stays inside its scope and its budgets, and says of each side only what is there.
-/

namespace Qzt.Context

open Foundation

/-! ## The hit and its scope -/

section Scope

variable {options : Options} {originalSize hitStart hitEnd : Nat}

theorem hitRange_safe : Safe (hitRange originalSize options) (fun hit =>
    options.offset = some hit.1 ∧ (∃ length, options.length = some length ∧ hit.2 = hit.1 + length) ∧
      hit.2 ≤ originalSize ∧ hit.2 - hit.1 ≤ options.scan ∧ hit.2 - hit.1 ≤ options.excerpt) := by
  rw [hitRange]
  refine safe_bind safe_okOr fun hitStart hoffset => ?_
  refine safe_bind safe_okOr fun length hlength => ?_
  refine safe_bind safe_okOr fun hitEnd hend => ?_
  obtain ⟨-, rfl⟩ := checkedAdd_eq_some_iff.mp hend
  refine safe_bind safe_rejectIf fun _ hsize => ?_
  refine safe_bind (safe_sub (Nat.le_add_right _ _)) fun hitLength hhit => ?_
  subst hhit
  refine safe_bind safe_rejectIf fun _ hbudget => ?_
  exact safe_ok ⟨hoffset, ⟨length, hlength, rfl⟩, by omega, by omega, by omega⟩

/-- The document is in the text and holds the whole hit. -/
structure Encloses (originalSize hitStart hitEnd : Nat) (document : DocumentEntry) : Prop where
  start : document.logicalOffset ≤ hitStart
  stop : hitEnd ≤ document.logicalOffset + document.byteLength
  size : document.logicalOffset + document.byteLength ≤ originalSize

theorem mapDocuments_safe (documents : List DocumentEntry) :
    ∀ {intersecting containing : List DocumentEntry},
      (∀ document ∈ containing, Encloses originalSize hitStart hitEnd document) →
      Safe (mapDocuments originalSize hitStart hitEnd documents intersecting containing)
        (fun found => ∀ document ∈ found.2, Encloses originalSize hitStart hitEnd document) := by
  induction documents with
  | nil =>
    intro intersecting containing h
    exact h
  | cons document documents ih =>
    intro intersecting containing h
    rw [mapDocuments]
    refine safe_bind safe_okOr fun stop hstop => ?_
    obtain ⟨-, rfl⟩ := checkedAdd_eq_some_iff.mp hstop
    refine safe_bind safe_rejectIf fun _ hsize => ?_
    apply safe_ite
    · intro _
      refine safe_bind safe_rejectIf fun _ _ => ih fun other hother => ?_
      split at hother
      case isTrue hcontains =>
        rcases List.mem_append.mp hother with hold | hnew
        · exact h other hold
        · obtain rfl := List.mem_singleton.mp hnew
          exact ⟨hcontains.1, hcontains.2, by omega⟩
      case isFalse => exact h other hother
    · exact fun _ => ih h

theorem mapHit_safe {details : SkeletonDetails} :
    Safe (mapHit details options hitStart hitEnd) (fun found =>
      (found.1 = .unique → found.2.2.length = 1) ∧
        ∀ document ∈ found.2.2,
          Encloses details.summary.originalSize hitStart hitEnd document) := by
  rw [mapHit]
  split
  case h_1 index _ =>
    refine safe_bind safe_rejectIf fun _ _ => ?_
    refine safe_bind (mapDocuments_safe index.documents (by simp)) fun found hfound => ?_
    refine safe_ok ⟨fun hunique => ?_, hfound⟩
    dsimp only at hunique ⊢
    split at hunique
    case isTrue hone => exact hone.1
    case isFalse =>
      split at hunique
      · cases hunique
      · split at hunique <;> cases hunique
  case h_2 => exact safe_ok ⟨fun h => (by cases h), by simp⟩

theorem uniqueDocument_safe {status : MappingStatus} {containing : List DocumentEntry}
    (hone : status = .unique → containing.length = 1)
    (hencloses : ∀ document ∈ containing, Encloses originalSize hitStart hitEnd document) :
    Safe (uniqueDocument status containing) (fun found =>
      ∀ document, found = some document → Encloses originalSize hitStart hitEnd document) := by
  rw [uniqueDocument]
  apply safe_ite
  · intro hunique
    have hlength := hone hunique
    refine safe_bind (safe_item (by omega)) fun document hdocument => ?_
    refine safe_ok fun other hother => ?_
    cases hother
    exact hencloses document (List.mem_of_getElem? hdocument)
  · exact fun _ => safe_ok fun _ h => by cases h

/-- The hit lies in its scope, and the scope in the text. -/
theorem scopeOf_encloses {document : Option DocumentEntry} (hend : hitEnd ≤ originalSize)
    (hencloses : ∀ found, document = some found → Encloses originalSize hitStart hitEnd found) :
    (scopeOf originalSize document).1 ≤ hitStart ∧ hitEnd ≤ (scopeOf originalSize document).2.1 ∧
      (scopeOf originalSize document).2.1 ≤ originalSize := by
  cases document with
  | none => exact ⟨Nat.zero_le _, hend, Nat.le_refl _⟩
  | some found =>
    obtain ⟨hstart, hstop, hsize⟩ := hencloses found rfl
    exact ⟨hstart, hstop, hsize⟩

end Scope

/-! ## The contract -/

/-- What a view says about the container it comes from. -/
structure Faithful (env : Env) (reader : QztFileReader) (options : Options) (view : View) : Prop where
  hit : options.offset = some view.hitStart ∧
    ∃ length, options.length = some length ∧ view.hitEnd = view.hitStart + length
  scope : (view.scopeStart, view.scopeEnd, view.scopeKind) =
    scopeOf reader.details.summary.originalSize view.document
  document : ∀ document, view.document = some document →
    Encloses reader.details.summary.originalSize view.hitStart view.hitEnd document
  /-- The excerpt is the original slice at its offset. -/
  excerpt_eq : view.bytes =
    slice (originalText (reader.decodeEntry env) reader.details.chunkEntries) view.excerptStart
      view.bytes.length
  contains_hit : view.excerptStart ≤ view.hitStart ∧
    view.hitEnd ≤ view.excerptStart + view.bytes.length
  inside_scope : view.scopeStart ≤ view.excerptStart ∧
    view.excerptStart + view.bytes.length ≤ view.scopeEnd
  excerpt_budget : view.bytes.length ≤ options.excerpt
  /-- The excerpt is cut from one read of the window, and the read is within its budgets. -/
  read : ∃ scanStart scanEnd report,
    scanWindow reader.details.chunkEntries options view.hitStart view.hitEnd view.scopeStart
        view.scopeEnd = .ok (scanStart, scanEnd) ∧
      reader.readRangeWithMetrics env scanStart (scanEnd - scanStart) = .ok report ∧
        view.bytes = slice report.bytes (view.excerptStart - scanStart) view.bytes.length ∧
          scanEnd - scanStart ≤ options.scan ∧
            report.metrics.decodedBytes ≤ options.physical ∧
              report.metrics.decodedChunks ≤ options.chunks
  /-- A complete side begins at a line or at the scope; up to the first byte of the hit there are
  the requested lines and the hit's own. -/
  before_complete : view.beforeStop = .complete →
    (view.excerptStart = view.scopeStart ∨ (0 < view.excerptStart ∧
      (originalText (reader.decodeEntry env) reader.details.chunkEntries)[view.excerptStart - 1]? =
        some lf)) ∧
      (lines (slice (originalText (reader.decodeEntry env) reader.details.chunkEntries)
        view.excerptStart (view.hitStart + 1 - view.excerptStart))).length = options.before + 1
  /-- A complete side ends with a line or at the scope; from the last byte of the hit on there are
  the hit's own line and the requested ones. -/
  after_complete : view.afterStop = .complete →
    (view.excerptStart + view.bytes.length = view.scopeEnd ∨
      (originalText (reader.decodeEntry env) reader.details.chunkEntries)[
        view.excerptStart + view.bytes.length - 1]? = some lf) ∧
      (lines (slice (originalText (reader.decodeEntry env) reader.details.chunkEntries)
        (view.hitEnd - 1) (view.excerptStart + view.bytes.length - (view.hitEnd - 1)))).length =
          options.after + 1
  before_scope : view.beforeStop = .scopeBoundary → view.excerptStart = view.scopeStart
  after_scope : view.afterStop = .scopeBoundary →
    view.excerptStart + view.bytes.length = view.scopeEnd

variable {env : Env} {reader : QztFileReader} {options : Options}

theorem decodeEntry_length {entry : ChunkEntry} {decoded : List UInt8}
    (h : reader.decodeEntry env entry = .ok decoded) : decoded.length = entry.uncompressedSize := by
  simp only [QztFileReader.decodeEntry, bind_eq_ok_iff] at h
  obtain ⟨_, -, hdecoded⟩ := h
  exact decodeCompressedEntry_length hdecoded

/-- A range read returns the original text of the range. -/
theorem readRange_eq_slice
    (hlayout : Layout reader.details.chunkEntries reader.details.summary.originalSize)
    {start length : Nat} {bytes : List UInt8} (h : reader.readRange env start length = .ok bytes) :
    bytes = slice (originalText (reader.decodeEntry env) reader.details.chunkEntries) start length := by
  rw [QztFileReader.readRange, readRangeFromEntries, readRangeWithMetricsFromEntries] at h
  simp only [bind_eq_ok_iff, pure_eq_ok, Except.ok.injEq] at h
  obtain ⟨_, ⟨result, hread, rfl⟩, rfl⟩ := h
  have hagrees : Agrees (reader.decodeEntry env) reader.details.chunkEntries
      (originalText (reader.decodeEntry env) reader.details.chunkEntries) :=
    originalText_agrees hlayout fun _ _ h => decodeEntry_length h
  exact (readRangeFromEntriesCached_sound hlayout hagrees
    (ChunkDecodeCache.holds_new _ _) hread).2.1

/-- `build` does not panic, and its view is faithful. -/
theorem build_safe (hlayout : Layout reader.details.chunkEntries reader.details.summary.originalSize)
    (hnonempty : ∀ length, options.length = some length → 0 < length) :
    Safe (build env reader options) (Faithful env reader options) := by
  rw [build]
  refine safe_bind hitRange_safe fun hit hhit => ?_
  obtain ⟨hitStart, hitEnd⟩ := hit
  obtain ⟨hoffset, ⟨length, hlength, hhitEnd⟩, hsize, hscanBudget, hexcerptBudget⟩ := hhit
  dsimp only at hoffset hhitEnd hsize hscanBudget hexcerptBudget ⊢
  have hpos := hnonempty length hlength
  refine safe_bind mapHit_safe fun found hfound => ?_
  obtain ⟨status, intersecting, containing⟩ := found
  refine safe_bind (uniqueDocument_safe hfound.1 hfound.2) fun document hdocument => ?_
  obtain ⟨hscopeStart, hscopeEnd, hscopeSize⟩ := scopeOf_encloses hsize hdocument
  generalize hscopeOf : scopeOf reader.details.summary.originalSize document = scope at *
  obtain ⟨scopeStart, scopeEnd, scopeKind⟩ := scope
  dsimp only at hscopeStart hscopeEnd hscopeSize ⊢
  have hlt := hlayout.size_lt
  have hit : Hit options hitStart hitEnd scopeStart scopeEnd :=
    ⟨by omega, hscopeStart, hscopeEnd, by omega, hscanBudget, hexcerptBudget⟩
  refine safe_bind (scanWindow_safe hlayout hit).with_eq fun window hwindow => ?_
  obtain ⟨scanStart, scanEnd⟩ := window
  obtain ⟨hscanWindow, hwindow⟩ := hwindow
  obtain ⟨hscope, hscopeStop, hstart, hend, hscan, haffordable⟩ := hwindow
  dsimp only at hscope hscopeStop hstart hend hscan haffordable ⊢
  refine safe_bind (safe_sub (by omega)) fun scanLength hscanLength => ?_
  subst hscanLength
  refine safe_bind safe_lift fun scanned hread => ?_
  refine safe_bind safe_rejectIf fun _ hscanned => ?_
  have hscannedLength : scanned.length = scanEnd - scanStart := not_not.mp hscanned
  refine safe_bind (selectExcerpt_safe hit hscope (by omega) hstart (by omega)) fun excerpt hexcerpt => ?_
  -- what was read is the original text of the window
  have htext := readRange_eq_slice hlayout hread
  rw [show scanEnd = scanStart + (scanEnd - scanStart) by omega] at haffordable
  obtain ⟨metrics, hmetrics, hphysical, hchunks⟩ := readRange_cost hlayout haffordable (by omega) hread
  obtain ⟨hstartLe, hendLe, hhitStart, hhitStop, hbudget, hbytes, hbeforeEdge, hbeforeLines, hafterEdge,
    hafterLines, hbeforeScope, hafterScope⟩ := hexcerpt
  have hslice : ∀ {a n : Nat}, scanStart ≤ a → a + n ≤ scanEnd →
      slice scanned (a - scanStart) n =
        slice (originalText (reader.decodeEntry env) reader.details.chunkEntries) a n := by
    intro a n ha hn
    rw [htext, slice_slice (by omega)]
    congr 1
    omega
  have hget : ∀ {a : Nat}, scanStart ≤ a → a < scanEnd → scanned[a - scanStart]? =
      (originalText (reader.decodeEntry env) reader.details.chunkEntries)[a]? := by
    intro a ha hlt
    rw [htext, getElem?_slice (by omega)]
    congr 1
    omega
  refine safe_ok {
    hit := ⟨hoffset, length, hlength, hhitEnd⟩
    scope := hscopeOf.symm
    document := hdocument
    excerpt_eq := ?_
    contains_hit := ⟨hhitStart, hhitStop⟩
    inside_scope := ⟨by dsimp only; omega, by dsimp only; omega⟩
    excerpt_budget := hbudget
    read := ⟨scanStart, scanEnd, _, hscanWindow, hmetrics, hbytes, hscan, hphysical, hchunks⟩
    before_complete := ?_
    after_complete := ?_
    before_scope := hbeforeScope
    after_scope := hafterScope }
  · dsimp only
    rw [← hslice hstartLe (by omega)]
    exact hbytes
  · intro hcomplete
    have hcount := hbeforeLines hcomplete
    rw [hslice hstartLe (by omega)] at hcount
    refine ⟨?_, by rw [length_lines]; exact hcount⟩
    rcases hbeforeEdge hcomplete with hedge | ⟨hinside, hlf⟩
    · exact .inl hedge
    · rw [show excerpt.excerptStart - scanStart - 1 = excerpt.excerptStart - 1 - scanStart by omega,
        hget (by omega) (by omega)] at hlf
      exact .inr ⟨by dsimp only; omega, hlf⟩
  · intro hcomplete
    have hcount := hafterLines hcomplete
    rw [hslice (by omega) (by omega)] at hcount
    refine ⟨?_, by rw [length_lines]; exact hcount⟩
    rcases hafterEdge hcomplete with hedge | hlf
    · exact .inl hedge
    · rw [show excerpt.excerptStart + excerpt.bytes.length - scanStart - 1 =
          excerpt.excerptStart + excerpt.bytes.length - 1 - scanStart by omega,
        hget (by omega) (by omega)] at hlf
      exact .inr hlf

/-- For every container that opens, every hit that is not empty and all options, `build` does not
panic and a view it returns is faithful. -/
theorem build_faithful {bytes : List UInt8} (served : FaithfulSource bytes)
    (hopen : QztFileReader.openReadAt env served.source served.len = .ok reader)
    (hnonempty : ∀ length, options.length = some length → 0 < length) :
    build env reader options ≠ .error .panic ∧
      ∀ view, build env reader options = .ok view → Faithful env reader options view := by
  simp only [QztFileReader.openReadAt, QztFileReader.openReadAtWithLimits,
    served.openSkeletonDetailsReadAt_eq, bind_eq_ok_iff, pure_eq_ok, Except.ok.injEq] at hopen
  obtain ⟨details, hdetails, rfl⟩ := hopen
  have hlayout := (openSkeletonDetailsWithLimits_opened hdetails).layout
  have hsafe : Safe (build env { source := served.source, len := served.len, details } options)
      (Faithful env _ options) := build_safe hlayout hnonempty
  exact ⟨hsafe.ne_panic, fun view hview => hsafe.of_ok hview⟩

/-! ## A view -/

/-- The hit `beta` with one line on each side. -/
def betaOptions : Options where
  offset := some 6
  length := some 4
  before := 1
  after := 1

/-- A view, reduced to its excerpt and the reasons to stop. -/
def viewOf (container : List UInt8) (options : Options) :
    Option (Nat × List UInt8 × StopReason × StopReason) :=
  match QztFileReader.openReadAt Reference.env (memorySource container) container.length with
  | .error _ => none
  | .ok reader =>
    match build Reference.env reader options with
    | .error _ => none
    | .ok view => some (view.excerptStart, view.bytes, view.beforeStop, view.afterStop)

set_option maxRecDepth 100000 in
theorem viewOf_staleContainer : staleContainer.length < 2 ^ 64 ∧
    viewOf staleContainer betaOptions = some (0, staleLines, .complete, .complete) := by
  decide +kernel

theorem viewOf_eq_some {container : List UInt8}
    {fields : Nat × List UInt8 × StopReason × StopReason}
    (h : viewOf container options = some fields) : ∃ reader view,
      QztFileReader.openReadAt Reference.env (memorySource container) container.length = .ok reader ∧
        build Reference.env reader options = .ok view ∧
          (view.excerptStart, view.bytes, view.beforeStop, view.afterStop) = fields := by
  unfold viewOf at h
  split at h
  case h_1 => cases h
  case h_2 reader hopen =>
    split at h
    case h_1 => cases h
    case h_2 view hbuild => exact ⟨reader, view, hopen, hbuild, Option.some.inj h⟩

theorem build_faithful_beta : ∃ (served : FaithfulSource staleContainer) (reader : QztFileReader)
    (view : View), QztFileReader.openReadAt Reference.env served.source served.len = .ok reader ∧
      build Reference.env reader betaOptions = .ok view ∧
        (view.excerptStart, view.bytes, view.beforeStop, view.afterStop) =
          (0, staleLines, .complete, .complete) ∧
          Faithful Reference.env reader betaOptions view := by
  obtain ⟨hlt, hview⟩ := viewOf_staleContainer
  obtain ⟨reader, view, hopen, hbuild, hfields⟩ := viewOf_eq_some hview
  have hnonempty : ∀ length, betaOptions.length = some length → 0 < length := by
    intro length heq
    cases heq
    decide
  exact ⟨servedInMemory staleContainer hlt, reader, view, hopen, hbuild, hfields,
    (build_faithful (servedInMemory staleContainer hlt) hopen hnonempty).2 view hbuild⟩

end Qzt.Context
