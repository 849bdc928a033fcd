import Qzt.Foundation.Search
import Qzt.Reader.Readers

/-!
# Context around a search hit (`context_cli.rs`)

`build` maps one hit to an excerpt of the source: it chooses a scope, a window of the
scope that is read once, and whole lines around the hit inside the window.  Subtractions
of unsigned numbers and array accesses are checked; one that fails is a panic.  The
renderers and the limit on the rendered output are left out.
-/

namespace Qzt.Context

open Foundation

/-! ## Checked operations -/

/-- How `build` can end without a view. -/
inductive BuildError where
  | qzt (error : QztError)
  | panic
  deriving DecidableEq, Repr

abbrev Build (α : Type) := Except BuildError α

/-- `?` on a `qzt::Result`. -/
def lift {α : Type} : Result α → Build α
  | .ok a => .ok a
  | .error e => .error (.qzt e)

/-- `a - b` on an unsigned type. -/
def sub (a b : Nat) : Build Nat :=
  if b ≤ a then .ok (a - b) else .error .panic

/-- `items[index]`. -/
def item {α : Type} (items : List α) (index : Nat) : Build α :=
  okOr .panic items[index]?

/-- `items[start..stop]`. -/
def range {α : Type} (items : List α) (start stop : Nat) : Build (List α) :=
  okOr .panic (getRange? items start stop)

@[simp] theorem lift_eq_ok_iff {α : Type} {x : Result α} {a : α} : lift x = .ok a ↔ x = .ok a := by
  cases x <;> simp [lift]

theorem lift_ne_panic {α : Type} (x : Result α) : lift x ≠ .error .panic := by
  cases x <;> simp [lift]

theorem sub_of_le {a b : Nat} (h : b ≤ a) : sub a b = .ok (a - b) := if_pos h

/-! ## Options and views -/

/-- `MAX_CANDIDATES`. -/
def maxCandidates : Nat := 256

/-- `Options`, without the rendering options. -/
structure Options where
  offset : Option Nat := none
  length : Option Nat := none
  before : Nat := 2
  after : Nat := 2
  scan : Nat := 256 * 1024
  physical : Nat := 16 * 1024 * 1024
  chunks : Nat := 64
  documents : Nat := 100000
  excerpt : Nat := 64 * 1024
  deriving DecidableEq, Repr

inductive MappingStatus where
  | unique
  | ambiguous
  | crossDocument
  | unmapped
  | noDocumentIndex
  deriving DecidableEq, Repr

inductive ScopeKind where
  | document
  | container
  deriving DecidableEq, Repr

inductive StopReason where
  | budget
  | complete
  | scopeBoundary
  deriving DecidableEq, Repr

/-- `View`. -/
structure View where
  hitStart : Nat
  hitEnd : Nat
  scopeStart : Nat
  scopeEnd : Nat
  scopeKind : ScopeKind
  status : MappingStatus
  document : Option DocumentEntry
  candidates : List DocumentEntry
  excerptStart : Nat
  bytes : List UInt8
  beforeRequested : Nat
  beforeReturned : Nat
  beforeStop : StopReason
  afterRequested : Nat
  afterReturned : Nat
  afterStop : StopReason
  leadingFragment : Bool
  trailingFragment : Bool
  deriving DecidableEq

/-! ## The hit and its scope -/

/-- The hit range, with the checks `build` makes on it. -/
def hitRange (originalSize : Nat) (options : Options) : Build (Nat × Nat) := do
  let hitStart ← okOr (.qzt .containerCorrupt) options.offset
  let length ← okOr (.qzt .containerCorrupt) options.length
  let hitEnd ← okOr (.qzt .logicalRangeOutOfBounds) (checkedAdd hitStart length)
  rejectIf (hitEnd > originalSize) (.qzt .logicalRangeOutOfBounds)
  let hitLength ← sub hitEnd hitStart
  rejectIf (hitLength > options.scan ∨ hitLength > options.excerpt) (.qzt .resourceLimitExceeded)
  return (hitStart, hitEnd)

/-- The loop of `build` over the documents. -/
def mapDocuments (originalSize hitStart hitEnd : Nat) :
    List DocumentEntry → List DocumentEntry → List DocumentEntry →
      Build (List DocumentEntry × List DocumentEntry)
  | [], intersecting, containing => .ok (intersecting, containing)
  | document :: documents, intersecting, containing => do
    let stop ← okOr (.qzt .containerCorrupt)
      (checkedAdd document.logicalOffset document.byteLength)
    rejectIf (stop > originalSize) (.qzt .containerCorrupt)
    if document.byteLength > 0 ∧ document.logicalOffset < hitEnd ∧ hitStart < stop then
      rejectIf (intersecting.length = maxCandidates) (.qzt .resourceLimitExceeded)
      mapDocuments originalSize hitStart hitEnd documents (intersecting ++ [document])
        (if document.logicalOffset ≤ hitStart ∧ hitEnd ≤ stop then containing ++ [document]
          else containing)
    else
      mapDocuments originalSize hitStart hitEnd documents intersecting containing

/-- `status`, with the intersecting and the containing documents. -/
def mapHit (details : SkeletonDetails) (options : Options) (hitStart hitEnd : Nat) :
    Build (MappingStatus × List DocumentEntry × List DocumentEntry) :=
  match details.documentIndex with
  | some index => do
    rejectIf (index.documents.length > options.documents) (.qzt .resourceLimitExceeded)
    let (intersecting, containing) ←
      mapDocuments details.summary.originalSize hitStart hitEnd index.documents [] []
    let status :=
      if containing.length = 1 ∧ intersecting.length = 1 then .unique
      else if containing ≠ [] then .ambiguous
      else if intersecting ≠ [] then .crossDocument
      else .unmapped
    return (status, intersecting, containing)
  | none => .ok (.noDocumentIndex, [], [])

/-- `document`: the one that contains the hit. -/
def uniqueDocument (status : MappingStatus) (containing : List DocumentEntry) :
    Build (Option DocumentEntry) :=
  if status = .unique then do return some (← item containing 0) else .ok none

/-- `scope_start`, `scope_end` and `scope_kind`. -/
def scopeOf (originalSize : Nat) : Option DocumentEntry → Nat × Nat × ScopeKind
  | some document =>
    (document.logicalOffset, document.logicalOffset + document.byteLength, .document)
  | none => (0, originalSize, .container)

/-! ## The window -/

/-- The loop of `fits`. -/
def fitsLoop (options : Options) (stop : Nat) : List ChunkEntry → Nat → Nat → Build Bool
  | [], _, _ => .ok true
  | entry :: entries, bytes, count =>
    if entry.logicalOffset < stop then do
      let bytes ← okOr (.qzt .resourceLimitExceeded) (checkedAdd bytes entry.uncompressedSize)
      if bytes > options.physical ∨ count + 1 > options.chunks then
        return false
      else
        fitsLoop options stop entries bytes (count + 1)
    else
      .ok true

/-- `fits`: the chunks of a range are within the decoding budgets. -/
def fits (entries : List ChunkEntry) (start stop : Nat) (options : Options) : Build Bool := do
  let first ← partitionPoint (fun i => do
    let entry ← item entries i
    return decide (saturatingAdd entry.logicalOffset entry.uncompressedSize ≤ start)) entries.length
  fitsLoop options stop (entries.drop first) 0 0

/-- The loop of `fit_left`; `fuel := high - low` halvings are always enough. -/
def fitLeftLoop (entries : List ChunkEntry) (hitEnd : Nat) (options : Options) :
    Nat → Nat → Nat → Build Nat
  | 0, low, _ => .ok low
  | fuel + 1, low, high =>
    if low < high then do
      let mid := low + (← sub high low) / 2
      if ← fits entries mid hitEnd options then
        fitLeftLoop entries hitEnd options fuel low mid
      else
        fitLeftLoop entries hitEnd options fuel (mid + 1) high
    else
      .ok low

/-- `fit_left`. -/
def fitLeft (entries : List ChunkEntry) (target hitStart hitEnd : Nat) (options : Options) :
    Build Nat :=
  fitLeftLoop entries hitEnd options (hitStart - target) target hitStart

/-- The loop of `fit_right`. -/
def fitRightLoop (entries : List ChunkEntry) (start : Nat) (options : Options) :
    Nat → Nat → Nat → Build Nat
  | 0, low, _ => .ok low
  | fuel + 1, low, high =>
    if low < high then do
      let mid := low + ((← sub high low) + 1) / 2
      if ← fits entries start mid options then
        fitRightLoop entries start options fuel mid high
      else
        fitRightLoop entries start options fuel low (← sub mid 1)
    else
      .ok low

/-- `fit_right`. -/
def fitRight (entries : List ChunkEntry) (start hitEnd target : Nat) (options : Options) :
    Build Nat :=
  fitRightLoop entries start options (target - hitEnd) hitEnd target

/-- The window that is read: `scan_start` and `scan_end`. -/
def scanWindow (entries : List ChunkEntry) (options : Options)
    (hitStart hitEnd scopeStart scopeEnd : Nat) : Build (Nat × Nat) := do
  let sideBudget := (← sub options.scan (← sub hitEnd hitStart)) / 2
  let leftTarget := max (hitStart - sideBudget) scopeStart
  let rightTarget := min (saturatingAdd hitEnd sideBudget) scopeEnd
  if ← fits entries hitStart hitEnd options then
    let scanStart ← fitLeft entries leftTarget hitStart hitEnd options
    let scanEnd ← fitRight entries scanStart hitEnd rightTarget options
    -- a byte before the window shows whether the window begins a line
    if scanStart > scopeStart then
      let guardStart ← sub scanStart 1
      if (← sub scanEnd guardStart) ≤ options.scan then
        if ← fits entries guardStart scanEnd options then
          return (guardStart, scanEnd)
        else
          return (scanStart, scanEnd)
      else
        return (scanStart, scanEnd)
    else
      return (scanStart, scanEnd)
  else
    throw (.qzt .resourceLimitExceeded)

/-! ## The excerpt -/

/-- The loop of `segments`. -/
def segmentsLoop : List UInt8 → Nat → Nat → List (Nat × Nat)
  | [], index, start => if start < index then [(start, index)] else []
  | byte :: bytes, index, start =>
    if byte = lf then
      (start, index + 1) :: segmentsLoop bytes (index + 1) (index + 1)
    else
      segmentsLoop bytes (index + 1) start

/-- `segments`: the lines of the window, as local ranges. -/
def segments (bytes : List UInt8) : List (Nat × Nat) :=
  segmentsLoop bytes 0 0

/-- `limit_excerpt`. -/
def limitExcerpt (desiredStart desiredEnd hitStart hitEnd max : Nat) : Build (Nat × Nat) := do
  let available ← sub max (← sub hitEnd hitStart)
  let beforeWanted ← sub hitStart desiredStart
  let afterWanted ← sub desiredEnd hitEnd
  let before := min beforeWanted (available / 2)
  let after := min afterWanted (← sub available before)
  let before := before + min (beforeWanted - before) (← sub (← sub available before) after)
  let after := after + min (afterWanted - after) (← sub (← sub available before) after)
  return (← sub hitStart before, hitEnd + after)

/-- `stop_reason`. -/
def stopReason (requested returned : Nat) (outputClipped reachedScope edgeFragment : Bool) :
    StopReason :=
  if outputClipped || edgeFragment then .budget
  else if returned ≥ requested then .complete
  else if reachedScope then .scopeBoundary
  else .budget

/-- The first segment that holds a local position. -/
def segmentOf (segments : List (Nat × Nat)) (position : Nat) : Build Nat :=
  okOr (.qzt .containerCorrupt)
    (segments.findIdx? fun segment => segment.1 ≤ position ∧ position < segment.2)

/-- `excerpt_start > scope_start && (excerpt_start == scan_start || ..)`. -/
def isLeadingFragment (scanned : List UInt8) (scanStart scopeStart excerptStart localStart : Nat) :
    Build Bool :=
  if excerptStart > scopeStart then
    if excerptStart = scanStart then .ok true
    else do return (← item scanned (← sub localStart 1)) ≠ lf
  else
    .ok false

/-- `excerpt_end < scope_end && scanned[local_end - 1] != b'\n'`. -/
def isTrailingFragment (scanned : List UInt8) (scopeEnd excerptEnd localEnd : Nat) : Build Bool :=
  if excerptEnd < scopeEnd then do
    return (← item scanned (← sub localEnd 1)) ≠ lf
  else
    .ok false

/-- The edges of the excerpt, the counts of lines and the reasons to stop. -/
structure Excerpt where
  excerptStart : Nat
  bytes : List UInt8
  beforeReturned : Nat
  beforeStop : StopReason
  afterReturned : Nat
  afterStop : StopReason
  leadingFragment : Bool
  trailingFragment : Bool
  deriving DecidableEq

/-- What `build` selects from the window. -/
def selectExcerpt (scanned : List UInt8) (options : Options)
    (hitStart hitEnd scopeStart scopeEnd scanStart : Nat) : Build Excerpt := do
  let segments := segments scanned
  let hitLocalStart ← sub hitStart scanStart
  let hitLocalLast ← sub (← sub hitEnd 1) scanStart
  let first ← segmentOf segments hitLocalStart
  let last ← segmentOf segments hitLocalLast
  let selectedFirst := first - options.before
  let selectedLast := min (saturatingAdd last options.after) (← sub segments.length 1)
  let desiredStart := scanStart + (← item segments selectedFirst).1
  let desiredEnd := scanStart + (← item segments selectedLast).2
  let (excerptStart, excerptEnd) ←
    limitExcerpt desiredStart desiredEnd hitStart hitEnd options.excerpt
  let beforeReturned := (← range segments 0 first).countP fun segment =>
    scanStart + segment.2 > excerptStart
  let afterReturned := (← range segments (last + 1) segments.length).countP fun segment =>
    scanStart + segment.1 < excerptEnd
  let localStart ← sub excerptStart scanStart
  let localEnd ← sub excerptEnd scanStart
  let leadingFragment ← isLeadingFragment scanned scanStart scopeStart excerptStart localStart
  let trailingFragment ← isTrailingFragment scanned scopeEnd excerptEnd localEnd
  return {
    excerptStart
    bytes := ← range scanned localStart localEnd
    beforeReturned
    beforeStop := stopReason options.before beforeReturned (excerptStart > desiredStart)
      (excerptStart = scopeStart) leadingFragment
    afterReturned
    afterStop := stopReason options.after afterReturned (excerptEnd < desiredEnd)
      (excerptEnd = scopeEnd) trailingFragment
    leadingFragment
    trailingFragment }

/-- `build`, up to the view. -/
def build (env : Env) (reader : QztFileReader) (options : Options) : Build View := do
  let originalSize := reader.details.summary.originalSize
  let (hitStart, hitEnd) ← hitRange originalSize options
  let (status, intersecting, containing) ← mapHit reader.details options hitStart hitEnd
  let document ← uniqueDocument status containing
  let (scopeStart, scopeEnd, scopeKind) := scopeOf originalSize document
  let (scanStart, scanEnd) ←
    scanWindow reader.details.chunkEntries options hitStart hitEnd scopeStart scopeEnd
  let scanLength ← sub scanEnd scanStart
  let scanned ← lift (reader.readRange env scanStart scanLength)
  rejectIf (scanned.length ≠ scanLength) (.qzt .containerCorrupt)
  let excerpt ← selectExcerpt scanned options hitStart hitEnd scopeStart scopeEnd scanStart
  return {
    hitStart
    hitEnd
    scopeStart
    scopeEnd
    scopeKind
    status
    document
    candidates := intersecting
    excerptStart := excerpt.excerptStart
    bytes := excerpt.bytes
    beforeRequested := options.before
    beforeReturned := excerpt.beforeReturned
    beforeStop := excerpt.beforeStop
    afterRequested := options.after
    afterReturned := excerpt.afterReturned
    afterStop := excerpt.afterStop
    leadingFragment := excerpt.leadingFragment
    trailingFragment := excerpt.trailingFragment }

end Qzt.Context
