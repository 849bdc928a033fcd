import Qzt.Container.ChunkTable

/-!
# Chunk planning (`chunker.rs`)

Chunks end at a line boundary where one exists inside the target size, else inside the
maximum size, else at the last scalar boundary that does not cut a CRLF pair.
-/

namespace Qzt

open Foundation

/-- `b'\n'`. -/
def lf : UInt8 := 0x0a

/-- `b'\r'`. -/
def cr : UInt8 := 0x0d

/-- `ChunkerOptions`. -/
structure ChunkerOptions where
  targetChunkSize : Nat
  maxChunkSize : Nat
  deriving DecidableEq, Repr

/-- `ChunkerOptions::validate`. -/
def ChunkerOptions.validate (self : ChunkerOptions) : Result Unit := do
  rejectIf (self.targetChunkSize = 0 ∨ self.maxChunkSize = 0) .resourceLimitExceeded
  rejectIf (self.targetChunkSize > self.maxChunkSize) .resourceLimitExceeded

/-- `NewlineMode`. -/
inductive NewlineMode where
  | none
  | lf
  | crlf
  | mixed
  deriving DecidableEq, Repr

/-- `NewlineMode::from_counts`. -/
def NewlineMode.fromCounts (lfCount crlfCount : Nat) : NewlineMode :=
  match decide (lfCount > 0), decide (crlfCount > 0) with
  | false, false => .none
  | true, false => .lf
  | false, true => .crlf
  | true, true => .mixed

/-- `NewlineMode::as_str`. -/
def NewlineMode.asStr : NewlineMode → String
  | .none => "none"
  | .lf => "lf"
  | .crlf => "crlf"
  | .mixed => "mixed"

/-- `PlannedChunk`. -/
structure PlannedChunk where
  chunkId : Nat
  logicalOffset : Nat
  uncompressedSize : Nat
  firstLine : Nat
  lineCount : Nat
  flags : Nat
  deriving DecidableEq, Repr

/-- `ChunkPlan`. -/
structure ChunkPlan where
  chunks : List PlannedChunk
  lineCount : Nat
  newlineMode : NewlineMode
  deriving DecidableEq, Repr

/-! ## Choosing the end of a chunk -/

/-- `splits_crlf`. -/
def splitsCrlf (input : List UInt8) (stop : Nat) : Bool :=
  decide (stop > 0) && decide (stop < input.length) && input[stop - 1]? == some cr &&
    input[stop]? == some lf

/-- `is_utf8_boundary`. -/
def isUtf8Boundary (input : List UInt8) (index : Nat) : Bool :=
  index == 0 || index == input.length || (input[index]?).any fun byte => !Utf8.isContinuation byte

/-- The loop of `last_line_boundary`: the position after the last LF in `[start, stop)`. -/
def lastLfEnd (input : List UInt8) (start stop : Nat) : Option Nat :=
  (List.range' start (stop - start)).foldl
    (fun boundary cursor => if input[cursor]? = some lf then some (cursor + 1) else boundary) none

/-- `last_line_boundary`. -/
def lastLineBoundary (input : List UInt8) (start stop : Nat) : Option Nat :=
  (lastLfEnd input start stop).filter fun candidate =>
    decide (candidate > start) && !splitsCrlf input candidate

/-- `previous_valid_split`. -/
def previousValidSplit (input : List UInt8) (start maxEnd : Nat) : Option Nat :=
  (List.range' (start + 1) (maxEnd - start)).reverse.find? fun candidate =>
    isUtf8Boundary input candidate && !splitsCrlf input candidate

/-- `choose_chunk_end`.  The sum `start + max_chunk_size` is an unchecked `usize` addition, which
wraps; `start + target_chunk_size` is below the length of the input. -/
def chooseChunkEnd (input : List UInt8) (start : Nat) (options : ChunkerOptions) : Result Nat :=
  let remaining := input.length - start
  if remaining ≤ options.targetChunkSize then .ok input.length
  else
    let targetEnd := start + options.targetChunkSize
    let maxEnd := min ((start + options.maxChunkSize) % 2 ^ 64) input.length
    match lastLineBoundary input start targetEnd with
    | some lineEnd => .ok lineEnd
    | none =>
      match lastLineBoundary input start maxEnd with
      | some lineEnd => .ok lineEnd
      | none => okOr .resourceLimitExceeded (previousValidSplit input start maxEnd)

/-! ## Line facts of the whole input -/

/-- `LineInfo`. -/
structure LineInfo where
  lineStarts : List Nat
  newlineMode : NewlineMode
  deriving DecidableEq, Repr

/-- An LF at `index` is the end of a CRLF pair. -/
def endsCrlf (input : List UInt8) (index : Nat) : Bool :=
  input[index]? == some lf && decide (index > 0) && input[index - 1]? == some cr

/-- An LF at `index` stands alone. -/
def endsBareLf (input : List UInt8) (index : Nat) : Bool :=
  input[index]? == some lf && !(decide (index > 0) && input[index - 1]? == some cr)

/-- `LineInfo::from_bytes`. -/
def LineInfo.fromBytes (input : List UInt8) : LineInfo :=
  if input = [] then { lineStarts := [], newlineMode := .none }
  else
    { lineStarts := 0 :: (List.range input.length).filterMap fun index =>
        if input[index]? = some lf ∧ index + 1 < input.length then some (index + 1) else none
      newlineMode := .fromCounts ((List.range input.length).countP (endsBareLf input))
        ((List.range input.length).countP (endsCrlf input)) }

/-- `lower_bound`: `partition_point` on an ascending vector. -/
def lowerBound (values : List Nat) (target : Nat) : Nat :=
  (values.takeWhile (· < target)).length

/-! ## Planning -/

/-- The loop of `plan_chunks` from `start` on, `count` chunks being planned already.  Every
iteration advances, so `fuel := input.length` never runs out before the end of the input. -/
def planLoop (input : List UInt8) (options : ChunkerOptions) (lineStarts : List Nat) :
    Nat → Nat → Nat → Result (List PlannedChunk)
  | 0, _, _ => .ok []
  | fuel + 1, count, start =>
    if start < input.length then do
      let next ← okOr .resourceLimitExceeded (checkedAdd count 1)
      ResourceLimits.default.enforceChunkTableEntries next
      let stop ← chooseChunkEnd input start options
      rejectIf (stop ≤ start) .resourceLimitExceeded
      let firstLine := lowerBound lineStarts start
      let lineEnd := lowerBound lineStarts stop
      let flags := if start > 0 ∧ input[start - 1]? ≠ some lf then startsWithLineContinuation else 0
      let chunkId ← usizeToU64 count
      let logicalOffset ← usizeToU64 start
      let uncompressedSize ← usizeToU64 (stop - start)
      let firstLineU64 ← usizeToU64 firstLine
      let lineCount ← usizeToU64 (lineEnd - firstLine)
      let chunk : PlannedChunk :=
        { chunkId, logicalOffset, uncompressedSize, firstLine := firstLineU64, lineCount, flags }
      let chunks ← planLoop input options lineStarts fuel (count + 1) stop
      return chunk :: chunks
    else
      .ok []

/-- `plan_chunks`. -/
def planChunks (input : List UInt8) (options : ChunkerOptions) : Result ChunkPlan := do
  options.validate
  rejectIf ((fromUtf8 input).isNone = true) .invalidUtf8
  let lineInfo := LineInfo.fromBytes input
  if input = [] then
    return { chunks := [], lineCount := 0, newlineMode := lineInfo.newlineMode }
  else
    let chunks ← planLoop input options lineInfo.lineStarts input.length 0 0
    let lineCount ← usizeToU64 lineInfo.lineStarts.length
    return { chunks, lineCount, newlineMode := lineInfo.newlineMode }

end Qzt
