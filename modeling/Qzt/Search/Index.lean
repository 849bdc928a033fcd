import Qzt.Foundation.Leb128
import Qzt.Reader.Readers

/-!
# Line indexes (`search.rs`)

Granules, term dictionaries and posting lists, and the two indexes made of them.
Floating-point and time metrics are left out here and in the modules that follow, and
allocation is taken to succeed.
-/

namespace Qzt

open Foundation

/-! ## Options and limits -/

/-- `SearchIndexSource`. -/
inductive SearchIndexSource where
  | rawUtf8
  | normalizedUtf8
  deriving DecidableEq, Repr

/-- `PostingGranularity`. -/
inductive PostingGranularity where
  | line
  deriving DecidableEq, Repr

/-- `IndexBuildLimits`. -/
structure IndexBuildLimits where
  maxGranules : Nat
  maxDistinctKeys : Nat
  maxPostingIds : Nat
  maxKeyBytes : Nat
  maxEncodedBytes : Nat
  deriving DecidableEq, Repr

/-- `IndexBuildLimits::default`. -/
def IndexBuildLimits.default : IndexBuildLimits where
  maxGranules := 1000000
  maxDistinctKeys := 262144
  maxPostingIds := 8000000
  maxKeyBytes := 16 * 1024 * 1024
  maxEncodedBytes := 128 * 1024 * 1024

/-- `charge_build`: the new value of the counter. -/
def chargeBuild (value amount limit : Nat) : Result Nat := do
  let next ← okOr .resourceLimitExceeded (checkedAdd value amount)
  rejectIf (next > limit) .resourceLimitExceeded
  return next

/-- `SearchGranule`. -/
structure SearchGranule where
  granuleId : Nat
  logicalOffset : Nat
  byteLength : Nat
  chunkStart : Nat
  chunkEnd : Nat
  firstLine : Option Nat
  lineCount : Option Nat
  deriving DecidableEq, Repr

/-- `compact_line_granules_supported`, from position `index` on. -/
def compactLineGranulesSupported : Nat → List SearchGranule → Bool
  | _, [] => true
  | index, granule :: granules =>
    decide (granule.granuleId = index ∧ granule.firstLine = some index ∧ granule.lineCount = some 1 ∧
      granule.byteLength < 2 ^ 32 ∧ granule.chunkStart < 2 ^ 32 ∧
      granule.chunkEnd - granule.chunkStart < 2 ^ 32) &&
      compactLineGranulesSupported (index + 1) granules

/-- `TermDictionaryEntry`. -/
structure TermDictionaryEntry where
  key : List UInt8
  keyHash : List.Vector UInt8 16
  documentFrequency : Nat
  granuleFrequency : Nat
  postingOffset : Nat
  postingSize : Nat
  skipOffset : Nat
  skipSize : Nat
  flags : Nat
  deriving DecidableEq

/-- `key_hash`. -/
def keyHash (env : Env) (key : List UInt8) : List.Vector UInt8 16 :=
  digestPrefix16 (env.blake3.hash key)

/-- A loop that charges one counter with an amount for every element. -/
def chargeAll {α : Type} (amount : α → Result Nat) (limit : Nat) : List α → Nat → Result Nat
  | [], value => .ok value
  | a :: as, value => do
    let value ← chargeBuild value (← amount a) limit
    chargeAll amount limit as value

/-- `IndexBuildLimits::check_parts`. -/
def IndexBuildLimits.checkParts (self : IndexBuildLimits) (granules : List SearchGranule)
    (terms : List TermDictionaryEntry) (postings : List (List Nat)) : Result Unit := do
  let _ ← chargeBuild 0 (← usizeToU64 granules.length) self.maxGranules
  let _ ← chargeBuild 0 (← usizeToU64 terms.length) self.maxDistinctKeys
  let _ ← chargeAll (fun term => usizeToU64 (TermDictionaryEntry.key term).length)
    self.maxKeyBytes terms 0
  let _ ← chargeAll (fun list => usizeToU64 (List.length list)) self.maxPostingIds postings 0

/-- `TokenIndexBuildOptions`. -/
structure TokenIndexBuildOptions where
  source : SearchIndexSource := .rawUtf8
  postingGranularity : PostingGranularity := .line
  maxLineBytes : Nat := 16 * 1024 * 1024
  limits : IndexBuildLimits := .default
  deriving DecidableEq, Repr

/-- `NgramIndexBuildOptions`. -/
structure NgramIndexBuildOptions where
  source : SearchIndexSource := .rawUtf8
  postingGranularity : PostingGranularity := .line
  maxLineBytes : Nat := 16 * 1024 * 1024
  limits : IndexBuildLimits := .default
  n : Nat := 3
  complete : Bool := true
  highDfPerMillion : Nat := 200000
  deriving DecidableEq, Repr

/-! ## Posting lists -/

/-- `write_varuint`. -/
def writeVaruint (value : Nat) : List UInt8 :=
  leb128 value

/-- `varuint_len`. -/
def varuintLen (value : Nat) : Nat :=
  leb128Length value

/-- The loop of `read_varuint`: `consumed` holds the bytes from `start` to the cursor.  The shift
never reaches 64, and bits shifted out of the word are lost. -/
def readVaruintLoop : List UInt8 → Nat → Nat → List UInt8 → Result (Nat × List UInt8)
  | [], _, _, _ => .error .unexpectedEof
  | byte :: rest, value, shift, consumed => do
    let value := value + byte.toNat % 128 * 2 ^ shift % 2 ^ 64
    if byte.toNat < 128 then
      rejectIf (writeVaruint value ≠ consumed ++ [byte]) .containerCorrupt
      return (value, rest)
    else if shift + 7 > 63 then
      .error .containerCorrupt
    else
      readVaruintLoop rest value (shift + 7) (consumed ++ [byte])

/-- `read_varuint`: the value and the rest of the input. -/
def readVaruint (bytes : List UInt8) : Result (Nat × List UInt8) :=
  readVaruintLoop bytes 0 0 []

/-- The delta that is written for `value` after `previous`. -/
def postingDelta (previous : Option Nat) (value : Nat) : Result Nat :=
  match previous with
  | none => .ok value
  | some previous => do
    rejectIf (value ≤ previous) .containerCorrupt
    okOr .containerCorrupt (checkedSub value previous)

/-- The loop of `encode_delta_varint_u64`. -/
def encodeDeltas : Option Nat → List Nat → Result (List UInt8)
  | _, [] => .ok []
  | previous, value :: values => do
    let delta ← postingDelta previous value
    let bytes ← encodeDeltas (some value) values
    return writeVaruint delta ++ bytes

/-- `encode_delta_varint_u64`. -/
def encodeDeltaVarintU64 (values : List Nat) : Result (List UInt8) :=
  encodeDeltas none values

/-- The loop of `encoded_delta_varint_size`. -/
def deltasSize : Option Nat → List Nat → Nat → Result Nat
  | _, [], size => .ok size
  | previous, value :: values, size => do
    let delta ← postingDelta previous value
    let size ← okOr .resourceLimitExceeded (checkedAdd size (← usizeToU64 (varuintLen delta)))
    deltasSize (some value) values size

/-- `encoded_delta_varint_size`. -/
def encodedDeltaVarintSize (values : List Nat) : Result Nat :=
  deltasSize none values 0

/-- The value that `delta` stands for after `previous`. -/
def postingValue (previous : Option Nat) (delta : Nat) : Result Nat :=
  match previous with
  | none => .ok delta
  | some previous => do
    let value ← okOr .containerCorrupt (checkedAdd previous delta)
    rejectIf (value ≤ previous) .containerCorrupt
    return value

/-- The loop of `decode_delta_varint_u64_with_limit` after `count` values.  Every round reads at
least one byte, so `fuel` is the number of bytes left. -/
def decodeDeltas (maxValues : Nat) :
    Nat → Nat → Option Nat → List UInt8 → Result (List Nat)
  | 0, _, _, _ => .ok []
  | fuel + 1, count, previous, bytes =>
    if bytes = [] then .ok []
    else do
      rejectIf ((← usizeToU64 count) ≥ maxValues) .resourceLimitExceeded
      let (delta, rest) ← readVaruint bytes
      let value ← postingValue previous delta
      let values ← decodeDeltas maxValues fuel (count + 1) (some value) rest
      return value :: values

/-- `decode_delta_varint_u64_with_limit`. -/
def decodeDeltaVarintU64WithLimit (bytes : List UInt8) (maxValues : Nat) : Result (List Nat) :=
  decodeDeltas maxValues bytes.length 0 none bytes

/-- `SkipPoint`. -/
structure SkipPoint where
  entryIndex : Nat
  granuleId : Nat
  postingByteOffset : Nat
  deriving DecidableEq, Repr

/-- The loop of `build_skip_points` at position `index` of the list and `cursor` of the bytes. -/
def skipPointLoop : Nat → Nat → Option Nat → List Nat → List UInt8 → Result (List SkipPoint)
  | _, _, _, [], rest => do
    rejectIf (rest ≠ []) .containerCorrupt
    return []
  | index, cursor, previous, granuleId :: postings, rest => do
    let byteOffset ← usizeToU64 cursor
    let entryIndex ← if index > 0 ∧ index % 128 = 0 then usizeToU64 index else pure 0
    let (delta, next) ← readVaruint rest
    let decoded ← match previous with
      | none => pure delta
      | some previous => okOr .containerCorrupt (checkedAdd previous delta)
    rejectIf (decoded ≠ granuleId) .containerCorrupt
    let points ← skipPointLoop (index + 1) (cursor + (rest.length - next.length)) (some decoded)
      postings next
    if index > 0 ∧ index % 128 = 0 then
      return { entryIndex, granuleId, postingByteOffset := byteOffset } :: points
    else
      return points

/-- `build_skip_points`. -/
def buildSkipPoints (postingList : List Nat) (encoded : List UInt8) : Result (List SkipPoint) :=
  if postingList.length < 1024 then .ok []
  else skipPointLoop 0 0 none postingList encoded

/-- The bytes charged for one posting list and its skip points. -/
def chargePostingList (withSkips : Bool) (maxEncodedBytes : Nat) (size : Nat) (list : List Nat) :
    Result Nat := do
  let size ← chargeBuild size (← encodedDeltaVarintSize list) maxEncodedBytes
  if withSkips = true ∧ list.length ≥ 1024 then
    let skips ← okOr .resourceLimitExceeded
      (checkedMul (← usizeToU64 ((list.length - 1) / 128)) 24)
    chargeBuild size skips maxEncodedBytes
  else
    return size

/-- The first loop of `encode_posting_lists`. -/
def chargePostingLists (withSkips : Bool) (maxEncodedBytes : Nat) :
    List (List Nat) → Nat → Result Nat
  | [], size => .ok size
  | list :: lists, size => do
    let size ← chargePostingList withSkips maxEncodedBytes size list
    chargePostingLists withSkips maxEncodedBytes lists size

/-- `EncodedPostingLists`, with the terms it changes. -/
structure EncodedPostingLists where
  terms : List TermDictionaryEntry
  postings : List (List UInt8)
  skips : List (List SkipPoint)
  deriving DecidableEq

/-- The second loop of `encode_posting_lists`. -/
def encodePostingLoop (withSkips : Bool) :
    List TermDictionaryEntry → List (List Nat) → Nat → Nat → Result EncodedPostingLists
  | term :: terms, list :: lists, postingOffset, skipOffset => do
    let encoded ← encodeDeltaVarintU64 list
    let skips ← if withSkips then buildSkipPoints list encoded else pure []
    let granuleFrequency ← usizeToU64 list.length
    let postingSize ← usizeToU64 encoded.length
    let skipSize ← okOr .resourceLimitExceeded (checkedMul (← usizeToU64 skips.length) 24)
    let term := { term with documentFrequency := 0, granuleFrequency, postingOffset, postingSize,
                            skipOffset, skipSize }
    let postingOffset ← okOr .resourceLimitExceeded (checkedAdd postingOffset postingSize)
    let skipOffset ← okOr .resourceLimitExceeded (checkedAdd skipOffset skipSize)
    let rest ← encodePostingLoop withSkips terms lists postingOffset skipOffset
    return { terms := term :: rest.terms, postings := encoded :: rest.postings,
             skips := if withSkips then skips :: rest.skips else rest.skips }
  | terms, _, _, _ => .ok { terms, postings := [], skips := [] }

/-- `encode_posting_lists`. -/
def encodePostingLists (terms : List TermDictionaryEntry) (postings : List (List Nat))
    (withSkips : Bool) (maxEncodedBytes : Nat) : Result EncodedPostingLists := do
  let _ ← chargePostingLists withSkips maxEncodedBytes postings 0
  encodePostingLoop withSkips terms postings 0 0

/-! ## Validation -/

/-- The loop of `validate_granules`. -/
def validateGranulesLoop (sourceSizeBytes : Nat) :
    Nat → Option Nat → List SearchGranule → Result Unit
  | _, _, [] => .ok ⟨⟩
  | index, previousOffset, granule :: granules => do
    rejectIf (granule.granuleId ≠ index) .containerCorrupt
    let stop ← checkedLogicalEnd granule.logicalOffset granule.byteLength
    rejectIf (stop > sourceSizeBytes) .logicalRangeOutOfBounds
    rejectIf (∃ previous ∈ previousOffset, granule.logicalOffset < previous) .containerCorrupt
    rejectIf (granule.chunkEnd < granule.chunkStart) .chunkTableInvalid
    validateGranulesLoop sourceSizeBytes (index + 1) (some granule.logicalOffset) granules

/-- `validate_granules`. -/
def validateGranules (sourceSizeBytes : Nat) (granules : List SearchGranule) : Result Unit :=
  validateGranulesLoop sourceSizeBytes 0 none granules

/-- The checks of `validate_term_dictionary_shape` on one term. -/
def validateTermShape (granuleCount : Nat) (term : TermDictionaryEntry × List Nat) :
    Result Unit := do
  rejectIf (term.1.flags ≠ 0) .invalidFlags
  rejectIf (¬ term.2.IsChain (· < ·)) .containerCorrupt
  checkAll (fun granuleId => do
    let granuleIndex ← u64ToUsize granuleId
    rejectIf (granuleIndex ≥ granuleCount) .containerCorrupt) term.2

/-- `validate_term_dictionary_shape`. -/
def validateTermDictionaryShape (terms : List TermDictionaryEntry) (postings : List (List Nat))
    (granuleCount : Nat) : Result Unit := do
  rejectIf (terms.length ≠ postings.length) .containerCorrupt
  rejectIf (¬ (terms.map TermDictionaryEntry.key).IsChain (· < ·)) .containerCorrupt
  checkAll (validateTermShape granuleCount) (terms.zip postings)

/-! ## The indexes -/

/-- `RawTokenIndex`. -/
structure RawTokenIndex where
  containerId : ContainerId
  sourceSizeBytes : Nat
  source : SearchIndexSource
  postingGranularity : PostingGranularity
  complete : Bool
  granules : List SearchGranule
  terms : List TermDictionaryEntry
  postings : List (List Nat)
  encodedPostings : List (List UInt8)
  deriving DecidableEq

/-- `RawTokenIndex::from_parts`. -/
def RawTokenIndex.fromParts (containerId : ContainerId) (sourceSizeBytes : Nat)
    (granules : List SearchGranule) (terms : List TermDictionaryEntry) (postings : List (List Nat))
    (limits : IndexBuildLimits) : Result RawTokenIndex := do
  limits.checkParts granules terms postings
  validateGranules sourceSizeBytes granules
  validateTermDictionaryShape terms postings granules.length
  let encoded ← encodePostingLists terms postings false limits.maxEncodedBytes
  return { containerId, sourceSizeBytes, source := .rawUtf8, postingGranularity := .line,
           complete := true, granules, terms := encoded.terms, postings,
           encodedPostings := encoded.postings }

/-- `NgramUnit`. -/
inductive NgramUnit where
  | unicodeScalar
  deriving DecidableEq, Repr

/-- `NgramDeclaration`. -/
structure NgramDeclaration where
  n : Nat
  unit : NgramUnit
  normalization : String
  caseFold : Bool
  boundaryMode : String
  boundaryWindowBytes : Nat
  deriving DecidableEq, Repr

/-- `PlannerConfig`. -/
structure PlannerConfig where
  maxCandidateGranulesDefault : Nat := 10000
  maxDecodedBytesDefault : Nat := 256 * 1024 * 1024
  highDfPerMillion : Nat := 200000
  deriving DecidableEq, Repr

/-- `RawNgramIndex`. -/
structure RawNgramIndex where
  containerId : ContainerId
  sourceSizeBytes : Nat
  source : SearchIndexSource
  postingGranularity : PostingGranularity
  complete : Bool
  declaration : NgramDeclaration
  plannerConfig : PlannerConfig
  granules : List SearchGranule
  terms : List TermDictionaryEntry
  postings : List (List Nat)
  skipData : List (List SkipPoint)
  encodedPostings : List (List UInt8)
  deriving DecidableEq

/-- `RawNgramIndex::from_parts`. -/
def RawNgramIndex.fromParts (containerId : ContainerId) (sourceSizeBytes : Nat)
    (granules : List SearchGranule) (terms : List TermDictionaryEntry) (postings : List (List Nat))
    (options : NgramIndexBuildOptions) : Result RawNgramIndex := do
  rejectIf (options.n = 0) .resourceLimitExceeded
  options.limits.checkParts granules terms postings
  validateGranules sourceSizeBytes granules
  validateTermDictionaryShape terms postings granules.length
  let encoded ← encodePostingLists terms postings true options.limits.maxEncodedBytes
  return { containerId, sourceSizeBytes, source := .rawUtf8, postingGranularity := .line,
           complete := options.complete
           declaration := { n := options.n, unit := .unicodeScalar, normalization := "none",
                            caseFold := false, boundaryMode := "adjacent_decode",
                            boundaryWindowBytes := 4096 }
           plannerConfig := { highDfPerMillion := options.highDfPerMillion }
           granules, terms := encoded.terms, postings, skipData := encoded.skips,
           encodedPostings := encoded.postings }

end Qzt
