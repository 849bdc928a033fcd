import Qzt.Search.Build
import Qzt.Sidecar.Manifest

/-!
# The sidecar sections (`sidecar.rs`)

The codecs of the granule, term and posting sections.  A decoder reads through a cursor
into the whole section and is bounded by the reader's limits.
-/

namespace Qzt.Sidecar

open Foundation

/-! ## Cursors -/

/-- `read_exact`: the bytes and the cursor behind them. -/
def readExact (bytes : List UInt8) (cursor len : Nat) : Result (List UInt8 × Nat) := do
  let stop ← okOr .resourceLimitExceeded (checkedAdd cursor len)
  let found ← okOr .unexpectedEof (getRange? bytes cursor stop)
  return (found, stop)

/-- `read_u64_cursor`. -/
def readU64Cursor (bytes : List UInt8) (cursor : Nat) : Result (Nat × Nat) := do
  let (found, cursor) ← readExact bytes cursor 8
  return (← readLe 8 found, cursor)

/-- `read_u32_cursor`. -/
def readU32Cursor (bytes : List UInt8) (cursor : Nat) : Result (Nat × Nat) := do
  let (found, cursor) ← readExact bytes cursor 4
  return (← readLe 4 found, cursor)

/-- The loop of `read_varuint` with `rounds` bytes left to try. -/
def readVaruintLoop (bytes : List UInt8) (start : Nat) : Nat → Nat → Nat → Nat → Result (Nat × Nat)
  | 0, _, _, _ => .error .containerCorrupt
  | rounds + 1, shift, value, cursor => do
    let (found, cursor) ← readExact bytes cursor 1
    let byte ← okOr .unexpectedEof found.head?
    let payload := byte.toNat % 128
    rejectIf (shift = 63 ∧ payload > 1) .containerCorrupt
    let value := value + payload * 2 ^ shift
    if byte.toNat < 128 then
      rejectIf ((writeVaruint value).length ≠ cursor - start) .containerCorrupt
      return (value, cursor)
    else
      readVaruintLoop bytes start rounds (shift + 7) value cursor

/-- `read_varuint`. -/
def readVaruint (bytes : List UInt8) (cursor : Nat) : Result (Nat × Nat) :=
  readVaruintLoop bytes cursor 10 0 0 cursor

/-! ## Granules -/

/-- `none_if_max`. -/
def noneIfMax (value : Nat) : Option Nat :=
  if value ≠ 2 ^ 64 - 1 then some value else none

/-- One record of `encode_granules`. -/
def encodeGranule (encoding : GranuleEncoding) (granule : SearchGranule) : Result (List UInt8) :=
  match encoding with
  | .legacyV1 =>
    .ok (leBytes 8 granule.granuleId ++ leBytes 8 granule.logicalOffset ++
      leBytes 8 granule.byteLength ++ leBytes 8 granule.chunkStart ++ leBytes 8 granule.chunkEnd ++
      leBytes 8 (granule.firstLine.getD (2 ^ 64 - 1)) ++
      leBytes 8 (granule.lineCount.getD (2 ^ 64 - 1)))
  | .lineImpliedV2 => do
    rejectIf (granule.byteLength ≥ 2 ^ 32) .resourceLimitExceeded
    rejectIf (granule.chunkStart ≥ 2 ^ 32) .resourceLimitExceeded
    let span ← okOr .chunkTableInvalid (checkedSub granule.chunkEnd granule.chunkStart)
    rejectIf (span ≥ 2 ^ 32) .resourceLimitExceeded
    return leBytes 8 granule.logicalOffset ++ leBytes 4 granule.byteLength ++
      leBytes 4 granule.chunkStart ++ leBytes 4 span

/-- `encode_granules`. -/
def encodeGranules (granules : List SearchGranule) (encoding : GranuleEncoding) :
    Result (List UInt8) := do
  let count ← usizeToU64 granules.length
  let records ← collect (encodeGranule encoding) granules
  return leBytes 8 count ++ records.flatten

/-- The fields of a legacy record. -/
def decodeLegacyGranule (bytes : List UInt8) : Result (SearchGranule × Nat) := do
  let (granuleId, cursor) ← readU64Cursor bytes 0
  let (logicalOffset, cursor) ← readU64Cursor bytes cursor
  let (byteLength, cursor) ← readU64Cursor bytes cursor
  let (chunkStart, cursor) ← readU64Cursor bytes cursor
  let (chunkEnd, cursor) ← readU64Cursor bytes cursor
  let (firstLine, cursor) ← readU64Cursor bytes cursor
  let (lineCount, cursor) ← readU64Cursor bytes cursor
  return ({ granuleId, logicalOffset, byteLength, chunkStart, chunkEnd,
            firstLine := noneIfMax firstLine, lineCount := noneIfMax lineCount }, cursor)

/-- The fields of a compact record. -/
def decodeCompactGranule (bytes : List UInt8) (expectedGranuleId : Nat) :
    Result (SearchGranule × Nat) := do
  let (logicalOffset, cursor) ← readU64Cursor bytes 0
  let (byteLength, cursor) ← readU32Cursor bytes cursor
  let (chunkStart, cursor) ← readU32Cursor bytes cursor
  let (chunkSpan, cursor) ← readU32Cursor bytes cursor
  let chunkEnd ← okOr .resourceLimitExceeded (checkedAdd chunkStart chunkSpan)
  return ({ granuleId := expectedGranuleId, logicalOffset, byteLength, chunkStart, chunkEnd,
            firstLine := some expectedGranuleId, lineCount := some 1 }, cursor)

/-- `decode_granule_record`. -/
def decodeGranuleRecord (bytes : List UInt8) (expectedGranuleId : Nat) (encoding : GranuleEncoding) :
    Result SearchGranule := do
  let (granule, cursor) ← match encoding with
    | .legacyV1 => decodeLegacyGranule bytes
    | .lineImpliedV2 => decodeCompactGranule bytes expectedGranuleId
  rejectIf (cursor ≠ bytes.length ∨ granule.granuleId ≠ expectedGranuleId) .containerCorrupt
  return granule

/-- The loop of `decode_granules` over `count` records. -/
def decodeGranulesLoop (bytes : List UInt8) (encoding : GranuleEncoding) :
    Nat → Nat → Nat → Result (List SearchGranule × Nat)
  | 0, _, cursor => .ok ([], cursor)
  | count + 1, granuleId, cursor => do
    let (record, cursor) ← readExact bytes cursor encoding.recordLen
    let granule ← decodeGranuleRecord record granuleId encoding
    let (granules, cursor) ← decodeGranulesLoop bytes encoding count (granuleId + 1) cursor
    return (granule :: granules, cursor)

/-- `decode_granules`. -/
def decodeGranules (bytes : List UInt8) (encoding : GranuleEncoding) (limits : SidecarLimits) :
    Result (List SearchGranule) := do
  let (count, cursor) ← readU64Cursor bytes 0
  rejectIf (count > limits.maxGranuleCount) .resourceLimitExceeded
  let records ← okOr .resourceLimitExceeded (checkedMul count encoding.recordLen)
  let expectedLen ← okOr .resourceLimitExceeded (checkedAdd records 8)
  rejectIf (expectedLen ≠ (← usizeToU64 bytes.length)) .containerCorrupt
  let count ← u64ToUsize count
  let (granules, cursor) ← decodeGranulesLoop bytes encoding count 0 cursor
  rejectIf (cursor ≠ bytes.length) .containerCorrupt
  return granules

/-! ## Terms -/

/-- One record of `encode_terms`. -/
def encodeTerm (encoding : TermEncoding) (term : TermDictionaryEntry) : List UInt8 :=
  match encoding with
  | .legacyV1 =>
    leBytes 8 term.key.length ++ term.key ++ term.keyHash.toList ++ leBytes 8 term.documentFrequency ++
      leBytes 8 term.granuleFrequency ++ leBytes 8 term.postingOffset ++ leBytes 8 term.postingSize ++
      leBytes 8 term.skipOffset ++ leBytes 8 term.skipSize ++ leBytes 8 term.flags
  | .compactV2 =>
    writeVaruint term.key.length ++ term.key ++ writeVaruint term.granuleFrequency ++
      writeVaruint term.postingSize

/-- `encode_terms`. -/
def encodeTerms (terms : List TermDictionaryEntry) (encoding : TermEncoding) :
    Result (List UInt8) := do
  let count ← usizeToU64 terms.length
  checkAll (fun term => do let _ ← usizeToU64 (TermDictionaryEntry.key term).length) terms
  return leBytes 8 count ++ (terms.map (encodeTerm encoding)).flatten

/-- A legacy record of `decode_terms`. -/
def decodeLegacyTerm (bytes : List UInt8) (cursor : Nat) : Result (TermDictionaryEntry × Nat) := do
  let (keyLen, cursor) ← readU64Cursor bytes cursor
  let keyLen ← u64ToUsize keyLen
  rejectIf (keyLen = 0) .containerCorrupt
  let (key, cursor) ← readExact bytes cursor keyLen
  let (hashBytes, cursor) ← readExact bytes cursor 16
  let keyHash ← okOr .unexpectedEof (tryIntoArray 16 hashBytes)
  let (documentFrequency, cursor) ← readU64Cursor bytes cursor
  let (granuleFrequency, cursor) ← readU64Cursor bytes cursor
  let (postingOffset, cursor) ← readU64Cursor bytes cursor
  let (postingSize, cursor) ← readU64Cursor bytes cursor
  let (skipOffset, cursor) ← readU64Cursor bytes cursor
  let (skipSize, cursor) ← readU64Cursor bytes cursor
  let (flags, cursor) ← readU64Cursor bytes cursor
  return ({ key, keyHash, documentFrequency, granuleFrequency, postingOffset, postingSize,
            skipOffset, skipSize, flags }, cursor)

/-- A compact record of `decode_terms`; the posting offset is the sum of the sizes before. -/
def decodeCompactTerm (env : Env) (bytes : List UInt8) (cursor postingOffset : Nat) :
    Result (TermDictionaryEntry × Nat) := do
  let (keyLen, cursor) ← readVaruint bytes cursor
  let keyLen ← u64ToUsize keyLen
  rejectIf (keyLen = 0) .containerCorrupt
  let (key, cursor) ← readExact bytes cursor keyLen
  let (granuleFrequency, cursor) ← readVaruint bytes cursor
  let (postingSize, cursor) ← readVaruint bytes cursor
  return ({ blankTerm env key with granuleFrequency, postingOffset, postingSize }, cursor)

/-- The checks of `decode_terms` on one record. -/
def checkDecodedTerm (env : Env) (encoding : TermEncoding) (previous : Option (List UInt8))
    (term : TermDictionaryEntry) : Result Unit :=
  rejectIf (term.granuleFrequency = 0 ∨ term.postingSize = 0 ∨ term.flags ≠ 0 ∨
    (encoding = .legacyV1 ∧ term.keyHash ≠ keyHash env term.key) ∨
    (∃ key ∈ previous, ¬ key < term.key)) .containerCorrupt

/-- The loop of `decode_terms` over `count` records. -/
def decodeTermsLoop (env : Env) (bytes : List UInt8) (encoding : TermEncoding) :
    Nat → Nat → Nat → Option (List UInt8) → Result (List TermDictionaryEntry × Nat)
  | 0, cursor, _, _ => .ok ([], cursor)
  | count + 1, cursor, postingOffset, previous => do
    let (term, cursor) ← match encoding with
      | .legacyV1 => decodeLegacyTerm bytes cursor
      | .compactV2 => decodeCompactTerm env bytes cursor postingOffset
    let postingOffset ← match encoding with
      | .legacyV1 => .ok postingOffset
      | .compactV2 => okOr .resourceLimitExceeded (checkedAdd postingOffset term.postingSize)
    checkDecodedTerm env encoding previous term
    let (terms, cursor) ← decodeTermsLoop env bytes encoding count cursor postingOffset (some term.key)
    return (term :: terms, cursor)

/-- The least size of a term record. -/
def TermEncoding.minimumRecordLen : TermEncoding → Nat
  | .legacyV1 => 80
  | .compactV2 => 3

/-- `decode_terms`. -/
def decodeTerms (env : Env) (bytes : List UInt8) (encoding : TermEncoding) (limits : SidecarLimits) :
    Result (List TermDictionaryEntry) := do
  rejectIf ((← usizeToU64 bytes.length) > limits.maxTermsSize) .resourceLimitExceeded
  let (count, cursor) ← readU64Cursor bytes 0
  rejectIf (count > limits.maxTermCount) .resourceLimitExceeded
  let available ← usizeToU64 (bytes.length - cursor)
  rejectIf (count > available / encoding.minimumRecordLen) .containerCorrupt
  let count ← u64ToUsize count
  let (terms, cursor) ← decodeTermsLoop env bytes encoding count cursor 0 none
  rejectIf (cursor ≠ bytes.length) .containerCorrupt
  return terms

/-! ## Postings -/

/-- `encode_posting_section`. -/
def encodePostingSection (postings : List (List Nat)) : Result (List UInt8) := do
  let lists ← collect encodeDeltaVarintU64 postings
  return lists.flatten

/-- The loop of `decode_posting_section`. -/
def decodePostingLoop (bytes : List UInt8) (maxPostingListSize : Nat) :
    List TermDictionaryEntry → Nat → Result (List (List Nat))
  | [], _ => .ok []
  | term :: terms, remainingIds => do
    rejectIf (term.postingSize > maxPostingListSize) .resourceLimitExceeded
    let start ← u64ToUsize term.postingOffset
    let stop ← okOr .resourceLimitExceeded (checkedAdd start (← u64ToUsize term.postingSize))
    let encoded ← okOr .unexpectedEof (getRange? bytes start stop)
    let posting ← decodeDeltaVarintU64WithLimit encoded remainingIds
    let remainingIds ← okOr .resourceLimitExceeded
      (checkedSub remainingIds (← usizeToU64 posting.length))
    let postings ← decodePostingLoop bytes maxPostingListSize terms remainingIds
    return posting :: postings

/-- `decode_posting_section`. -/
def decodePostingSection (bytes : List UInt8) (terms : List TermDictionaryEntry)
    (limits : SidecarLimits) : Result (List (List Nat)) := do
  rejectIf ((← usizeToU64 bytes.length) > limits.maxPostingsSize) .resourceLimitExceeded
  decodePostingLoop bytes limits.maxPostingListSize terms limits.maxDecodedPostingIds

/-! ## Checks across sections -/

/-- The loop of `validate_file_term_dictionary`. -/
def validateFileTerms (env : Env) (encoding : TermEncoding) (granuleCount : Nat) :
    List TermDictionaryEntry → Nat → Nat → Result Nat
  | [], expectedPostingOffset, _ => .ok expectedPostingOffset
  | term :: terms, expectedPostingOffset, expectedSkipOffset => do
    rejectIf (term.key = [] ∨ (encoding = .legacyV1 ∧ term.keyHash ≠ keyHash env term.key))
      .containerCorrupt
    rejectIf (term.flags ≠ 0) .invalidFlags
    rejectIf (term.documentFrequency ≠ 0 ∨ term.granuleFrequency = 0 ∨
      term.granuleFrequency > granuleCount ∨ term.postingSize = 0) .containerCorrupt
    rejectIf (term.postingOffset ≠ expectedPostingOffset ∨
      (encoding = .legacyV1 ∧ (term.skipOffset ≠ expectedSkipOffset ∨ term.skipSize % 24 ≠ 0)) ∨
      (encoding = .compactV2 ∧ (term.skipOffset ≠ 0 ∨ term.skipSize ≠ 0))) .containerCorrupt
    let expectedPostingOffset ← okOr .resourceLimitExceeded
      (checkedAdd expectedPostingOffset term.postingSize)
    let expectedSkipOffset ← okOr .resourceLimitExceeded (checkedAdd expectedSkipOffset term.skipSize)
    validateFileTerms env encoding granuleCount terms expectedPostingOffset expectedSkipOffset

/-- `validate_file_term_dictionary`. -/
def validateFileTermDictionary (env : Env) (terms : List TermDictionaryEntry) (postingsSize : Nat)
    (encoding : TermEncoding) (granuleCount : Nat) : Result Unit := do
  let expectedPostingOffset ← validateFileTerms env encoding granuleCount terms 0 0
  rejectIf (¬ (terms.map TermDictionaryEntry.key).IsChain (· < ·) ∨
    expectedPostingOffset ≠ postingsSize) .containerCorrupt

/-- `validate_decoded_postings`. -/
def validateDecodedPostings (terms : List TermDictionaryEntry) (postings : List (List Nat))
    (granuleCount : Nat) : Result Unit := do
  rejectIf (terms.length ≠ postings.length) .containerCorrupt
  let granuleCount ← usizeToU64 granuleCount
  checkAll (fun pair : TermDictionaryEntry × List Nat => do
    rejectIf (pair.1.granuleFrequency ≠ (← usizeToU64 pair.2.length) ∨
      ∃ granuleId ∈ pair.2, granuleId ≥ granuleCount) .containerCorrupt) (terms.zip postings)

/-! ## The size of a build -/

/-- The sizes that `check_build_section_size` adds for one term and its postings. -/
def termCharges (pair : TermDictionaryEntry × List Nat) : Result (List Nat) := do
  let length ← usizeToU64 pair.1.key.length
  let size ← encodedDeltaVarintSize pair.2
  return [length, varuintLen length, varuintLen pair.1.granuleFrequency,
    varuintLen pair.1.postingSize, size]

/-- `add` of `check_build_section_size`, for several amounts. -/
def addSizes (limit : Nat) : List Nat → Nat → Result Nat
  | [], size => .ok size
  | amount :: amounts, size => do
    let size ← okOr .resourceLimitExceeded (checkedAdd size amount)
    rejectIf (size > limit) .resourceLimitExceeded
    addSizes limit amounts size

/-- The term loop of `check_build_section_size`. -/
def addTermSizes (limit : Nat) : List (TermDictionaryEntry × List Nat) → Nat → Result Nat
  | [], size => .ok size
  | pair :: pairs, size => do
    let size ← addSizes limit (← termCharges pair) size
    addTermSizes limit pairs size

/-- `check_build_section_size`. -/
def checkBuildSectionSize (granules : List SearchGranule) (terms : List TermDictionaryEntry)
    (postings : List (List Nat)) (encoding : GranuleEncoding) (limit : Nat) : Result Unit := do
  let records ← okOr .resourceLimitExceeded
    (checkedMul (← usizeToU64 granules.length) encoding.recordLen)
  let size ← okOr .resourceLimitExceeded (checkedAdd records 16)
  let size ← addSizes limit [0] size
  let _ ← addTermSizes limit (terms.zip postings) size

end Qzt.Sidecar
