import Mathlib.Data.List.Sort
import Qzt.Foundation.Words
import Qzt.Format.ThirdParty

/-!
# Deterministic CBOR (`cbor.rs`)

The value model, the deterministic encoder, the budgeted parser and the writer-side
measure of the same budgets.

## Parser state

`Parser` keeps the unread input and the offset it starts at; `offset` and `rest`
together are the source's `input` and `offset`.  Recursion is on the number of nesting
levels that are still allowed, so a value below the deepest level is rejected exactly
where the source compares `depth` with `MAX_NESTING_DEPTH`.
-/

namespace Qzt

open Foundation

/-- `CborLimits`. -/
structure CborLimits where
  maxAllocation : Nat
  maxItems : Nat
  deriving DecidableEq, Repr

/-- `MAX_NESTING_DEPTH`. -/
def maxNestingDepth : Nat := 64

/-- `CborLimits::default`. -/
def CborLimits.default : CborLimits where
  maxAllocation := 16 * 1024 * 1024
  maxItems := 1000000

/-- `CborValue`. -/
inductive CborValue where
  | integer (value : Int)
  | bytes (value : List UInt8)
  | text (value : String)
  | array (values : List CborValue)
  | map (entries : List (CborValue × CborValue))
  | bool (value : Bool)
  | null

/-! ## Encoding -/

/-- `encode_type_and_argument`. -/
def encodeTypeAndArgument (major value : Nat) : List UInt8 :=
  if value ≤ 23 then [UInt8.ofNat (major * 32 + value)]
  else if value ≤ 0xff then UInt8.ofNat (major * 32 + 0x18) :: beBytes 1 value
  else if value ≤ 0xffff then UInt8.ofNat (major * 32 + 0x19) :: beBytes 2 value
  else if value ≤ 0xffffffff then UInt8.ofNat (major * 32 + 0x1a) :: beBytes 4 value
  else UInt8.ofNat (major * 32 + 0x1b) :: beBytes 8 value

/-- The order `encoded_entries.sort_by` uses: by key bytes. -/
def keyLe (left right : List UInt8 × List UInt8) : Prop :=
  ¬ right.1 < left.1

instance : DecidableRel keyLe := fun left right => inferInstanceAs (Decidable (¬ right.1 < left.1))

/-- Two neighbours with one key. -/
def hasAdjacentDuplicate : List (List UInt8 × List UInt8) → Bool
  | a :: b :: rest => a.1 == b.1 || hasAdjacentDuplicate (b :: rest)
  | _ => false

/-- The `u64` argument of an integer and its major type. -/
def integerArgument (value : Int) : Option (Nat × Nat) :=
  if 0 ≤ value then
    if value.toNat < 2 ^ 64 then some (0, value.toNat) else none
  else
    if (-(value + 1)).toNat < 2 ^ 64 then some (1, (-(value + 1)).toNat) else none

/-- The body of an encoded map: entries sorted by key bytes, no key twice. -/
def encodeSortedEntries (entries : List (List UInt8 × List UInt8)) : Result (List UInt8) := do
  let sorted := entries.insertionSort keyLe
  rejectIf (hasAdjacentDuplicate sorted = true) .duplicateCborKey
  return sorted.flatMap fun entry => entry.1 ++ entry.2

mutual

/-- `encode_value`: the bytes it appends to its output. -/
def encodeValue : CborValue → Result (List UInt8)
  | .integer value => do
    let (major, argument) ← okOr .resourceLimitExceeded (integerArgument value)
    return encodeTypeAndArgument major argument
  | .bytes bytes => do
    return encodeTypeAndArgument 2 (← usizeToU64 bytes.length) ++ bytes
  | .text text => do
    return encodeTypeAndArgument 3 (← usizeToU64 (textBytes text).length) ++ textBytes text
  | .array values => do
    let head := encodeTypeAndArgument 4 (← usizeToU64 values.length)
    return head ++ (← encodeValues values)
  | .map entries => do
    let head := encodeTypeAndArgument 5 (← usizeToU64 entries.length)
    let encodedEntries ← encodeEntries entries
    return head ++ (← encodeSortedEntries encodedEntries)
  | .bool false => return [0xf4]
  | .bool true => return [0xf5]
  | .null => return [0xf6]

/-- The elements of an array, in order. -/
def encodeValues : List CborValue → Result (List UInt8)
  | [] => return []
  | value :: values => do
    let head ← encodeValue value
    return head ++ (← encodeValues values)

/-- The entries of a map, each key and value encoded on its own. -/
def encodeEntries : List (CborValue × CborValue) → Result (List (List UInt8 × List UInt8))
  | [] => return []
  | (key, value) :: entries => do
    let keyBytes ← encodeValue key
    let valueBytes ← encodeValue value
    return (keyBytes, valueBytes) :: (← encodeEntries entries)

end

/-- `encode_deterministic`. -/
def encodeDeterministic (value : CborValue) : Result (List UInt8) :=
  encodeValue value

/-! ## Measuring -/

/-- `CborUsage`. -/
structure CborUsage where
  items : Nat := 0
  allocation : Nat := 0
  encodedBytes : Nat := 0
  deriving DecidableEq, Repr

/-- `CborUsage::add`. -/
def CborUsage.add (self other : CborUsage) : Result CborUsage := do
  let items ← okOr .resourceLimitExceeded (checkedAdd self.items other.items)
  let allocation ← okOr .resourceLimitExceeded (checkedAdd self.allocation other.allocation)
  let encodedBytes ← okOr .resourceLimitExceeded (checkedAdd self.encodedBytes other.encodedBytes)
  return { items, allocation, encodedBytes }

/-- `CborUsage::enforce`. -/
def CborUsage.enforce (self : CborUsage) (limits : CborLimits) (maxBlockBytes : Nat) :
    Result Unit :=
  rejectIf (self.items > limits.maxItems ∨ self.allocation > limits.maxAllocation ∨
    self.encodedBytes > maxBlockBytes) .resourceLimitExceeded

/-- `head_len`. -/
def headLen (value : Nat) : Nat :=
  if value ≤ 23 then 1
  else if value ≤ 0xff then 2
  else if value ≤ 0xffff then 3
  else if value ≤ 0xffffffff then 5
  else 9

/-- The usage of a byte or text string of length `len`. -/
def measureString (len : Nat) : Result CborUsage := do
  let len ← usizeToU64 len
  let encodedBytes ← okOr .resourceLimitExceeded (checkedAdd (headLen len) len)
  return { items := 1, allocation := len, encodedBytes }

mutual

/-- `measure_value`. -/
def measureValue : CborValue → Result CborUsage
  | .integer value => do
    let (_, argument) ← okOr .resourceLimitExceeded (integerArgument value)
    return { items := 1, encodedBytes := headLen argument }
  | .bytes bytes => measureString bytes.length
  | .text text => measureString (textBytes text).length
  | .array values => do
    measureValues values { items := 1, encodedBytes := headLen (← usizeToU64 values.length) }
  | .map entries => do
    measureEntries entries { items := 1, encodedBytes := headLen (← usizeToU64 entries.length) }
  | .bool _ => return { items := 1, encodedBytes := 1 }
  | .null => return { items := 1, encodedBytes := 1 }

/-- Add the children of an array to a usage. -/
def measureValues : List CborValue → CborUsage → Result CborUsage
  | [], usage => return usage
  | value :: values, usage => do
    let childUsage ← measureValue value
    let usage ← usage.add childUsage
    measureValues values usage

/-- Add the entries of a map to a usage; a key is charged a second time for its copy. -/
def measureEntries : List (CborValue × CborValue) → CborUsage → Result CborUsage
  | [], usage => return usage
  | (key, value) :: entries, usage => do
    let keyUsage ← measureValue key
    let allocation ← okOr .resourceLimitExceeded
      (checkedAdd usage.allocation keyUsage.encodedBytes)
    let usage ← { usage with allocation }.add keyUsage
    let valueUsage ← measureValue value
    let usage ← usage.add valueUsage
    measureEntries entries usage

end

/-! ## Parsing -/

/-- `Parser`: the unread input, its offset and what is left of the two budgets. -/
structure Parser where
  rest : List UInt8
  offset : Nat
  remainingAllocation : Nat
  remainingItems : Nat
  deriving DecidableEq, Repr

namespace Parser

/-- `read_u8`. -/
def readU8 (s : Parser) : Result (UInt8 × Parser) :=
  match s.rest with
  | [] => .error .unexpectedEof
  | byte :: rest => .ok (byte, { s with rest, offset := s.offset + 1 })

/-- `read_exact` (and `read_array`). -/
def readExact (s : Parser) (len : Nat) : Result (List UInt8 × Parser) := do
  let endOffset ← okOr .resourceLimitExceeded (checkedAdd s.offset len)
  rejectIf (s.rest.length < len) .unexpectedEof
  return (s.rest.take len, { s with rest := s.rest.drop len, offset := endOffset })

/-- `consume_allocation`. -/
def consumeAllocation (s : Parser) (len : Nat) : Result Parser := do
  let len ← usizeToU64 len
  let remainingAllocation ← okOr .resourceLimitExceeded (checkedSub s.remainingAllocation len)
  return { s with remainingAllocation }

/-- An argument of `width` bytes, rejected when a shorter form exists. -/
def readWideArgument (s : Parser) (width least : Nat) : Result (Nat × Parser) := do
  let (bytes, s) ← s.readExact width
  rejectIf (beNat bytes < least) .nonCanonicalCbor
  return (beNat bytes, s)

/-- `read_argument`. -/
def readArgument (s : Parser) (additional : Nat) : Result (Nat × Parser) :=
  if additional ≤ 23 then .ok (additional, s)
  else if additional = 24 then do
    let (byte, s) ← s.readU8
    rejectIf (byte.toNat < 24) .nonCanonicalCbor
    return (byte.toNat, s)
  else if additional = 25 then s.readWideArgument 2 0x100
  else if additional = 26 then s.readWideArgument 4 0x10000
  else if additional = 27 then s.readWideArgument 8 0x100000000
  else .error .nonCanonicalCbor

/-- `read_len`. -/
def readLen (s : Parser) (additional max : Nat) : Result (Nat × Parser) := do
  let (len, s) ← s.readArgument additional
  rejectIf (len > max ∨ len > 2 ^ 64 - 1) .resourceLimitExceeded
  let len ← u64ToUsize len
  return (len, s)

/-- The shared part of `parse_bytes` and `parse_text`. -/
def readString (s : Parser) (additional : Nat) : Result (List UInt8 × Parser) := do
  let (len, s) ← s.readLen additional s.remainingAllocation
  let s ← s.consumeAllocation len
  s.readExact len

/-- `parse_bytes`. -/
def parseBytes (s : Parser) (additional : Nat) : Result (CborValue × Parser) := do
  let (bytes, s) ← s.readString additional
  return (.bytes bytes, s)

/-- `parse_text`. -/
def parseText (s : Parser) (additional : Nat) : Result (CborValue × Parser) := do
  let (bytes, s) ← s.readString additional
  let text ← okOr .invalidUtf8 (fromUtf8 bytes)
  return (.text text, s)

/-- The element loop of `parse_array`. -/
def parseItems (parse : Parser → Result (CborValue × Parser)) :
    Nat → Parser → Result (List CborValue × Parser)
  | 0, s => return ([], s)
  | n + 1, s => do
    let (value, s) ← parse s
    let (values, s) ← parseItems parse n s
    return (value :: values, s)

/-- `parse_array`. -/
def parseArray (parse : Parser → Result (CborValue × Parser)) (s : Parser) (additional : Nat) :
    Result (CborValue × Parser) := do
  let (len, s) ← s.readLen additional s.remainingItems
  let (values, s) ← parseItems parse len s
  return (.array values, s)

/-- The ordering check between consecutive keys. -/
def checkKeyOrder (previous : Option (List UInt8)) (keyBytes : List UInt8) : Result Unit :=
  match previous with
  | none => .ok ⟨⟩
  | some previous =>
    if previous = keyBytes then .error .duplicateCborKey
    else if keyBytes < previous then .error .nonCanonicalCbor
    else .ok ⟨⟩

/-- The entry loop of `parse_map`. -/
def parseEntries (parse : Parser → Result (CborValue × Parser)) :
    Nat → Option (List UInt8) → Parser → Result (List (CborValue × CborValue) × Parser)
  | 0, _, s => return ([], s)
  | n + 1, previous, s => do
    let keyStart := s
    let (key, s) ← parse s
    let s ← s.consumeAllocation (s.offset - keyStart.offset)
    let keyBytes := keyStart.rest.take (s.offset - keyStart.offset)
    checkKeyOrder previous keyBytes
    let (value, s) ← parse s
    let (entries, s) ← parseEntries parse n (some keyBytes) s
    return ((key, value) :: entries, s)

/-- `parse_map`. -/
def parseMap (parse : Parser → Result (CborValue × Parser)) (s : Parser) (additional : Nat) :
    Result (CborValue × Parser) := do
  let (len, s) ← s.readLen additional (s.remainingItems / 2)
  let (entries, s) ← parseEntries parse len none s
  return (.map entries, s)

/-- `parse_simple`. -/
def parseSimple (s : Parser) (additional : Nat) : Result (CborValue × Parser) :=
  if additional = 20 then .ok (.bool false, s)
  else if additional = 21 then .ok (.bool true, s)
  else if additional = 22 then .ok (.null, s)
  else .error .nonCanonicalCbor

/-- `parse_value`, by the number of nesting levels left. -/
def parseValue : Nat → Parser → Result (CborValue × Parser)
  | 0, _ => .error .resourceLimitExceeded
  | levels + 1, s => do
    let remainingItems ← okOr .resourceLimitExceeded (checkedSub s.remainingItems 1)
    let s := { s with remainingItems }
    let (initial, s) ← s.readU8
    let additional := initial.toNat % 32
    match initial.toNat / 32 with
    | 0 => do
      let (value, s) ← s.readArgument additional
      return (.integer value, s)
    | 1 => do
      let (value, s) ← s.readArgument additional
      return (.integer (-1 - value), s)
    | 2 => s.parseBytes additional
    | 3 => s.parseText additional
    | 4 => s.parseArray (parseValue levels) additional
    | 5 => s.parseMap (parseValue levels) additional
    | 6 => .error .nonCanonicalCbor
    | _ => s.parseSimple additional

end Parser

/-- `validate_deterministic_with_limits`. -/
def validateDeterministicWithLimits (input : List UInt8) (limits : CborLimits) :
    Result CborValue := do
  let (value, s) ← Parser.parseValue (maxNestingDepth + 1)
    { rest := input, offset := 0, remainingAllocation := limits.maxAllocation,
      remainingItems := limits.maxItems }
  rejectIf (s.offset ≠ input.length) .nonCanonicalCbor
  return value

/-- `validate_deterministic`. -/
def validateDeterministic (input : List UInt8) : Result CborValue :=
  validateDeterministicWithLimits input .default

end Qzt
