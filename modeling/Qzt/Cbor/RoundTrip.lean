import Qzt.Cbor.ReadBack

/-!
# Decoding undoes encoding

Every value that the encoder can represent is encoded, and the parser reads the encoding
back, its maps sorted by their encoded keys, whenever the nesting and the two budgets
admit the value.
-/

namespace Qzt

open Foundation

/-! ## What a value uses -/

attribute [ext] CborUsage

instance : Add CborUsage where
  add a b :=
    { items := a.items + b.items, allocation := a.allocation + b.allocation,
      encodedBytes := a.encodedBytes + b.encodedBytes }

@[simp] theorem CborUsage.add_items (a b : CborUsage) : (a + b).items = a.items + b.items := rfl

@[simp] theorem CborUsage.add_allocation (a b : CborUsage) :
    (a + b).allocation = a.allocation + b.allocation := rfl

@[simp] theorem CborUsage.add_encodedBytes (a b : CborUsage) :
    (a + b).encodedBytes = a.encodedBytes + b.encodedBytes := rfl

/-- A byte or text string of length `len`. -/
def stringUsage (len : Nat) : CborUsage where
  items := 1
  allocation := len
  encodedBytes := headLen len + len

mutual

/-- Items, allocated bytes and encoded bytes of a value, with unbounded counters. -/
def CborValue.usage : CborValue → CborUsage
  | .integer value =>
    { items := 1, encodedBytes := headLen ((integerArgument value).getD (0, 0)).2 }
  | .bytes bytes => stringUsage bytes.length
  | .text text => stringUsage (textBytes text).length
  | .array values => { items := 1, encodedBytes := headLen values.length } + usageValues values
  | .map entries => { items := 1, encodedBytes := headLen entries.length } + usageEntries entries
  | .bool _ => { items := 1, encodedBytes := 1 }
  | .null => { items := 1, encodedBytes := 1 }

/-- The elements of an array. -/
def usageValues : List CborValue → CborUsage
  | [] => {}
  | value :: values => value.usage + usageValues values

/-- The entries of a map.  The encoded key is kept for the comparison with the next one. -/
def usageEntries : List (CborValue × CborValue) → CborUsage
  | [] => {}
  | (key, value) :: entries =>
    { allocation := key.usage.encodedBytes } + key.usage + value.usage + usageEntries entries

end

mutual

/-- The number of arrays and maps around the deepest item. -/
def CborValue.depth : CborValue → Nat
  | .array values => depthValues values
  | .map entries => depthEntries entries
  | _ => 0

/-- One level more than the deepest element. -/
def depthValues : List CborValue → Nat
  | [] => 0
  | value :: values => max (value.depth + 1) (depthValues values)

/-- One level more than the deepest key or value. -/
def depthEntries : List (CborValue × CborValue) → Nat
  | [] => 0
  | (key, value) :: entries => max (max (key.depth + 1) (value.depth + 1)) (depthEntries entries)

end

/-- The encoded form of a value, empty for one that is not encoded. -/
def encodedForm (value : CborValue) : List UInt8 :=
  match encodeValue value with
  | .ok bytes => bytes
  | .error _ => []

theorem encodedForm_eq {value : CborValue} {bytes : List UInt8} (h : encodeValue value = .ok bytes) :
    encodedForm value = bytes := by
  rw [encodedForm, h]

mutual

/-- The value with the entries of every map sorted by the encoded key. -/
def CborValue.sorted : CborValue → CborValue
  | .array values => .array (sortedValues values)
  | .map entries =>
    .map (((sortedEntries entries).insertionSort fun a b => a.1 ≤ b.1).map Prod.snd)
  | value => value

/-- The elements of an array. -/
def sortedValues : List CborValue → List CborValue
  | [] => []
  | value :: values => value.sorted :: sortedValues values

/-- The entries of a map, each under its encoded key. -/
def sortedEntries : List (CborValue × CborValue) → List (List UInt8 × CborValue × CborValue)
  | [] => []
  | (key, value) :: entries => (encodedForm key, key.sorted, value.sorted) :: sortedEntries entries

end

/-- The values that have an encoding: integers between `-2^64` and `2^64 - 1`, lengths that a
machine word holds, and maps of which no two keys are encoded alike. -/
inductive Encodable : CborValue → Prop where
  | integer {value : Int} (hleast : -2 ^ 64 ≤ value) (hgreatest : value ≤ 2 ^ 64 - 1) :
      Encodable (.integer value)
  | bytes {value : List UInt8} (hlen : value.length < 2 ^ 64) : Encodable (.bytes value)
  | text {value : String} (hlen : (textBytes value).length < 2 ^ 64) : Encodable (.text value)
  | array {values : List CborValue} (hlen : values.length < 2 ^ 64)
      (hvalues : ∀ value ∈ values, Encodable value) : Encodable (.array values)
  | map {entries : List (CborValue × CborValue)} (hlen : entries.length < 2 ^ 64)
      (hkeys : ∀ entry ∈ entries, Encodable entry.1)
      (hvalues : ∀ entry ∈ entries, Encodable entry.2)
      (hdistinct : entries.Pairwise fun a b => encodeValue a.1 ≠ encodeValue b.1) :
      Encodable (.map entries)
  | bool (value : Bool) : Encodable (.bool value)
  | null : Encodable .null

/-! ## The measures over lists -/

theorem usage_items_pos (value : CborValue) : 0 < value.usage.items := by
  cases value <;> simp [CborValue.usage, stringUsage]

theorem length_le_usageValues (values : List CborValue) :
    values.length ≤ (usageValues values).items := by
  induction values with
  | nil => simp
  | cons value values ih =>
    have := usage_items_pos value
    simp only [List.length_cons, usageValues, CborUsage.add_items]
    omega

theorem length_le_usageEntries (entries : List (CborValue × CborValue)) :
    2 * entries.length ≤ (usageEntries entries).items := by
  induction entries with
  | nil => simp
  | cons entry entries ih =>
    have := usage_items_pos entry.1
    have := usage_items_pos entry.2
    simp only [List.length_cons, usageEntries, CborUsage.add_items]
    omega

theorem usageEntries_perm {left right : List (CborValue × CborValue)} (h : left.Perm right) :
    usageEntries left = usageEntries right := by
  induction h with
  | nil => rfl
  | cons entry _ ih =>
    rw [usageEntries, usageEntries, ih]
  | swap a b entries =>
    simp only [usageEntries]
    ext <;> simp only [CborUsage.add_items, CborUsage.add_allocation, CborUsage.add_encodedBytes] <;>
      omega
  | trans _ _ ih₁ ih₂ => rw [ih₁, ih₂]

theorem depth_lt_of_mem_values {values : List CborValue} {value : CborValue} (h : value ∈ values) :
    value.depth < depthValues values := by
  induction values with
  | nil => cases h
  | cons head values ih =>
    rw [depthValues]
    rcases List.mem_cons.mp h with rfl | h
    · omega
    · have := ih h
      omega

theorem depth_lt_of_mem_entries {entries : List (CborValue × CborValue)}
    {entry : CborValue × CborValue} (h : entry ∈ entries) :
    entry.1.depth < depthEntries entries ∧ entry.2.depth < depthEntries entries := by
  induction entries with
  | nil => cases h
  | cons head entries ih =>
    rw [depthEntries]
    rcases List.mem_cons.mp h with rfl | h
    · omega
    · have := ih h
      omega

theorem sortedValues_eq (values : List CborValue) :
    sortedValues values = values.map CborValue.sorted := by
  induction values with
  | nil => rfl
  | cons value values ih => rw [sortedValues, ih, List.map_cons]

theorem sortedEntries_eq (entries : List (CborValue × CborValue)) :
    sortedEntries entries =
      entries.map fun entry => (encodedForm entry.1, entry.1.sorted, entry.2.sorted) := by
  induction entries with
  | nil => rfl
  | cons entry entries ih => rw [sortedEntries, ih, List.map_cons]

/-! ## The measure of the writer -/

theorem CborUsage.add_eq_ok {a b c : CborUsage} (h : a.add b = .ok c) : c = a + b := by
  simp only [CborUsage.add, bind_eq_ok_iff, okOr_eq_ok_iff, checkedAdd_eq_some_iff, pure_eq_ok,
    Except.ok.injEq] at h
  obtain ⟨_, ⟨-, rfl⟩, _, ⟨-, rfl⟩, _, ⟨-, rfl⟩, rfl⟩ := h
  rfl

theorem CborUsage.add_assoc (a b c : CborUsage) : a + b + c = a + (b + c) := by
  ext <;> simp only [CborUsage.add_items, CborUsage.add_allocation, CborUsage.add_encodedBytes,
    Nat.add_assoc]

theorem measureString_eq_ok {len : Nat} {usage : CborUsage} (h : measureString len = .ok usage) :
    usage = stringUsage len := by
  simp only [measureString, bind_eq_ok_iff, usizeToU64_eq_ok_iff, okOr_eq_ok_iff,
    checkedAdd_eq_some_iff, pure_eq_ok, Except.ok.injEq] at h
  obtain ⟨_, ⟨-, rfl⟩, _, ⟨-, rfl⟩, rfl⟩ := h
  rfl

mutual

/-- Where `measureValue` does not overflow, it measures the usage. -/
theorem measureValue_eq_ok : (value : CborValue) → ∀ {usage : CborUsage},
    measureValue value = .ok usage → usage = value.usage
  | .integer value, usage, h => by
    simp only [measureValue, bind_eq_ok_iff, okOr_eq_ok_iff, pure_eq_ok, Except.ok.injEq] at h
    obtain ⟨⟨major, argument⟩, hargument, rfl⟩ := h
    rw [CborValue.usage, hargument]
    rfl
  | .bytes bytes, usage, h => measureString_eq_ok h
  | .text text, usage, h => measureString_eq_ok h
  | .array values, usage, h => by
    simp only [measureValue, bind_eq_ok_iff, usizeToU64_eq_ok_iff] at h
    obtain ⟨_, ⟨-, rfl⟩, h⟩ := h
    exact measureValues_eq_ok values h
  | .map entries, usage, h => by
    simp only [measureValue, bind_eq_ok_iff, usizeToU64_eq_ok_iff] at h
    obtain ⟨_, ⟨-, rfl⟩, h⟩ := h
    exact measureEntries_eq_ok entries h
  | .bool _, usage, h => (Except.ok.inj h).symm
  | .null, usage, h => (Except.ok.inj h).symm

theorem measureValues_eq_ok : (values : List CborValue) → ∀ {start usage : CborUsage},
    measureValues values start = .ok usage → usage = start + usageValues values
  | [], start, usage, h => (Except.ok.inj h).symm
  | value :: values, start, usage, h => by
    simp only [measureValues, bind_eq_ok_iff] at h
    obtain ⟨child, hchild, next, hnext, h⟩ := h
    rw [measureValues_eq_ok values h, CborUsage.add_eq_ok hnext, measureValue_eq_ok value hchild,
      usageValues, CborUsage.add_assoc]

theorem measureEntries_eq_ok : (entries : List (CborValue × CborValue)) →
    ∀ {start usage : CborUsage},
      measureEntries entries start = .ok usage → usage = start + usageEntries entries
  | [], start, usage, h => (Except.ok.inj h).symm
  | (key, value) :: entries, start, usage, h => by
    simp only [measureEntries, bind_eq_ok_iff, okOr_eq_ok_iff, checkedAdd_eq_some_iff] at h
    obtain ⟨keyUsage, hkey, _, ⟨-, rfl⟩, next, hnext, valueUsage, hvalue, last, hlast, h⟩ := h
    rw [measureEntries_eq_ok entries h, CborUsage.add_eq_ok hlast, CborUsage.add_eq_ok hnext,
      measureValue_eq_ok key hkey, measureValue_eq_ok value hvalue, usageEntries]
    ext <;> simp only [CborUsage.add_items, CborUsage.add_allocation, CborUsage.add_encodedBytes]
      <;> omega

end

/-! ## Heads -/

namespace Parser

theorem readExact_of_le {s : Parser} {bytes tail : List UInt8} (hrest : s.rest = bytes ++ tail)
    (hoffset : s.offset + bytes.length < 2 ^ 64) :
    s.readExact bytes.length =
      .ok (bytes, { s with rest := tail, offset := s.offset + bytes.length }) := by
  have hlen : ¬ s.rest.length < bytes.length := by
    rw [hrest, List.length_append]
    omega
  rw [readExact, checkedAdd_of_lt hoffset, okOr_some, ok_bind, rejectIf_of_not hlen, ok_bind,
    pure_eq_ok, hrest, List.take_left, List.drop_left]

theorem consumeAllocation_of_le {s : Parser} {len : Nat} (hlen : len < 2 ^ 64)
    (hbudget : len ≤ s.remainingAllocation) :
    s.consumeAllocation len =
      .ok { s with remainingAllocation := s.remainingAllocation - len } := by
  rw [consumeAllocation, usizeToU64_of_lt hlen, ok_bind, checkedSub_of_le hbudget, okOr_some,
    ok_bind, pure_eq_ok]

theorem readU8_of_cons {s : Parser} {byte : UInt8} {tail : List UInt8} (hrest : s.rest = byte :: tail) :
    s.readU8 = .ok (byte, { s with rest := tail, offset := s.offset + 1 }) := by
  rw [readU8, hrest]

theorem readWideArgument_of_le {s : Parser} {width least value : Nat} {tail : List UInt8}
    (hleast : least ≤ value) (hvalue : value < 256 ^ width)
    (hrest : s.rest = beBytes width value ++ tail)
    (hoffset : s.offset + width < 2 ^ 64) :
    s.readWideArgument width least =
      .ok (value, { s with rest := tail, offset := s.offset + width }) := by
  have hread := readExact_of_le hrest (by rwa [length_beBytes])
  rw [length_beBytes] at hread
  have hnot : ¬ beNat (beBytes width value) < least := by
    rw [beNat_beBytes hvalue]
    omega
  rw [readWideArgument, hread, ok_bind]
  simp only
  rw [rejectIf_of_not hnot, ok_bind, pure_eq_ok, beNat_beBytes hvalue]

end Parser

/-- The parser behind `tail`, charged with a usage. -/
def Parser.charge (s : Parser) (usage : CborUsage) (tail : List UInt8) : Parser where
  rest := tail
  offset := s.offset + usage.encodedBytes
  remainingAllocation := s.remainingAllocation - usage.allocation
  remainingItems := s.remainingItems - usage.items

/-- The budgets of the parser cover a usage, and its offsets stay words. -/
structure Parser.Affords (s : Parser) (usage : CborUsage) : Prop where
  offset : s.offset + usage.encodedBytes < 2 ^ 64
  allocation : usage.allocation ≤ s.remainingAllocation
  items : usage.items ≤ s.remainingItems

theorem Argument.reads {additional value : Nat} {extra tail : List UInt8} {s : Parser}
    (hargument : Argument additional extra value) (hrest : s.rest = extra ++ tail)
    (hoffset : s.offset + extra.length < 2 ^ 64) :
    s.readArgument additional =
      .ok (value, { s with rest := tail, offset := s.offset + extra.length }) := by
  cases hargument with
  | short hvalue =>
    rw [Parser.readArgument, if_pos hvalue, ← hrest.trans (List.nil_append tail)]
    rfl
  | byte hleast hvalue =>
    have hbyte : (UInt8.ofNat value).toNat = value := by
      rw [UInt8.toNat_ofNat']
      omega
    rw [Parser.readArgument, if_neg (by decide), if_pos rfl, Parser.readU8_of_cons hrest, ok_bind]
    simp only [hbyte]
    rw [rejectIf_of_not (by omega), ok_bind, pure_eq_ok]
    rfl
  | wide hform hleast hvalue =>
    rw [length_beBytes] at hoffset ⊢
    rw [readArgument_wide hform]
    exact Parser.readWideArgument_of_le hleast hvalue hrest hoffset

/-- A value starts: one item is charged, and its head is read. -/
theorem parseValue_of_head {major value : Nat} (hmajor : major < 8) (hvalue : value < 2 ^ 64)
    {s : Parser} {tail : List UInt8} (hrest : s.rest = encodeTypeAndArgument major value ++ tail)
    (hitems : 0 < s.remainingItems) (hoffset : s.offset + headLen value < 2 ^ 64) (levels : Nat) :
    ∃ additional next, Parser.parseValue (levels + 1) s = parseTyped levels major additional next ∧
      next.remainingItems = s.remainingItems - 1 ∧
      next.remainingAllocation = s.remainingAllocation ∧
      next.readArgument additional =
        .ok (value, s.charge { items := 1, encodedBytes := headLen value } tail) := by
  obtain ⟨additional, extra, hadditional, hargument, hhead, hlen⟩ :=
    encodeTypeAndArgument_argument major hvalue
  obtain ⟨hdiv, hmod⟩ := toNat_initial hmajor hadditional
  rw [hhead, List.cons_append] at hrest
  let next : Parser :=
    { rest := extra ++ tail, offset := s.offset + 1,
      remainingAllocation := s.remainingAllocation, remainingItems := s.remainingItems - 1 }
  have hbyte := Parser.readU8_of_cons (s := { s with remainingItems := s.remainingItems - 1 }) hrest
  refine ⟨additional, next, ?_, rfl, rfl, ?_⟩
  · rw [Parser.parseValue, checkedSub_of_le hitems, okOr_some, ok_bind]
    simp only
    rw [hbyte, ok_bind]
    simp only [hdiv, hmod]
    rfl
  · rw [hargument.reads rfl (show s.offset + 1 + extra.length < 2 ^ 64 by omega)]
    rw [Parser.charge, ← hlen]
    congr 2
    simp only [next, Parser.mk.injEq, and_true, true_and]
    omega

/-! ## Round trips -/

/-- The value is encoded, and a parser that can afford it reads it back. -/
structure RoundTrips (value : CborValue) : Prop where
  encodes : encodeValue value = .ok (encodedForm value)
  length : (encodedForm value).length = value.usage.encodedBytes
  parses : ∀ {levels : Nat} {s : Parser} {tail : List UInt8}, value.depth < levels →
    s.rest = encodedForm value ++ tail → s.Affords value.usage →
      Parser.parseValue levels s = .ok (value.sorted, s.charge value.usage tail)

/-- The encoded form is what the encoder returns. -/
theorem RoundTrips.intro {value : CborValue} {bytes : List UInt8}
    (hencodes : encodeValue value = .ok bytes) (hlength : bytes.length = value.usage.encodedBytes)
    (hparses : ∀ {levels : Nat} {s : Parser} {tail : List UInt8}, value.depth < levels + 1 →
      s.rest = bytes ++ tail → s.Affords value.usage →
        Parser.parseValue (levels + 1) s = .ok (value.sorted, s.charge value.usage tail)) :
    RoundTrips value := by
  refine ⟨by rw [encodedForm_eq hencodes, hencodes], by rw [encodedForm_eq hencodes, hlength], ?_⟩
  intro levels s tail hdepth hrest hafford
  rw [encodedForm_eq hencodes] at hrest
  cases levels with
  | zero => omega
  | succ levels => exact hparses hdepth hrest hafford

theorem length_encodeTypeAndArgument (major : Nat) {value : Nat} (hvalue : value < 2 ^ 64) :
    (encodeTypeAndArgument major value).length = headLen value := by
  obtain ⟨_, extra, -, -, hhead, hlen⟩ := encodeTypeAndArgument_argument major hvalue
  rw [hhead, List.length_cons, hlen]

theorem headLen_pos (value : Nat) : 0 < headLen value := by
  unfold headLen
  split_ifs <;> omega

theorem roundTrips_integer {value : Int} (hleast : -2 ^ 64 ≤ value) (hgreatest : value ≤ 2 ^ 64 - 1) :
    RoundTrips (.integer value) := by
  -- The argument and the major type that the sign selects.
  obtain ⟨major, argument, hargument, hmajor, hlt, hvalue⟩ : ∃ major argument,
      integerArgument value = some (major, argument) ∧ major < 8 ∧ argument < 2 ^ 64 ∧
        (major = 0 ∧ value = argument ∨ major = 1 ∧ value = -1 - (argument : Int)) := by
    unfold integerArgument
    by_cases hsign : 0 ≤ value
    · rw [if_pos hsign, if_pos (by omega)]
      exact ⟨0, value.toNat, rfl, by omega, by omega, Or.inl ⟨rfl, by omega⟩⟩
    · rw [if_neg hsign, if_pos (by omega)]
      exact ⟨1, (-(value + 1)).toNat, rfl, by omega, by omega, Or.inr ⟨rfl, by omega⟩⟩
  have hencode : encodeValue (.integer value) = .ok (encodeTypeAndArgument major argument) := by
    rw [encodeValue, hargument]
    rfl
  have husage : (CborValue.integer value).usage =
      { items := 1, encodedBytes := headLen argument } := by
    rw [CborValue.usage, hargument]
    rfl
  refine .intro hencode ?_ ?_
  · rw [length_encodeTypeAndArgument major hlt, husage]
  · intro levels s tail hdepth hrest hafford
    rw [husage] at hafford ⊢
    obtain ⟨additional, next, hparse, -, -, hread⟩ :=
      parseValue_of_head hmajor hlt hrest hafford.items hafford.offset levels
    rw [hparse]
    rcases hvalue with ⟨rfl, rfl⟩ | ⟨rfl, rfl⟩
    all_goals
      simp only [parseTyped]
      rw [hread]
      rfl

theorem readLen_of_le {s s' : Parser} {additional len max : Nat}
    (hread : s.readArgument additional = .ok (len, s')) (hmax : len ≤ max) (hlen : len < 2 ^ 64) :
    s.readLen additional max = .ok (len, s') := by
  rw [Parser.readLen, hread, ok_bind]
  simp only
  rw [rejectIf_of_not (by omega), ok_bind, u64ToUsize_of_lt hlen, ok_bind, pure_eq_ok]

/-- A string behind its head. -/
theorem readString_of_head {bytes tail : List UInt8} {s next : Parser}
    {additional : Nat} (hlen : bytes.length < 2 ^ 64)
    (hafford : s.Affords (stringUsage bytes.length))
    (hallocation : next.remainingAllocation = s.remainingAllocation)
    (hread : next.readArgument additional =
      .ok (bytes.length,
        s.charge { items := 1, encodedBytes := headLen bytes.length } (bytes ++ tail))) :
    next.readString additional = .ok (bytes, s.charge (stringUsage bytes.length) tail) := by
  have hbudget : bytes.length ≤ next.remainingAllocation := hallocation ▸ hafford.allocation
  have hoffset : s.offset + headLen bytes.length + bytes.length < 2 ^ 64 := by
    have := hafford.offset
    simp only [stringUsage] at this
    omega
  rw [Parser.readString, readLen_of_le hread hbudget hlen, ok_bind]
  simp only
  have hcharge := Parser.consumeAllocation_of_le
    (s := s.charge { items := 1, encodedBytes := headLen bytes.length } (bytes ++ tail)) hlen
    hafford.allocation
  rw [hcharge, ok_bind, Parser.readExact_of_le rfl hoffset]
  simp only [Parser.charge, stringUsage, Nat.sub_zero, Nat.add_assoc]

theorem roundTrips_bytes {value : List UInt8} (hlen : value.length < 2 ^ 64) :
    RoundTrips (.bytes value) := by
  have hencode : encodeValue (.bytes value) =
      .ok (encodeTypeAndArgument 2 value.length ++ value) := by
    rw [encodeValue, usizeToU64_of_lt hlen]
    rfl
  refine .intro hencode ?_ ?_
  · rw [List.length_append, length_encodeTypeAndArgument 2 hlen]
    rfl
  · intro levels s tail hdepth hrest hafford
    rw [CborValue.usage] at hafford ⊢
    rw [List.append_assoc] at hrest
    have hoffset : s.offset + headLen value.length < 2 ^ 64 :=
      Nat.lt_of_le_of_lt (by simp only [stringUsage]; omega) hafford.offset
    obtain ⟨additional, next, hparse, -, hallocation, hread⟩ :=
      parseValue_of_head (by decide) hlen hrest hafford.items hoffset levels
    rw [hparse]
    simp only [parseTyped, Parser.parseBytes]
    rw [readString_of_head hlen hafford hallocation hread]
    rfl

theorem roundTrips_text {value : String} (hlen : (textBytes value).length < 2 ^ 64) :
    RoundTrips (.text value) := by
  have hencode : encodeValue (.text value) =
      .ok (encodeTypeAndArgument 3 (textBytes value).length ++ textBytes value) := by
    rw [encodeValue, usizeToU64_of_lt hlen]
    rfl
  refine .intro hencode ?_ ?_
  · rw [List.length_append, length_encodeTypeAndArgument 3 hlen]
    rfl
  · intro levels s tail hdepth hrest hafford
    rw [CborValue.usage] at hafford ⊢
    rw [List.append_assoc] at hrest
    have hoffset : s.offset + headLen (textBytes value).length < 2 ^ 64 :=
      Nat.lt_of_le_of_lt (by simp only [stringUsage]; omega) hafford.offset
    obtain ⟨additional, next, hparse, -, hallocation, hread⟩ :=
      parseValue_of_head (by decide) hlen hrest hafford.items hoffset levels
    rw [hparse]
    simp only [parseTyped, Parser.parseText]
    rw [readString_of_head hlen hafford hallocation hread, ok_bind]
    simp only [fromUtf8_textBytes]
    rfl

/-! ## Arrays -/

theorem charge_offset (s : Parser) (usage : CborUsage) (tail : List UInt8) :
    (s.charge usage tail).offset = s.offset + usage.encodedBytes := rfl

theorem charge_charge (s : Parser) (a b : CborUsage) (middle tail : List UInt8) :
    (s.charge a middle).charge b tail = s.charge (a + b) tail := by
  simp only [Parser.charge, CborUsage.add_items, CborUsage.add_allocation,
    CborUsage.add_encodedBytes, Nat.sub_sub, Nat.add_assoc]

/-- What is afforded together is afforded one after the other. -/
theorem Parser.Affords.split {s : Parser} {a b : CborUsage} (h : s.Affords (a + b))
    (middle : List UInt8) : s.Affords a ∧ (s.charge a middle).Affords b := by
  obtain ⟨hoffset, hallocation, hitems⟩ := h
  simp only [CborUsage.add_items, CborUsage.add_allocation, CborUsage.add_encodedBytes] at *
  refine ⟨⟨by omega, by omega, by omega⟩, ⟨?_, ?_, ?_⟩⟩
  all_goals
    simp only [Parser.charge]
    omega

/-- The elements are encoded one after the other. -/
theorem encodeValues_of_roundTrips {values : List CborValue} (h : ∀ v ∈ values, RoundTrips v) :
    encodeValues values = .ok (values.flatMap encodedForm) ∧
      (values.flatMap encodedForm).length = (usageValues values).encodedBytes := by
  induction values with
  | nil => exact ⟨rfl, rfl⟩
  | cons value values ih =>
    obtain ⟨hencode, hlength⟩ := ih fun v hv => h v (List.mem_cons_of_mem _ hv)
    have hvalue := h value List.mem_cons_self
    constructor
    · rw [encodeValues, hvalue.encodes, ok_bind, hencode, ok_bind, pure_eq_ok, List.flatMap_cons]
    · rw [List.flatMap_cons, List.length_append, hvalue.length, hlength, usageValues,
        CborUsage.add_encodedBytes]

/-- The element loop. -/
theorem parseItems_of_roundTrips {values : List CborValue} (h : ∀ v ∈ values, RoundTrips v)
    {levels : Nat} (hdepth : ∀ v ∈ values, v.depth < levels) {s : Parser} {tail : List UInt8}
    (hrest : s.rest = values.flatMap encodedForm ++ tail) (hafford : s.Affords (usageValues values)) :
    Parser.parseItems (Parser.parseValue levels) values.length s =
      .ok (sortedValues values, s.charge (usageValues values) tail) := by
  induction values generalizing s with
  | nil =>
    rw [List.flatMap_nil, List.nil_append] at hrest
    rw [← hrest]
    rfl
  | cons value values ih =>
    rw [List.flatMap_cons, List.append_assoc] at hrest
    rw [usageValues] at hafford
    obtain ⟨hfirst, hothers⟩ := hafford.split (values.flatMap encodedForm ++ tail)
    have hparse := (h value List.mem_cons_self).parses (hdepth value List.mem_cons_self) hrest hfirst
    have hloop := ih (fun v hv => h v (List.mem_cons_of_mem _ hv))
      (fun v hv => hdepth v (List.mem_cons_of_mem _ hv)) rfl hothers
    rw [List.length_cons, Parser.parseItems, hparse, ok_bind]
    simp only
    rw [hloop, ok_bind, pure_eq_ok, charge_charge, sortedValues, usageValues]

theorem roundTrips_array {values : List CborValue} (hlen : values.length < 2 ^ 64)
    (h : ∀ v ∈ values, RoundTrips v) : RoundTrips (.array values) := by
  obtain ⟨hvalues, hlength⟩ := encodeValues_of_roundTrips h
  have hencode : encodeValue (.array values) =
      .ok (encodeTypeAndArgument 4 values.length ++ values.flatMap encodedForm) := by
    rw [encodeValue, usizeToU64_of_lt hlen, ok_bind, hvalues]
    rfl
  refine .intro hencode ?_ ?_
  · rw [List.length_append, length_encodeTypeAndArgument 4 hlen, hlength]
    rfl
  · intro levels s tail hdepth hrest hafford
    rw [CborValue.usage] at hafford ⊢
    rw [List.append_assoc] at hrest
    obtain ⟨hhead, hloop⟩ := hafford.split (values.flatMap encodedForm ++ tail)
    obtain ⟨additional, next, hparse, hitems, -, hread⟩ :=
      parseValue_of_head (by decide) hlen hrest hhead.items hhead.offset levels
    -- Every element is at least one item, so the length is within the items left.
    have hmax : values.length ≤ next.remainingItems := by
      rw [hitems]
      exact (length_le_usageValues values).trans hloop.items
    have hlevels : ∀ v ∈ values, v.depth < levels := by
      intro v hv
      have := depth_lt_of_mem_values hv
      rw [CborValue.depth] at hdepth
      omega
    rw [hparse]
    simp only [parseTyped, Parser.parseArray]
    rw [readLen_of_le hread hmax hlen, ok_bind]
    simp only
    rw [parseItems_of_roundTrips h hlevels rfl hloop, ok_bind, pure_eq_ok, charge_charge]
    rfl

/-! ## Maps -/

/-- The order in which the entries of a map are encoded. -/
def entryLe (a b : CborValue × CborValue) : Prop :=
  encodedForm a.1 ≤ encodedForm b.1

instance : DecidableRel entryLe := fun a b =>
  inferInstanceAs (Decidable (encodedForm a.1 ≤ encodedForm b.1))

instance : Std.Total entryLe := ⟨fun a b => List.le_total (encodedForm a.1) (encodedForm b.1)⟩

instance : IsTrans _ entryLe :=
  ⟨fun _ _ _ hab hbc => List.le_trans hab hbc⟩

/-- The entries in the order of their encoded keys. -/
def orderedEntries (entries : List (CborValue × CborValue)) : List (CborValue × CborValue) :=
  entries.insertionSort entryLe

theorem orderedEntries_perm (entries : List (CborValue × CborValue)) :
    (orderedEntries entries).Perm entries :=
  List.perm_insertionSort _ _

theorem sorted_map (entries : List (CborValue × CborValue)) :
    (CborValue.map entries).sorted =
      .map ((orderedEntries entries).map fun entry => (entry.1.sorted, entry.2.sorted)) := by
  have hsort := List.map_insertionSort entryLe (fun a b => a.1 ≤ b.1)
    (fun entry => (encodedForm entry.1, entry.1.sorted, entry.2.sorted)) entries
    (fun _ _ _ _ => Iff.rfl)
  rw [CborValue.sorted, sortedEntries_eq, ← hsort, List.map_map]
  rfl

/-- Sorting the encoded entries is encoding the sorted ones. -/
theorem encoded_insertionSort (entries : List (CborValue × CborValue)) :
    (entries.map fun entry => (encodedForm entry.1, encodedForm entry.2)).insertionSort keyLe =
      (orderedEntries entries).map fun entry => (encodedForm entry.1, encodedForm entry.2) :=
  (List.map_insertionSort entryLe keyLe _ entries fun _ _ _ _ => Iff.rfl).symm

theorem encodeEntries_of_roundTrips {entries : List (CborValue × CborValue)}
    (h : ∀ entry ∈ entries, RoundTrips entry.1 ∧ RoundTrips entry.2) :
    encodeEntries entries =
      .ok (entries.map fun entry => (encodedForm entry.1, encodedForm entry.2)) := by
  induction entries with
  | nil => rfl
  | cons entry entries ih =>
    obtain ⟨hkey, hvalue⟩ := h entry List.mem_cons_self
    rw [encodeEntries, hkey.encodes, ok_bind, hvalue.encodes, ok_bind,
      ih fun e he => h e (List.mem_cons_of_mem _ he), ok_bind, pure_eq_ok, List.map_cons]

/-- The keys of the ordered entries increase. -/
theorem orderedEntries_increasing {entries : List (CborValue × CborValue)}
    (h : ∀ entry ∈ entries, RoundTrips entry.1 ∧ RoundTrips entry.2)
    (hdistinct : entries.Pairwise fun a b => encodeValue a.1 ≠ encodeValue b.1) :
    (orderedEntries entries).Pairwise fun a b => encodedForm a.1 < encodedForm b.1 := by
  have hne : (orderedEntries entries).Pairwise fun a b => encodeValue a.1 ≠ encodeValue b.1 :=
    hdistinct.perm (orderedEntries_perm entries).symm fun hab => hab.symm
  have hle := List.pairwise_insertionSort entryLe entries
  refine (hne.and hle).imp_of_mem ?_
  intro a b ha hb hab
  have hka := (h a ((orderedEntries_perm entries).subset ha)).1.encodes
  have hkb := (h b ((orderedEntries_perm entries).subset hb)).1.encodes
  by_contra hnot
  have heq : encodedForm a.1 = encodedForm b.1 := List.le_antisymm hab.2 hnot
  exact hab.1 (by rw [hka, hkb, heq])

theorem hasAdjacentDuplicate_of_increasing {encoded : List (List UInt8 × List UInt8)}
    (h : encoded.Pairwise fun a b => a.1 < b.1) : hasAdjacentDuplicate encoded = false := by
  induction encoded with
  | nil => rfl
  | cons a rest ih =>
    cases rest with
    | nil => rfl
    | cons b rest =>
      have hlt := List.rel_of_pairwise_cons h List.mem_cons_self
      have hne : a.1 ≠ b.1 := fun heq => List.lt_irrefl b.1 (heq ▸ hlt)
      rw [hasAdjacentDuplicate, ih h.of_cons, Bool.or_false, beq_eq_false_iff_ne]
      exact hne

/-- The bytes of the entries, one after the other. -/
def entriesForm (entries : List (CborValue × CborValue)) : List UInt8 :=
  entries.flatMap fun entry => encodedForm entry.1 ++ encodedForm entry.2

theorem entriesForm_cons (entry : CborValue × CborValue) (entries : List (CborValue × CborValue)) :
    entriesForm (entry :: entries) =
      encodedForm entry.1 ++ (encodedForm entry.2 ++ entriesForm entries) := by
  rw [entriesForm, List.flatMap_cons, List.append_assoc]
  rfl

theorem length_entriesForm {entries : List (CborValue × CborValue)}
    (h : ∀ entry ∈ entries, RoundTrips entry.1 ∧ RoundTrips entry.2) :
    (entriesForm entries).length = (usageEntries entries).encodedBytes := by
  induction entries with
  | nil => rfl
  | cons entry entries ih =>
    obtain ⟨hkey, hvalue⟩ := h entry List.mem_cons_self
    rw [entriesForm_cons, List.length_append, List.length_append, hkey.length, hvalue.length,
      ih fun e he => h e (List.mem_cons_of_mem _ he)]
    simp only [usageEntries, CborUsage.add_encodedBytes]
    omega

/-- The keys that are still to come are behind the last one. -/
def KeysAfter (previous : Option (List UInt8)) (entries : List (CborValue × CborValue)) : Prop :=
  ∀ key ∈ previous, ∀ entry ∈ entries, key < encodedForm entry.1

theorem checkKeyOrder_of_lt {previous : Option (List UInt8)} {keyBytes : List UInt8}
    (h : ∀ key ∈ previous, key < keyBytes) : Parser.checkKeyOrder previous keyBytes = .ok ⟨⟩ := by
  cases previous with
  | none => rfl
  | some key =>
    have hlt := h key rfl
    have hne : key ≠ keyBytes := fun heq => List.lt_irrefl keyBytes (heq ▸ hlt)
    have hnot : ¬ keyBytes < key := fun hgt => List.lt_irrefl key (List.lt_trans hlt hgt)
    rw [Parser.checkKeyOrder, if_neg hne, if_neg hnot]

/-- The entry loop.  The key is charged once more for its copy. -/
theorem parseEntries_of_roundTrips {entries : List (CborValue × CborValue)}
    (h : ∀ entry ∈ entries, RoundTrips entry.1 ∧ RoundTrips entry.2)
    (hincreasing : entries.Pairwise fun a b => encodedForm a.1 < encodedForm b.1)
    {levels : Nat} (hdepth : ∀ entry ∈ entries, entry.1.depth < levels ∧ entry.2.depth < levels)
    {s : Parser} {tail : List UInt8} {previous : Option (List UInt8)}
    (hprevious : KeysAfter previous entries) (hrest : s.rest = entriesForm entries ++ tail)
    (hafford : s.Affords (usageEntries entries)) :
    Parser.parseEntries (Parser.parseValue levels) entries.length previous s =
      .ok (entries.map fun entry => (entry.1.sorted, entry.2.sorted),
        s.charge (usageEntries entries) tail) := by
  induction entries generalizing s previous with
  | nil =>
    rw [entriesForm, List.flatMap_nil, List.nil_append] at hrest
    rw [← hrest]
    rfl
  | cons entry entries ih =>
    obtain ⟨hkey, hvalue⟩ := h entry List.mem_cons_self
    obtain ⟨hkeyDepth, hvalueDepth⟩ := hdepth entry List.mem_cons_self
    rw [entriesForm_cons, List.append_assoc, List.append_assoc] at hrest
    -- The copy of the key is charged between the key and the value; the sums are the same.
    have husage : usageEntries (entry :: entries) =
        entry.1.usage + ({ allocation := entry.1.usage.encodedBytes } +
          (entry.2.usage + usageEntries entries)) := by
      rw [usageEntries]
      ext <;> simp only [CborUsage.add_items, CborUsage.add_allocation, CborUsage.add_encodedBytes]
        <;> omega
    rw [husage] at hafford
    obtain ⟨hfirst, hafford⟩ := hafford.split (encodedForm entry.2 ++ (entriesForm entries ++ tail))
    obtain ⟨hcopy, hafford⟩ := hafford.split (encodedForm entry.2 ++ (entriesForm entries ++ tail))
    obtain ⟨hsecond, hothers⟩ := hafford.split (entriesForm entries ++ tail)
    have hparseKey := hkey.parses hkeyDepth hrest hfirst
    have hparseValue := hvalue.parses hvalueDepth rfl hsecond
    have hcopied : s.offset + entry.1.usage.encodedBytes - s.offset =
        entry.1.usage.encodedBytes := by omega
    have hword : entry.1.usage.encodedBytes < 2 ^ 64 := by
      have := hfirst.offset
      omega
    have htake : s.rest.take entry.1.usage.encodedBytes = encodedForm entry.1 := by
      rw [hrest, ← hkey.length, List.take_left]
    have hconsume :
        (s.charge entry.1.usage
          (encodedForm entry.2 ++ (entriesForm entries ++ tail))).consumeAllocation
            entry.1.usage.encodedBytes =
        .ok ((s.charge entry.1.usage (encodedForm entry.2 ++ (entriesForm entries ++ tail))).charge
          { allocation := entry.1.usage.encodedBytes }
          (encodedForm entry.2 ++ (entriesForm entries ++ tail))) :=
      Parser.consumeAllocation_of_le hword hcopy.allocation
    have horder : Parser.checkKeyOrder previous (encodedForm entry.1) = .ok ⟨⟩ :=
      checkKeyOrder_of_lt fun key hmem => hprevious key hmem entry List.mem_cons_self
    have hafter : KeysAfter (some (encodedForm entry.1)) entries := by
      intro key hmem next hnext
      cases hmem
      exact List.rel_of_pairwise_cons hincreasing hnext
    have hloop := ih (fun e he => h e (List.mem_cons_of_mem _ he)) hincreasing.of_cons
      (fun e he => hdepth e (List.mem_cons_of_mem _ he)) hafter rfl hothers
    rw [List.length_cons, Parser.parseEntries, hparseKey, ok_bind]
    simp only [charge_offset, hcopied]
    rw [hconsume, ok_bind]
    simp only [charge_offset, Nat.add_zero, hcopied, htake]
    rw [horder, ok_bind, hparseValue, ok_bind]
    simp only
    rw [hloop, ok_bind, pure_eq_ok, charge_charge, charge_charge, charge_charge, ← husage,
      List.map_cons]

theorem roundTrips_map {entries : List (CborValue × CborValue)} (hlen : entries.length < 2 ^ 64)
    (h : ∀ entry ∈ entries, RoundTrips entry.1 ∧ RoundTrips entry.2)
    (hdistinct : entries.Pairwise fun a b => encodeValue a.1 ≠ encodeValue b.1) :
    RoundTrips (.map entries) := by
  have hperm := orderedEntries_perm entries
  have hordered : ∀ entry ∈ orderedEntries entries, RoundTrips entry.1 ∧ RoundTrips entry.2 :=
    fun entry hmem => h entry (hperm.subset hmem)
  have hincreasing := orderedEntries_increasing h hdistinct
  have hsorted : encodeSortedEntries
      (entries.map fun entry => (encodedForm entry.1, encodedForm entry.2)) =
      .ok (entriesForm (orderedEntries entries)) := by
    have hduplicate := hasAdjacentDuplicate_of_increasing
      (List.pairwise_map.mpr hincreasing : ((orderedEntries entries).map fun entry =>
        (encodedForm entry.1, encodedForm entry.2)).Pairwise fun a b => a.1 < b.1)
    rw [encodeSortedEntries, encoded_insertionSort]
    simp only [hduplicate]
    rw [rejectIf_of_not Bool.false_ne_true, ok_bind, pure_eq_ok, List.flatMap_map]
    rfl
  have hencode : encodeValue (.map entries) =
      .ok (encodeTypeAndArgument 5 entries.length ++ entriesForm (orderedEntries entries)) := by
    rw [encodeValue, usizeToU64_of_lt hlen, ok_bind, encodeEntries_of_roundTrips h, ok_bind, hsorted]
    rfl
  refine .intro hencode ?_ ?_
  · rw [List.length_append, length_encodeTypeAndArgument 5 hlen, length_entriesForm hordered,
      usageEntries_perm hperm]
    rfl
  · intro levels s tail hdepth hrest hafford
    rw [CborValue.usage] at hafford ⊢
    rw [List.append_assoc] at hrest
    obtain ⟨hhead, hloop⟩ := hafford.split (entriesForm (orderedEntries entries) ++ tail)
    obtain ⟨additional, next, hparse, hitems, -, hread⟩ :=
      parseValue_of_head (by decide) hlen hrest hhead.items hhead.offset levels
    -- Every entry is at least two items.
    have hmax : entries.length ≤ next.remainingItems / 2 := by
      have := (length_le_usageEntries entries).trans hloop.items
      have hleft : next.remainingItems = s.remainingItems - 1 := hitems
      simp only [Parser.charge] at this
      omega
    have hlevels : ∀ entry ∈ orderedEntries entries,
        entry.1.depth < levels ∧ entry.2.depth < levels := by
      intro entry hmem
      have := depth_lt_of_mem_entries (hperm.subset hmem)
      rw [CborValue.depth] at hdepth
      omega
    rw [← usageEntries_perm hperm] at hloop
    have hnone : KeysAfter none (orderedEntries entries) := by
      intro _ hmem
      cases hmem
    have hentries := parseEntries_of_roundTrips hordered hincreasing hlevels hnone rfl hloop
    rw [hperm.length_eq, usageEntries_perm hperm] at hentries
    rw [hparse]
    simp only [parseTyped, Parser.parseMap]
    rw [readLen_of_le hread hmax hlen, ok_bind]
    simp only
    rw [hentries, ok_bind, pure_eq_ok, charge_charge, sorted_map]

/-! ## All values -/

/-- A value of one byte. -/
theorem roundTrips_simple {value : CborValue} {byte : UInt8} (hencode : encodeValue value = .ok [byte])
    (husage : value.usage = { items := 1, encodedBytes := 1 }) (hmajor : byte.toNat / 32 = 7)
    (hparse : ∀ s : Parser, s.parseSimple (byte.toNat % 32) = .ok (value.sorted, s)) :
    RoundTrips value := by
  refine .intro hencode (by rw [husage]; rfl) ?_
  intro levels s tail hdepth hrest hafford
  rw [husage] at hafford ⊢
  have hitem : 1 ≤ s.remainingItems := hafford.items
  have hbyte := Parser.readU8_of_cons (s := { s with remainingItems := s.remainingItems - 1 }) hrest
  rw [Parser.parseValue, checkedSub_of_le hitem, okOr_some, ok_bind]
  simp only
  rw [hbyte, ok_bind]
  simp only [hmajor]
  exact hparse _

theorem roundTrips_bool (value : Bool) : RoundTrips (.bool value) := by
  cases value
  · exact roundTrips_simple rfl rfl rfl fun _ => rfl
  · exact roundTrips_simple rfl rfl rfl fun _ => rfl

theorem roundTrips_null : RoundTrips .null :=
  roundTrips_simple rfl rfl rfl fun _ => rfl

/-- Every encodable value round-trips. -/
theorem Encodable.roundTrips {value : CborValue} (h : Encodable value) : RoundTrips value := by
  induction h with
  | integer hleast hgreatest => exact roundTrips_integer hleast hgreatest
  | bytes hlen => exact roundTrips_bytes hlen
  | text hlen => exact roundTrips_text hlen
  | array hlen _ ih => exact roundTrips_array hlen ih
  | map hlen _ _ hdistinct ihKeys ihValues =>
    exact roundTrips_map hlen (fun entry hmem => ⟨ihKeys entry hmem, ihValues entry hmem⟩) hdistinct
  | bool value => exact roundTrips_bool value
  | null => exact roundTrips_null

/-- What validation returns for the encoding of a value that fits its limits. -/
theorem RoundTrips.validates {value : CborValue} (h : RoundTrips value)
    (hdepth : value.depth ≤ maxNestingDepth) (hword : (encodedForm value).length < 2 ^ 64)
    {limits : CborLimits} (hitems : value.usage.items ≤ limits.maxItems)
    (hallocation : value.usage.allocation ≤ limits.maxAllocation) :
    validateDeterministicWithLimits (encodedForm value) limits = .ok value.sorted := by
  let start : Parser :=
    { rest := encodedForm value, offset := 0, remainingAllocation := limits.maxAllocation,
      remainingItems := limits.maxItems }
  have hoffset : start.offset + value.usage.encodedBytes < 2 ^ 64 := by
    rw [← h.length]
    exact (Nat.zero_add _).symm ▸ hword
  have hparse := h.parses (s := start) (Nat.lt_succ_of_le hdepth) (List.append_nil _).symm
    ⟨hoffset, hallocation, hitems⟩
  have hend : ¬ (start.charge value.usage []).offset ≠ (encodedForm value).length := by
    rw [charge_offset, h.length, Nat.zero_add]
    exact not_not_intro rfl
  rw [validateDeterministicWithLimits, hparse, ok_bind]
  simp only
  rw [rejectIf_of_not hend, ok_bind, pure_eq_ok]

/-! ## Maps with text keys -/

theorem usageEntries_append (left right : List (CborValue × CborValue)) :
    usageEntries (left ++ right) = usageEntries left + usageEntries right := by
  induction left with
  | nil => ext <;> simp [usageEntries]
  | cons entry left ih =>
    rw [List.cons_append, usageEntries, ih, usageEntries]
    ext <;> simp only [CborUsage.add_items, CborUsage.add_allocation, CborUsage.add_encodedBytes,
      Nat.add_assoc]

/-- Texts are told apart by their encodings. -/
theorem encodeValue_text_injective {left right : String} (hleft : (textBytes left).length < 2 ^ 32)
    (hright : (textBytes right).length < 2 ^ 32)
    (h : encodeValue (.text left) = encodeValue (.text right)) : left = right := by
  have hl := @roundTrips_text left (by omega)
  have hr := @roundTrips_text right (by omega)
  rw [hl.encodes, hr.encodes, Except.ok.injEq] at h
  have hhead (len : Nat) : headLen len ≤ 9 := by
    unfold headLen
    split_ifs <;> omega
  -- Both texts are read back from the same bytes, under limits that admit either.
  let limits : CborLimits := { maxAllocation := 2 ^ 32, maxItems := 1 }
  have hreads : ∀ {text : String}, (textBytes text).length < 2 ^ 32 → RoundTrips (.text text) →
      validateDeterministicWithLimits (encodedForm (.text text)) limits = .ok (.text text) := by
    intro text hlen htrips
    refine htrips.validates (Nat.zero_le _) ?_ (Nat.le_refl _) (Nat.le_of_lt hlen)
    have := hhead (textBytes text).length
    rw [htrips.length]
    simp only [CborValue.usage, stringUsage]
    omega
  have hsame := hreads hleft hl
  rw [h, hreads hright hr, Except.ok.injEq, CborValue.text.injEq] at hsame
  exact hsame.symm

/-- A map with distinct text keys is encodable when its values are. -/
theorem Encodable.textMap {entries : List (CborValue × CborValue)} {keys : List String}
    (hkeys : entries.map Prod.fst = keys.map .text) (hnodup : keys.Nodup)
    (hlen : keys.length < 2 ^ 64) (hshort : ∀ key ∈ keys, (textBytes key).length < 2 ^ 32)
    (hvalues : ∀ entry ∈ entries, Encodable entry.2) : Encodable (.map entries) := by
  have hlength : entries.length = keys.length := by
    have := congrArg List.length hkeys
    simpa using this
  refine .map (by omega) ?_ hvalues ?_
  · intro entry hmem
    have hkey : entry.1 ∈ keys.map CborValue.text := hkeys ▸ List.mem_map_of_mem hmem
    obtain ⟨key, hmem, heq⟩ := List.mem_map.mp hkey
    rw [← heq]
    have := hshort key hmem
    exact .text (by omega)
  · -- Different keys have different encodings, by position.
    have hpairs : (entries.map Prod.fst).Pairwise fun a b => encodeValue a ≠ encodeValue b := by
      rw [hkeys, List.pairwise_map]
      refine hnodup.imp_of_mem ?_
      intro a b ha hb hne heq
      exact hne (encodeValue_text_injective (hshort a ha) (hshort b hb) heq)
    rw [List.pairwise_map] at hpairs
    exact hpairs

/-- Decoding undoes encoding: an encodable value that is nested at most 64 deep is encoded, and
validation under limits that cover its items and its allocation returns it, with the entries of
every map sorted by the encoded key. -/
theorem validateDeterministic_encodeDeterministic {value : CborValue} (hencodable : Encodable value)
    (hdepth : value.depth ≤ maxNestingDepth) :
    ∃ bytes, encodeDeterministic value = .ok bytes ∧
      (bytes.length < 2 ^ 64 → ∀ limits : CborLimits, value.usage.items ≤ limits.maxItems →
        value.usage.allocation ≤ limits.maxAllocation →
          validateDeterministicWithLimits bytes limits = .ok value.sorted) := by
  have h := hencodable.roundTrips
  exact ⟨encodedForm value, h.encodes, fun hword _ hitems hallocation =>
    h.validates hdepth hword hitems hallocation⟩

/-- A map with a map among its keys, written out of order. -/
def nestedValue : CborValue :=
  .map [(.map [(.bool true, .bytes [1])], .integer 300),
    (.integer (-1), .array [.text "a", .null])]

theorem validateDeterministic_encodeDeterministic_nested :
    ∃ bytes, encodeDeterministic nestedValue = .ok bytes ∧
      (bytes.length < 2 ^ 64 → ∀ limits : CborLimits, nestedValue.usage.items ≤ limits.maxItems →
        nestedValue.usage.allocation ≤ limits.maxAllocation →
          validateDeterministicWithLimits bytes limits = .ok nestedValue.sorted) := by
  have hinner : Encodable (.map [(.bool true, .bytes [1])]) := by
    refine .map (by decide) ?_ ?_ (List.pairwise_singleton _ _)
    · intro entry hmem
      rw [List.mem_singleton.mp hmem]
      exact .bool true
    · intro entry hmem
      rw [List.mem_singleton.mp hmem]
      exact .bytes (by decide)
  have harray : Encodable (.array [.text "a", .null]) := by
    refine .array (by decide) ?_
    simp only [List.forall_mem_cons, List.not_mem_nil, false_implies, implies_true, and_true]
    exact ⟨.text (by decide), .null⟩
  refine validateDeterministic_encodeDeterministic (.map (by decide) ?_ ?_ ?_) (by decide)
  · simp only [List.forall_mem_cons, List.not_mem_nil, false_implies, implies_true, and_true]
    exact ⟨hinner, .integer (by decide) (by decide)⟩
  · simp only [List.forall_mem_cons, List.not_mem_nil, false_implies, implies_true, and_true]
    exact ⟨.integer (by decide) (by decide), harray⟩
  · refine List.pairwise_pair.mpr ?_
    intro heq
    cases heq

end Qzt
