import Qzt.Cbor.Budgets

/-!
# Accepted bytes are canonical

The parser accepts only what the encoder writes: the bytes it consumes for a value are the
encoding of that value.  Every form that has a second spelling is refused on the way, so a
byte string that validates is the one encoding of its value.
-/

namespace Qzt

open Foundation

/-! ## Consumed bytes -/

/-- The parser went from `s` to `s'` over `bytes`. -/
structure Parser.Reads (s : Parser) (bytes : List UInt8) (s' : Parser) : Prop where
  rest : s.rest = bytes ++ s'.rest
  offset : s'.offset = s.offset + bytes.length

namespace Parser

variable {s middle s' : Parser}

theorem Reads.refl (s : Parser) : s.Reads [] s :=
  ⟨rfl, rfl⟩

theorem Reads.trans {left right : List UInt8} (h : s.Reads left middle)
    (h' : middle.Reads right s') : s.Reads (left ++ right) s' := by
  refine ⟨?_, ?_⟩
  · rw [h.rest, h'.rest, List.append_assoc]
  · rw [h'.offset, h.offset, List.length_append, Nat.add_assoc]

theorem readU8_reads {byte : UInt8} (h : s.readU8 = .ok (byte, s')) : s.Reads [byte] s' := by
  have hrest := readU8_eq_ok h
  rw [readU8_of_cons hrest, Except.ok.injEq, Prod.mk.injEq] at h
  refine ⟨hrest, ?_⟩
  rw [← h.2]
  rfl

theorem readExact_reads {len : Nat} {bytes : List UInt8} (h : s.readExact len = .ok (bytes, s')) :
    bytes.length = len ∧ s.Reads bytes s' := by
  simp only [readExact, bind_eq_ok_iff, okOr_eq_ok_iff, checkedAdd_eq_some_iff,
    rejectIf_eq_ok_iff, pure_eq_ok, Except.ok.injEq, Prod.mk.injEq] at h
  obtain ⟨_, ⟨-, rfl⟩, _, hlen, rfl, rfl⟩ := h
  have hlength : (s.rest.take len).length = len := List.length_take_of_le (by omega)
  refine ⟨hlength, (List.take_append_drop len s.rest).symm, ?_⟩
  rw [hlength]

/-- A charge consumes nothing. -/
theorem consumeAllocation_reads {len : Nat} (h : s.consumeAllocation len = .ok s') :
    s.Reads [] s' := by
  simp only [consumeAllocation, bind_eq_ok_iff, pure_eq_ok, Except.ok.injEq] at h
  obtain ⟨_, -, _, -, rfl⟩ := h
  exact ⟨rfl, rfl⟩

/-! ## Heads -/

/-- A wide argument is accepted in its shortest form only. -/
theorem readWideArgument_reads {additional width least value : Nat}
    (hform : (additional, width, least) ∈
      [(25, 2, 0x100), (26, 4, 0x10000), (27, 8, 0x100000000)])
    (h : s.readWideArgument width least = .ok (value, s')) :
    ∃ extra, Argument additional extra value ∧ s.Reads extra s' := by
  simp only [readWideArgument, bind_eq_ok_iff, rejectIf_eq_ok_iff, pure_eq_ok, Except.ok.injEq,
    Prod.mk.injEq] at h
  obtain ⟨⟨bytes, next⟩, hread, _, hleast, rfl, rfl⟩ := h
  obtain ⟨hlength, hreads⟩ := readExact_reads hread
  have hlt : beNat bytes < 256 ^ width := hlength ▸ beNat_lt bytes
  have hbytes : beBytes width (beNat bytes) = bytes := hlength ▸ beBytes_beNat bytes
  have hargument := Argument.wide hform (Nat.le_of_not_lt hleast) hlt
  rw [hbytes] at hargument
  exact ⟨bytes, hargument, hreads⟩

theorem readArgument_reads {additional value : Nat}
    (h : s.readArgument additional = .ok (value, s')) :
    ∃ extra, Argument additional extra value ∧ s.Reads extra s' := by
  simp only [readArgument] at h
  by_cases h23 : additional ≤ 23
  · rw [if_pos h23] at h
    cases h
    exact ⟨[], .short h23, .refl s⟩
  rw [if_neg h23] at h
  by_cases h24 : additional = 24
  · rw [if_pos h24] at h
    simp only [bind_eq_ok_iff, rejectIf_eq_ok_iff, pure_eq_ok, Except.ok.injEq,
      Prod.mk.injEq] at h
    obtain ⟨⟨byte, next⟩, hread, _, hleast, rfl, rfl⟩ := h
    have hbyte := byte.toNat_lt
    have hargument : Argument 24 [UInt8.ofNat byte.toNat] byte.toNat :=
      .byte (Nat.le_of_not_lt hleast) (by omega)
    rw [UInt8.ofNat_toNat] at hargument
    exact ⟨[byte], h24 ▸ hargument, readU8_reads hread⟩
  rw [if_neg h24] at h
  by_cases h25 : additional = 25
  · rw [if_pos h25] at h
    exact readWideArgument_reads (by simp [h25]) h
  rw [if_neg h25] at h
  by_cases h26 : additional = 26
  · rw [if_pos h26] at h
    exact readWideArgument_reads (by simp [h26]) h
  rw [if_neg h26] at h
  by_cases h27 : additional = 27
  · rw [if_pos h27] at h
    exact readWideArgument_reads (by simp [h27]) h
  -- The indefinite lengths and the reserved forms.
  rw [if_neg h27] at h
  cases h

theorem readLen_reads {additional max len : Nat} (h : s.readLen additional max = .ok (len, s')) :
    len < 2 ^ 64 ∧ ∃ extra, Argument additional extra len ∧ s.Reads extra s' := by
  simp only [readLen, bind_eq_ok_iff, u64ToUsize_eq_ok_iff, pure_eq_ok, Except.ok.injEq,
    Prod.mk.injEq] at h
  obtain ⟨⟨value, next⟩, hread, _, -, _, ⟨hword, rfl⟩, rfl, rfl⟩ := h
  exact ⟨hword, readArgument_reads hread⟩

theorem readString_reads {additional : Nat} {bytes : List UInt8}
    (h : s.readString additional = .ok (bytes, s')) :
    bytes.length < 2 ^ 64 ∧
      ∃ extra, Argument additional extra bytes.length ∧ s.Reads (extra ++ bytes) s' := by
  simp only [readString, bind_eq_ok_iff] at h
  obtain ⟨⟨len, next⟩, hlen, charged, hcharge, hread⟩ := h
  obtain ⟨hword, extra, hargument, hhead⟩ := readLen_reads hlen
  obtain ⟨hlength, hbody⟩ := readExact_reads hread
  simp only at hlength
  rw [← hlength] at hword hargument
  exact ⟨hword, extra, hargument, hhead.trans ((consumeAllocation_reads hcharge).trans hbody)⟩

end Parser

/-- The argument bytes are those of the encoder. -/
theorem Argument.encode {additional value : Nat} {extra : List UInt8}
    (h : Argument additional extra value) (major : Nat) :
    value < 2 ^ 64 ∧
      encodeTypeAndArgument major value = UInt8.ofNat (major * 32 + additional) :: extra := by
  unfold encodeTypeAndArgument
  cases h with
  | short hvalue => exact ⟨by omega, by rw [if_pos hvalue]⟩
  | byte hleast hvalue =>
    refine ⟨by omega, ?_⟩
    rw [if_neg (by omega), if_pos hvalue]
    have hone : beBytes 1 value = [UInt8.ofNat (value % 256)] := rfl
    rw [hone, Nat.mod_eq_of_lt (by omega)]
  | wide hform hleast hvalue =>
    simp only [List.mem_cons, Prod.mk.injEq, List.not_mem_nil, or_false] at hform
    rcases hform with ⟨rfl, rfl, rfl⟩ | ⟨rfl, rfl, rfl⟩ | ⟨rfl, rfl, rfl⟩
    · refine ⟨by omega, ?_⟩
      rw [if_neg (by omega), if_neg (by omega), if_pos (by omega)]
    · refine ⟨by omega, ?_⟩
      rw [if_neg (by omega), if_neg (by omega), if_neg (by omega), if_pos (by omega)]
    · refine ⟨by omega, ?_⟩
      rw [if_neg (by omega), if_neg (by omega), if_neg (by omega), if_neg (by omega)]

/-- An initial byte of a major type, with the argument behind it, is the head that the encoder
writes. -/
theorem Argument.head {initial : UInt8} {major value : Nat} {extra : List UInt8}
    (h : Argument (initial.toNat % 32) extra value) (hmajor : initial.toNat / 32 = major) :
    value < 2 ^ 64 ∧ encodeTypeAndArgument major value = initial :: extra := by
  obtain ⟨hword, hencode⟩ := h.encode major
  have hinitial : UInt8.ofNat (major * 32 + initial.toNat % 32) = initial := by
    rw [← hmajor, Nat.div_add_mod', UInt8.ofNat_toNat]
  rw [hinitial] at hencode
  exact ⟨hword, hencode⟩

/-! ## Values -/

/-- A parse that consumes the encoding of the value it returns. -/
def Canonical (parse : Parser → Result (CborValue × Parser)) : Prop :=
  ∀ {s s' : Parser} {value : CborValue}, parse s = .ok (value, s') →
    ∃ bytes, encodeValue value = .ok bytes ∧ s.Reads bytes s'

section Loops

variable {parse : Parser → Result (CborValue × Parser)} (hparse : Canonical parse)
  {s s' : Parser}
include hparse

theorem parseItems_canonical {count : Nat} {values : List CborValue}
    (h : Parser.parseItems parse count s = .ok (values, s')) :
    values.length = count ∧ ∃ bytes, encodeValues values = .ok bytes ∧ s.Reads bytes s' := by
  induction count generalizing s values with
  | zero =>
    cases h
    exact ⟨rfl, [], rfl, .refl _⟩
  | succ count ih =>
    simp only [Parser.parseItems, bind_eq_ok_iff, pure_eq_ok, Except.ok.injEq,
      Prod.mk.injEq] at h
    obtain ⟨⟨value, next⟩, hvalue, ⟨others, last⟩, hothers, rfl, rfl⟩ := h
    obtain ⟨head, hencode, hreads⟩ := hparse hvalue
    obtain ⟨hlength, rest, hencodeRest, hreadsRest⟩ := ih hothers
    refine ⟨congrArg (· + 1) hlength, head ++ rest, ?_, hreads.trans hreadsRest⟩
    rw [encodeValues, hencode, ok_bind, hencodeRest, ok_bind, pure_eq_ok]

/-- The entry loop compares neighbours only; the order is transitive, so every key is below all
that follow it. -/
theorem parseEntries_canonical {count : Nat} {previous : Option (List UInt8)}
    {entries : List (CborValue × CborValue)}
    (h : Parser.parseEntries parse count previous s = .ok (entries, s')) :
    entries.length = count ∧ ∃ encoded, encodeEntries entries = .ok encoded ∧
      encoded.Pairwise (fun a b => a.1 < b.1) ∧
      (∀ key ∈ previous, ∀ entry ∈ encoded, key < entry.1) ∧
      s.Reads (encoded.flatMap fun entry => entry.1 ++ entry.2) s' := by
  induction count generalizing s previous entries with
  | zero =>
    cases h
    refine ⟨rfl, [], rfl, .nil, ?_, .refl _⟩
    intro key _ entry hmem
    cases hmem
  | succ count ih =>
    simp only [Parser.parseEntries, bind_eq_ok_iff, pure_eq_ok, Except.ok.injEq,
      Prod.mk.injEq] at h
    obtain ⟨⟨key, afterKey⟩, hkey, charged, hcharge, _, horder, ⟨value, afterValue⟩, hvalue,
      ⟨others, last⟩, hothers, rfl, rfl⟩ := h
    obtain ⟨keyBytes, hencodeKey, hreadsKey⟩ := hparse hkey
    have hreadsCharged := hreadsKey.trans (Parser.consumeAllocation_reads hcharge)
    obtain ⟨valueBytes, hencodeValue, hreadsValue⟩ := hparse hvalue
    -- The copy that is compared is the encoded key.
    have hcopy : s.rest.take (charged.offset - s.offset) = keyBytes := by
      rw [hreadsCharged.offset, hreadsCharged.rest, List.append_nil, Nat.add_sub_cancel_left,
        List.take_left]
    rw [hcopy] at horder hothers
    obtain ⟨hlength, encoded, hencode, hsorted, hafter, hreads⟩ := ih hothers
    have hbelow : ∀ entry ∈ encoded, keyBytes < entry.1 := hafter keyBytes rfl
    have hprevious : ∀ k ∈ previous, k < keyBytes := by
      intro k hk
      cases hk
      simp only [Parser.checkKeyOrder] at horder
      split_ifs at horder with heq hlt
      by_contra hnot
      exact heq (List.le_antisymm hlt hnot)
    refine ⟨congrArg (· + 1) hlength, (keyBytes, valueBytes) :: encoded, ?_, ?_, ?_, ?_⟩
    · rw [encodeEntries, hencodeKey, ok_bind, hencodeValue, ok_bind, hencode, ok_bind, pure_eq_ok]
    · exact List.pairwise_cons.mpr ⟨hbelow, hsorted⟩
    · intro k hk entry hmem
      rcases List.mem_cons.mp hmem with rfl | hmem
      · exact hprevious k hk
      · exact List.lt_trans (hprevious k hk) (hbelow entry hmem)
    · rw [List.flatMap_cons, List.append_assoc]
      have hall := hreadsCharged.trans (hreadsValue.trans hreads)
      rw [List.append_nil] at hall
      exact hall

end Loops

/-- Entries in the order of their keys are written as they stand. -/
theorem encodeSortedEntries_of_increasing {encoded : List (List UInt8 × List UInt8)}
    (h : encoded.Pairwise fun a b => a.1 < b.1) :
    encodeSortedEntries encoded = .ok (encoded.flatMap fun entry => entry.1 ++ entry.2) := by
  have hle : encoded.Pairwise keyLe := h.imp fun hlt hgt => List.lt_irrefl _ (List.lt_trans hlt hgt)
  rw [encodeSortedEntries, hle.insertionSort_eq]
  simp only [hasAdjacentDuplicate_of_increasing h]
  rw [rejectIf_of_not Bool.false_ne_true, ok_bind, pure_eq_ok]

theorem parseSimple_canonical {s s' : Parser} {initial : UInt8} {value : CborValue}
    (hmajor : 7 ≤ initial.toNat / 32) (h : s.parseSimple (initial.toNat % 32) = .ok (value, s')) :
    encodeValue value = .ok [initial] ∧ s' = s := by
  have hlt := initial.toNat_lt
  have hbyte : ∀ {n : Nat}, initial.toNat = n → initial = UInt8.ofNat n := by
    intro n hn
    rw [← hn, UInt8.ofNat_toNat]
  unfold Parser.parseSimple at h
  split_ifs at h with hfalse htrue hnull
  · cases h
    rw [hbyte (show initial.toNat = 0xf4 by omega)]
    exact ⟨rfl, rfl⟩
  · cases h
    rw [hbyte (show initial.toNat = 0xf5 by omega)]
    exact ⟨rfl, rfl⟩
  · cases h
    rw [hbyte (show initial.toNat = 0xf6 by omega)]
    exact ⟨rfl, rfl⟩

/-- The integers of the two major types. -/
theorem encodeValue_integer {major argument : Nat} {value : Int} (hword : argument < 2 ^ 64)
    (hvalue : major = 0 ∧ value = argument ∨ major = 1 ∧ value = -1 - (argument : Int)) :
    encodeValue (.integer value) = .ok (encodeTypeAndArgument major argument) := by
  have hargument : integerArgument value = some (major, argument) := by
    unfold integerArgument
    rcases hvalue with ⟨rfl, rfl⟩ | ⟨rfl, rfl⟩
    · rw [if_pos (by omega), if_pos (by omega)]
      simp
    · rw [if_neg (by omega), if_pos (by omega)]
      simp only [Option.some.injEq, Prod.mk.injEq, true_and]
      omega
  rw [encodeValue, hargument]
  rfl

section Kinds

variable {levels : Nat} {s next s' : Parser} {initial : UInt8} {value : CborValue}

theorem parseArray_canonical {parse : Parser → Result (CborValue × Parser)}
    (hparse : Canonical parse) (hmajor : initial.toNat / 32 = 4)
    (h : s.parseArray parse (initial.toNat % 32) = .ok (value, s')) :
    ∃ rest, encodeValue value = .ok (initial :: rest) ∧ s.Reads rest s' := by
  simp only [Parser.parseArray, bind_eq_ok_iff, pure_eq_ok, Except.ok.injEq, Prod.mk.injEq] at h
  obtain ⟨⟨len, afterLen⟩, hlen, ⟨values, last⟩, hvalues, rfl, rfl⟩ := h
  obtain ⟨hword, extra, hargument, hhead⟩ := Parser.readLen_reads hlen
  obtain ⟨rfl, bytes, hencode, hreads⟩ := parseItems_canonical hparse hvalues
  refine ⟨extra ++ bytes, ?_, hhead.trans hreads⟩
  rw [encodeValue, usizeToU64_of_lt hword, ok_bind, hencode, ok_bind, pure_eq_ok,
    (hargument.head hmajor).2, List.cons_append]

theorem parseMap_canonical {parse : Parser → Result (CborValue × Parser)}
    (hparse : Canonical parse) (hmajor : initial.toNat / 32 = 5)
    (h : s.parseMap parse (initial.toNat % 32) = .ok (value, s')) :
    ∃ rest, encodeValue value = .ok (initial :: rest) ∧ s.Reads rest s' := by
  simp only [Parser.parseMap, bind_eq_ok_iff, pure_eq_ok, Except.ok.injEq, Prod.mk.injEq] at h
  obtain ⟨⟨len, afterLen⟩, hlen, ⟨entries, last⟩, hentries, rfl, rfl⟩ := h
  obtain ⟨hword, extra, hargument, hhead⟩ := Parser.readLen_reads hlen
  obtain ⟨rfl, encoded, hencode, hsorted, -, hreads⟩ := parseEntries_canonical hparse hentries
  refine ⟨extra ++ encoded.flatMap fun entry => entry.1 ++ entry.2, ?_, hhead.trans hreads⟩
  rw [encodeValue, usizeToU64_of_lt hword, ok_bind, hencode, ok_bind,
    encodeSortedEntries_of_increasing hsorted, ok_bind, pure_eq_ok, (hargument.head hmajor).2,
    List.cons_append]

/-- Behind the initial byte, one case per major type. -/
theorem parseTyped_canonical (hparse : Canonical (Parser.parseValue levels))
    (h : parseTyped levels (initial.toNat / 32) (initial.toNat % 32) s = .ok (value, s')) :
    ∃ rest, encodeValue value = .ok (initial :: rest) ∧ s.Reads rest s' := by
  unfold parseTyped at h
  split at h
  case h_1 hmajor =>
    simp only [bind_eq_ok_iff, pure_eq_ok, Except.ok.injEq, Prod.mk.injEq] at h
    obtain ⟨⟨argument, last⟩, hread, rfl, rfl⟩ := h
    obtain ⟨extra, hargument, hreads⟩ := Parser.readArgument_reads hread
    obtain ⟨hword, hencode⟩ := hargument.head hmajor
    refine ⟨extra, ?_, hreads⟩
    rw [encodeValue_integer hword (.inl ⟨rfl, rfl⟩), hencode]
  case h_2 hmajor =>
    simp only [bind_eq_ok_iff, pure_eq_ok, Except.ok.injEq, Prod.mk.injEq] at h
    obtain ⟨⟨argument, last⟩, hread, rfl, rfl⟩ := h
    obtain ⟨extra, hargument, hreads⟩ := Parser.readArgument_reads hread
    obtain ⟨hword, hencode⟩ := hargument.head hmajor
    refine ⟨extra, ?_, hreads⟩
    rw [encodeValue_integer hword (.inr ⟨rfl, rfl⟩), hencode]
  case h_3 hmajor =>
    simp only [Parser.parseBytes, bind_eq_ok_iff, pure_eq_ok, Except.ok.injEq,
      Prod.mk.injEq] at h
    obtain ⟨⟨bytes, last⟩, hread, rfl, rfl⟩ := h
    obtain ⟨hword, extra, hargument, hreads⟩ := Parser.readString_reads hread
    refine ⟨extra ++ bytes, ?_, hreads⟩
    rw [encodeValue, usizeToU64_of_lt hword, ok_bind, pure_eq_ok, (hargument.head hmajor).2,
      List.cons_append]
  case h_4 hmajor =>
    simp only [Parser.parseText, bind_eq_ok_iff, okOr_eq_ok_iff, fromUtf8_eq_some_iff, pure_eq_ok,
      Except.ok.injEq, Prod.mk.injEq] at h
    obtain ⟨⟨bytes, last⟩, hread, text, hbytes, rfl, rfl⟩ := h
    obtain ⟨hword, extra, hargument, hreads⟩ := Parser.readString_reads hread
    simp only at hbytes
    rw [hbytes] at hword hargument hreads
    refine ⟨extra ++ textBytes text, ?_, hreads⟩
    rw [encodeValue, usizeToU64_of_lt hword, ok_bind, pure_eq_ok, (hargument.head hmajor).2,
      List.cons_append]
  case h_5 hmajor => exact parseArray_canonical hparse hmajor h
  case h_6 hmajor => exact parseMap_canonical hparse hmajor h
  case h_7 => cases h
  case h_8 h0 h1 h2 h3 h4 h5 h6 =>
    have hmajor : 7 ≤ initial.toNat / 32 := by
      simp only [imp_false] at h0 h1 h2 h3 h4 h5 h6
      omega
    obtain ⟨hencode, rfl⟩ := parseSimple_canonical hmajor h
    exact ⟨[], hencode, .refl _⟩

end Kinds

/-- Whatever the nesting, a parsed value was consumed in the form the encoder gives it. -/
theorem parseValue_canonical (levels : Nat) : Canonical (Parser.parseValue levels) := by
  induction levels with
  | zero =>
    intro s s' value h
    cases h
  | succ levels ih =>
    intro s s' value h
    simp only [Parser.parseValue, bind_eq_ok_iff] at h
    obtain ⟨_, -, ⟨initial, next⟩, hread, hgo⟩ := h
    have hinitial := Parser.readU8_reads hread
    obtain ⟨rest, hencode, hreads⟩ := parseTyped_canonical ih hgo
    have hall := hinitial.trans hreads
    exact ⟨initial :: rest, hencode, hall.rest, hall.offset⟩

/-- Validation accepts canonical bytes only: an accepted byte string is the encoding of its value,
and no other byte string is accepted, under any limits, as the same value. -/
theorem encodeDeterministic_of_validates {input : List UInt8} {limits : CborLimits}
    {value : CborValue} (h : validateDeterministicWithLimits input limits = .ok value) :
    encodeDeterministic value = .ok input ∧
      ∀ (other : List UInt8) (limits' : CborLimits),
        validateDeterministicWithLimits other limits' = .ok value → other = input := by
  have hencodes : ∀ {bytes : List UInt8} {limits : CborLimits},
      validateDeterministicWithLimits bytes limits = .ok value →
        encodeDeterministic value = .ok bytes := by
    intro bytes limits hvalid
    obtain ⟨s, hparse, hend⟩ := validateDeterministicWithLimits_eq_ok_iff.mp hvalid
    obtain ⟨form, hencode, hreads⟩ := parseValue_canonical _ hparse
    -- The whole input is consumed, so nothing is left behind the value.
    have hlength : form.length = bytes.length := by
      rw [← hend, hreads.offset]
      exact (Nat.zero_add _).symm
    have hform : form = bytes := by
      have hrest : bytes = form ++ s.rest := hreads.rest
      have hnil : s.rest = [] := by
        rw [← List.length_eq_zero_iff]
        have := congrArg List.length hrest
        rw [List.length_append] at this
        omega
      rw [hrest, hnil, List.append_nil]
    rw [encodeDeterministic, hencode, hform]
  refine ⟨hencodes h, ?_⟩
  intro other limits' hother
  have hboth := hencodes h
  rw [hencodes hother, Except.ok.injEq] at hboth
  exact hboth

/-- `{1: [true, null], "k": h'00ff'}` in canonical form. -/
def canonicalMap : List UInt8 :=
  [0xa2, 0x01, 0x82, 0xf5, 0xf6, 0x61, 0x6b, 0x42, 0x00, 0xff]

theorem encodeDeterministic_of_validates_map :
    ∃ value, validateDeterministicWithLimits canonicalMap .default = .ok value ∧
      encodeDeterministic value = .ok canonicalMap := by
  let value : CborValue := .map [(.integer 1, .array [.bool true, .null]),
    (.text "k", .bytes [0x00, 0xff])]
  have hvalid : validateDeterministicWithLimits canonicalMap .default = .ok value := by rfl
  exact ⟨value, hvalid, (encodeDeterministic_of_validates hvalid).1⟩

end Qzt
