import Mathlib.Data.List.Perm.Basic
import Qzt.Cbor.Value

/-!
# Reading back encoded CBOR

The parser inverts the encoder up to the order of map entries, which the encoder sorts.
The statement is about parses that succeed: budgets and nesting may still reject an
encoded value, but what is accepted is the value that was encoded (`Same`).
-/

namespace Qzt

open Foundation

/-! ## Equal up to the order of map entries -/

mutual

/-- The second value is the first one, with the entries of its maps in some order; integers are in
the range of the encoder. -/
def Same : CborValue → CborValue → Prop
  | .integer value, read => read = .integer value ∧ value < 2 ^ 64
  | .bytes bytes, read => read = .bytes bytes
  | .text text, read => read = .text text
  | .array values, read => ∃ reads, read = .array reads ∧ SameValues values reads
  | .map entries, read => ∃ reads sorted, read = .map sorted ∧ SameEntries entries reads ∧
      reads.Perm sorted
  | .bool value, read => read = .bool value
  | .null, read => read = .null

/-- Element by element. -/
def SameValues : List CborValue → List CborValue → Prop
  | [], reads => reads = []
  | value :: values, reads =>
    ∃ read rest, reads = read :: rest ∧ Same value read ∧ SameValues values rest

/-- Entry by entry. -/
def SameEntries : List (CborValue × CborValue) → List (CborValue × CborValue) → Prop
  | [], reads => reads = []
  | (key, value) :: entries, reads =>
    ∃ readKey readValue rest, reads = (readKey, readValue) :: rest ∧ Same key readKey ∧
      Same value readValue ∧ SameEntries entries rest

end

theorem sameValues_iff {values reads : List CborValue} :
    SameValues values reads ↔ List.Forall₂ Same values reads := by
  induction values generalizing reads with
  | nil => simp [SameValues]
  | cons value values ih =>
    rw [SameValues, List.forall₂_cons_left_iff]
    constructor
    · rintro ⟨read, rest, rfl, hvalue, hrest⟩
      exact ⟨read, rest, hvalue, ih.mp hrest, rfl⟩
    · rintro ⟨read, rest, hvalue, hrest, rfl⟩
      exact ⟨read, rest, rfl, hvalue, ih.mpr hrest⟩

/-- Keys and values read back. -/
def SameEntry (entry read : CborValue × CborValue) : Prop :=
  Same entry.1 read.1 ∧ Same entry.2 read.2

theorem sameEntries_iff {entries reads : List (CborValue × CborValue)} :
    SameEntries entries reads ↔ List.Forall₂ SameEntry entries reads := by
  induction entries generalizing reads with
  | nil => simp [SameEntries]
  | cons entry entries ih =>
    obtain ⟨key, value⟩ := entry
    rw [SameEntries, List.forall₂_cons_left_iff]
    constructor
    · rintro ⟨readKey, readValue, rest, rfl, hkey, hvalue, hrest⟩
      exact ⟨(readKey, readValue), rest, ⟨hkey, hvalue⟩, ih.mp hrest, rfl⟩
    · rintro ⟨read, rest, ⟨hkey, hvalue⟩, hrest, rfl⟩
      exact ⟨read.1, read.2, rest, rfl, hkey, hvalue, ih.mpr hrest⟩

/-! ## Heads -/

namespace Parser

theorem readU8_eq_ok {s s' : Parser} {byte : UInt8} (h : s.readU8 = .ok (byte, s')) :
    s.rest = byte :: s'.rest := by
  unfold readU8 at h
  split at h
  · cases h
  · rename_i hrest
    cases h
    exact hrest

theorem readExact_eq_ok {s s' : Parser} {len : Nat} {bytes : List UInt8}
    (h : s.readExact len = .ok (bytes, s')) :
    bytes = s.rest.take len ∧ s'.rest = s.rest.drop len := by
  simp only [readExact, bind_eq_ok_iff, okOr_eq_ok_iff, pure_eq_ok, Except.ok.injEq,
    Prod.mk.injEq] at h
  obtain ⟨_, -, _, -, rfl, rfl⟩ := h
  exact ⟨rfl, rfl⟩

/-- A wide argument is read back. -/
theorem readWideArgument_eq_ok {s s' : Parser} {width least value n : Nat} {tail : List UInt8}
    (hvalue : value < 256 ^ width) (hrest : s.rest = beBytes width value ++ tail)
    (h : s.readWideArgument width least = .ok (n, s')) : n = value ∧ s'.rest = tail := by
  simp only [readWideArgument, bind_eq_ok_iff, pure_eq_ok, Except.ok.injEq, Prod.mk.injEq] at h
  obtain ⟨⟨bytes, next⟩, hread, _, -, rfl, rfl⟩ := h
  obtain ⟨rfl, hdrop⟩ := readExact_eq_ok hread
  have hlen := length_beBytes width value
  rw [hrest, List.drop_left' hlen] at hdrop
  rw [hrest, List.take_left' hlen, beNat_beBytes hvalue]
  exact ⟨rfl, hdrop⟩

end Parser

/-- The bytes behind an initial byte with `additional` information, for an argument `value`: the
shortest of the five forms that holds it. -/
inductive Argument : Nat → List UInt8 → Nat → Prop where
  | short {value : Nat} (h : value ≤ 23) : Argument value [] value
  | byte {value : Nat} (hleast : 24 ≤ value) (hvalue : value ≤ 0xff) :
      Argument 24 [UInt8.ofNat value] value
  | wide {additional width least value : Nat}
      (hform : (additional, width, least) ∈
        [(25, 2, 0x100), (26, 4, 0x10000), (27, 8, 0x100000000)])
      (hleast : least ≤ value) (hvalue : value < 256 ^ width) :
      Argument additional (beBytes width value) value

theorem encodeTypeAndArgument_argument (major : Nat) {value : Nat} (hvalue : value < 2 ^ 64) :
    ∃ additional extra, additional < 32 ∧ Argument additional extra value ∧
      encodeTypeAndArgument major value = UInt8.ofNat (major * 32 + additional) :: extra ∧
      extra.length + 1 = headLen value := by
  unfold encodeTypeAndArgument headLen
  by_cases h23 : value ≤ 23
  · rw [if_pos h23, if_pos h23]
    exact ⟨value, [], by omega, .short h23, rfl, rfl⟩
  rw [if_neg h23, if_neg h23]
  by_cases h1 : value ≤ 0xff
  · rw [if_pos h1, if_pos h1]
    -- `beBytes 1` computes, up to a reduction modulo 256.
    have hone : beBytes 1 value = [UInt8.ofNat value] := by
      show [UInt8.ofNat (value % 256)] = _
      rw [Nat.mod_eq_of_lt (by omega)]
    exact ⟨24, _, by omega, .byte (by omega) h1, by rw [hone], rfl⟩
  rw [if_neg h1, if_neg h1]
  by_cases h2 : value ≤ 0xffff
  · rw [if_pos h2, if_pos h2]
    exact ⟨25, _, by omega, .wide (by simp : (25, 2, 0x100) ∈ _) (by omega) (by omega), rfl,
      by rw [length_beBytes]⟩
  rw [if_neg h2, if_neg h2]
  by_cases h4 : value ≤ 0xffffffff
  · rw [if_pos h4, if_pos h4]
    exact ⟨26, _, by omega, .wide (by simp : (26, 4, 0x10000) ∈ _) (by omega) (by omega), rfl,
      by rw [length_beBytes]⟩
  rw [if_neg h4, if_neg h4]
  exact ⟨27, _, by omega, .wide (by simp : (27, 8, 0x100000000) ∈ _) (by omega) (by omega), rfl,
    by rw [length_beBytes]⟩

/-- An argument of a wide form is read by `readWideArgument`. -/
theorem readArgument_wide {additional width least : Nat}
    (hform : (additional, width, least) ∈
      [(25, 2, 0x100), (26, 4, 0x10000), (27, 8, 0x100000000)]) (s : Parser) :
    s.readArgument additional = s.readWideArgument width least := by
  simp only [List.mem_cons, Prod.mk.injEq, List.not_mem_nil, or_false] at hform
  rcases hform with ⟨rfl, rfl, rfl⟩ | ⟨rfl, rfl, rfl⟩ | ⟨rfl, rfl, rfl⟩ <;> rfl

theorem Argument.read {additional value n : Nat} {extra tail : List UInt8} {s s' : Parser}
    (hargument : Argument additional extra value) (hrest : s.rest = extra ++ tail)
    (h : s.readArgument additional = .ok (n, s')) : n = value ∧ s'.rest = tail := by
  cases hargument with
  | short hvalue =>
    rw [Parser.readArgument, if_pos hvalue] at h
    cases h
    exact ⟨rfl, hrest⟩
  | byte hleast hvalue =>
    rw [Parser.readArgument, if_neg (by decide), if_pos rfl] at h
    simp only [bind_eq_ok_iff, pure_eq_ok, Except.ok.injEq, Prod.mk.injEq] at h
    obtain ⟨⟨byte, next⟩, hnext, _, -, rfl, rfl⟩ := h
    rw [List.singleton_append, Parser.readU8_eq_ok hnext, List.cons.injEq] at hrest
    refine ⟨?_, hrest.2⟩
    rw [hrest.1, UInt8.toNat_ofNat']
    omega
  | wide hform hleast hvalue =>
    rw [readArgument_wide hform] at h
    exact Parser.readWideArgument_eq_ok hvalue hrest h

/-- The initial byte carries the major type and the additional information. -/
theorem toNat_initial {major additional : Nat} (hmajor : major < 8) (hadditional : additional < 32) :
    (UInt8.ofNat (major * 32 + additional)).toNat / 32 = major ∧
      (UInt8.ofNat (major * 32 + additional)).toNat % 32 = additional := by
  rw [UInt8.toNat_ofNat']
  omega

/-- A head is its initial byte, which carries the major type, and the rest of the argument, which
is read back. -/
theorem encodeTypeAndArgument_spec {major value : Nat} (hmajor : major < 8)
    (hvalue : value < 2 ^ 64) :
    ∃ (initial : UInt8) (extra : List UInt8), encodeTypeAndArgument major value = initial :: extra ∧
      initial.toNat / 32 = major ∧
      ∀ {s s' : Parser} {tail : List UInt8} {n : Nat}, s.rest = extra ++ tail →
        s.readArgument (initial.toNat % 32) = .ok (n, s') → n = value ∧ s'.rest = tail := by
  obtain ⟨additional, extra, hadditional, hargument, hhead, -⟩ :=
    encodeTypeAndArgument_argument major hvalue
  obtain ⟨hdiv, hmod⟩ := toNat_initial hmajor hadditional
  refine ⟨_, extra, hhead, hdiv, ?_⟩
  intro s s' tail n hrest hread
  rw [hmod] at hread
  exact hargument.read hrest hread

/-! ## Values -/

/-- A successful parse of the encoding of `value` reads it back and stops behind it. -/
def ReadsBack (value : CborValue) : Prop :=
  ∀ {bytes : List UInt8}, encodeValue value = .ok bytes →
    ∀ {levels : Nat} {s s' : Parser} {tail : List UInt8} {read : CborValue},
      s.rest = bytes ++ tail → Parser.parseValue levels s = .ok (read, s') →
        Same value read ∧ s'.rest = tail

/-- One entry of a map and its encoding. -/
def EncodesEntry (entry : CborValue × CborValue) (encoded : List UInt8 × List UInt8) : Prop :=
  encodeValue entry.1 = .ok encoded.1 ∧ encodeValue entry.2 = .ok encoded.2

theorem encodeEntries_eq_ok {entries : List (CborValue × CborValue)}
    {encoded : List (List UInt8 × List UInt8)} (h : encodeEntries entries = .ok encoded) :
    List.Forall₂ EncodesEntry entries encoded := by
  induction entries generalizing encoded with
  | nil =>
    cases h
    exact .nil
  | cons entry entries ih =>
    obtain ⟨key, value⟩ := entry
    simp only [encodeEntries, bind_eq_ok_iff, pure_eq_ok, Except.ok.injEq] at h
    obtain ⟨keyBytes, hkey, valueBytes, hvalue, rest, hrest, rfl⟩ := h
    exact .cons ⟨hkey, hvalue⟩ (ih hrest)

section Loops

variable {levels : Nat} {s s' : Parser} {tail : List UInt8}

/-- The element loop of an array. -/
theorem parseItems_readsBack {values : List CborValue} (hvalues : ∀ v ∈ values, ReadsBack v)
    {bytes : List UInt8} (hencode : encodeValues values = .ok bytes)
    (hrest : s.rest = bytes ++ tail) {reads : List CborValue}
    (h : Parser.parseItems (Parser.parseValue levels) values.length s = .ok (reads, s')) :
    List.Forall₂ Same values reads ∧ s'.rest = tail := by
  induction values generalizing bytes s reads with
  | nil =>
    cases hencode
    cases h
    exact ⟨.nil, hrest⟩
  | cons value values ih =>
    simp only [encodeValues, bind_eq_ok_iff, pure_eq_ok, Except.ok.injEq] at hencode
    obtain ⟨head, hhead, rest, htail, rfl⟩ := hencode
    simp only [List.length_cons, Parser.parseItems, bind_eq_ok_iff, pure_eq_ok, Except.ok.injEq,
      Prod.mk.injEq] at h
    obtain ⟨⟨read, next⟩, hread, ⟨others, last⟩, hothers, rfl, rfl⟩ := h
    rw [List.append_assoc] at hrest
    obtain ⟨hsame, hnext⟩ := hvalues value List.mem_cons_self hhead hrest hread
    obtain ⟨hall, hlast⟩ := ih (fun v hv => hvalues v (List.mem_cons_of_mem _ hv)) htail hnext
      hothers
    exact ⟨.cons hsame hall, hlast⟩

/-- The entry loop of a map.  Whether the keys are in order is not asked here. -/
theorem parseEntries_readsBack {entries : List (CborValue × CborValue)}
    (hentries : ∀ entry ∈ entries, ReadsBack entry.1 ∧ ReadsBack entry.2)
    {encoded : List (List UInt8 × List UInt8)}
    (hencode : List.Forall₂ EncodesEntry entries encoded)
    (hrest : s.rest = encoded.flatMap (fun entry => entry.1 ++ entry.2) ++ tail)
    {previous : Option (List UInt8)} {reads : List (CborValue × CborValue)}
    (h : Parser.parseEntries (Parser.parseValue levels) encoded.length previous s =
      .ok (reads, s')) :
    List.Forall₂ SameEntry entries reads ∧ s'.rest = tail := by
  induction hencode generalizing s previous reads with
  | nil =>
    cases h
    exact ⟨.nil, hrest⟩
  | @cons entry pair entries encoded hpair _ ih =>
    obtain ⟨hkey, hvalue⟩ := hpair
    simp only [List.length_cons, Parser.parseEntries, bind_eq_ok_iff, pure_eq_ok, Except.ok.injEq,
      Prod.mk.injEq] at h
    obtain ⟨⟨key, afterKey⟩, hparseKey, charged, hcharge, _, -, ⟨value, afterValue⟩, hparseValue,
      ⟨others, last⟩, hothers, rfl, rfl⟩ := h
    have hsameRest : charged.rest = afterKey.rest := by
      simp only [Parser.consumeAllocation, bind_eq_ok_iff, pure_eq_ok, Except.ok.injEq] at hcharge
      obtain ⟨_, -, _, -, rfl⟩ := hcharge
      rfl
    rw [List.flatMap_cons, List.append_assoc, List.append_assoc] at hrest
    obtain ⟨hreadKey, hreadValue⟩ := hentries entry List.mem_cons_self
    obtain ⟨hkeySame, hafterKey⟩ := hreadKey hkey hrest hparseKey
    rw [← hsameRest] at hafterKey
    obtain ⟨hvalueSame, hafterValue⟩ := hreadValue hvalue hafterKey hparseValue
    obtain ⟨hall, hlast⟩ := ih (fun e he => hentries e (List.mem_cons_of_mem _ he)) hafterValue
      hothers
    exact ⟨.cons ⟨hkeySame, hvalueSame⟩ hall, hlast⟩

/-- A string after its head. -/
theorem readString_readsBack {major : Nat} (hmajor : major < 8) {bytes : List UInt8}
    (hlen : bytes.length < 2 ^ 64) :
    ∃ (initial : UInt8) (extra : List UInt8),
      encodeTypeAndArgument major bytes.length = initial :: extra ∧
      initial.toNat / 32 = major ∧
      ∀ {s s' : Parser} {tail read : List UInt8}, s.rest = extra ++ (bytes ++ tail) →
        s.readString (initial.toNat % 32) = .ok (read, s') → read = bytes ∧ s'.rest = tail := by
  obtain ⟨initial, extra, hhead, hinitial, hargument⟩ := encodeTypeAndArgument_spec hmajor hlen
  refine ⟨initial, extra, hhead, hinitial, ?_⟩
  intro s s' tail read hrest h
  simp only [Parser.readString, Parser.readLen, Parser.consumeAllocation, bind_eq_ok_iff,
    pure_eq_ok, Except.ok.injEq, u64ToUsize_eq_ok_iff] at h
  obtain ⟨⟨len, afterLen⟩, ⟨⟨n, next⟩, hread, _, -, _, ⟨-, rfl⟩, hpair⟩, charged,
    ⟨_, -, _, -, rfl⟩, hexact⟩ := h
  cases hpair
  obtain ⟨rfl, hnext⟩ := hargument hrest hread
  obtain ⟨rfl, hlast⟩ := Parser.readExact_eq_ok hexact
  simp only [hnext] at hlast ⊢
  exact ⟨List.take_left, by rw [hlast, List.drop_left]⟩

/-- How the parser goes on after the initial byte of a value, `n` levels being left. -/
def parseTyped (n major additional : Nat) (s : Parser) : Result (CborValue × Parser) :=
  match major with
  | 0 => do
    let (value, s) ← s.readArgument additional
    return (.integer value, s)
  | 1 => do
    let (value, s) ← s.readArgument additional
    return (.integer (-1 - value), s)
  | 2 => s.parseBytes additional
  | 3 => s.parseText additional
  | 4 => s.parseArray (Parser.parseValue n) additional
  | 5 => s.parseMap (Parser.parseValue n) additional
  | 6 => .error .nonCanonicalCbor
  | _ => s.parseSimple additional

theorem parseValue_eq_ok {initial : UInt8} {rest : List UInt8} (hrest : s.rest = initial :: rest)
    {read : CborValue} (h : Parser.parseValue levels s = .ok (read, s')) :
    ∃ n next, next.rest = rest ∧
      parseTyped n (initial.toNat / 32) (initial.toNat % 32) next = .ok (read, s') := by
  cases levels with
  | zero => cases h
  | succ n =>
    simp only [Parser.parseValue, bind_eq_ok_iff] at h
    obtain ⟨_, -, ⟨byte, next⟩, hbyte, hgo⟩ := h
    have hfirst := Parser.readU8_eq_ok hbyte
    simp only at hfirst
    rw [hrest, List.cons.injEq] at hfirst
    obtain ⟨rfl, rfl⟩ := hfirst
    exact ⟨n, next, rfl, hgo⟩

end Loops

/-! ## One case per kind of value -/

theorem readsBack_integer (value : Int) : ReadsBack (.integer value) := by
  intro bytes hencode levels s s' tail read hrest h
  simp only [encodeValue, bind_eq_ok_iff, okOr_eq_ok_iff, pure_eq_ok, Except.ok.injEq] at hencode
  obtain ⟨⟨major, argument⟩, hargument, rfl⟩ := hencode
  have hbound : major < 8 ∧ argument < 2 ^ 64 ∧
      (major = 0 ∧ value = argument ∨ major = 1 ∧ value = -1 - (argument : Int)) := by
    unfold integerArgument at hargument
    split at hargument <;> split at hargument <;> simp at hargument <;> omega
  obtain ⟨hmajor, hlt, hvalue⟩ := hbound
  obtain ⟨initial, extra, hhead, hinitial, hread⟩ := encodeTypeAndArgument_spec hmajor hlt
  rw [hhead, List.cons_append] at hrest
  obtain ⟨n, next, hnext, hgo⟩ := parseValue_eq_ok hrest h
  rw [hinitial] at hgo
  rcases hvalue with ⟨rfl, rfl⟩ | ⟨rfl, rfl⟩
  all_goals
    simp only [parseTyped, bind_eq_ok_iff, pure_eq_ok, Except.ok.injEq, Prod.mk.injEq] at hgo
    obtain ⟨⟨m, last⟩, hargumentRead, rfl, rfl⟩ := hgo
    obtain ⟨rfl, hlast⟩ := hread hnext hargumentRead
    exact ⟨⟨rfl, by omega⟩, hlast⟩

theorem readsBack_bytes (value : List UInt8) : ReadsBack (.bytes value) := by
  intro bytes hencode levels s s' tail read hrest h
  simp only [encodeValue, bind_eq_ok_iff, usizeToU64_eq_ok_iff, pure_eq_ok,
    Except.ok.injEq] at hencode
  obtain ⟨_, ⟨hlen, rfl⟩, rfl⟩ := hencode
  obtain ⟨initial, extra, hhead, hinitial, hread⟩ :=
    readString_readsBack (show 2 < 8 by decide) hlen
  rw [hhead, List.cons_append, List.cons_append, List.append_assoc] at hrest
  obtain ⟨n, next, hnext, hgo⟩ := parseValue_eq_ok hrest h
  rw [hinitial] at hgo
  simp only [parseTyped, Parser.parseBytes, bind_eq_ok_iff, pure_eq_ok, Except.ok.injEq,
    Prod.mk.injEq] at hgo
  obtain ⟨⟨read, last⟩, hstring, rfl, rfl⟩ := hgo
  obtain ⟨rfl, hlast⟩ := hread hnext hstring
  exact ⟨rfl, hlast⟩

theorem readsBack_text (value : String) : ReadsBack (.text value) := by
  intro bytes hencode levels s s' tail read hrest h
  simp only [encodeValue, bind_eq_ok_iff, usizeToU64_eq_ok_iff, pure_eq_ok,
    Except.ok.injEq] at hencode
  obtain ⟨_, ⟨hlen, rfl⟩, rfl⟩ := hencode
  obtain ⟨initial, extra, hhead, hinitial, hread⟩ :=
    readString_readsBack (show 3 < 8 by decide) hlen
  rw [hhead, List.cons_append, List.cons_append, List.append_assoc] at hrest
  obtain ⟨n, next, hnext, hgo⟩ := parseValue_eq_ok hrest h
  rw [hinitial] at hgo
  simp only [parseTyped, Parser.parseText, bind_eq_ok_iff, okOr_eq_ok_iff, pure_eq_ok,
    Except.ok.injEq, Prod.mk.injEq] at hgo
  obtain ⟨⟨read, last⟩, hstring, text, htext, rfl, rfl⟩ := hgo
  obtain ⟨rfl, hlast⟩ := hread hnext hstring
  rw [fromUtf8_textBytes, Option.some.injEq] at htext
  exact ⟨congrArg CborValue.text htext.symm, hlast⟩

theorem readsBack_array {values : List CborValue} (hvalues : ∀ v ∈ values, ReadsBack v) :
    ReadsBack (.array values) := by
  intro bytes hencode levels s s' tail read hrest h
  simp only [encodeValue, bind_eq_ok_iff, usizeToU64_eq_ok_iff, pure_eq_ok,
    Except.ok.injEq] at hencode
  obtain ⟨_, ⟨hlen, rfl⟩, items, hitems, rfl⟩ := hencode
  obtain ⟨initial, extra, hhead, hinitial, hread⟩ :=
    encodeTypeAndArgument_spec (show 4 < 8 by decide) hlen
  rw [hhead, List.cons_append, List.cons_append, List.append_assoc] at hrest
  obtain ⟨n, next, hnext, hgo⟩ := parseValue_eq_ok hrest h
  rw [hinitial] at hgo
  simp only [parseTyped, Parser.parseArray, Parser.readLen, bind_eq_ok_iff, pure_eq_ok,
    Except.ok.injEq, Prod.mk.injEq, u64ToUsize_eq_ok_iff] at hgo
  obtain ⟨⟨len, afterLen⟩, ⟨⟨m, afterHead⟩, hargument, _, -, _, ⟨-, rfl⟩, rfl, rfl⟩,
    ⟨reads, last⟩, hparse, rfl, rfl⟩ := hgo
  obtain ⟨rfl, hafter⟩ := hread hnext hargument
  obtain ⟨hsame, hlast⟩ := parseItems_readsBack hvalues hitems hafter hparse
  exact ⟨⟨reads, rfl, sameValues_iff.mpr hsame⟩, hlast⟩

theorem readsBack_map {entries : List (CborValue × CborValue)}
    (hentries : ∀ entry ∈ entries, ReadsBack entry.1 ∧ ReadsBack entry.2) :
    ReadsBack (.map entries) := by
  intro bytes hencode levels s s' tail read hrest h
  simp only [encodeValue, encodeSortedEntries, bind_eq_ok_iff, usizeToU64_eq_ok_iff, pure_eq_ok,
    Except.ok.injEq] at hencode
  obtain ⟨_, ⟨hlen, rfl⟩, encoded, hencoded, body, ⟨_, -, rfl⟩, rfl⟩ := hencode
  obtain ⟨initial, extra, hhead, hinitial, hread⟩ :=
    encodeTypeAndArgument_spec (show 5 < 8 by decide) hlen
  rw [hhead, List.cons_append, List.cons_append, List.append_assoc] at hrest
  obtain ⟨n, next, hnext, hgo⟩ := parseValue_eq_ok hrest h
  rw [hinitial] at hgo
  simp only [parseTyped, Parser.parseMap, Parser.readLen, bind_eq_ok_iff, pure_eq_ok,
    Except.ok.injEq, Prod.mk.injEq, u64ToUsize_eq_ok_iff] at hgo
  obtain ⟨⟨len, afterLen⟩, ⟨⟨m, afterHead⟩, hargument, _, -, _, ⟨-, rfl⟩, rfl, rfl⟩,
    ⟨sorted, last⟩, hparse, rfl, rfl⟩ := hgo
  obtain ⟨rfl, hafter⟩ := hread hnext hargument
  -- The entries in the order of their sorted encodings.
  have hforall := encodeEntries_eq_ok hencoded
  have hperm := List.perm_insertionSort keyLe encoded
  have hcomp : Relation.Comp (List.Forall₂ EncodesEntry) List.Perm entries
      (encoded.insertionSort keyLe) := ⟨encoded, hforall, hperm.symm⟩
  rw [List.forall₂_comp_perm_eq_perm_comp_forall₂] at hcomp
  obtain ⟨ordered, horderedPerm, hordered⟩ := hcomp
  have hlength : (encoded.insertionSort keyLe).length = entries.length := by
    rw [hperm.length_eq, hforall.length_eq]
  rw [← hlength] at hparse
  obtain ⟨hsame, hlast⟩ := parseEntries_readsBack
    (fun entry hentry => hentries entry (horderedPerm.symm.subset hentry)) hordered hafter hparse
  obtain ⟨reads, hreads, hreadsPerm⟩ := List.perm_comp_forall₂ horderedPerm hsame
  exact ⟨⟨reads, sorted, rfl, sameEntries_iff.mpr hreads, hreadsPerm⟩, hlast⟩

theorem readsBack_bool (value : Bool) : ReadsBack (.bool value) := by
  intro bytes hencode levels s s' tail read hrest h
  cases value
  all_goals
    cases hencode
    obtain ⟨n, next, hnext, hgo⟩ := parseValue_eq_ok hrest h
    cases hgo
    exact ⟨rfl, hnext⟩

theorem readsBack_null : ReadsBack .null := by
  intro bytes hencode levels s s' tail read hrest h
  cases hencode
  obtain ⟨n, next, hnext, hgo⟩ := parseValue_eq_ok hrest h
  cases hgo
  exact ⟨rfl, hnext⟩

mutual

/-- A successful parse of an encoded value reads the value back. -/
theorem readsBack : (value : CborValue) → ReadsBack value
  | .integer value => readsBack_integer value
  | .bytes value => readsBack_bytes value
  | .text value => readsBack_text value
  | .array values => readsBack_array (readsBack_values values)
  | .map entries => readsBack_map (readsBack_entries entries)
  | .bool value => readsBack_bool value
  | .null => readsBack_null

theorem readsBack_values : (values : List CborValue) → ∀ v ∈ values, ReadsBack v
  | [] => by simp
  | value :: values => by
    rw [List.forall_mem_cons]
    exact ⟨readsBack value, readsBack_values values⟩

theorem readsBack_entries : (entries : List (CborValue × CborValue)) →
    ∀ entry ∈ entries, ReadsBack entry.1 ∧ ReadsBack entry.2
  | [] => by simp
  | (key, value) :: entries => by
    rw [List.forall_mem_cons]
    exact ⟨⟨readsBack key, readsBack value⟩, readsBack_entries entries⟩

end

/-- What validation accepts of an encoded value is the value. -/
theorem validateDeterministicWithLimits_same {value read : CborValue} {bytes : List UInt8}
    {limits : CborLimits} (hencode : encodeDeterministic value = .ok bytes)
    (h : validateDeterministicWithLimits bytes limits = .ok read) : Same value read := by
  simp only [validateDeterministicWithLimits, bind_eq_ok_iff, pure_eq_ok, Except.ok.injEq] at h
  obtain ⟨⟨parsed, s⟩, hparse, _, -, rfl⟩ := h
  have hread := readsBack value hencode (List.append_nil bytes).symm hparse
  exact hread.1

end Qzt
