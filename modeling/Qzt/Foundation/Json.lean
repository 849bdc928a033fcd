import Mathlib.Data.List.Basic
import Mathlib.Data.List.Forall2
import Mathlib.Data.List.TakeWhile
import Mathlib.Tactic.Common

/-!
# JSON texts

A reader of JSON texts, with white space, escapes and surrogate pairs, and rules for what it reads:
one for each form of a value.  A program that puts its JSON together from pieces shows by these
rules that the whole is read, and as what.  Numbers are kept by their text.
-/

namespace Foundation

/-- A JSON value. -/
inductive Json where
  | null
  | bool (value : Bool)
  | num (text : List Char)
  | str (value : List Char)
  | arr (items : List Json)
  | obj (members : List (List Char × Json))

namespace Json

/-! ## The reader -/

/-- White space between tokens. -/
def isSpace (c : Char) : Bool :=
  c == ' ' || c == '\t' || c == '\n' || c == '\r'

def skipSpace (text : List Char) : List Char :=
  text.dropWhile isSpace

/-- The value of a hexadecimal digit. -/
def hexDigit (c : Char) : Option Nat :=
  if '0' ≤ c ∧ c ≤ '9' then some (c.toNat - '0'.toNat)
  else if 'a' ≤ c ∧ c ≤ 'f' then some (c.toNat - 'a'.toNat + 10)
  else if 'A' ≤ c ∧ c ≤ 'F' then some (c.toNat - 'A'.toNat + 10)
  else none

/-- The code unit of an escape. -/
def codeUnit (a b c d : Char) : Option Nat := do
  let a ← hexDigit a
  let b ← hexDigit b
  let c ← hexDigit c
  let d ← hexDigit d
  return ((a * 16 + b) * 16 + c) * 16 + d

/-- The character that a letter stands for behind a backslash. -/
def escapeLetter (c : Char) : Option Char :=
  match c with
  | '"' => some '"'
  | '\\' => some '\\'
  | '/' => some '/'
  | 'b' => some (Char.ofNat 8)
  | 'f' => some (Char.ofNat 12)
  | 'n' => some '\n'
  | 'r' => some '\r'
  | 't' => some '\t'
  | _ => none

/-- The characters of a string up to its closing quote, and what follows it. -/
def readString : List Char → Option (List Char × List Char)
  | [] => none
  | '"' :: rest => some ([], rest)
  | '\\' :: 'u' :: a :: b :: c :: d :: rest => do
    let unit ← codeUnit a b c d
    if 0xd800 ≤ unit ∧ unit < 0xdc00 then
      match rest with
      | '\\' :: 'u' :: e :: f :: g :: h :: rest => do
        let low ← codeUnit e f g h
        if 0xdc00 ≤ low ∧ low < 0xe000 then do
          let (chars, rest) ← readString rest
          return (Char.ofNat (0x10000 + (unit - 0xd800) * 0x400 + (low - 0xdc00)) :: chars, rest)
        else none
      | _ => none
    else if 0xdc00 ≤ unit ∧ unit < 0xe000 then none
    else do
      let (chars, rest) ← readString rest
      return (Char.ofNat unit :: chars, rest)
  | '\\' :: c :: rest => do
    let c ← escapeLetter c
    let (chars, rest) ← readString rest
    return (c :: chars, rest)
  | c :: rest =>
    if c.toNat < 0x20 ∨ c = '\\' then none
    else do
      let (chars, rest) ← readString rest
      return (c :: chars, rest)

/-- A character of a number. -/
def isNumberChar (c : Char) : Bool :=
  c.isDigit || c == '-' || c == '+' || c == '.' || c == 'e' || c == 'E'

/-- What follows a run of digits that is not empty. -/
def skipDigits (text : List Char) : Option (List Char) :=
  if text.head?.any Char.isDigit then some (text.dropWhile Char.isDigit) else none

/-- What follows the integer part: a zero, or digits that start with another one. -/
def skipInteger (text : List Char) : Option (List Char) :=
  match text with
  | '0' :: rest => some rest
  | _ => skipDigits text

def skipFraction (text : List Char) : Option (List Char) :=
  match text with
  | '.' :: rest => skipDigits rest
  | _ => some text

def skipExponent (text : List Char) : Option (List Char) :=
  match text with
  | c :: rest =>
    if c = 'e' ∨ c = 'E' then
      match rest with
      | s :: digits => if s = '+' ∨ s = '-' then skipDigits digits else skipDigits rest
      | [] => none
    else some text
  | [] => some []

/-- The text of a number, all of it. -/
def isNumber (text : List Char) : Bool :=
  let magnitude := if text.head? = some '-' then text.tail else text
  (((skipInteger magnitude).bind skipFraction).bind skipExponent) == some []

/-- A number is as long as its characters go on. -/
def readNumber (text : List Char) : Option (List Char × List Char) :=
  let number := text.takeWhile isNumberChar
  if isNumber number then some (number, text.dropWhile isNumberChar) else none

mutual

/-- A value, and what follows it. -/
def readValue : Nat → List Char → Option (Json × List Char)
  | 0, _ => none
  | fuel + 1, text =>
    match skipSpace text with
    | 'n' :: 'u' :: 'l' :: 'l' :: rest => some (.null, rest)
    | 't' :: 'r' :: 'u' :: 'e' :: rest => some (.bool true, rest)
    | 'f' :: 'a' :: 'l' :: 's' :: 'e' :: rest => some (.bool false, rest)
    | '"' :: rest => do
      let (value, rest) ← readString rest
      return (.str value, rest)
    | '[' :: rest => do
      let (items, rest) ← readItems fuel rest
      return (.arr items, rest)
    | '\x7b' :: rest => do
      let (members, rest) ← readMembers fuel rest
      return (.obj members, rest)
    | text => do
      let (number, rest) ← readNumber text
      return (.num number, rest)

/-- The items up to the closing bracket. -/
def readItems : Nat → List Char → Option (List Json × List Char)
  | 0, _ => none
  | fuel + 1, text =>
    match skipSpace text with
    | ']' :: rest => some ([], rest)
    | _ => do
      let (item, rest) ← readValue fuel text
      let (items, rest) ← readMoreItems fuel rest
      return (item :: items, rest)

/-- The items behind an item. -/
def readMoreItems : Nat → List Char → Option (List Json × List Char)
  | 0, _ => none
  | fuel + 1, text =>
    match skipSpace text with
    | ']' :: rest => some ([], rest)
    | ',' :: rest => do
      let (item, rest) ← readValue fuel rest
      let (items, rest) ← readMoreItems fuel rest
      return (item :: items, rest)
    | _ => none

/-- The members up to the closing brace. -/
def readMembers : Nat → List Char → Option (List (List Char × Json) × List Char)
  | 0, _ => none
  | fuel + 1, text =>
    match skipSpace text with
    | '\x7d' :: rest => some ([], rest)
    | _ => do
      let (member, rest) ← readMember fuel text
      let (members, rest) ← readMoreMembers fuel rest
      return (member :: members, rest)

/-- The members behind a member. -/
def readMoreMembers : Nat → List Char → Option (List (List Char × Json) × List Char)
  | 0, _ => none
  | fuel + 1, text =>
    match skipSpace text with
    | '\x7d' :: rest => some ([], rest)
    | ',' :: rest => do
      let (member, rest) ← readMember fuel rest
      let (members, rest) ← readMoreMembers fuel rest
      return (member :: members, rest)
    | _ => none

/-- A key and its value. -/
def readMember : Nat → List Char → Option ((List Char × Json) × List Char)
  | 0, _ => none
  | fuel + 1, text =>
    match skipSpace text with
    | '"' :: rest => do
      let (key, rest) ← readString rest
      match skipSpace rest with
      | ':' :: rest => do
        let (value, rest) ← readValue fuel rest
        return ((key, value), rest)
      | _ => none
    | _ => none

end

/-- A text that is one value, with white space around it. -/
def parse (text : List Char) : Option Json := do
  let (value, rest) ← readValue (3 * text.length + 1) text
  if skipSpace rest = [] then return value else none

/-! ## What is read -/

section Rules

/-- The text ends a number in front of it. -/
def Ends (text : List Char) : Prop :=
  ∀ c, text.head? = some c → isNumberChar c = false

theorem ends_nil : Ends [] := by
  rintro c ⟨⟩

theorem ends_cons {c : Char} {text : List Char} (h : isNumberChar c = false) : Ends (c :: text) := by
  rintro _ ⟨⟩
  exact h

theorem Ends.append {text : List Char} (h : Ends text) (hne : text ≠ []) (rest : List Char) :
    Ends (text ++ rest) := by
  cases text with
  | nil => exact absurd rfl hne
  | cons c text =>
    rintro _ ⟨⟩
    exact h c rfl

/-- Only white space. -/
def Blank (text : List Char) : Prop :=
  ∀ c ∈ text, isSpace c = true

theorem skipSpace_cons {c : Char} (h : isSpace c = false) (text : List Char) :
    skipSpace (c :: text) = c :: text := by
  rw [skipSpace, List.dropWhile_cons_of_neg (by rw [h]; exact Bool.false_ne_true)]

theorem Blank.skipSpace {blank : List Char} (h : Blank blank) (text : List Char) :
    skipSpace (blank ++ text) = skipSpace text := by
  induction blank with
  | nil => rfl
  | cons c blank ih =>
    obtain ⟨hc, hrest⟩ := List.forall_mem_cons.mp h
    rw [Json.skipSpace, List.cons_append, List.dropWhile_cons_of_pos hc]
    exact ih hrest

/-- The text is read as the value, wherever it stands. -/
def Reads (text : List Char) (value : Json) : Prop :=
  ∀ fuel rest, 3 * text.length ≤ fuel → Ends rest →
    readValue fuel (text ++ rest) = some (value, rest)

/-- The text, up to a quote, is read as the characters. -/
def ReadsString (text chars : List Char) : Prop :=
  ∀ rest, readString (text ++ '"' :: rest) = some (chars, rest)

/-- The text, with the closing bracket, is read as items that follow an item. -/
structure ReadsMoreItems (text : List Char) (items : List Json) : Prop where
  nonempty : text ≠ []
  ends : Ends text
  read : ∀ fuel rest, 3 * text.length ≤ fuel → readMoreItems fuel (text ++ rest) = some (items, rest)

/-- The text, with the closing brace, is read as members that follow a member. -/
structure ReadsMoreMembers (text : List Char) (members : List (List Char × Json)) : Prop where
  nonempty : text ≠ []
  ends : Ends text
  read : ∀ fuel rest, 3 * text.length ≤ fuel →
    readMoreMembers fuel (text ++ rest) = some (members, rest)

theorem Reads.blank {blank text : List Char} {value : Json} (hblank : Blank blank)
    (h : Reads text value) : Reads (blank ++ text) value := by
  intro fuel rest hfuel hends
  rw [List.length_append] at hfuel
  have hread := h fuel rest (by omega) hends
  cases fuel with
  | zero => exact hread
  | succ fuel =>
    rw [readValue] at hread ⊢
    rw [List.append_assoc, hblank.skipSpace]
    exact hread

theorem reads_null : Reads ['n', 'u', 'l', 'l'] .null := by
  intro fuel rest hfuel _
  cases fuel with
  | zero => exact absurd hfuel (by decide)
  | succ fuel => rfl

theorem reads_bool (value : Bool) :
    Reads (if value then ['t', 'r', 'u', 'e'] else ['f', 'a', 'l', 's', 'e']) (.bool value) := by
  intro fuel rest hfuel _
  cases fuel with
  | zero => cases value <;> exact absurd hfuel (by decide)
  | succ fuel => cases value <;> rfl

theorem ReadsString.reads {text chars : List Char} (h : ReadsString text chars) :
    Reads ('"' :: (text ++ ['"'])) (.str chars) := by
  intro fuel rest hfuel _
  cases fuel with
  | zero => exact absurd hfuel (by simp)
  | succ fuel =>
    have hread := h rest
    rw [readValue, List.cons_append, skipSpace_cons (by decide), List.append_assoc]
    change (readString (text ++ '"' :: rest)).bind _ = _
    rw [hread]
    rfl

/-- The text of a number. -/
structure IsNumber (text : List Char) : Prop where
  number : isNumber text = true
  chars : ∀ c ∈ text, isNumberChar c = true

/-- A character of a number starts no other token. -/
theorem isNumberChar_start {c : Char} (h : isNumberChar c = true) :
    isSpace c = false ∧ c ∉ ['n', 't', 'f', '"', '[', '\x7b'] := by
  have hall : ∀ other ∈ [' ', '\t', '\n', '\r', 'n', 't', 'f', '"', '[', '\x7b'],
      isNumberChar other = false := by
    simp only [List.forall_mem_cons, List.not_mem_nil, false_implies, implies_true, and_true]
    decide
  have hne : ∀ other ∈ [' ', '\t', '\n', '\r', 'n', 't', 'f', '"', '[', '\x7b'], c ≠ other := by
    rintro other hother rfl
    exact absurd ((hall c hother).symm.trans h) Bool.false_ne_true
  simp only [List.forall_mem_cons, List.not_mem_nil, false_implies, implies_true, and_true] at hne
  obtain ⟨hspace, htab, hfeed, hreturn, hothers⟩ := hne
  refine ⟨?_, ?_⟩
  · rw [isSpace]
    simp only [beq_eq_false_iff_ne.mpr hspace, beq_eq_false_iff_ne.mpr htab,
      beq_eq_false_iff_ne.mpr hfeed, beq_eq_false_iff_ne.mpr hreturn, Bool.or_self]
  · simp only [List.mem_cons, List.not_mem_nil, or_false, not_or]
    exact hothers

theorem IsNumber.readNumber {text rest : List Char} (h : IsNumber text) (hends : Ends rest) :
    readNumber (text ++ rest) = some (text, rest) := by
  have hstop : rest.takeWhile isNumberChar = [] ∧ rest.dropWhile isNumberChar = rest := by
    cases rest with
    | nil => exact ⟨rfl, rfl⟩
    | cons c rest =>
      have hc := hends c rfl
      exact ⟨List.takeWhile_cons_of_neg (by rw [hc]; exact Bool.false_ne_true),
        List.dropWhile_cons_of_neg (by rw [hc]; exact Bool.false_ne_true)⟩
  rw [Json.readNumber, List.takeWhile_append_of_pos h.chars, List.dropWhile_append_of_pos h.chars,
    hstop.1, hstop.2, List.append_nil]
  exact if_pos h.number

theorem IsNumber.reads {text : List Char} (h : IsNumber text) : Reads text (.num text) := by
  intro fuel rest hfuel hends
  have hread := h.readNumber hends
  cases text with
  | nil => exact absurd h.number (by decide)
  | cons c text =>
    cases fuel with
    | zero => exact absurd hfuel (by simp)
    | succ fuel =>
      obtain ⟨hspace, hstart⟩ := isNumberChar_start (h.chars c List.mem_cons_self)
      simp only [List.mem_cons, List.not_mem_nil, or_false, not_or] at hstart
      obtain ⟨hn, ht, hf, hquote, hbracket, hbrace⟩ := hstart
      rw [readValue, List.cons_append, skipSpace_cons hspace]
      rw [List.cons_append] at hread
      split
      case h_1 heq => exact absurd (List.cons.inj heq).1 hn
      case h_2 heq => exact absurd (List.cons.inj heq).1 ht
      case h_3 heq => exact absurd (List.cons.inj heq).1 hf
      case h_4 heq => exact absurd (List.cons.inj heq).1 hquote
      case h_5 heq => exact absurd (List.cons.inj heq).1 hbracket
      case h_6 heq => exact absurd (List.cons.inj heq).1 hbrace
      case h_7 =>
        rw [hread]
        rfl

/-- The digits of a whole number, without leading zeros. -/
structure IsDigits (text : List Char) : Prop where
  digits : ∀ c ∈ text, c.isDigit = true
  head : text = ['0'] ∨ ∃ c, text.head? = some c ∧ c ≠ '0'

theorem isNumberChar_of_isDigit {c : Char} (h : c.isDigit = true) : isNumberChar c = true := by
  rw [isNumberChar, h]
  rfl

theorem IsDigits.skipInteger {text : List Char} (h : IsDigits text) : skipInteger text = some [] := by
  obtain rfl | ⟨c, hhead, hzero⟩ := h.head
  · rfl
  · cases text with
    | nil => cases hhead
    | cons d text =>
      obtain rfl : d = c := Option.some.inj hhead
      have hall : (d :: text).dropWhile Char.isDigit = [] := List.dropWhile_eq_nil_iff.mpr h.digits
      have hdigits : skipDigits (d :: text) = some [] := by
        rw [skipDigits, hall]
        exact if_pos (h.digits d List.mem_cons_self)
      unfold Json.skipInteger
      split
      case h_1 heq => exact absurd (List.cons.inj heq).1 hzero
      case h_2 => exact hdigits

theorem IsDigits.number {text : List Char} (h : IsDigits text) : IsNumber text where
  number := by
    have hsign : text.head? ≠ some '-' := by
      intro hhead
      have hdigit := h.digits '-' (List.mem_of_mem_head? hhead)
      cases hdigit
    rw [isNumber]
    simp only [if_neg hsign, h.skipInteger]
    rfl
  chars := fun c hc => isNumberChar_of_isDigit (h.digits c hc)

theorem IsDigits.negated {text : List Char} (h : IsDigits text) : IsNumber ('-' :: text) where
  number := by
    rw [isNumber]
    simp only [List.head?_cons, if_true, List.tail_cons, h.skipInteger]
    rfl
  chars := by
    intro c hc
    obtain rfl | hc := List.mem_cons.mp hc
    · rfl
    · exact isNumberChar_of_isDigit (h.digits c hc)

/-! ### Items and members -/

theorem Blank.ends {blank : List Char} (h : Blank blank) {text : List Char} (hends : Ends text) :
    Ends (blank ++ text) := by
  cases blank with
  | nil => exact hends
  | cons c blank =>
    apply ends_cons
    by_contra hnumber
    have hspace := h c List.mem_cons_self
    rw [(isNumberChar_start (Bool.of_not_eq_false hnumber)).1] at hspace
    cases hspace

theorem ReadsMoreItems.close {blank : List Char} (hblank : Blank blank) :
    ReadsMoreItems (blank ++ [']']) [] where
  nonempty := List.append_ne_nil_of_right_ne_nil _ (List.cons_ne_nil _ _)
  ends := hblank.ends (ends_cons (by decide))
  read := by
    intro fuel rest hfuel
    cases fuel with
    | zero => exact absurd hfuel (by simp)
    | succ fuel =>
      rw [readMoreItems, List.append_assoc, hblank.skipSpace]
      rfl

theorem ReadsMoreItems.cons {text more : List Char} {item : Json} {items : List Json}
    (hitem : Reads text item) (hmore : ReadsMoreItems more items) :
    ReadsMoreItems (',' :: (text ++ more)) (item :: items) where
  nonempty := List.cons_ne_nil _ _
  ends := ends_cons (by decide)
  read := by
    intro fuel rest hfuel
    rw [List.length_cons, List.length_append] at hfuel
    cases fuel with
    | zero => exact absurd hfuel (by omega)
    | succ fuel =>
      have hread := hitem fuel (more ++ rest) (by omega) (hmore.ends.append hmore.nonempty rest)
      rw [readMoreItems, List.cons_append, skipSpace_cons (by decide), List.append_assoc]
      change (readValue fuel (text ++ (more ++ rest))).bind _ = _
      rw [hread]
      change (readMoreItems fuel (more ++ rest)).bind _ = _
      rw [hmore.read fuel rest (by omega)]
      rfl

theorem reads_emptyArray : Reads ['[', ']'] (.arr []) := by
  intro fuel rest hfuel _
  cases fuel with
  | zero => exact absurd hfuel (by decide)
  | succ fuel =>
    cases fuel with
    | zero => exact absurd hfuel (by decide)
    | succ fuel => rfl

/-- No value starts with a closing bracket. -/
theorem readValue_bracket {fuel : Nat} {text rest : List Char} (h : skipSpace text = ']' :: rest) :
    readValue fuel text = none := by
  cases fuel with
  | zero => rfl
  | succ fuel =>
    rw [readValue, h]
    rfl

theorem ReadsMoreItems.array {text more : List Char} {item : Json} {items : List Json}
    (hitem : Reads text item) (hmore : ReadsMoreItems more items) :
    Reads ('[' :: (text ++ more)) (.arr (item :: items)) := by
  intro fuel rest hfuel _
  rw [List.length_cons, List.length_append] at hfuel
  cases fuel with
  | zero => exact absurd hfuel (by omega)
  | succ fuel =>
    cases fuel with
    | zero => exact absurd hfuel (by omega)
    | succ fuel =>
      have hread := hitem fuel (more ++ rest) (by omega) (hmore.ends.append hmore.nonempty rest)
      have hitems : readItems (fuel + 1) (text ++ (more ++ rest)) = some (item :: items, rest) := by
        rw [readItems]
        split
        case h_1 hclose =>
          rw [readValue_bracket hclose] at hread
          cases hread
        case h_2 =>
          rw [hread]
          change (readMoreItems fuel (more ++ rest)).bind _ = _
          rw [hmore.read fuel rest (by omega)]
          rfl
      rw [readValue, List.cons_append, skipSpace_cons (by decide), List.append_assoc]
      change (readItems (fuel + 1) (text ++ (more ++ rest))).bind _ = _
      rw [hitems]
      rfl

/-- The text is read as a member. -/
def ReadsMember (text : List Char) (member : List Char × Json) : Prop :=
  ∀ fuel rest, 3 * text.length ≤ fuel → Ends rest →
    readMember fuel (text ++ rest) = some (member, rest)

theorem Reads.member {blank key keyText text : List Char} {value : Json} (hblank : Blank blank)
    (hkey : ReadsString keyText key) (h : Reads text value) :
    ReadsMember (blank ++ '"' :: (keyText ++ '"' :: ':' :: text)) (key, value) := by
  intro fuel rest hfuel hends
  simp only [List.length_append, List.length_cons] at hfuel
  cases fuel with
  | zero => exact absurd hfuel (by omega)
  | succ fuel =>
    have hvalue := h fuel rest (by omega) hends
    rw [readMember, List.append_assoc, hblank.skipSpace, List.cons_append,
      skipSpace_cons (by decide), List.append_assoc]
    change (readString (keyText ++ '"' :: ':' :: (text ++ rest))).bind _ = _
    rw [hkey (':' :: (text ++ rest))]
    change (readValue fuel (text ++ rest)).bind _ = _
    rw [hvalue]
    rfl

theorem ReadsMoreMembers.close {blank : List Char} (hblank : Blank blank) :
    ReadsMoreMembers (blank ++ ['\x7d']) [] where
  nonempty := List.append_ne_nil_of_right_ne_nil _ (List.cons_ne_nil _ _)
  ends := hblank.ends (ends_cons (by decide))
  read := by
    intro fuel rest hfuel
    cases fuel with
    | zero => exact absurd hfuel (by simp)
    | succ fuel =>
      rw [readMoreMembers, List.append_assoc, hblank.skipSpace]
      rfl

theorem ReadsMoreMembers.cons {text more : List Char} {member : List Char × Json}
    {members : List (List Char × Json)} (hmember : ReadsMember text member)
    (hmore : ReadsMoreMembers more members) :
    ReadsMoreMembers (',' :: (text ++ more)) (member :: members) where
  nonempty := List.cons_ne_nil _ _
  ends := ends_cons (by decide)
  read := by
    intro fuel rest hfuel
    rw [List.length_cons, List.length_append] at hfuel
    cases fuel with
    | zero => exact absurd hfuel (by omega)
    | succ fuel =>
      have hread := hmember fuel (more ++ rest) (by omega) (hmore.ends.append hmore.nonempty rest)
      rw [readMoreMembers, List.cons_append, skipSpace_cons (by decide), List.append_assoc]
      change (readMember fuel (text ++ (more ++ rest))).bind _ = _
      rw [hread]
      change (readMoreMembers fuel (more ++ rest)).bind _ = _
      rw [hmore.read fuel rest (by omega)]
      rfl

theorem reads_emptyObject : Reads ['\x7b', '\x7d'] (.obj []) := by
  intro fuel rest hfuel _
  cases fuel with
  | zero => exact absurd hfuel (by decide)
  | succ fuel =>
    cases fuel with
    | zero => exact absurd hfuel (by decide)
    | succ fuel => rfl

/-- No member starts with a closing brace. -/
theorem readMember_brace {fuel : Nat} {text rest : List Char} (h : skipSpace text = '\x7d' :: rest) :
    readMember fuel text = none := by
  cases fuel with
  | zero => rfl
  | succ fuel =>
    rw [readMember, h]
    rfl

theorem ReadsMoreMembers.object {text more : List Char} {member : List Char × Json}
    {members : List (List Char × Json)} (hmember : ReadsMember text member)
    (hmore : ReadsMoreMembers more members) :
    Reads ('\x7b' :: (text ++ more)) (.obj (member :: members)) := by
  intro fuel rest hfuel _
  rw [List.length_cons, List.length_append] at hfuel
  cases fuel with
  | zero => exact absurd hfuel (by omega)
  | succ fuel =>
    cases fuel with
    | zero => exact absurd hfuel (by omega)
    | succ fuel =>
      have hread := hmember fuel (more ++ rest) (by omega) (hmore.ends.append hmore.nonempty rest)
      have hmembers : readMembers (fuel + 1) (text ++ (more ++ rest)) =
          some (member :: members, rest) := by
        rw [readMembers]
        split
        case h_1 hclose =>
          rw [readMember_brace hclose] at hread
          cases hread
        case h_2 =>
          rw [hread]
          change (readMoreMembers fuel (more ++ rest)).bind _ = _
          rw [hmore.read fuel rest (by omega)]
          rfl
      rw [readValue, List.cons_append, skipSpace_cons (by decide), List.append_assoc]
      change (readMembers (fuel + 1) (text ++ (more ++ rest))).bind _ = _
      rw [hmembers]
      rfl

/-! ### Strings -/

/-- The text is read as one character of a string. -/
def ReadsChar (text : List Char) (c : Char) : Prop :=
  ∀ rest, readString (text ++ rest) =
    (readString rest).bind fun found => some (c :: found.1, found.2)

theorem readsString_flatMap {write : Char → List Char} (h : ∀ c, ReadsChar (write c) c)
    (chars : List Char) : ReadsString (chars.flatMap write) chars := by
  intro rest
  induction chars with
  | nil => rfl
  | cons c chars ih =>
    rw [List.flatMap_cons, List.append_assoc, h c, ih]
    rfl

theorem readsChar_letter {letter c : Char} (h : escapeLetter letter = some c) :
    ReadsChar ['\\', letter] c := by
  intro rest
  have hletter : letter ≠ 'u' := by
    rintro rfl
    cases h
  have hread : readString ('\\' :: letter :: rest) = (escapeLetter letter).bind fun found =>
      (readString rest).bind fun behind => some (found :: behind.1, behind.2) := by
    rw [readString.eq_def]
    split
    case h_1 heq => cases heq
    case h_2 heq => exact absurd (List.cons.inj heq).1 (by decide)
    case h_3 heq =>
      obtain ⟨-, htail⟩ := List.cons.inj heq
      exact absurd (List.cons.inj htail).1 hletter
    case h_4 heq =>
      obtain ⟨-, htail⟩ := List.cons.inj heq
      obtain ⟨rfl, rfl⟩ := List.cons.inj htail
      rfl
    case h_5 _ hno heq =>
      obtain ⟨rfl, rfl⟩ := List.cons.inj heq
      exact absurd rfl (hno letter rest rfl)
  rw [List.cons_append, List.singleton_append, hread, h]
  rfl

theorem readsChar_unit {a b c d : Char} {unit : Nat} (h : codeUnit a b c d = some unit)
    (hscalar : unit < 0xd800 ∨ 0xe000 ≤ unit) :
    ReadsChar ['\\', 'u', a, b, c, d] (Char.ofNat unit) := by
  intro rest
  simp only [List.cons_append, List.nil_append]
  rw [readString]
  change (codeUnit a b c d).bind _ = _
  rw [h]
  change (if 0xd800 ≤ unit ∧ unit < 0xdc00 then _ else _) = _
  rw [if_neg (by omega), if_neg (by omega)]
  rfl

theorem readsChar_plain {c : Char} (hquote : c ≠ '"') (hbackslash : c ≠ '\\')
    (hcontrol : 0x20 ≤ c.toNat) : ReadsChar [c] c := by
  intro rest
  rw [List.singleton_append, readString.eq_def]
  split
  case h_1 heq => cases heq
  case h_2 heq => exact absurd (List.cons.inj heq).1 hquote
  case h_3 heq => exact absurd (List.cons.inj heq).1 hbackslash
  case h_4 heq => exact absurd (List.cons.inj heq).1 hbackslash
  case h_5 heq =>
    obtain ⟨rfl, rfl⟩ := List.cons.inj heq
    rw [if_neg (by rw [not_or]; exact ⟨Nat.not_lt.mpr hcontrol, hbackslash⟩)]
    rfl

/-- A text without quotes, backslashes and control characters. -/
def isPlain (text : List Char) : Bool :=
  text.all fun c => c != '"' && c != '\\' && decide (0x20 ≤ c.toNat)

theorem readsString_plain {text : List Char} (h : isPlain text = true) : ReadsString text text := by
  induction text with
  | nil => exact fun _ => rfl
  | cons c text ih =>
    rw [isPlain, List.all_cons, Bool.and_eq_true, Bool.and_eq_true, Bool.and_eq_true, bne_iff_ne,
      bne_iff_ne, decide_eq_true_eq] at h
    obtain ⟨⟨⟨hquote, hbackslash⟩, hcontrol⟩, htext⟩ := h
    intro rest
    have hread := readsChar_plain hquote hbackslash hcontrol (text ++ '"' :: rest)
    rw [List.singleton_append, ih htext] at hread
    exact hread

/-! ### Whole objects and arrays -/

/-- A member of an object, as it is written and as it is read. -/
structure Member where
  blank : List Char
  key : List Char
  text : List Char
  value : Json
  isBlank : Blank blank
  plainKey : isPlain key = true
  reads : Reads text value

def Member.write (self : Member) : List Char :=
  self.blank ++ '"' :: (self.key ++ '"' :: ':' :: self.text)

def Member.pair (self : Member) : List Char × Json :=
  (self.key, self.value)

theorem Member.readsMember (self : Member) : ReadsMember self.write self.pair :=
  self.reads.member self.isBlank (readsString_plain self.plainKey)

/-- The members behind the first one, and the closing brace. -/
def writeMoreMembers (more : List Member) (close : List Char) : List Char :=
  more.flatMap (fun member => ',' :: member.write) ++ (close ++ ['\x7d'])

theorem readsMoreMembers (more : List Member) {close : List Char} (hclose : Blank close) :
    ReadsMoreMembers (writeMoreMembers more close) (more.map Member.pair) := by
  induction more with
  | nil => exact .close hclose
  | cons member more ih =>
    rw [writeMoreMembers, List.flatMap_cons, List.cons_append, List.cons_append, List.append_assoc]
    exact .cons member.readsMember ih

theorem reads_object (first : Member) (more : List Member) {close : List Char}
    (hclose : Blank close) :
    Reads ('\x7b' :: (first.write ++ writeMoreMembers more close))
      (.obj ((first :: more).map Member.pair)) :=
  ReadsMoreMembers.object first.readsMember (readsMoreMembers more hclose)

/-- An item, with a comma in front of it unless it is the first one. -/
def separatedItem (item : List Char × Nat) : List Char :=
  (if item.2 > 0 then [','] else []) ++ item.1

/-- The items with commas between them. -/
def separated (items : List (List Char)) : List Char :=
  items.zipIdx.flatMap separatedItem

theorem flatMap_separatedItem (items : List (List Char)) {start : Nat} (hstart : 0 < start) :
    (items.zipIdx start).flatMap separatedItem = items.flatMap (fun item => ',' :: item) := by
  induction items generalizing start with
  | nil => rfl
  | cons item items ih =>
    rw [List.zipIdx_cons, List.flatMap_cons, List.flatMap_cons, ih (Nat.succ_pos start),
      separatedItem, if_pos hstart]
    rfl

theorem separated_cons (item : List Char) (items : List (List Char)) :
    separated (item :: items) = item ++ items.flatMap (fun item => ',' :: item) := by
  rw [separated, List.zipIdx_cons, List.flatMap_cons, flatMap_separatedItem items (Nat.succ_pos 0)]
  rfl

theorem readsMoreItems {texts : List (List Char)} {values : List Json}
    (h : List.Forall₂ Reads texts values) :
    ReadsMoreItems (texts.flatMap (fun item => ',' :: item) ++ [']']) values := by
  induction h with
  | nil => exact ReadsMoreItems.close (fun _ => List.not_mem_nil.elim)
  | cons hitem _ ih =>
    rw [List.flatMap_cons, List.cons_append, List.cons_append, List.append_assoc]
    exact .cons hitem ih

theorem reads_array {texts : List (List Char)} {values : List Json}
    (h : List.Forall₂ Reads texts values) :
    Reads ('[' :: (separated texts ++ [']'])) (.arr values) := by
  cases h with
  | nil => exact reads_emptyArray
  | cons hitem hitems =>
    rw [separated_cons, List.append_assoc]
    exact ReadsMoreItems.array hitem (readsMoreItems hitems)

/-- An array whose items are written alike. -/
theorem reads_map {α : Type} {write : α → List Char} {value : α → Json}
    (h : ∀ a, Reads (write a) (value a)) (items : List α) :
    Reads ('[' :: (separated (items.map write) ++ [']'])) (.arr (items.map value)) := by
  apply reads_array
  rw [List.forall₂_map_left_iff, List.forall₂_map_right_iff, List.forall₂_same]
  exact fun a _ => h a

/-- A text that is read as a value is parsed, with white space behind it. -/
theorem Reads.parse {text blank : List Char} {value : Json} (h : Reads text value)
    (hblank : Blank blank) : parse (text ++ blank) = some value := by
  have hends : Ends blank := by
    have hnone := hblank.ends ends_nil
    rwa [List.append_nil] at hnone
  have hread := h (3 * (text ++ blank).length + 1) blank
    (by rw [List.length_append]; omega) hends
  have hskip := hblank.skipSpace []
  rw [List.append_nil] at hskip
  rw [Json.parse, hread]
  exact if_pos hskip

end Rules

end Json
end Foundation
