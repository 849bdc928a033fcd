import Qzt.Cli.Attestation
import Qzt.Cli.ContextWindow

/-!
# Escaped display (`context_cli.rs`)

`escape_display` shows bytes that come from a container.  Nothing it writes moves the cursor, ends a
line, hides text or turns it around, whatever the bytes are; and two texts are never shown alike.
-/

namespace Qzt.Context

open Foundation

/-! ## Characters -/

/-- `char::is_control`. -/
def isControl (c : Char) : Bool :=
  c.toNat ≤ 0x1f || (0x7f ≤ c.toNat && c.toNat ≤ 0x9f)

/-- `is_invisible_format`. -/
def isInvisibleFormat (c : Char) : Bool :=
  let n := c.toNat
  n == 0x00ad || n == 0x034f || n == 0x061c || n == 0x180e || (0x200b ≤ n && n ≤ 0x200f) ||
    (0x2028 ≤ n && n ≤ 0x202e) || (0x2060 ≤ n && n ≤ 0x206f) || n == 0xfeff ||
    (0xfff9 ≤ n && n ≤ 0xfffb) || (0x1d173 ≤ n && n ≤ 0x1d17a) || n == 0xe0001 ||
    (0xe0020 ≤ n && n ≤ 0xe007f)

/-- A number in hexadecimal. -/
def hexadecimal (n : Nat) : List Char :=
  Nat.toDigits 16 n

/-- What `push_display_char` writes. -/
def displayChar (c : Char) : List Char :=
  if c = '\\' then ['\\', '\\']
  else if c = '\n' then ['\\', 'n']
  else if c = '\r' then ['\\', 'r']
  else if c = '\t' then ['\\', 't']
  else if isControl c || isInvisibleFormat c then
    if c.toNat ≤ 0xff then ['\\', 'x'] ++ hexDigits c.toNat
    else ['\\', 'u', '\x7b'] ++ hexadecimal c.toNat ++ ['\x7d']
  else [c]

/-- The loop over the characters of a valid text. -/
def displayText (text : List Char) : List Char :=
  text.flatMap displayChar

/-- `Utf8Error::valid_up_to`: the longest prefix that is valid. -/
def validUpTo (bytes : List UInt8) : Nat :=
  Nat.findGreatest (fun n => (fromUtf8 (bytes.take n)).isSome = true) bytes.length

/-- The loop of `escape_display`. -/
def escapeDisplayLoop : Nat → List UInt8 → Build (List Char)
  | 0, _ => .ok []
  | fuel + 1, remaining =>
    if remaining = [] then .ok []
    else
      match fromUtf8 remaining with
      | some valid => .ok (displayText valid.toList)
      | none => do
        let validLength := validUpTo remaining
        let valid := (fromUtf8 (remaining.take validLength)).getD ""
        let invalid ← item remaining validLength
        let rest ← escapeDisplayLoop fuel (remaining.drop (validLength + 1))
        return displayText valid.toList ++ (['\\', 'x'] ++ hexDigits invalid.toNat) ++ rest

/-- `escape_display`.  Every round takes a byte. -/
def escapeDisplay (bytes : List UInt8) : Build (List Char) :=
  escapeDisplayLoop bytes.length bytes

/-! ## What is shown -/

/-- The character neither controls the terminal nor hides or reorders text. -/
def Visible (c : Char) : Prop :=
  isControl c = false ∧ isInvisibleFormat c = false

instance (c : Char) : Decidable (Visible c) :=
  inferInstanceAs (Decidable (_ ∧ _))

/-- A text of visible characters. -/
def Shown (text : List Char) : Prop :=
  ∀ c ∈ text, Visible c

theorem shown_nil : Shown [] :=
  fun _ hc => absurd hc List.not_mem_nil

theorem Shown.append {first second : List Char} (h : Shown first) (hsecond : Shown second) :
    Shown (first ++ second) :=
  List.forall_mem_append.mpr ⟨h, hsecond⟩

theorem shown_of_all {text : List Char} (h : (text.all fun c => decide (Visible c)) = true) :
    Shown text :=
  fun c hc => of_decide_eq_true (List.all_eq_true.mp h c hc)

theorem visible_digitChar {n : Nat} (h : n < 16) : Visible (Nat.digitChar n) := by
  have hall : ∀ n : Fin 16, Visible (Nat.digitChar n.val) := by decide
  exact hall ⟨n, h⟩

theorem shown_hexDigits {n : Nat} (h : n < 256) : Shown (hexDigits n) := by
  intro c hc
  obtain rfl | hc := List.mem_cons.mp hc
  · exact visible_digitChar (by omega)
  · rw [List.mem_singleton.mp hc]
    exact visible_digitChar (by omega)

/-- The digits of a number, the last one last. -/
theorem hexadecimal_concat {n : Nat} (h : 16 ≤ n) :
    hexadecimal n = hexadecimal (n / 16) ++ [Nat.digitChar (n % 16)] :=
  Nat.toDigits_of_base_le (by decide) h

theorem hexadecimal_digit {n : Nat} (h : n < 16) : hexadecimal n = [Nat.digitChar n] :=
  Nat.toDigits_of_lt_base h

theorem exists_of_mem_toDigits {base : Nat} (hbase : 1 < base) {n : Nat} :
    ∀ c ∈ Nat.toDigits base n, ∃ d < base, c = Nat.digitChar d := by
  induction n using Nat.strongRecOn with
  | ind n ih =>
    intro c hc
    by_cases hdigit : n < base
    · rw [Nat.toDigits_of_lt_base hdigit] at hc
      exact ⟨n, hdigit, List.mem_singleton.mp hc⟩
    · have hle : base ≤ n := Nat.le_of_not_lt hdigit
      rw [Nat.toDigits_of_base_le hbase hle, List.mem_append] at hc
      obtain hc | hc := hc
      · exact ih (n / base) (Nat.div_lt_self (by omega) hbase) c hc
      · exact ⟨n % base, Nat.mod_lt _ (by omega), List.mem_singleton.mp hc⟩

theorem shown_hexadecimal (n : Nat) : Shown (hexadecimal n) := by
  intro c hc
  obtain ⟨digit, hdigit, rfl⟩ := exists_of_mem_toDigits (by decide) c hc
  exact visible_digitChar hdigit

theorem shown_decimal (n : Nat) : Shown (decimal n) := by
  intro c hc
  obtain ⟨digit, hdigit, rfl⟩ := exists_of_mem_toDigits (by decide) c hc
  exact visible_digitChar (by omega)

theorem shown_displayChar (c : Char) : Shown (displayChar c) := by
  unfold displayChar
  split
  · exact shown_of_all rfl
  split
  · exact shown_of_all rfl
  split
  · exact shown_of_all rfl
  split
  · exact shown_of_all rfl
  split
  · split
    · exact Shown.append (shown_of_all rfl) (shown_hexDigits (by omega))
    · exact Shown.append (Shown.append (shown_of_all rfl) (shown_hexadecimal _)) (shown_of_all rfl)
  · -- what is left is shown as it is
    rename_i hshown
    rw [Bool.not_eq_true, Bool.or_eq_false_iff] at hshown
    intro d hd
    rw [List.mem_singleton.mp hd]
    exact hshown

theorem shown_displayText (text : List Char) : Shown (displayText text) := by
  intro c hc
  obtain ⟨d, -, hc⟩ := List.mem_flatMap.mp hc
  exact shown_displayChar d c hc

/-- A text that is not valid has a byte behind its longest valid prefix. -/
theorem validUpTo_lt {bytes : List UInt8} (h : fromUtf8 bytes = none) :
    validUpTo bytes < bytes.length := by
  refine lt_of_le_of_ne (Nat.findGreatest_le _) ?_
  intro hall
  have hnil : (fromUtf8 (bytes.take 0)).isSome = true := rfl
  have hvalid := Nat.findGreatest_spec
    (P := fun n => (fromUtf8 (bytes.take n)).isSome = true) (Nat.zero_le bytes.length) hnil
  change (fromUtf8 (bytes.take (validUpTo bytes))).isSome = true at hvalid
  rw [hall, List.take_length, h] at hvalid
  cases hvalid

theorem escapeDisplayLoop_safe (fuel : Nat) :
    ∀ bytes : List UInt8, Safe (escapeDisplayLoop fuel bytes) Shown := by
  induction fuel with
  | zero => exact fun _ => safe_ok shown_nil
  | succ fuel ih =>
    intro bytes
    rw [escapeDisplayLoop]
    apply safe_ite
    · exact fun _ => safe_ok shown_nil
    · intro _
      split
      case h_1 => exact safe_ok (shown_displayText _)
      case h_2 hinvalid =>
        refine safe_bind (safe_item (validUpTo_lt hinvalid)) fun invalid _ => ?_
        refine safe_bind (ih _) fun rest hrest => safe_ok ?_
        have hbyte := shown_hexDigits (UInt8.toNat_lt invalid)
        exact ((shown_displayText _).append (Shown.append (shown_of_all rfl) hbyte)).append hrest

/-- `escape_display` does not panic, and everything it writes is visible. -/
theorem escapeDisplay_safe (bytes : List UInt8) : Safe (escapeDisplay bytes) Shown :=
  escapeDisplayLoop_safe _ _

/-! ## Reading a display back -/

/-- The number that hexadecimal digits stand for. -/
def hexadecimalValue (digits : List Char) : Nat :=
  digits.foldl (fun value digit => 16 * value + hexValue digit) 0

theorem hexadecimalValue_hexadecimal (n : Nat) : hexadecimalValue (hexadecimal n) = n := by
  induction n using Nat.strongRecOn with
  | ind n ih =>
    by_cases hdigit : n < 16
    · rw [hexadecimal_digit hdigit]
      change 16 * 0 + hexValue (Nat.digitChar n) = n
      rw [hexValue_digitChar hdigit]
      omega
    · rw [hexadecimal_concat (by omega), hexadecimalValue, List.foldl_concat]
      change 16 * hexadecimalValue (hexadecimal (n / 16)) + hexValue (Nat.digitChar (n % 16)) = n
      rw [ih (n / 16) (by omega), hexValue_digitChar (by omega)]
      omega

/-- The character in front of a displayed text, and the rest. -/
def readDisplayChar : List Char → Option (Char × List Char)
  | '\\' :: 'n' :: rest => some ('\n', rest)
  | '\\' :: 'r' :: rest => some ('\r', rest)
  | '\\' :: 't' :: rest => some ('\t', rest)
  | '\\' :: 'x' :: a :: b :: rest => some (Char.ofNat (16 * hexValue a + hexValue b), rest)
  | '\\' :: 'u' :: '\x7b' :: rest =>
    some (Char.ofNat (hexadecimalValue (rest.takeWhile (· != '\x7d'))),
      (rest.dropWhile (· != '\x7d')).tail)
  | '\\' :: c :: rest => some (c, rest)
  | c :: rest => some (c, rest)
  | [] => none

theorem readDisplayChar_displayChar (c : Char) (rest : List Char) :
    readDisplayChar (displayChar c ++ rest) = some (c, rest) := by
  unfold displayChar
  split
  · rename_i h
    subst h
    rfl
  rename_i hbackslash
  split
  · rename_i h
    subst h
    rfl
  split
  · rename_i h
    subst h
    rfl
  split
  · rename_i h
    subst h
    rfl
  split
  · split
    · rename_i hbyte
      have hhigh := @hexValue_digitChar (c.toNat / 16) (by omega)
      have hlow := @hexValue_digitChar (c.toNat % 16) (by omega)
      change some (Char.ofNat (16 * hexValue (Nat.digitChar (c.toNat / 16)) +
        hexValue (Nat.digitChar (c.toNat % 16))), rest) = some (c, rest)
      rw [hhigh, hlow, Nat.div_add_mod, Char.ofNat_toNat]
    · -- the digits end at the brace
      have hdigits : ∀ d ∈ hexadecimal c.toNat, (d != '\x7d') = true := by
        intro d hd
        obtain ⟨digit, hdigit, rfl⟩ := exists_of_mem_toDigits (by decide) d hd
        have hall : ∀ n : Fin 16, (Nat.digitChar n.val != '\x7d') = true := by decide
        exact hall ⟨digit, hdigit⟩
      have htext : ['\\', 'u', '\x7b'] ++ hexadecimal c.toNat ++ ['\x7d'] ++ rest =
          '\\' :: 'u' :: '\x7b' :: (hexadecimal c.toNat ++ '\x7d' :: rest) := by
        simp only [List.cons_append, List.nil_append, List.append_assoc]
      rw [htext, readDisplayChar, List.takeWhile_append_of_pos hdigits,
        List.dropWhile_append_of_pos hdigits]
      simp only [List.takeWhile_cons, List.dropWhile_cons, bne_self_eq_false, Bool.false_eq_true,
        if_false, List.append_nil, List.tail_cons, hexadecimalValue_hexadecimal, Char.ofNat_toNat]
  · rw [List.singleton_append]
    unfold readDisplayChar
    split
    all_goals
      rename_i h
      cases h
    all_goals first
      | rfl
      | exact absurd rfl hbackslash

theorem displayChar_ne_nil (c : Char) : displayChar c ≠ [] := by
  intro h
  have hread := readDisplayChar_displayChar c []
  rw [h] at hread
  cases hread

theorem displayText_injective : Function.Injective displayText := by
  intro a b h
  induction a generalizing b with
  | nil =>
    cases b with
    | nil => rfl
    | cons d b => exact absurd (List.append_eq_nil_iff.mp h.symm).1 (displayChar_ne_nil d)
  | cons c a ih =>
    cases b with
    | nil => exact absurd (List.append_eq_nil_iff.mp h).1 (displayChar_ne_nil c)
    | cons d b =>
      have hread := congrArg readDisplayChar h
      rw [displayText, displayText, List.flatMap_cons, List.flatMap_cons,
        readDisplayChar_displayChar, readDisplayChar_displayChar, Option.some.injEq,
        Prod.mk.injEq] at hread
      obtain ⟨rfl, hrest⟩ := hread
      rw [ih hrest]

/-- A text is shown character by character. -/
theorem escapeDisplay_textBytes (text : String) :
    escapeDisplay (textBytes text) = .ok (displayText text.toList) := by
  rw [escapeDisplay]
  cases hbytes : textBytes text with
  | nil =>
    have htext := fromUtf8_textBytes text
    rw [hbytes] at htext
    obtain rfl : "" = text := Option.some.inj htext
    rfl
  | cons byte bytes =>
    rw [List.length_cons, escapeDisplayLoop, if_neg (List.cons_ne_nil _ _), ← hbytes]
    simp only [fromUtf8_textBytes]

end Qzt.Context
