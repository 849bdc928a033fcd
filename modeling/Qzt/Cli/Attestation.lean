import Qzt.Container.Schema
import Qzt.Foundation.Templates
import Qzt.Reader.DeepVerify

/-!
# Attestations (`cli_attest.rs`, `cli_json.rs`)

An attestation is one line of JSON, put together by hand from a frozen template, because its
bytes are signed and compared.  The line determines every field: numbers, names and
hexadecimal text end at the template's next character, an escaped string at the first quote
outside an escape, and the optional checksum is `null` or an object.
-/

namespace Qzt

open Foundation

/-- `QztInfo`. -/
structure QztInfo where
  containerId : ContainerId
  originalSize : Nat
  chunkCount : Nat
  lineCount : Nat
  deriving DecidableEq

/-- `PrefixChecksumStatus::as_str`. -/
def PrefixChecksumStatus.asStr : PrefixChecksumStatus → String
  | .absent => "absent"
  | .presentUnchecked => "present_unchecked"
  | .verified => "verified"

/-- `IndexVerificationStatus::as_str`. -/
def IndexVerificationStatus.asStr : IndexVerificationStatus → String
  | .absent => "absent"
  | .storedBlockVerified => "stored_block_verified"
  | .sourceChecked => "source_checked"

/-- `verify_level_as_str`.  No level falls to the source's last arm. -/
def verifyLevelAsStr : VerifyLevel → String
  | .quick => "quick"
  | .normal => "normal"
  | .deep => "deep"

/-! ## JSON helpers -/

/-- The two lowercase hexadecimal digits of a number below 256. -/
def hexDigits (n : Nat) : List Char :=
  [Nat.digitChar (n / 16), Nat.digitChar (n % 16)]

/-- What `escape` writes for a character. -/
def escapeChar (ch : Char) : List Char :=
  if ch = '"' then ['\\', '"']
  else if ch = '\\' then ['\\', '\\']
  else if ch = '\n' then ['\\', 'n']
  else if ch = '\r' then ['\\', 'r']
  else if ch = '\t' then ['\\', 't']
  else if ch.toNat < 0x20 then ['\\', 'u', '0', '0'] ++ hexDigits ch.toNat
  else [ch]

/-- `escape`. -/
def escape (input : String) : List Char :=
  input.toList.flatMap escapeChar

/-- `hex`. -/
def hex (bytes : List UInt8) : List Char :=
  bytes.flatMap fun byte => hexDigits byte.toNat

/-- An unsigned number in decimal. -/
def decimal (n : Nat) : List Char :=
  Nat.toDigits 10 n

/-- A boolean. -/
def boolText (value : Bool) : List Char :=
  if value then "true".toList else "false".toList

/-! ## The rendering -/

/-- `Attestation`. -/
structure Attestation where
  info : QztInfo
  originalChecksum : Checksum
  containerChecksum : Option Checksum
  finalFileSize : Nat
  verifyReport : VerifyReport
  deriving DecidableEq

/-- `format_checksum`. -/
def formatChecksum (checksum : Checksum) : List Part :=
  [.own "\x7b\"algorithm\":\"", .field (escape checksum.algorithm),
    .own "\",\"value\":\"", .field (hex checksum.value.toList), .own "\"\x7d"]

/-- The optional checksum of `render`. -/
def formatContainerChecksum : Option Checksum → List Part
  | none => [.own "null"]
  | some checksum => formatChecksum checksum

namespace Attestation

variable (self : Attestation)

/-- The template of `render` with its fields. -/
def parts : List Part :=
  ([.own "\x7b\"attestation_schema\":\"qzt-attestation-v1\",",
    .own "\"chunk_count\":", .field (decimal self.info.chunkCount), .own ",",
    .own "\"container_checksum\":"] : List Part) ++ formatContainerChecksum self.containerChecksum ++
  ([.own ",",
    .own "\"container_id\":\"", .field (hex self.info.containerId.toList), .own "\",",
    .own "\"final_file_size\":", .field (decimal self.finalFileSize), .own ",",
    .own "\"format\":\"qzt-0.1\",",
    .own "\"line_count\":", .field (decimal self.info.lineCount), .own ",",
    .own "\"original_checksum\":"] : List Part) ++ formatChecksum self.originalChecksum ++
  ([.own ",",
    .own "\"original_size\":", .field (decimal self.info.originalSize), .own ",",
    .own "\"verify\":\x7b\"checked_chunks\":", .field (decimal self.verifyReport.checkedChunks),
    .own ",",
    .own "\"compressed_checksum_chunks\":",
    .field (decimal self.verifyReport.compressedChecksumChunks), .own ",",
    .own "\"container_checksum_status\":\"",
    .field self.verifyReport.containerChecksumStatus.asStr.toList, .own "\",",
    .own "\"decoded_bytes\":", .field (decimal self.verifyReport.decodedBytes), .own ",",
    .own "\"decoded_chunks\":", .field (decimal self.verifyReport.decodedChunks), .own ",",
    .own "\"dense_line_index_status\":\"",
    .field self.verifyReport.denseLineIndexStatus.asStr.toList, .own "\",",
    .own "\"document_index_status\":\"",
    .field self.verifyReport.documentIndexStatus.asStr.toList, .own "\",",
    .own "\"level\":\"", .field (verifyLevelAsStr self.verifyReport.level).toList, .own "\",",
    .own "\"original_checksum_verified\":",
    .field (boolText self.verifyReport.originalChecksumVerified), .own "\x7d\x7d"] : List Part)

/-- `render`. -/
def render : List Char :=
  textOf self.parts ++ ['\n']

end Attestation

/-! ## Reading the fields back -/

/-- The number a hexadecimal digit stands for. -/
def hexValue (c : Char) : Nat :=
  if c.toNat < 'a'.toNat then c.toNat - '0'.toNat else c.toNat - 'a'.toNat + 10

theorem hexValue_digitChar {n : Nat} (h : n < 16) : hexValue (Nat.digitChar n) = n := by
  have hall : ∀ n : Fin 16, hexValue (Nat.digitChar n.val) = n.val := by decide
  exact hall ⟨n, h⟩

/-- The character in front of an escaped text, and the rest. -/
def unescapeChar : List Char → Option (Char × List Char)
  | '\\' :: 'n' :: rest => some ('\n', rest)
  | '\\' :: 'r' :: rest => some ('\r', rest)
  | '\\' :: 't' :: rest => some ('\t', rest)
  | '\\' :: 'u' :: _ :: _ :: a :: b :: rest => some (Char.ofNat (16 * hexValue a + hexValue b), rest)
  | '\\' :: c :: rest => some (c, rest)
  | c :: rest => some (c, rest)
  | [] => none

theorem unescapeChar_escapeChar (ch : Char) (rest : List Char) :
    unescapeChar (escapeChar ch ++ rest) = some (ch, rest) := by
  unfold escapeChar
  split
  · rename_i h; subst h; rfl
  split
  · rename_i h; subst h; rfl
  split
  · rename_i h; subst h; rfl
  split
  · rename_i h; subst h; rfl
  split
  · rename_i h; subst h; rfl
  split
  · -- A control character in four digits, of which the first two are zero.
    rename_i hcontrol
    have hhigh := @hexValue_digitChar (ch.toNat / 16) (by omega)
    have hlow := @hexValue_digitChar (ch.toNat % 16) (by omega)
    have hnumber : 16 * (ch.toNat / 16) + ch.toNat % 16 = ch.toNat := Nat.div_add_mod _ _
    change some (Char.ofNat (16 * hexValue (Nat.digitChar (ch.toNat / 16)) +
      hexValue (Nat.digitChar (ch.toNat % 16))), rest) = some (ch, rest)
    rw [hhigh, hlow, hnumber, Char.ofNat_toNat]
  · rename_i hbackslash _ _ _ _
    rw [List.singleton_append]
    unfold unescapeChar
    split
    all_goals
      rename_i h
      cases h
    all_goals first
      | rfl
      | exact absurd rfl hbackslash

theorem quote_ne_escapeChar (ch : Char) (text rest : List Char) :
    '"' :: rest ≠ escapeChar ch ++ text := by
  intro h
  unfold escapeChar at h
  split at h
  · exact absurd (List.cons.inj h).1 (by decide)
  rename_i hquote
  repeat' split at h
  all_goals first
    | exact absurd (List.cons.inj h).1 (by decide)
    | exact hquote (List.cons.inj h).1.symm

/-- An escaped string ends at the first quote outside an escape. -/
theorem escape_append_inj {first second : List Char} {r s : List Char}
    (h : first.flatMap escapeChar ++ '"' :: r = second.flatMap escapeChar ++ '"' :: s) :
    first = second ∧ r = s := by
  induction first generalizing second with
  | nil =>
    cases second with
    | nil => exact ⟨rfl, (List.cons.inj h).2⟩
    | cons d second =>
      rw [List.flatMap_cons, List.append_assoc] at h
      exact absurd h (quote_ne_escapeChar d _ _)
  | cons c first ih =>
    cases second with
    | nil =>
      rw [List.flatMap_cons, List.append_assoc] at h
      exact absurd h.symm (quote_ne_escapeChar c _ _)
    | cons d second =>
      rw [List.flatMap_cons, List.flatMap_cons, List.append_assoc, List.append_assoc] at h
      have hread := congrArg unescapeChar h
      rw [unescapeChar_escapeChar, unescapeChar_escapeChar, Option.some.injEq,
        Prod.mk.injEq] at hread
      obtain ⟨rfl, hrest⟩ := hread
      obtain ⟨rfl, hbehind⟩ := ih hrest
      exact ⟨rfl, hbehind⟩

theorem escape_injective : Function.Injective escape := by
  intro a b h
  have hlist := @escape_append_inj a.toList b.toList [] [] (congrArg (· ++ ['"']) h)
  exact String.toList_injective hlist.1

theorem decimal_injective : Function.Injective decimal := by
  intro a b h
  have hread := congrArg (fun digits => Nat.ofDigitChars 10 digits 0) h
  simp only [decimal, Nat.ofDigitChars_ten_toDigits] at hread
  exact hread

theorem hex_injective : Function.Injective hex := by
  intro a b h
  induction a generalizing b with
  | nil =>
    cases b with
    | nil => rfl
    | cons _ _ => cases h
  | cons x a ih =>
    cases b with
    | nil => cases h
    | cons y b =>
      obtain ⟨hhigh, hlow, hrest⟩ : Nat.digitChar (x.toNat / 16) = Nat.digitChar (y.toNat / 16) ∧
          Nat.digitChar (x.toNat % 16) = Nat.digitChar (y.toNat % 16) ∧ hex a = hex b := by
        change Nat.digitChar (x.toNat / 16) :: Nat.digitChar (x.toNat % 16) :: hex a =
          Nat.digitChar (y.toNat / 16) :: Nat.digitChar (y.toNat % 16) :: hex b at h
        rw [List.cons.injEq, List.cons.injEq] at h
        exact h
      have hx : x.toNat < 256 := UInt8.toNat_lt x
      have hy : y.toNat < 256 := UInt8.toNat_lt y
      have hhigh' := congrArg hexValue hhigh
      have hlow' := congrArg hexValue hlow
      rw [hexValue_digitChar (by omega), hexValue_digitChar (by omega)] at hhigh' hlow'
      rw [ih hrest, UInt8.toNat_inj.mp (show x.toNat = y.toNat by omega)]

theorem PrefixChecksumStatus.asStr_injective : Function.Injective PrefixChecksumStatus.asStr := by
  intro a b h
  cases a <;> cases b <;> first
    | rfl
    | exact absurd h (by decide)

theorem IndexVerificationStatus.asStr_injective :
    Function.Injective IndexVerificationStatus.asStr := by
  intro a b h
  cases a <;> cases b <;> first
    | rfl
    | exact absurd h (by decide)

theorem verifyLevelAsStr_injective : Function.Injective verifyLevelAsStr := by
  intro a b h
  cases a <;> cases b <;> first
    | rfl
    | exact absurd h (by decide)

theorem boolText_injective : Function.Injective boolText := by
  intro a b h
  revert a b
  decide

/-! ## The fields of the template -/

/-- The texts of a writer. -/
def Written {α : Type} (write : α → List Char) (text : List Char) : Prop :=
  ∃ a, text = write a

theorem delimitedBy_of_writer {α : Type} {write : α → List Char} {stop : Char}
    (h : ∀ a, stop ∉ write a) : DelimitedBy stop (Written write) := by
  apply delimitedBy_of_not_mem
  rintro _ ⟨a, rfl⟩
  exact h a

theorem isDigit_of_mem_decimal {n : Nat} {c : Char} (h : c ∈ decimal n) : c.isDigit = true :=
  Nat.isDigit_of_mem_toDigits (by decide) (by decide) h

/-- What stands in a plain field: no quote, no escape, and none of the template's punctuation. -/
def plain (c : Char) : Bool :=
  c != '"' && c != '\\' && c != '\n' && c != ',' && c != '\x7d'

theorem plain_of_isDigit {c : Char} (h : c.isDigit = true) : plain c = true := by
  have hne : ∀ d : Char, d.isDigit = false → c ≠ d := by
    rintro d hd rfl
    rw [h] at hd
    cases hd
  simp only [plain, Bool.and_eq_true, bne_iff_ne]
  exact ⟨⟨⟨⟨hne _ (by decide), hne _ (by decide)⟩, hne _ (by decide)⟩, hne _ (by decide)⟩,
    hne _ (by decide)⟩

theorem plain_digitChar {n : Nat} (h : n < 16) : plain (Nat.digitChar n) = true := by
  have hall : ∀ n : Fin 16, plain (Nat.digitChar n.val) = true := by decide
  exact hall ⟨n, h⟩

theorem plain_decimal (n : Nat) : ∀ c ∈ decimal n, plain c = true :=
  fun _ h => plain_of_isDigit (isDigit_of_mem_decimal h)

theorem plain_hexDigits {n : Nat} (h : n < 256) : ∀ c ∈ hexDigits n, plain c = true := by
  intro c hc
  rcases List.mem_cons.mp hc with rfl | hc
  · exact plain_digitChar (by omega)
  · rw [List.mem_singleton.mp hc]
    exact plain_digitChar (by omega)

theorem plain_hex (bytes : List UInt8) : ∀ c ∈ hex bytes, plain c = true := by
  intro c hc
  obtain ⟨byte, -, hc⟩ := List.mem_flatMap.mp hc
  exact plain_hexDigits (UInt8.toNat_lt byte) c hc

theorem plain_boolText (value : Bool) : ∀ c ∈ boolText value, plain c = true := by
  apply List.all_eq_true.mp
  cases value <;> decide

theorem plain_prefixStatus (status : PrefixChecksumStatus) :
    ∀ c ∈ status.asStr.toList, plain c = true := by
  apply List.all_eq_true.mp
  cases status <;> decide

theorem plain_indexStatus (status : IndexVerificationStatus) :
    ∀ c ∈ status.asStr.toList, plain c = true := by
  apply List.all_eq_true.mp
  cases status <;> decide

theorem plain_level (level : VerifyLevel) : ∀ c ∈ (verifyLevelAsStr level).toList,
    plain c = true := by
  apply List.all_eq_true.mp
  cases level <;> decide

theorem not_mem_of_plain {text : List Char} (h : ∀ c ∈ text, plain c = true) {stop : Char}
    (hstop : plain stop = false) : stop ∉ text := by
  intro hmem
  rw [h stop hmem] at hstop
  cases hstop

/-- The slot of a plain field. -/
def plainSlot {α : Type} (write : α → List Char) (h : ∀ a, ∀ c ∈ write a, plain c = true)
    (stop : Char) (hstop : plain stop = false) (behind : List Char) : Slot Char where
  words := Written write
  stop := stop
  behind := behind
  delimited := delimitedBy_of_writer fun a => not_mem_of_plain (h a) hstop

/-- The slot of an escaped string. -/
def escapedSlot (behind : List Char) : Slot Char where
  words := Written escape
  stop := '"'
  behind := behind
  delimited := by
    rintro _ _ r s ⟨a, rfl⟩ ⟨b, rfl⟩ h
    obtain ⟨hsame, hrest⟩ := escape_append_inj h
    exact ⟨by rw [String.toList_injective hsame], hrest⟩

def checksumSlots : List (Slot Char) :=
  [escapedSlot ",\"value\":\"".toList,
    plainSlot hex plain_hex '"' rfl "\x7d".toList]

def checksumWords (checksum : Checksum) : List (List Char) :=
  [escape checksum.algorithm, hex checksum.value.toList]

theorem fits_checksumWords (checksum : Checksum) : Fits checksumSlots (checksumWords checksum) :=
  .cons ⟨_, rfl⟩ (.cons ⟨_, rfl⟩ .nil)

theorem textOf_formatChecksum (checksum : Checksum) : textOf (formatChecksum checksum) =
    "\x7b\"algorithm\":\"".toList ++ fill checksumSlots (checksumWords checksum) := by
  simp only [formatChecksum, textOf, List.flatMap_cons, List.flatMap_nil, Part.text, fill,
    checksumSlots, checksumWords, escapedSlot, plainSlot, List.append_nil]
  rfl

theorem checksumWords_injective : Function.Injective checksumWords := by
  intro a b h
  obtain ⟨halgorithm, hvalue⟩ : escape a.algorithm = escape b.algorithm ∧
      hex a.value.toList = hex b.value.toList := by
    have htail := (List.cons.inj h).2
    exact ⟨(List.cons.inj h).1, (List.cons.inj htail).1⟩
  cases a with
  | mk algorithm value =>
    cases b with
    | mk other otherValue =>
      obtain rfl := escape_injective halgorithm
      obtain rfl : value = otherValue := List.Vector.toList_injective (hex_injective hvalue)
      rfl

theorem formatChecksum_append_inj {first second : Checksum} {r s : List Char}
    (h : textOf (formatChecksum first) ++ r = textOf (formatChecksum second) ++ s) :
    first = second ∧ r = s := by
  rw [textOf_formatChecksum, textOf_formatChecksum, List.append_assoc, List.append_assoc] at h
  obtain ⟨hwords, hrest⟩ := fill_append_inj (fits_checksumWords first) (fits_checksumWords second)
    (List.append_cancel_left h)
  exact ⟨checksumWords_injective hwords, hrest⟩

/-- The checksum, or `null`, which no object begins with. -/
theorem formatContainerChecksum_append_inj {first second : Option Checksum} {r s : List Char}
    (h : textOf (formatContainerChecksum first) ++ r =
      textOf (formatContainerChecksum second) ++ s) : first = second ∧ r = s := by
  cases first with
  | none =>
    cases second with
    | none => exact ⟨rfl, List.append_cancel_left h⟩
    | some checksum => exact absurd (List.cons.inj h).1 (by decide)
  | some checksum =>
    cases second with
    | none => exact absurd (List.cons.inj h).1 (by decide)
    | some other =>
      obtain ⟨rfl, hrest⟩ := formatChecksum_append_inj h
      exact ⟨rfl, hrest⟩

/-- The slot of a checksum, or of none. -/
def checksumSlot {α : Type} (write : α → List Part)
    (h : ∀ {a b : α} {r s : List Char}, textOf (write a) ++ r = textOf (write b) ++ s → a = b ∧ r = s)
    (behind : List Char) : Slot Char where
  words := Written fun a => textOf (write a)
  stop := ','
  behind := behind
  delimited := by
    rintro _ _ r s ⟨a, rfl⟩ ⟨b, rfl⟩ hsame
    obtain ⟨rfl, hrest⟩ := h hsame
    exact ⟨rfl, (List.cons.inj hrest).2⟩

namespace Attestation

/-- The fields of the template, in order. -/
def slots : List (Slot Char) :=
  [plainSlot decimal plain_decimal ',' rfl "\"container_checksum\":".toList,
    checksumSlot formatContainerChecksum formatContainerChecksum_append_inj
      "\"container_id\":\"".toList,
    plainSlot hex plain_hex '"' rfl (',' :: "\"final_file_size\":".toList),
    plainSlot decimal plain_decimal ',' rfl
      ("\"format\":\"qzt-0.1\",".toList ++ "\"line_count\":".toList),
    plainSlot decimal plain_decimal ',' rfl "\"original_checksum\":".toList,
    checksumSlot formatChecksum formatChecksum_append_inj "\"original_size\":".toList,
    plainSlot decimal plain_decimal ',' rfl "\"verify\":\x7b\"checked_chunks\":".toList,
    plainSlot decimal plain_decimal ',' rfl "\"compressed_checksum_chunks\":".toList,
    plainSlot decimal plain_decimal ',' rfl "\"container_checksum_status\":\"".toList,
    plainSlot (fun status => (PrefixChecksumStatus.asStr status).toList) plain_prefixStatus '"' rfl
      (',' :: "\"decoded_bytes\":".toList),
    plainSlot decimal plain_decimal ',' rfl "\"decoded_chunks\":".toList,
    plainSlot decimal plain_decimal ',' rfl "\"dense_line_index_status\":\"".toList,
    plainSlot (fun status => (IndexVerificationStatus.asStr status).toList) plain_indexStatus '"' rfl
      (',' :: "\"document_index_status\":\"".toList),
    plainSlot (fun status => (IndexVerificationStatus.asStr status).toList) plain_indexStatus '"' rfl
      (',' :: "\"level\":\"".toList),
    plainSlot (fun level => (verifyLevelAsStr level).toList) plain_level '"' rfl
      (',' :: "\"original_checksum_verified\":".toList),
    plainSlot boolText plain_boolText '\x7d' rfl ['\x7d', '\n']]

/-- What an attestation puts in them. -/
def words (self : Attestation) : List (List Char) :=
  [decimal self.info.chunkCount, textOf (formatContainerChecksum self.containerChecksum),
    hex self.info.containerId.toList, decimal self.finalFileSize, decimal self.info.lineCount,
    textOf (formatChecksum self.originalChecksum), decimal self.info.originalSize,
    decimal self.verifyReport.checkedChunks, decimal self.verifyReport.compressedChecksumChunks,
    self.verifyReport.containerChecksumStatus.asStr.toList,
    decimal self.verifyReport.decodedBytes, decimal self.verifyReport.decodedChunks,
    self.verifyReport.denseLineIndexStatus.asStr.toList,
    self.verifyReport.documentIndexStatus.asStr.toList,
    (verifyLevelAsStr self.verifyReport.level).toList,
    boolText self.verifyReport.originalChecksumVerified]

theorem fits_words (self : Attestation) : Fits slots self.words := by
  unfold slots words
  repeat' apply List.Forall₂.cons
  all_goals first
    | exact List.Forall₂.nil
    | exact ⟨_, rfl⟩

theorem render_eq (self : Attestation) : self.render =
    "\x7b\"attestation_schema\":\"qzt-attestation-v1\",".toList ++
      ("\"chunk_count\":".toList ++ fill slots self.words) := by
  have hcomma : ",".toList = [','] := rfl
  have hquote : "\",".toList = ['"', ','] := rfl
  have hclose : "\x7d\x7d".toList = ['\x7d', '\x7d'] := rfl
  simp only [render, parts, textOf, List.flatMap_append, List.flatMap_cons, List.flatMap_nil,
    Part.text, List.append_assoc, List.append_nil, List.cons_append, List.nil_append, slots, words,
    fill, plainSlot, checksumSlot, hcomma, hquote, hclose]

/-- Equal fields are the fields of one attestation. -/
theorem words_injective : Function.Injective words := by
  intro a b h
  simp only [words, List.cons.injEq] at h
  obtain ⟨hchunks, hcontainer, hid, hfile, hlines, horiginal, hsize, hchecked, hcompressed, hprefix,
    hbytes, hdecoded, hdense, hdocument, hlevel, hverified, -⟩ := h
  obtain ⟨⟨aId, aSize, aChunks, aLines⟩, aOriginal, aContainer, aFile, aReport⟩ := a
  obtain ⟨⟨bId, bSize, bChunks, bLines⟩, bOriginal, bContainer, bFile, bReport⟩ := b
  obtain ⟨aLevel, aChecked, aCompressed, aDecoded, aBytes, aVerified, aPrefix, aDense, aDocument⟩ :=
    aReport
  obtain ⟨bLevel, bChecked, bCompressed, bDecoded, bBytes, bVerified, bPrefix, bDense, bDocument⟩ :=
    bReport
  dsimp only at *
  obtain rfl := decimal_injective hchunks
  obtain ⟨rfl, -⟩ := @formatContainerChecksum_append_inj _ _ [] [] (congrArg (· ++ []) hcontainer)
  obtain rfl : aId = bId := List.Vector.toList_injective (hex_injective hid)
  obtain rfl := decimal_injective hfile
  obtain rfl := decimal_injective hlines
  obtain ⟨rfl, -⟩ := @formatChecksum_append_inj _ _ [] [] (congrArg (· ++ []) horiginal)
  obtain rfl := decimal_injective hsize
  obtain rfl := decimal_injective hchecked
  obtain rfl := decimal_injective hcompressed
  obtain rfl := PrefixChecksumStatus.asStr_injective (String.toList_injective hprefix)
  obtain rfl := decimal_injective hbytes
  obtain rfl := decimal_injective hdecoded
  obtain rfl := IndexVerificationStatus.asStr_injective (String.toList_injective hdense)
  obtain rfl := IndexVerificationStatus.asStr_injective (String.toList_injective hdocument)
  obtain rfl := verifyLevelAsStr_injective (String.toList_injective hlevel)
  obtain rfl := boolText_injective hverified
  rfl

/-! ## Its quotes and its line -/

/-- A part of the line: no quote of a field is outside an escape, and nothing ends the line. -/
def Clean (part : Part) : Prop :=
  part.Sound ∧ '\n' ∉ part.text

theorem clean_own (text : String)
    (h : (text.toList.all fun c => c != '\\' && c != '\n') = true) : Clean (.own text) := by
  have hall := List.all_eq_true.mp h
  refine ⟨fun hmem => ?_, fun hmem => ?_⟩
  · exact absurd (hall _ hmem) (by decide)
  · exact absurd (hall _ hmem) (by decide)

theorem clean_plain {text : List Char} (h : ∀ c ∈ text, plain c = true) : Clean (.field text) := by
  refine ⟨closed_of_not_mem (not_mem_of_plain h rfl) (not_mem_of_plain h rfl), ?_⟩
  exact not_mem_of_plain h rfl

/-- An escape of one character. -/
theorem closed_escape (c : Char) : Closed ['\\', c] := by
  refine ⟨rfl, ?_⟩
  intro before behind h
  cases before with
  | nil => exact absurd (List.cons.inj h).1 (by decide)
  | cons b before =>
    obtain ⟨rfl, hrest⟩ := List.cons.inj h
    cases before with
    | nil => rfl
    | cons d before => exact absurd (List.cons.inj hrest).2 (by simp)

theorem closed_escapeChar (ch : Char) : Closed (escapeChar ch) ∧ '\n' ∉ escapeChar ch := by
  unfold escapeChar
  split
  · exact ⟨closed_escape _, by decide⟩
  rename_i hquote
  split
  · exact ⟨closed_escape _, by decide⟩
  rename_i hbackslash
  split
  · exact ⟨closed_escape _, by decide⟩
  rename_i hnewline
  split
  · exact ⟨closed_escape _, by decide⟩
  split
  · exact ⟨closed_escape _, by decide⟩
  split
  · -- Four digits behind an escape of one character.
    rename_i hcontrol
    have hplain : ∀ c ∈ ['0', '0'] ++ hexDigits ch.toNat, plain c = true := by
      intro c hc
      rcases List.mem_append.mp hc with hc | hc
      · have hzeros : ['0', '0'].all plain = true := by decide
        exact List.all_eq_true.mp hzeros c hc
      · exact plain_hexDigits (by omega) c hc
    refine ⟨(closed_escape 'u').append (clean_plain hplain).1, ?_⟩
    intro hmem
    rcases List.mem_append.mp (show '\n' ∈ ['\\', 'u'] ++ (['0', '0'] ++ hexDigits ch.toNat) from hmem)
      with hmem | hmem
    · exact absurd hmem (by decide)
    · exact (clean_plain hplain).2 hmem
  · refine ⟨closed_of_not_mem ?_ ?_, ?_⟩
    · exact fun hmem => hbackslash (List.mem_singleton.mp hmem).symm
    · exact fun hmem => hquote (List.mem_singleton.mp hmem).symm
    · exact fun hmem => hnewline (List.mem_singleton.mp hmem).symm

theorem clean_escape (input : String) : Clean (.field (escape input)) := by
  refine ⟨closed_flatMap (fun ch => (closed_escapeChar ch).1) _, ?_⟩
  intro hmem
  obtain ⟨ch, -, hmem⟩ := List.mem_flatMap.mp hmem
  exact (closed_escapeChar ch).2 hmem

theorem clean_formatChecksum (checksum : Checksum) : ∀ part ∈ formatChecksum checksum, Clean part := by
  simp only [formatChecksum, List.forall_mem_cons, List.not_mem_nil, false_implies, implies_true,
    and_true]
  exact ⟨clean_own _ (by decide), clean_escape _, clean_own _ (by decide), clean_plain (plain_hex _),
    clean_own _ (by decide)⟩

theorem clean_formatContainerChecksum (checksum : Option Checksum) :
    ∀ part ∈ formatContainerChecksum checksum, Clean part := by
  cases checksum with
  | none =>
    intro part hpart
    rw [List.mem_singleton.mp hpart]
    exact clean_own _ (by decide)
  | some checksum => exact clean_formatChecksum checksum

theorem clean_parts (self : Attestation) : ∀ part ∈ self.parts, Clean part := by
  simp only [parts, List.forall_mem_append, List.forall_mem_cons, List.not_mem_nil, false_implies,
    implies_true, and_true, and_assoc]
  have hown : ∀ text : String, (text.toList.all fun c => c != '\\' && c != '\n') = true →
      Clean (.own text) := clean_own
  refine ⟨hown _ (by decide), hown _ (by decide), clean_plain (plain_decimal _), hown _ (by decide),
    hown _ (by decide), clean_formatContainerChecksum _, ?_⟩
  refine ⟨hown _ (by decide), hown _ (by decide), clean_plain (plain_hex _), hown _ (by decide), ?_⟩
  refine ⟨hown _ (by decide), clean_plain (plain_decimal _), hown _ (by decide), ?_⟩
  refine ⟨hown _ (by decide), hown _ (by decide), clean_plain (plain_decimal _), hown _ (by decide),
    hown _ (by decide), clean_formatChecksum _, ?_⟩
  refine ⟨hown _ (by decide), hown _ (by decide), clean_plain (plain_decimal _), hown _ (by decide), ?_⟩
  refine ⟨hown _ (by decide), clean_plain (plain_decimal _), hown _ (by decide), ?_⟩
  refine ⟨hown _ (by decide), clean_plain (plain_decimal _), hown _ (by decide), ?_⟩
  refine ⟨hown _ (by decide), clean_plain (plain_prefixStatus _), hown _ (by decide), ?_⟩
  refine ⟨hown _ (by decide), clean_plain (plain_decimal _), hown _ (by decide), ?_⟩
  refine ⟨hown _ (by decide), clean_plain (plain_decimal _), hown _ (by decide), ?_⟩
  refine ⟨hown _ (by decide), clean_plain (plain_indexStatus _), hown _ (by decide), ?_⟩
  refine ⟨hown _ (by decide), clean_plain (plain_indexStatus _), hown _ (by decide), ?_⟩
  refine ⟨hown _ (by decide), clean_plain (plain_level _), hown _ (by decide), ?_⟩
  exact ⟨hown _ (by decide), clean_plain (plain_boolText _), hown _ (by decide)⟩

/-! ## The contract -/

/-- One line: a line feed at the end, and no other. -/
def EndsOnlyLine (text : List Char) : Prop :=
  ∃ line, '\n' ∉ line ∧ text = line ++ ['\n']

/-- Every quote outside an escape is one of the template's. -/
def OnlyOwnQuotes (parts : List Part) (text : List Char) : Prop :=
  ∀ before behind, text = before ++ '"' :: behind → escaped before = false →
    OwnQuote parts before

/-- An attestation is determined by its line, and its quotes are the template's. -/
theorem render_determines :
    Function.Injective render ∧
      ∀ self : Attestation, EndsOnlyLine self.render ∧ OnlyOwnQuotes self.parts self.render := by
  refine ⟨?_, fun self => ⟨⟨textOf self.parts, ?_, rfl⟩, ?_⟩⟩
  · intro a b h
    rw [render_eq, render_eq] at h
    have hfilled := List.append_cancel_left (List.append_cancel_left h)
    exact words_injective
      (fill_append_inj (r := []) (s := []) a.fits_words b.fits_words (congrArg (· ++ []) hfilled)).1
  · intro hmem
    obtain ⟨part, hpart, hmem⟩ := List.mem_flatMap.mp hmem
    exact (self.clean_parts part hpart).2 hmem
  · intro before behind h houtside
    have hsound : ∀ part ∈ self.parts, part.Sound := fun part hpart => (self.clean_parts part hpart).1
    -- The last character is the line feed, so the quote stands in front of it.
    cases hbehind : behind.reverse with
    | nil =>
      rw [List.reverse_eq_nil_iff.mp hbehind] at h
      have hlast := congrArg List.getLast? h
      rw [render, List.getLast?_append, List.getLast?_append] at hlast
      exact absurd (Option.some.inj hlast) (by decide)
    | cons c front =>
      have hsplit : behind = front.reverse ++ [c] := by
        rw [← List.reverse_reverse behind, hbehind, List.reverse_cons]
      rw [hsplit, ← List.cons_append, ← List.append_assoc] at h
      have hfront : textOf self.parts = before ++ '"' :: front.reverse :=
        (List.append_inj' h rfl).1
      exact ownQuote_of_sound hsound hfront houtside

end Attestation

end Qzt
