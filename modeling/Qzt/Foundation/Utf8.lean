import Qzt.Foundation.Slices

/-!
# UTF-8 as byte lists

The well-formed UTF-8 byte strings are the encodings of lists of scalar values
(`Char`).  `decode` recognises them one sequence at a time and is inverse to `encode`.

The second half is about positions.  A *boundary* of an encoded text is a position
that does not point at a continuation byte; cutting at a boundary, or right after an
ASCII byte, gives two encoded texts, and an encoded non-empty text can only occur in
another one at a boundary (self-synchronisation).
-/

namespace Foundation.Utf8

/-- Continuation bytes: the two high bits are `10`. -/
def isContinuation (b : UInt8) : Bool :=
  b &&& 0b11000000 == 0b10000000

theorem isContinuation_iff (b : UInt8) :
    isContinuation b = true ↔ 0x80 ≤ b.toNat ∧ b.toNat < 0xC0 := by
  have h : ∀ v : BitVec 8, (v &&& 0b11000000#8 = 0b10000000#8) ↔
      0x80 ≤ v.toNat ∧ v.toNat < 0xC0 := by decide
  have hb := h b.toBitVec
  simp only [isContinuation, beq_iff_eq, ← UInt8.toBitVec_inj]
  exact hb

/-! ## Encoding and decoding -/

/-- The UTF-8 encoding of a text. -/
def encode (cs : List Char) : List UInt8 :=
  cs.flatMap String.utf8EncodeChar

@[simp] theorem encode_nil : encode [] = [] := rfl

@[simp] theorem encode_cons (c : Char) (cs : List Char) :
    encode (c :: cs) = String.utf8EncodeChar c ++ encode cs := by
  simp [encode]

@[simp] theorem encode_append (cs ds : List Char) :
    encode (cs ++ ds) = encode cs ++ encode ds := by
  simp [encode]

/-- The scalar value `v`, when there is one. -/
def scalar (v : Nat) (rest : List UInt8) : Option (Char × List UInt8) :=
  if v.isValidChar then some (Char.ofNat v, rest) else none

/-- The payload of a continuation byte. -/
def payload (b : UInt8) : Nat := b.toNat - 0x80

/-- The first well-formed sequence of `bs`: the shortest form of a scalar value. -/
def decodeChar : List UInt8 → Option (Char × List UInt8)
  | [] => none
  | a :: rest =>
    if a.toNat < 0x80 then scalar a.toNat rest
    else if a.toNat < 0xC0 then none
    else if a.toNat < 0xE0 then
      match rest with
      | b :: rest =>
        let v := (a.toNat - 0xC0) * 64 + payload b
        if isContinuation b && 0x80 ≤ v then scalar v rest else none
      | _ => none
    else if a.toNat < 0xF0 then
      match rest with
      | b :: c :: rest =>
        let v := (a.toNat - 0xE0) * 4096 + payload b * 64 + payload c
        if isContinuation b && isContinuation c && 0x800 ≤ v then scalar v rest else none
      | _ => none
    else if a.toNat < 0xF8 then
      match rest with
      | b :: c :: d :: rest =>
        let v := (a.toNat - 0xF0) * 262144 + payload b * 4096 + payload c * 64 + payload d
        if isContinuation b && isContinuation c && isContinuation d && 0x10000 ≤ v then
          scalar v rest
        else none
      | _ => none
    else none

/-- Decode with at most `n` sequences. -/
def decodeUpTo : Nat → List UInt8 → Option (List Char)
  | _, [] => some []
  | 0, _ :: _ => none
  | n + 1, b :: bs => do
    let (c, rest) ← decodeChar (b :: bs)
    let cs ← decodeUpTo n rest
    return c :: cs

/-- The text encoded by `bs`, when `bs` is well-formed UTF-8. -/
def decode (bs : List UInt8) : Option (List Char) :=
  decodeUpTo bs.length bs

/-! ## One sequence -/

theorem char_toNat_valid (c : Char) :
    c.val.toNat < 0xd800 ∨ 0xdfff < c.val.toNat ∧ c.val.toNat < 0x110000 :=
  c.valid

theorem char_ofNat_toNat (c : Char) : Char.ofNat c.val.toNat = c :=
  Char.ofNat_toNat c

theorem encodeChar_ne_nil (c : Char) : String.utf8EncodeChar c ≠ [] :=
  String.utf8EncodeChar_ne_nil

/-- The bytes an encoder emits after the first one are continuation bytes. -/
theorem isContinuation_ofNat_mod (n : Nat) :
    isContinuation (UInt8.ofNat (n % 64 + 128)) = true := by
  have hn : n % 64 < 64 := Nat.mod_lt _ (by decide)
  rw [isContinuation_iff, UInt8.toNat_ofNat']
  omega

theorem payload_ofNat_mod (n : Nat) : payload (UInt8.ofNat (n % 64 + 128)) = n % 64 := by
  have h : (UInt8.ofNat (n % 64 + 128)).toNat = n % 64 + 128 := by
    rw [UInt8.toNat_ofNat']
    omega
  unfold payload
  omega

/-- Reading back one encoded scalar value. -/
theorem decodeChar_encodeChar (c : Char) (rest : List UInt8) :
    decodeChar (String.utf8EncodeChar c ++ rest) = some (c, rest) := by
  have hv := char_toNat_valid c
  have hvalid : c.val.toNat.isValidChar := c.valid
  have hof := char_ofNat_toNat c
  have hcont := isContinuation_ofNat_mod
  have hpay := payload_ofNat_mod
  set v := c.val.toNat with hvdef
  simp only [String.utf8EncodeChar, ← hvdef]
  split
  · rename_i h1
    have ha : (UInt8.ofNat v).toNat = v := by rw [UInt8.toNat_ofNat']; omega
    simp [decodeChar, ha, show v < 128 by omega, scalar, hvalid, hof]
  · split
    · rename_i h1 h2
      have ha : (UInt8.ofNat (v / 64 % 32 + 192)).toNat = v / 64 + 192 := by
        rw [UInt8.toNat_ofNat']; omega
      have hval : v / 64 * 64 + v % 64 = v := by omega
      simp only [List.cons_append, List.nil_append, decodeChar, ha, hcont,
        hpay, Nat.add_sub_cancel, hval]
      rw [if_neg (by omega), if_neg (by omega), if_pos (by omega)]
      simp [show 128 ≤ v by omega, scalar, hvalid, hof]
    · split
      · rename_i h1 h2 h3
        have ha : (UInt8.ofNat (v / 4096 % 16 + 224)).toNat = v / 4096 + 224 := by
          rw [UInt8.toNat_ofNat']; omega
        have hval : v / 4096 * 4096 + v / 64 % 64 * 64 + v % 64 = v := by omega
        simp only [List.cons_append, List.nil_append, decodeChar, ha, hcont,
          hpay, Nat.add_sub_cancel, hval]
        rw [if_neg (by omega), if_neg (by omega), if_neg (by omega), if_pos (by omega)]
        simp [show 2048 ≤ v by omega, scalar, hvalid, hof]
      · rename_i h1 h2 h3
        have ha : (UInt8.ofNat (v / 262144 % 8 + 240)).toNat = v / 262144 + 240 := by
          rw [UInt8.toNat_ofNat']; omega
        have hval : v / 262144 * 262144 + v / 4096 % 64 * 4096 + v / 64 % 64 * 64 + v % 64 = v := by
          omega
        simp only [List.cons_append, List.nil_append, decodeChar, ha, hcont,
          hpay, Nat.add_sub_cancel, hval]
        rw [if_neg (by omega), if_neg (by omega), if_neg (by omega), if_neg (by omega),
          if_pos (by omega)]
        simp [show 65536 ≤ v by omega, scalar, hvalid, hof]

theorem scalar_eq_some_iff {v : Nat} {rest rest' : List UInt8} {c : Char} :
    scalar v rest = some (c, rest') ↔ c.val.toNat = v ∧ rest = rest' := by
  unfold scalar
  split
  · rename_i h
    have hc : (Char.ofNat v).val.toNat = v := by
      rw [Char.ofNat, dif_pos h]
      rfl
    constructor
    · intro heq
      simp only [Option.some.injEq, Prod.mk.injEq] at heq
      exact ⟨heq.1 ▸ hc, heq.2⟩
    · rintro ⟨rfl, rfl⟩
      rw [char_ofNat_toNat]
  · rename_i h
    constructor
    · intro heq
      simp at heq
    · rintro ⟨rfl, -⟩
      exact absurd c.valid h

theorem payload_lt {b : UInt8} (h : isContinuation b = true) :
    payload b < 64 ∧ UInt8.ofNat (payload b + 128) = b := by
  rw [isContinuation_iff] at h
  unfold payload
  refine ⟨by omega, ?_⟩
  rw [Nat.sub_add_cancel h.1]
  exact UInt8.ofNat_toNat

/-- A decoded sequence is the encoding of its scalar value. -/
theorem encodeChar_of_decodeChar {bs rest : List UInt8} {c : Char}
    (h : decodeChar bs = some (c, rest)) : bs = String.utf8EncodeChar c ++ rest := by
  have hbyte : ∀ (x : UInt8) (n : Nat), x.toNat = n → UInt8.ofNat n = x := by
    rintro x n rfl
    exact UInt8.ofNat_toNat
  match bs with
  | [] => simp [decodeChar] at h
  | a :: tail =>
    have ha := a.toNat_lt
    simp only [decodeChar] at h
    split at h
    · rename_i h1
      obtain ⟨hv, rfl⟩ := scalar_eq_some_iff.mp h
      simp only [String.utf8EncodeChar, hv]
      rw [if_pos (by omega), hbyte a _ rfl]
      rfl
    · split at h
      · simp at h
      · split at h
        · match tail with
          | [] => simp at h
          | b :: tail =>
            simp only [Bool.and_eq_true, decide_eq_true_eq] at h
            split at h
            · rename_i h1 h2 h3 h4
              obtain ⟨hv, rfl⟩ := scalar_eq_some_iff.mp h
              obtain ⟨hb, hbeq⟩ := payload_lt h4.1
              simp only [String.utf8EncodeChar, hv]
              rw [if_neg (by omega), if_pos (by omega), hbyte a _ (by omega)]
              rw [show ((a.toNat - 192) * 64 + payload b) % 64 = payload b by omega, hbeq]
              rfl
            · simp at h
        · split at h
          · match tail with
            | [] => simp at h
            | [_] => simp at h
            | b :: d :: tail =>
              simp only [Bool.and_eq_true, decide_eq_true_eq] at h
              split at h
              · rename_i h1 h2 h3 h4 h5
                obtain ⟨hv, rfl⟩ := scalar_eq_some_iff.mp h
                obtain ⟨hb, hbeq⟩ := payload_lt h5.1.1
                obtain ⟨hd, hdeq⟩ := payload_lt h5.1.2
                simp only [String.utf8EncodeChar, hv]
                rw [if_neg (by omega), if_neg (by omega), if_pos (by omega),
                  hbyte a _ (by omega)]
                rw [show ((a.toNat - 224) * 4096 + payload b * 64 + payload d) / 64 % 64
                    = payload b by omega, hbeq]
                rw [show ((a.toNat - 224) * 4096 + payload b * 64 + payload d) % 64
                    = payload d by omega, hdeq]
                rfl
              · simp at h
          · split at h
            · match tail with
              | [] => simp at h
              | [_] => simp at h
              | [_, _] => simp at h
              | b :: d :: e :: tail =>
                simp only [Bool.and_eq_true, decide_eq_true_eq] at h
                split at h
                · rename_i h1 h2 h3 h4 h5 h6
                  obtain ⟨hv, rfl⟩ := scalar_eq_some_iff.mp h
                  obtain ⟨hb, hbeq⟩ := payload_lt h6.1.1.1
                  obtain ⟨hd, hdeq⟩ := payload_lt h6.1.1.2
                  obtain ⟨he, heeq⟩ := payload_lt h6.1.2
                  have hvalid := char_toNat_valid c
                  rw [hv] at hvalid
                  simp only [String.utf8EncodeChar, hv]
                  rw [if_neg (by omega), if_neg (by omega), if_neg (by omega),
                    hbyte a _ (by omega)]
                  rw [show ((a.toNat - 240) * 262144 + payload b * 4096 + payload d * 64
                      + payload e) / 4096 % 64 = payload b by omega, hbeq]
                  rw [show ((a.toNat - 240) * 262144 + payload b * 4096 + payload d * 64
                      + payload e) / 64 % 64 = payload d by omega, hdeq]
                  rw [show ((a.toNat - 240) * 262144 + payload b * 4096 + payload d * 64
                      + payload e) % 64 = payload e by omega, heeq]
                  rfl
                · simp at h
            · simp at h

/-! ## Whole texts -/

theorem decodeUpTo_encode (cs : List Char) (n : Nat) (h : (encode cs).length ≤ n) :
    decodeUpTo n (encode cs) = some cs := by
  induction cs generalizing n with
  | nil => cases n <;> rfl
  | cons c cs ih =>
    have hne := encodeChar_ne_nil c
    have hpos : 0 < (String.utf8EncodeChar c).length := List.length_pos_of_ne_nil hne
    simp only [encode_cons, List.length_append] at h ⊢
    match n, hbs : String.utf8EncodeChar c ++ encode cs with
    | 0, _ => omega
    | n + 1, [] => simp_all
    | n + 1, b :: bs =>
      have hdec := decodeChar_encodeChar c (encode cs)
      rw [hbs] at hdec
      simp [decodeUpTo, hdec, ih n (by omega)]

/-- Every encoded text decodes to itself. -/
@[simp] theorem decode_encode (cs : List Char) : decode (encode cs) = some cs :=
  decodeUpTo_encode cs _ (Nat.le_refl _)

theorem encode_of_decodeUpTo {n : Nat} {bs : List UInt8} {cs : List Char}
    (h : decodeUpTo n bs = some cs) : bs = encode cs := by
  induction n generalizing bs cs with
  | zero =>
    cases bs with
    | nil =>
      cases h
      rfl
    | cons b bs => cases h
  | succ n ih =>
    cases bs with
    | nil =>
      cases h
      rfl
    | cons b bs =>
      simp only [decodeUpTo, Option.bind_eq_bind, Option.bind_eq_some_iff] at h
      obtain ⟨⟨c, rest⟩, hc, ds, hds, heq⟩ := h
      cases heq
      have hrest : rest = encode ds := ih hds
      rw [encodeChar_of_decodeChar hc, hrest, encode_cons]

/-- `decode` accepts exactly the encodings. -/
theorem decode_eq_some_iff {bs : List UInt8} {cs : List Char} :
    decode bs = some cs ↔ bs = encode cs := by
  constructor
  · exact encode_of_decodeUpTo
  · rintro rfl
    exact decode_encode cs

theorem encode_injective {cs ds : List Char} (h : encode cs = encode ds) : cs = ds := by
  have hdec : decode (encode cs) = decode (encode ds) := by rw [h]
  simpa using hdec

/-- Well-formed UTF-8. -/
def Valid (bs : List UInt8) : Prop :=
  ∃ cs, bs = encode cs

theorem valid_iff_isSome_decode (bs : List UInt8) : Valid bs ↔ (decode bs).isSome = true := by
  simp only [Valid, Option.isSome_iff_exists, decode_eq_some_iff]

instance (bs : List UInt8) : Decidable (Valid bs) :=
  decidable_of_iff _ (valid_iff_isSome_decode bs).symm

theorem Valid.append {as bs : List UInt8} (ha : Valid as) (hb : Valid bs) :
    Valid (as ++ bs) := by
  obtain ⟨cs, rfl⟩ := ha
  obtain ⟨ds, rfl⟩ := hb
  exact ⟨cs ++ ds, by simp⟩

theorem valid_nil : Valid [] := ⟨[], rfl⟩

theorem valid_flatten {parts : List (List UInt8)} (h : ∀ part ∈ parts, Valid part) :
    Valid parts.flatten := by
  induction parts with
  | nil => exact valid_nil
  | cons part parts ih =>
    rw [List.forall_mem_cons] at h
    exact h.1.append (ih h.2)

/-! ## Cutting a text

A well-formed text may be cut in front of any byte that does not continue a sequence. -/

/-- An encoded scalar value is one leading byte followed by continuation bytes, and an ASCII byte
stands alone. -/
theorem encodeChar_eq_cons (c : Char) :
    ∃ b tail, String.utf8EncodeChar c = b :: tail ∧ isContinuation b = false ∧
      (∀ x ∈ tail, isContinuation x = true) ∧ (b.toNat < 0x80 → tail = []) := by
  have hv := char_toNat_valid c
  have hcont := isContinuation_ofNat_mod
  have hlead : ∀ n : Nat, n < 128 ∨ 192 ≤ n ∧ n < 256 →
      isContinuation (UInt8.ofNat n) = false ∧ (UInt8.ofNat n).toNat = n := by
    intro n hn
    have hval : (UInt8.ofNat n).toNat = n := by rw [UInt8.toNat_ofNat']; omega
    refine ⟨?_, hval⟩
    rw [Bool.eq_false_iff, Ne, isContinuation_iff, hval]
    omega
  have htail : ∀ tail : List UInt8, tail.all isContinuation = true →
      ∀ x ∈ tail, isContinuation x = true := fun tail h => List.all_eq_true.mp h
  set v := c.val.toNat with hvdef
  simp only [String.utf8EncodeChar, ← hvdef]
  split
  · obtain ⟨h1, -⟩ := hlead v (by omega)
    exact ⟨_, _, rfl, h1, by simp, fun _ => rfl⟩
  · split
    · obtain ⟨h1, h2⟩ := hlead (v / 64 % 32 + 192) (by omega)
      exact ⟨_, _, rfl, h1, htail _ (by simp only [List.all_cons, List.all_nil, hcont, Bool.and_self]), fun h => by omega⟩
    · split
      · obtain ⟨h1, h2⟩ := hlead (v / 4096 % 16 + 224) (by omega)
        exact ⟨_, _, rfl, h1, htail _ (by simp only [List.all_cons, List.all_nil, hcont, Bool.and_self]), fun h => by omega⟩
      · obtain ⟨h1, h2⟩ := hlead (v / 262144 % 8 + 240) (by omega)
        exact ⟨_, _, rfl, h1, htail _ (by simp only [List.all_cons, List.all_nil, hcont, Bool.and_self]), fun h => by omega⟩

/-- A cut is on a scalar boundary when no continuation byte follows it. -/
def StartsScalar (bs : List UInt8) : Prop :=
  ∀ b, bs.head? = some b → isContinuation b = false

theorem startsScalar_encode (cs : List Char) : StartsScalar (encode cs) := by
  intro b hb
  cases cs with
  | nil => simp [encode] at hb
  | cons c cs =>
    obtain ⟨a, tail, heq, hlead, -, -⟩ := encodeChar_eq_cons c
    rw [encode_cons, heq] at hb
    cases hb
    exact hlead

/-- Cutting an encoded text on a scalar boundary cuts the list of scalar values. -/
theorem encode_eq_append {cs : List Char} {as bs : List UInt8}
    (h : encode cs = as ++ bs) (hbs : StartsScalar bs) :
    ∃ cs₁ cs₂, cs = cs₁ ++ cs₂ ∧ as = encode cs₁ ∧ bs = encode cs₂ := by
  induction cs generalizing as with
  | nil =>
    obtain ⟨rfl, rfl⟩ := List.append_eq_nil_iff.mp h.symm
    exact ⟨[], [], rfl, rfl, rfl⟩
  | cons c cs ih =>
    rw [encode_cons] at h
    rcases List.append_eq_append_iff.mp h with ⟨as', rfl, hcs⟩ | ⟨cut, hc, rfl⟩
    · obtain ⟨cs₁, cs₂, rfl, rfl, rfl⟩ := ih hcs
      exact ⟨c :: cs₁, cs₂, rfl, by rw [encode_cons], rfl⟩
    · -- the cut falls inside the first scalar value, so it is at one of its two ends
      obtain ⟨b, tail, heq, -, htail, -⟩ := encodeChar_eq_cons c
      cases cut with
      | nil =>
        rw [List.append_nil] at hc
        exact ⟨[c], cs, rfl, by simp [encode_cons, hc, encode_nil], rfl⟩
      | cons x cut =>
        cases as with
        | nil => exact ⟨[], c :: cs, rfl, rfl, by rw [encode_cons, hc]; rfl⟩
        | cons a as =>
          rw [heq, List.cons_append, List.cons.injEq] at hc
          have hx : isContinuation x = true := htail x (by rw [hc.2]; simp)
          have := hbs x rfl
          simp [hx] at this

/-- An encoded text that starts with the encoding of `q` is the encoding of a text that starts
with `q`. -/
theorem encode_eq_encode_append {cs q : List Char} {bs : List UInt8}
    (h : encode cs = encode q ++ bs) : ∃ cs', cs = q ++ cs' ∧ bs = encode cs' := by
  induction q generalizing cs with
  | nil => exact ⟨cs, rfl, by simpa [encode_nil] using h.symm⟩
  | cons c q ih =>
    rw [encode_cons, List.append_assoc] at h
    cases cs with
    | nil =>
      have hnil : String.utf8EncodeChar c = [] := (List.append_eq_nil_iff.mp h.symm).1
      exact absurd hnil (encodeChar_ne_nil c)
    | cons d cs =>
      have hd := decodeChar_encodeChar d (encode cs)
      rw [← encode_cons, h, decodeChar_encodeChar, Option.some.injEq, Prod.mk.injEq] at hd
      obtain ⟨rfl, hrest⟩ := hd
      obtain ⟨cs', rfl, rfl⟩ := ih hrest.symm
      exact ⟨cs', rfl, rfl⟩

/-- Self-synchronisation: the encoding of a non-empty text occurs in another encoding only where
the text itself occurs. -/
theorem encode_eq_append_encode_append {cs q : List Char} {as bs : List UInt8} (hq : q ≠ [])
    (h : encode cs = as ++ encode q ++ bs) :
    ∃ cs₁ cs₂, cs = cs₁ ++ q ++ cs₂ ∧ as = encode cs₁ ∧ bs = encode cs₂ := by
  have hstart : StartsScalar (encode q ++ bs) := by
    intro b hb
    rw [List.head?_append_of_ne_nil] at hb
    · exact startsScalar_encode q b hb
    · cases q with
      | nil => exact absurd rfl hq
      | cons c q => simp [encode_cons]
  rw [List.append_assoc] at h
  obtain ⟨cs₁, cs₂, rfl, rfl, hcs₂⟩ := encode_eq_append h hstart
  obtain ⟨cs', rfl, rfl⟩ := encode_eq_encode_append hcs₂.symm
  exact ⟨cs₁, cs', by rw [List.append_assoc], rfl, rfl⟩

theorem startsScalar_of_lt {b : UInt8} {bs : List UInt8} (hb : b.toNat < 0x80) :
    StartsScalar (b :: bs) := by
  intro x hx
  cases hx
  rw [Bool.eq_false_iff, Ne, isContinuation_iff]
  omega

/-- An ASCII byte of an encoded text is a scalar value of its own. -/
theorem encode_eq_append_cons {cs : List Char} {as bs : List UInt8} {b : UInt8}
    (hb : b.toNat < 0x80) (h : encode cs = as ++ b :: bs) :
    ∃ cs₁ c cs₂, cs = cs₁ ++ c :: cs₂ ∧ as = encode cs₁ ∧ String.utf8EncodeChar c = [b] ∧
      bs = encode cs₂ := by
  obtain ⟨cs₁, cs₂, rfl, rfl, hcs₂⟩ := encode_eq_append h (startsScalar_of_lt hb)
  cases cs₂ with
  | nil => simp [encode_nil] at hcs₂
  | cons c cs₂ =>
    obtain ⟨x, tail, heq, -, -, htail⟩ := encodeChar_eq_cons c
    rw [encode_cons, heq, List.cons_append, List.cons.injEq] at hcs₂
    obtain ⟨rfl, hrest⟩ := hcs₂
    rw [htail hb] at heq hrest
    exact ⟨cs₁, c, cs₂, rfl, rfl, heq, hrest⟩

theorem Valid.of_append_left {as bs : List UInt8} (h : Valid (as ++ bs)) (hbs : StartsScalar bs) :
    Valid as ∧ Valid bs := by
  obtain ⟨cs, hcs⟩ := h
  obtain ⟨cs₁, cs₂, -, has, hbs⟩ := encode_eq_append hcs.symm hbs
  exact ⟨⟨cs₁, has⟩, ⟨cs₂, hbs⟩⟩

/-! ## ASCII scalars -/

section Ascii

variable {c : Char} {b : UInt8}

/-- A byte below 0x80 is in the encoding of its own scalar only. -/
theorem mem_encodeChar_iff (hb : b.toNat < 0x80) (hc : String.utf8EncodeChar c = [b]) (d : Char) :
    b ∈ String.utf8EncodeChar d ↔ d = c := by
  constructor
  · intro hmem
    obtain ⟨lead, tail, heq, -, htail, hascii⟩ := encodeChar_eq_cons d
    rw [heq] at hmem
    have hlead : b = lead := by
      rcases List.mem_cons.mp hmem with hlead | hcontinues
      · exact hlead
      · have hcont := (isContinuation_iff b).mp (htail b hcontinues)
        omega
    have hsame : encode [d] = encode [c] := by
      rw [encode_cons, encode_cons, heq, hc, hascii (hlead ▸ hb), hlead]
    exact (List.cons.inj (encode_injective hsame)).1
  · rintro rfl
    rw [hc]
    exact List.mem_singleton_self b

theorem mem_encode_iff (hb : b.toNat < 0x80) (hc : String.utf8EncodeChar c = [b])
    {cs : List Char} : b ∈ encode cs ↔ c ∈ cs := by
  induction cs with
  | nil => simp
  | cons d cs ih =>
    rw [encode_cons, List.mem_append, mem_encodeChar_iff hb hc, ih, List.mem_cons, eq_comm]

/-- Before the last byte of a text stand the bytes of the scalars before its last one, and bytes
that are no ASCII. -/
theorem mem_dropLast_encode_iff (hb : b.toNat < 0x80) (hc : String.utf8EncodeChar c = [b])
    {cs : List Char} : b ∈ (encode cs).dropLast ↔ c ∈ cs.dropLast := by
  induction cs using List.reverseRecOn with
  | nil => simp
  | append_singleton cs d _ =>
    obtain ⟨lead, tail, heq, -, htail, hascii⟩ := encodeChar_eq_cons d
    have hlast : b ∉ (lead :: tail).dropLast := by
      cases tail with
      | nil => exact List.not_mem_nil
      | cons next rest =>
        intro hmem
        rw [List.dropLast_cons_cons] at hmem
        rcases List.mem_cons.mp hmem with rfl | hcontinues
        · exact absurd (hascii hb) (List.cons_ne_nil _ _)
        · have hcont := (isContinuation_iff b).mp (htail b (List.mem_of_mem_dropLast hcontinues))
          omega
    rw [encode_append, encode_cons, encode_nil, List.append_nil, heq,
      List.dropLast_append_of_ne_nil (List.cons_ne_nil _ _), List.mem_append, or_iff_left hlast,
      mem_encode_iff hb hc, List.dropLast_concat]

end Ascii

/-! ## Boundaries -/

/-- A position of a text where no scalar value is cut. -/
def Boundary (bs : List UInt8) (position : Nat) : Prop :=
  StartsScalar (bs.drop position)

/-- A non-empty slice of a text is a text exactly when both cuts are boundaries. -/
theorem valid_slice_iff {bs : List UInt8} (h : Valid bs) {offset length : Nat}
    (hpos : 0 < length) (hrange : offset + length ≤ bs.length) :
    Valid (slice bs offset length) ↔ Boundary bs offset ∧ Boundary bs (offset + length) := by
  have hbehind : bs.drop offset = slice bs offset length ++ bs.drop (offset + length) := by
    rw [slice, ← List.drop_drop, List.take_append_drop]
  constructor
  · rintro ⟨q, hq⟩
    have hne : q ≠ [] := by
      rintro rfl
      have hlen := length_slice_of_le hrange
      rw [hq, encode_nil, List.length_nil] at hlen
      omega
    obtain ⟨cs, hcs⟩ := h
    have hsplit : encode cs = bs.take offset ++ encode q ++ bs.drop (offset + length) := by
      rw [← hcs, ← hq, List.append_assoc, ← hbehind, List.take_append_drop]
    -- The slice occurs in the text only between scalar values.
    obtain ⟨_, cs₂, -, -, hrest⟩ := encode_eq_append_encode_append hne hsplit
    constructor
    · rw [Boundary, hbehind, hq, hrest, ← encode_append]
      exact startsScalar_encode _
    · rw [Boundary, hrest]
      exact startsScalar_encode _
  · rintro ⟨hstart, hstop⟩
    have hvalid : Valid (bs.drop offset) := by
      rw [← List.take_append_drop offset bs] at h
      exact (h.of_append_left hstart).2
    rw [hbehind] at hvalid
    exact (hvalid.of_append_left hstop).1

end Foundation.Utf8
