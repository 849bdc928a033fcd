import Qzt.Container.DenseCanonical
import Qzt.Sidecar.Codecs

/-!
# The three varint readers

`dense_line_index.rs`, `search.rs` and `sidecar.rs` each have a `write_varuint` and a
`read_varuint` of their own.  The readers refuse an overlong form in three ways: by a last byte
of zero, by a comparison with the bytes that would be written, and by a comparison of the
lengths only.  They are one grammar: each takes the shortest base-128 forms of the machine
words, and nothing else.
-/

namespace Qzt.Varuint

open Foundation

/-- The modules with varint functions of their own. -/
inductive Source where
  | denseLineIndex
  | search
  | sidecar
  deriving DecidableEq, Repr

/-! ## Writers -/

/-- The loop of `write_varuint` in `sidecar.rs`, with `rounds` bytes left to try.  It looks
for the last group behind the shift, where the other two look before it. -/
def writeLoop : Nat → Nat → List UInt8
  | 0, _ => []
  | rounds + 1, value =>
    let byte := value % 128
    let value := value / 128
    let byte := if value ≠ 0 then byte + 128 else byte
    UInt8.ofNat byte :: if value = 0 then [] else writeLoop rounds value

/-- `write_varuint` of each module.  A machine word has at most ten groups. -/
def write : Source → Nat → List UInt8
  | .denseLineIndex, value => Dense.writeVaruint value
  | .search, value => writeVaruint value
  | .sidecar, value => writeLoop 10 value

theorem writeLoop_eq {rounds value : Nat} (h : value < 128 ^ rounds) (hrounds : 0 < rounds) :
    writeLoop rounds value = leb128 value := by
  induction rounds generalizing value with
  | zero => exact absurd hrounds (Nat.lt_irrefl 0)
  | succ rounds ih =>
    rw [writeLoop]
    rcases Nat.lt_or_ge value 128 with hsmall | hlarge
    · -- The last group.
      have hdone : value / 128 = 0 := Nat.div_eq_of_lt hsmall
      rw [hdone, leb128_of_lt hsmall, Nat.mod_eq_of_lt hsmall]
      rfl
    · have hmore : ¬ value / 128 = 0 := by omega
      have hnext : value / 128 < 128 ^ rounds := by
        rw [Nat.div_lt_iff_lt_mul (by decide)]
        rwa [Nat.pow_succ] at h
      have hpos : 0 < rounds := by
        rcases Nat.eq_zero_or_pos rounds with hzero | hpos
        · rw [hzero, Nat.pow_zero] at hnext
          omega
        · exact hpos
      rw [if_pos hmore, if_neg hmore, ih hnext hpos, leb128_of_le hlarge]

/-- All three write the canonical form. -/
theorem write_eq {value : Nat} (h : value < 2 ^ 64) (source : Source) :
    write source value = leb128 value := by
  cases source with
  | denseLineIndex => rfl
  | search => rfl
  | sidecar => exact writeLoop_eq (Nat.lt_trans h (by decide)) (by decide)

/-! ## Readers -/

/-- `read_varuint` of each module: the value, and the cursor behind it. -/
def read (source : Source) (bytes : List UInt8) (cursor : Nat) : Result (Nat × Nat) :=
  match source with
  | .denseLineIndex => do
    let (value, rest) ← Dense.readVaruint (bytes.drop cursor)
    return (value, bytes.length - rest.length)
  | .search => do
    let (value, rest) ← readVaruint (bytes.drop cursor)
    return (value, bytes.length - rest.length)
  | .sidecar => Sidecar.readVaruint bytes cursor

/-! ### What the readers take -/

theorem dense_lt_of_readVaruintLoop {bytes rest : List UInt8} {value shift length result : Nat}
    (hvalue : value < 2 ^ shift) (hshift : shift ≤ 63) (hseven : shift % 7 = 0)
    (h : Dense.readVaruintLoop bytes value shift length = .ok (result, rest)) :
    result < 2 ^ 64 := by
  induction bytes generalizing value shift length with
  | nil => cases h
  | cons byte bytes ih =>
    have hpayload : byte.toNat % 128 < 128 := Nat.mod_lt _ (by decide)
    simp only [Dense.readVaruintLoop, bind_eq_ok_iff, rejectIf_eq_ok_iff] at h
    obtain ⟨_, htop, h⟩ := h
    split at h
    · simp only [bind_eq_ok_iff, rejectIf_eq_ok_iff, pure_eq_ok, Except.ok.injEq,
        Prod.mk.injEq] at h
      obtain ⟨_, -, rfl, -⟩ := h
      exact add_last_lt hvalue hpayload hshift hseven htop
    · split at h
      · cases h
      · exact ih (add_group_lt hvalue hpayload) (by omega) (by omega) h

/-- The reader of `sidecar.rs` has read a base-128 form of the value, and as many bytes as
would be written. -/
theorem sidecar_of_readVaruintLoop {bytes : List UInt8} {start rounds shift value cursor : Nat}
    {result stop : Nat} (hvalue : value < 2 ^ shift) (hrounds : shift + 7 * rounds = 70)
    (h : Sidecar.readVaruintLoop bytes start rounds shift value cursor = .ok (result, stop)) :
    ∃ groups v, StandsAt bytes cursor groups ∧ Encodes groups v ∧
      result = value + v * 2 ^ shift ∧ result < 2 ^ 64 ∧ stop = cursor + groups.length ∧
      (leb128 result).length = stop - start := by
  induction rounds generalizing shift value cursor with
  | zero => cases h
  | succ rounds ih =>
    simp only [Sidecar.readVaruintLoop, bind_eq_ok_iff, okOr_eq_ok_iff, Prod.exists,
      rejectIf_eq_ok_iff] at h
    obtain ⟨found, next, hread, byte, hhead, _, htop, h⟩ := h
    obtain ⟨hfound, hone, rfl⟩ := Sidecar.standsAt_of_readExact hread
    obtain ⟨first, rfl⟩ := List.length_eq_one_iff.mp hone
    have hbyte : first = byte := Option.some.inj hhead
    subst hbyte
    have hpayload : first.toNat % 128 < 128 := Nat.mod_lt _ (by decide)
    split at h
    · rename_i hlast
      simp only [bind_eq_ok_iff, rejectIf_eq_ok_iff, pure_eq_ok, Except.ok.injEq,
        Prod.mk.injEq, not_ne_iff] at h
      obtain ⟨_, hwritten, rfl, rfl⟩ := h
      refine ⟨[first], first.toNat, hfound, Encodes.last hlast, ?_, ?_, rfl, hwritten⟩
      · rw [Nat.mod_eq_of_lt hlast]
      · exact add_last_lt hvalue hpayload (by omega) (by omega) htop
    · rename_i hmore
      obtain ⟨groups, v, hgroups, hform, rfl, hlt, rfl, hlength⟩ :=
        ih (add_group_lt hvalue hpayload) (by omega) h
      refine ⟨first :: groups, first.toNat % 128 + v * 128, hfound.append hgroups,
        Encodes.more (Nat.le_of_not_lt hmore) hform, ?_, hlt, ?_, hlength⟩
      · rw [Nat.pow_add]
        ring
      · rw [List.length_cons]
        omega

/-! ### One grammar -/

section Grammar

variable {bytes : List UInt8} {cursor value next : Nat}

/-- The cursor behind a part that was cut off the rest of the bytes. -/
theorem length_sub_of_drop {part rest : List UInt8} (hpart : part ≠ [])
    (h : bytes.drop cursor = part ++ rest) :
    bytes.length - rest.length = cursor + part.length := by
  have hlength := congrArg List.length h
  have hpos := List.length_pos_of_ne_nil hpart
  rw [List.length_drop, List.length_append] at hlength
  omega

/-- A reader over the rest of the bytes, as a reader at a cursor. -/
theorem at_cursor_iff {readRest : List UInt8 → Result (Nat × List UInt8)}
    (hread : ∀ rest v after, readRest rest = .ok (v, after) ↔
      v < 2 ^ 64 ∧ rest = leb128 v ++ after) :
    (do let (value, rest) ← readRest (bytes.drop cursor)
        return (value, bytes.length - rest.length) : Result (Nat × Nat)) = .ok (value, next) ↔
      value < 2 ^ 64 ∧ StandsAt bytes cursor (leb128 value) ∧
        next = cursor + (leb128 value).length := by
  simp only [bind_eq_ok_iff, Prod.exists, hread, pure_eq_ok, Except.ok.injEq, Prod.mk.injEq]
  rw [standsAt_iff_drop (leb128_ne_nil value)]
  constructor
  · rintro ⟨v, after, ⟨hlt, hdrop⟩, rfl, rfl⟩
    exact ⟨hlt, ⟨after, hdrop⟩, length_sub_of_drop (leb128_ne_nil v) hdrop⟩
  · rintro ⟨hlt, ⟨after, hdrop⟩, rfl⟩
    exact ⟨value, after, ⟨hlt, hdrop⟩, rfl, length_sub_of_drop (leb128_ne_nil value) hdrop⟩

theorem dense_readVaruint_iff (rest : List UInt8) (v : Nat) (after : List UInt8) :
    Dense.readVaruint rest = .ok (v, after) ↔ v < 2 ^ 64 ∧ rest = leb128 v ++ after := by
  constructor
  · intro h
    exact ⟨dense_lt_of_readVaruintLoop (by decide) (by decide) (by decide) h,
      Dense.readVaruint_canonical h⟩
  · rintro ⟨hlt, rfl⟩
    exact Dense.readVaruint_writeVaruint hlt after

theorem sidecar_readVaruint_iff (hword : bytes.length < 2 ^ 64) :
    Sidecar.readVaruint bytes cursor = .ok (value, next) ↔
      value < 2 ^ 64 ∧ StandsAt bytes cursor (leb128 value) ∧
        next = cursor + (leb128 value).length := by
  constructor
  · intro h
    obtain ⟨groups, v, hgroups, hform, hvalue, hlt, rfl, hlength⟩ :=
      sidecar_of_readVaruintLoop (by decide) (by decide) h
    rw [Nat.pow_zero, Nat.mul_one, Nat.zero_add] at hvalue
    subst hvalue
    -- A form as long as the canonical one is the canonical one.
    rw [Nat.add_sub_cancel_left] at hlength
    obtain rfl := hform.eq_leb128 hlength
    exact ⟨hlt, hgroups, rfl⟩
  · rintro ⟨hlt, hstands, rfl⟩
    exact Sidecar.readVaruint_of_standsAt hword hstands hlt

theorem read_eq_ok_iff (hword : bytes.length < 2 ^ 64) (source : Source) :
    read source bytes cursor = .ok (value, next) ↔
      value < 2 ^ 64 ∧ StandsAt bytes cursor (leb128 value) ∧
        next = cursor + (leb128 value).length := by
  cases source with
  | denseLineIndex => exact at_cursor_iff dense_readVaruint_iff
  | search => exact at_cursor_iff readVaruint_eq_ok_iff
  | sidecar => exact sidecar_readVaruint_iff hword

end Grammar

/-- The bytes at the cursor begin with the shortest base-128 form of a machine word. -/
def BeginsWithWord (bytes : List UInt8) (cursor value length : Nat) : Prop :=
  value < 2 ^ 64 ∧
    ∃ encoding, MinimalForm encoding value ∧ StandsAt bytes cursor encoding ∧
      encoding.length = length

/-- The readers are one grammar, and each takes what each writer has written. -/
theorem readers_agree {bytes : List UInt8} {cursor : Nat} (hword : bytes.length < 2 ^ 64) :
    (∀ source other, (∃ result, read source bytes cursor = .ok result) ↔
      ∃ result, read other bytes cursor = .ok result) ∧
    (∀ source value next, read source bytes cursor = .ok (value, next) ↔
      ∃ length, BeginsWithWord bytes cursor value length ∧ next = cursor + length) ∧
    (∀ source other value, value < 2 ^ 64 → StandsAt bytes cursor (write source value) →
      read other bytes cursor = .ok (value, cursor + (write source value).length)) := by
  refine ⟨?_, ?_, ?_⟩
  · intro source other
    constructor
    · rintro ⟨⟨value, next⟩, h⟩
      exact ⟨(value, next), (read_eq_ok_iff hword other).mpr ((read_eq_ok_iff hword source).mp h)⟩
    · rintro ⟨⟨value, next⟩, h⟩
      exact ⟨(value, next), (read_eq_ok_iff hword source).mpr ((read_eq_ok_iff hword other).mp h)⟩
  · intro source value next
    rw [read_eq_ok_iff hword]
    constructor
    · rintro ⟨hlt, hstands, hnext⟩
      exact ⟨_, ⟨hlt, leb128 value, minimalForm_iff.mpr rfl, hstands, rfl⟩, hnext⟩
    · rintro ⟨_, ⟨hlt, encoding, hminimal, hstands, rfl⟩, hnext⟩
      obtain rfl := minimalForm_iff.mp hminimal
      exact ⟨hlt, hstands, hnext⟩
  · intro source other value hlt hstands
    rw [write_eq hlt] at hstands ⊢
    exact (read_eq_ok_iff hword other).mpr ⟨hlt, hstands, rfl⟩

/-- The largest word, in its ten bytes. -/
theorem readers_agree_on_the_largest_word :
    read .sidecar (write .search (2 ^ 64 - 1)) 0 = .ok (2 ^ 64 - 1, 10) := by
  have hten : (write .search (2 ^ 64 - 1)).length = 10 := by decide +kernel
  obtain ⟨-, -, hread⟩ := @readers_agree (write .search (2 ^ 64 - 1)) 0 (by omega)
  rw [hread .search .sidecar _ (by decide) (standsAt_self _), hten]

end Qzt.Varuint
