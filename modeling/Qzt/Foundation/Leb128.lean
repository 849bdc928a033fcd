import Mathlib.Data.List.Basic
import Mathlib.Tactic.Common
import Mathlib.Tactic.Ring

/-!
# Variable-length words

The canonical base-128 form of a natural number: seven bits a byte, least significant
group first, the high bit set on every byte but the last.  Among all the base-128 forms of
a number, which may end in groups of zeros, it is the one with the fewest bytes.
-/

namespace Foundation

/-- `leb128` with an explicit bound on the number of groups. -/
def leb128UpTo : Nat → Nat → List UInt8
  | 0, v => [UInt8.ofNat (v % 128)]
  | n + 1, v =>
    if v < 128 then [UInt8.ofNat v] else UInt8.ofNat (v % 128 + 128) :: leb128UpTo n (v / 128)

/-- The canonical base-128 form of `v`. -/
def leb128 (v : Nat) : List UInt8 :=
  leb128UpTo v v

private theorem leb128UpTo_eq {m n v : Nat} (hm : v ≤ m) (hn : v ≤ n) :
    leb128UpTo m v = leb128UpTo n v := by
  induction m generalizing n v with
  | zero =>
    obtain rfl : v = 0 := by omega
    cases n <;> rfl
  | succ m ih =>
    cases n with
    | zero =>
      obtain rfl : v = 0 := by omega
      rfl
    | succ n =>
      simp only [leb128UpTo]
      split
      · rfl
      · rw [ih (n := n) (by omega) (by omega)]

theorem leb128_of_lt {v : Nat} (h : v < 128) : leb128 v = [UInt8.ofNat v] := by
  cases v with
  | zero => rfl
  | succ v => simp only [leb128, leb128UpTo, if_pos h]

theorem leb128_of_le {v : Nat} (h : 128 ≤ v) :
    leb128 v = UInt8.ofNat (v % 128 + 128) :: leb128 (v / 128) := by
  cases v with
  | zero => omega
  | succ v =>
    rw [leb128, leb128UpTo, if_neg (by omega), leb128]
    rw [leb128UpTo_eq (n := (v + 1) / 128) (by omega) (Nat.le_refl _)]

/-- The number of bytes of `leb128 v`. -/
def leb128Length (v : Nat) : Nat :=
  (leb128 v).length

theorem leb128_ne_nil (v : Nat) : leb128 v ≠ [] := by
  rcases Nat.lt_or_ge v 128 with h | h
  · simp [leb128_of_lt h]
  · simp [leb128_of_le h]

theorem length_leb128_pos (v : Nat) : 0 < (leb128 v).length :=
  List.length_pos_of_ne_nil (leb128_ne_nil v)

/-- A positive number takes at most as many bytes as it counts. -/
theorem length_leb128_le {v : Nat} (h : 0 < v) : (leb128 v).length ≤ v := by
  induction v using Nat.strongRecOn with
  | _ v ih =>
    rcases Nat.lt_or_ge v 128 with hsmall | hlarge
    · rw [leb128_of_lt hsmall]
      exact h
    · have hrest := ih (v / 128) (by omega) (by omega)
      rw [leb128_of_le hlarge, List.length_cons]
      omega

/-- Seven bits a byte. -/
theorem length_leb128_le_of_lt {v groups : Nat} (h : v < 128 ^ (groups + 1)) :
    (leb128 v).length ≤ groups + 1 := by
  induction groups generalizing v with
  | zero =>
    rw [leb128_of_lt (by simpa using h)]
    exact Nat.le_refl _
  | succ groups ih =>
    rcases Nat.lt_or_ge v 128 with hsmall | hlarge
    · rw [leb128_of_lt hsmall]
      exact Nat.le_add_left _ _
    · rw [leb128_of_le hlarge, List.length_cons]
      apply Nat.succ_le_succ
      apply ih
      rw [Nat.div_lt_iff_lt_mul (by decide)]
      rwa [Nat.pow_succ] at h

/-- Low and high parts of a byte with the continuation bit. -/
theorem toNat_ofNat_group (v : Nat) :
    (UInt8.ofNat (v % 128 + 128)).toNat = v % 128 + 128 := by
  rw [UInt8.toNat_ofNat']
  omega

theorem toNat_ofNat_last {v : Nat} (h : v < 128) : (UInt8.ofNat v).toNat = v := by
  rw [UInt8.toNat_ofNat']
  omega

/-- A value below the shift, and a group above it. -/
theorem add_group_lt {value shift payload : Nat} (hvalue : value < 2 ^ shift)
    (hpayload : payload < 128) : value + payload * 2 ^ shift < 2 ^ (shift + 7) := by
  have hmul : (payload + 1) * 2 ^ shift ≤ 128 * 2 ^ shift := Nat.mul_le_mul_right _ hpayload
  rw [Nat.add_mul, Nat.one_mul] at hmul
  rw [Nat.pow_add, Nat.mul_comm (2 ^ shift)]
  omega

/-- The shift at which a group is read is a multiple of seven below 64. -/
theorem add_last_lt {value shift payload : Nat} (hvalue : value < 2 ^ shift)
    (hpayload : payload < 128) (hshift : shift ≤ 63) (hseven : shift % 7 = 0)
    (htop : ¬ (shift = 63 ∧ payload > 1)) : value + payload * 2 ^ shift < 2 ^ 64 := by
  rcases Nat.lt_or_ge shift 63 with hlow | hhigh
  · have hsum := add_group_lt hvalue hpayload
    have hpow : 2 ^ (shift + 7) ≤ 2 ^ 64 := Nat.pow_le_pow_right (by decide) (by omega)
    omega
  · obtain rfl : shift = 63 := Nat.le_antisymm hshift hhigh
    omega

/-! ## All the base-128 forms of a number -/

/-- The bytes are a base-128 form of the number, which may have more groups than it needs. -/
inductive Encodes : List UInt8 → Nat → Prop
  | last {byte : UInt8} : byte.toNat < 128 → Encodes [byte] byte.toNat
  | more {byte : UInt8} {bytes : List UInt8} {v : Nat} : 128 ≤ byte.toNat → Encodes bytes v →
      Encodes (byte :: bytes) (byte.toNat % 128 + v * 128)

theorem encodes_leb128 (v : Nat) : Encodes (leb128 v) v := by
  induction v using Nat.strongRecOn with
  | _ v ih =>
    rcases Nat.lt_or_ge v 128 with hsmall | hlarge
    · have hlast := @Encodes.last (UInt8.ofNat v) (by rw [toNat_ofNat_last hsmall]; exact hsmall)
      rw [toNat_ofNat_last hsmall] at hlast
      rw [leb128_of_lt hsmall]
      exact hlast
    · have hmore := @Encodes.more (UInt8.ofNat (v % 128 + 128)) _ _
        (by rw [toNat_ofNat_group]; exact Nat.le_add_left _ _) (ih (v / 128) (by omega))
      rw [toNat_ofNat_group, show (v % 128 + 128) % 128 + v / 128 * 128 = v by omega] at hmore
      rw [leb128_of_le hlarge]
      exact hmore

theorem Encodes.ne_nil {bytes : List UInt8} {v : Nat} (h : Encodes bytes v) : bytes ≠ [] := by
  cases h with
  | last _ => exact List.cons_ne_nil _ _
  | more _ _ => exact List.cons_ne_nil _ _

/-- No form is shorter than the canonical one. -/
theorem Encodes.length_le {bytes : List UInt8} {v : Nat} (h : Encodes bytes v) :
    (leb128 v).length ≤ bytes.length := by
  induction h with
  | last hbyte =>
    rw [leb128_of_lt hbyte]
    exact Nat.le_refl _
  | @more byte bytes v hbyte hrest ih =>
    rcases Nat.lt_or_ge (byte.toNat % 128 + v * 128) 128 with hsmall | hlarge
    · rw [leb128_of_lt hsmall]
      exact Nat.le_add_left _ _
    · rw [leb128_of_le hlarge, show (byte.toNat % 128 + v * 128) / 128 = v by omega]
      exact Nat.succ_le_succ ih

/-- The canonical form is the only one of its length. -/
theorem Encodes.eq_leb128 {bytes : List UInt8} {v : Nat} (h : Encodes bytes v)
    (hlength : (leb128 v).length = bytes.length) : bytes = leb128 v := by
  induction h with
  | last hbyte => rw [leb128_of_lt hbyte, UInt8.ofNat_toNat]
  | @more byte bytes v hbyte hrest ih =>
    have hlt : byte.toNat < 256 := UInt8.toNat_lt byte
    rcases Nat.lt_or_ge (byte.toNat % 128 + v * 128) 128 with hsmall | hlarge
    · -- A number that fits one group has been written with two.
      rw [leb128_of_lt hsmall] at hlength
      have hmore := List.length_pos_of_ne_nil hrest.ne_nil
      rw [List.length_singleton, List.length_cons] at hlength
      omega
    · have hlow : (byte.toNat % 128 + v * 128) % 128 + 128 = byte.toNat := by omega
      have hhigh : (byte.toNat % 128 + v * 128) / 128 = v := by omega
      rw [leb128_of_le hlarge, hhigh] at hlength ⊢
      rw [hlow, UInt8.ofNat_toNat, ← ih (Nat.succ.inj hlength)]

/-- A base-128 form with the fewest bytes. -/
def MinimalForm (bytes : List UInt8) (v : Nat) : Prop :=
  Encodes bytes v ∧ ∀ other, Encodes other v → bytes.length ≤ other.length

theorem minimalForm_iff {bytes : List UInt8} {v : Nat} :
    MinimalForm bytes v ↔ bytes = leb128 v := by
  constructor
  · rintro ⟨hform, hleast⟩
    exact hform.eq_leb128 (Nat.le_antisymm hform.length_le (hleast _ (encodes_leb128 v)))
  · rintro rfl
    exact ⟨encodes_leb128 v, fun _ hother => hother.length_le⟩

end Foundation
