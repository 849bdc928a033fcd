import Qzt.Cbor.RoundTrip

/-!
# The budgets of the parser

A parse that succeeds also succeeds with larger budgets: it returns the same value and
leaves the surplus.  Hence the value of a byte string does not depend on the limits under
which it was accepted, and limits that accept an encoded value cover its usage.
-/

namespace Qzt

open Foundation

/-- The parser with larger budgets. -/
def Parser.raise (s : Parser) (allocation items : Nat) : Parser :=
  { s with remainingAllocation := s.remainingAllocation + allocation,
           remainingItems := s.remainingItems + items }

/-- A step that returns the same result, and leaves the surplus, when the budgets are larger. -/
def Raises {α : Type} (step : Parser → Result (α × Parser)) : Prop :=
  ∀ {s s' : Parser} {a : α} (allocation items : Nat), step s = .ok (a, s') →
    step (s.raise allocation items) = .ok (a, s'.raise allocation items)

namespace Parser

section Steps

variable {s s' : Parser} (allocation items : Nat)

theorem readU8_raise {byte : UInt8} (h : s.readU8 = .ok (byte, s')) :
    (s.raise allocation items).readU8 = .ok (byte, s'.raise allocation items) := by
  have hrest := readU8_eq_ok h
  rw [readU8_of_cons hrest, Except.ok.injEq, Prod.mk.injEq] at h
  rw [← h.2]
  exact readU8_of_cons hrest

theorem readExact_raise {len : Nat} {bytes : List UInt8} (h : s.readExact len = .ok (bytes, s')) :
    (s.raise allocation items).readExact len = .ok (bytes, s'.raise allocation items) := by
  simp only [readExact, bind_eq_ok_iff, okOr_eq_ok_iff, rejectIf_eq_ok_iff, pure_eq_ok,
    Except.ok.injEq, Prod.mk.injEq] at h ⊢
  obtain ⟨stop, hstop, u, hlen, rfl, rfl⟩ := h
  exact ⟨stop, hstop, u, hlen, rfl, rfl⟩

theorem consumeAllocation_raise {len : Nat} (h : s.consumeAllocation len = .ok s') :
    (s.raise allocation items).consumeAllocation len = .ok (s'.raise allocation items) := by
  simp only [consumeAllocation, bind_eq_ok_iff, usizeToU64_eq_ok_iff, okOr_eq_ok_iff,
    checkedSub_eq_some_iff, pure_eq_ok, Except.ok.injEq] at h
  obtain ⟨_, ⟨hword, rfl⟩, _, ⟨hle, rfl⟩, rfl⟩ := h
  have hle' : len ≤ (s.raise allocation items).remainingAllocation := Nat.le_add_right_of_le hle
  rw [consumeAllocation_of_le hword hle']
  simp only [raise, Except.ok.injEq, mk.injEq, true_and, and_true]
  omega

theorem readWideArgument_raise {width least value : Nat}
    (h : s.readWideArgument width least = .ok (value, s')) :
    (s.raise allocation items).readWideArgument width least =
      .ok (value, s'.raise allocation items) := by
  simp only [readWideArgument, bind_eq_ok_iff] at h
  obtain ⟨⟨bytes, next⟩, hread, u, hleast, hvalue⟩ := h
  cases hvalue
  rw [readWideArgument, readExact_raise allocation items hread, ok_bind]
  simp only
  rw [hleast, ok_bind, pure_eq_ok]

theorem readArgument_raise {additional value : Nat}
    (h : s.readArgument additional = .ok (value, s')) :
    (s.raise allocation items).readArgument additional =
      .ok (value, s'.raise allocation items) := by
  simp only [readArgument] at h ⊢
  by_cases h23 : additional ≤ 23
  · rw [if_pos h23] at h ⊢
    cases h
    rfl
  rw [if_neg h23] at h ⊢
  by_cases h24 : additional = 24
  · rw [if_pos h24] at h ⊢
    simp only [bind_eq_ok_iff] at h
    obtain ⟨⟨byte, next⟩, hread, u, hleast, hvalue⟩ := h
    cases hvalue
    rw [readU8_raise allocation items hread, ok_bind]
    simp only
    rw [hleast, ok_bind, pure_eq_ok]
  rw [if_neg h24] at h ⊢
  by_cases h25 : additional = 25
  · rw [if_pos h25] at h ⊢
    exact readWideArgument_raise allocation items h
  rw [if_neg h25] at h ⊢
  by_cases h26 : additional = 26
  · rw [if_pos h26] at h ⊢
    exact readWideArgument_raise allocation items h
  rw [if_neg h26] at h ⊢
  by_cases h27 : additional = 27
  · rw [if_pos h27] at h ⊢
    exact readWideArgument_raise allocation items h
  rw [if_neg h27] at h
  cases h

/-- The bound on a length may grow with the budgets. -/
theorem readLen_raise {additional len max max' : Nat} (hmax : max ≤ max')
    (h : s.readLen additional max = .ok (len, s')) :
    (s.raise allocation items).readLen additional max' = .ok (len, s'.raise allocation items) := by
  simp only [readLen, bind_eq_ok_iff, rejectIf_eq_ok_iff, u64ToUsize_eq_ok_iff] at h
  obtain ⟨⟨value, next⟩, hread, u, hle, _, ⟨hword, rfl⟩, hvalue⟩ := h
  cases hvalue
  simp only at hle
  exact readLen_of_le (readArgument_raise allocation items hread) (by omega) hword

theorem readString_raise {additional : Nat} {bytes : List UInt8}
    (h : s.readString additional = .ok (bytes, s')) :
    (s.raise allocation items).readString additional =
      .ok (bytes, s'.raise allocation items) := by
  simp only [readString, bind_eq_ok_iff] at h
  obtain ⟨⟨len, next⟩, hlen, charged, hcharge, hread⟩ := h
  have hmax : s.remainingAllocation ≤ (s.raise allocation items).remainingAllocation :=
    Nat.le_add_right _ _
  rw [readString, readLen_raise allocation items hmax hlen, ok_bind]
  simp only
  rw [consumeAllocation_raise allocation items hcharge, ok_bind]
  exact readExact_raise allocation items hread

end Steps

section Loops

variable {parse : Parser → Result (CborValue × Parser)} (hparse : Raises parse)
include hparse

theorem parseItems_raises (count : Nat) : Raises (parseItems parse count) := by
  induction count with
  | zero =>
    intro s s' values allocation items h
    cases h
    rfl
  | succ count ih =>
    intro s s' values allocation items h
    simp only [parseItems, bind_eq_ok_iff] at h
    obtain ⟨⟨value, next⟩, hvalue, ⟨others, last⟩, hothers, heq⟩ := h
    cases heq
    rw [parseItems, hparse allocation items hvalue, ok_bind]
    simp only
    rw [ih allocation items hothers, ok_bind, pure_eq_ok]

theorem parseEntries_raises (count : Nat) (previous : Option (List UInt8)) :
    Raises (parseEntries parse count previous) := by
  induction count generalizing previous with
  | zero =>
    intro s s' values allocation items h
    cases h
    rfl
  | succ count ih =>
    intro s s' entries allocation items h
    simp only [parseEntries, bind_eq_ok_iff] at h
    obtain ⟨⟨key, next⟩, hkey, charged, hcharge, u, horder, ⟨value, after⟩, hvalue,
      ⟨others, last⟩, hothers, heq⟩ := h
    cases heq
    simp only at hcharge horder hvalue hothers
    -- Offsets and unread input are untouched by the surplus, so the key bytes are the same.
    have hoffset : ∀ t : Parser, (t.raise allocation items).offset = t.offset := fun _ => rfl
    have hrest : (s.raise allocation items).rest = s.rest := rfl
    rw [parseEntries, hparse allocation items hkey, ok_bind]
    simp only [hoffset, hrest]
    rw [consumeAllocation_raise allocation items hcharge, ok_bind]
    simp only [hoffset]
    rw [horder, ok_bind, hparse allocation items hvalue, ok_bind]
    simp only
    rw [ih _ allocation items hothers, ok_bind, pure_eq_ok]

end Loops

/-- Raising the budgets of a successful parse changes nothing but the surplus. -/
theorem parseValue_raises (levels : Nat) : Raises (parseValue levels) := by
  induction levels with
  | zero =>
    intro s s' value allocation items h
    cases h
  | succ levels ih =>
    intro s s' value allocation items h
    simp only [parseValue, bind_eq_ok_iff, okOr_eq_ok_iff, checkedSub_eq_some_iff] at h
    obtain ⟨_, ⟨hitem, rfl⟩, ⟨initial, next⟩, hread, hgo⟩ := h
    have hitem' : 1 ≤ (s.raise allocation items).remainingItems := Nat.le_add_right_of_le hitem
    have hstart : { s.raise allocation items with
        remainingItems := (s.raise allocation items).remainingItems - 1 } =
          Parser.raise { s with remainingItems := s.remainingItems - 1 } allocation items := by
      simp only [raise, mk.injEq, true_and]
      omega
    rw [parseValue, checkedSub_of_le hitem', okOr_some, ok_bind]
    simp only
    rw [hstart, readU8_raise allocation items hread, ok_bind]
    simp only at hgo ⊢
    -- One case per major type.
    split at hgo
    · simp only [bind_eq_ok_iff] at hgo
      obtain ⟨⟨argument, last⟩, hargument, heq⟩ := hgo
      cases heq
      simp only
      rw [readArgument_raise allocation items hargument, ok_bind, pure_eq_ok]
    · simp only [bind_eq_ok_iff] at hgo
      obtain ⟨⟨argument, last⟩, hargument, heq⟩ := hgo
      cases heq
      simp only
      rw [readArgument_raise allocation items hargument, ok_bind, pure_eq_ok]
    · simp only [parseBytes, bind_eq_ok_iff] at hgo
      obtain ⟨⟨bytes, last⟩, hbytes, heq⟩ := hgo
      cases heq
      simp only [parseBytes]
      rw [readString_raise allocation items hbytes, ok_bind, pure_eq_ok]
    · simp only [parseText, bind_eq_ok_iff] at hgo
      obtain ⟨⟨bytes, last⟩, hbytes, text, htext, heq⟩ := hgo
      cases heq
      simp only [parseText]
      rw [readString_raise allocation items hbytes, ok_bind]
      simp only
      rw [htext, ok_bind, pure_eq_ok]
    · simp only [parseArray, bind_eq_ok_iff] at hgo
      obtain ⟨⟨len, afterLen⟩, hlen, ⟨values, last⟩, hvalues, heq⟩ := hgo
      cases heq
      simp only [parseArray]
      have hmax : next.remainingItems ≤ (next.raise allocation items).remainingItems :=
        Nat.le_add_right _ _
      rw [readLen_raise allocation items hmax hlen, ok_bind]
      simp only
      rw [parseItems_raises ih len allocation items hvalues, ok_bind, pure_eq_ok]
    · simp only [parseMap, bind_eq_ok_iff] at hgo
      obtain ⟨⟨len, afterLen⟩, hlen, ⟨entries, last⟩, hentries, heq⟩ := hgo
      cases heq
      simp only [parseMap]
      have hmax : next.remainingItems / 2 ≤ (next.raise allocation items).remainingItems / 2 :=
        Nat.div_le_div_right (Nat.le_add_right _ _)
      rw [readLen_raise allocation items hmax hlen, ok_bind]
      simp only
      rw [parseEntries_raises ih len none allocation items hentries, ok_bind, pure_eq_ok]
    · cases hgo
    · unfold parseSimple at hgo ⊢
      split_ifs at hgo ⊢
      all_goals
        cases hgo
      all_goals rfl

end Parser

/-! ## Limits -/

/-- The parser at the start of its input. -/
def Parser.start (input : List UInt8) (limits : CborLimits) : Parser where
  rest := input
  offset := 0
  remainingAllocation := limits.maxAllocation
  remainingItems := limits.maxItems

theorem validateDeterministicWithLimits_eq_ok_iff {input : List UInt8} {limits : CborLimits}
    {value : CborValue} :
    validateDeterministicWithLimits input limits = .ok value ↔
      ∃ s, Parser.parseValue (maxNestingDepth + 1) (.start input limits) = .ok (value, s) ∧
        s.offset = input.length := by
  simp only [validateDeterministicWithLimits, bind_eq_ok_iff, rejectIf_eq_ok_iff, pure_eq_ok,
    Except.ok.injEq, not_not, ne_eq]
  constructor
  · rintro ⟨⟨parsed, s⟩, hparse, _, hend, rfl⟩
    exact ⟨s, hparse, hend⟩
  · rintro ⟨s, hparse, hend⟩
    exact ⟨(value, s), hparse, ⟨⟩, hend, rfl⟩

/-- What is accepted is accepted under larger limits, as the same value. -/
theorem validateDeterministicWithLimits_mono {input : List UInt8} {limits limits' : CborLimits}
    {value : CborValue} (hallocation : limits.maxAllocation ≤ limits'.maxAllocation)
    (hitems : limits.maxItems ≤ limits'.maxItems)
    (h : validateDeterministicWithLimits input limits = .ok value) :
    validateDeterministicWithLimits input limits' = .ok value := by
  rw [validateDeterministicWithLimits_eq_ok_iff] at h ⊢
  obtain ⟨s, hparse, hend⟩ := h
  have hstart : Parser.start input limits' = (Parser.start input limits).raise
      (limits'.maxAllocation - limits.maxAllocation) (limits'.maxItems - limits.maxItems) := by
    simp only [Parser.start, Parser.raise, Parser.mk.injEq, true_and]
    omega
  rw [hstart]
  exact ⟨_, Parser.parseValue_raises _ _ _ hparse, hend⟩

/-- The value of a byte string does not depend on the limits that accept it. -/
theorem validateDeterministicWithLimits_unique {input : List UInt8} {limits limits' : CborLimits}
    {value value' : CborValue} (h : validateDeterministicWithLimits input limits = .ok value)
    (h' : validateDeterministicWithLimits input limits' = .ok value') : value = value' := by
  let both : CborLimits :=
    { maxAllocation := max limits.maxAllocation limits'.maxAllocation,
      maxItems := max limits.maxItems limits'.maxItems }
  have hleft : validateDeterministicWithLimits input both = .ok value :=
    validateDeterministicWithLimits_mono (le_max_left _ _) (le_max_left _ _) h
  have hright : validateDeterministicWithLimits input both = .ok value' :=
    validateDeterministicWithLimits_mono (le_max_right _ _) (le_max_right _ _) h'
  rw [hleft, Except.ok.injEq] at hright
  exact hright

/-- Limits that accept an encoded value cover its usage. -/
theorem RoundTrips.usage_le_of_validates {value read : CborValue} (h : RoundTrips value)
    (hdepth : value.depth ≤ maxNestingDepth) (hword : (encodedForm value).length < 2 ^ 64)
    {limits : CborLimits} (hvalid : validateDeterministicWithLimits (encodedForm value) limits =
      .ok read) :
    value.usage.items ≤ limits.maxItems ∧ value.usage.allocation ≤ limits.maxAllocation := by
  obtain ⟨s, hparse, -⟩ := validateDeterministicWithLimits_eq_ok_iff.mp hvalid
  -- With a surplus that covers the usage, both parses are known.
  have hraised := Parser.parseValue_raises _ value.usage.allocation value.usage.items hparse
  have hoffset : 0 + value.usage.encodedBytes < 2 ^ 64 := by
    rw [← h.length]
    omega
  have hparses := h.parses
    (s := (Parser.start (encodedForm value) limits).raise value.usage.allocation value.usage.items)
    (Nat.lt_succ_of_le hdepth) (List.append_nil _).symm
    ⟨hoffset, Nat.le_add_left _ _, Nat.le_add_left _ _⟩
  rw [hraised, Except.ok.injEq, Prod.mk.injEq] at hparses
  have hend := hparses.2
  simp only [Parser.raise, Parser.charge, Parser.start, Parser.mk.injEq] at hend
  omega

end Qzt
