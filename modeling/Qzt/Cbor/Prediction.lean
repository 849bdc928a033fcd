import Mathlib.Tactic.Ring
import Mathlib.Tactic.Linarith
import Qzt.Cbor.Budgets

/-!
# The writer's prediction of the reader's verdict

`measure_value` charges items, payloads and key copies before anything is encoded; the
parser charges the same units while it reads, and refuses some values early by their
declared lengths.  Both reach the same verdict: within the budgets the encoding is read
back, and outside of them the parser reports a resource limit and nothing else.

## Two halves

* `Falls`: a parse that would succeed with larger budgets can only fail for its budgets.
* `measureValue_eq`: the checked sums of `measure_value` are the usage of the value.
-/

namespace Qzt

open Foundation

/-! ## Running out of budget -/

/-- A step that succeeds with larger budgets fails, if it does, with a resource limit. -/
def Falls {α : Type} (step : Parser → Result α) : Prop :=
  ∀ {s : Parser} {result : α} {e : QztError} (allocation items : Nat),
    step (s.raise allocation items) = .ok result → step s = .error e → e = .resourceLimitExceeded

namespace Parser

section Steps

variable {s s' : Parser} {e : QztError} {allocation items : Nat}

theorem failsOnlyWith_consumeAllocation (s : Parser) (len : Nat) :
    FailsOnlyWith .resourceLimitExceeded (s.consumeAllocation len) := by
  refine failsOnlyWith_bind (failsOnlyWith_usizeToU64 len) ?_
  intro len _
  refine failsOnlyWith_bind (failsOnlyWith_okOr _ _) ?_
  intro remainingAllocation _
  exact failsOnlyWith_ok _

theorem readU8_lower {byte : UInt8} (h : (s.raise allocation items).readU8 = .ok (byte, s')) :
    ∃ next, s.readU8 = .ok (byte, next) := by
  have hraised := readU8_eq_ok h
  have hrest : s.rest = byte :: s'.rest := hraised
  exact ⟨_, readU8_of_cons hrest⟩

theorem readExact_lower {len : Nat} {bytes : List UInt8}
    (h : (s.raise allocation items).readExact len = .ok (bytes, s')) :
    ∃ next, s.readExact len = .ok (bytes, next) := by
  simp only [readExact, bind_eq_ok_iff, okOr_eq_ok_iff, rejectIf_eq_ok_iff, pure_eq_ok,
    Except.ok.injEq, Prod.mk.injEq] at h
  obtain ⟨stop, hstop, u, hlen, rfl, rfl⟩ := h
  have hstop' : checkedAdd s.offset len = some stop := hstop
  have hlen' : ¬ s.rest.length < len := hlen
  refine ⟨{ s with rest := s.rest.drop len, offset := stop }, ?_⟩
  rw [readExact, hstop', okOr_some, ok_bind, rejectIf_of_not hlen', ok_bind, pure_eq_ok]
  rfl

theorem readWideArgument_lower {width least value : Nat}
    (h : (s.raise allocation items).readWideArgument width least = .ok (value, s')) :
    ∃ next, s.readWideArgument width least = .ok (value, next) := by
  simp only [readWideArgument, bind_eq_ok_iff] at h
  obtain ⟨⟨bytes, last⟩, hread, u, hleast, heq⟩ := h
  cases heq
  obtain ⟨next, hnext⟩ := readExact_lower hread
  refine ⟨next, ?_⟩
  rw [readWideArgument, hnext, ok_bind]
  simp only
  rw [hleast, ok_bind, pure_eq_ok]

/-- Reading an argument does not look at the budgets. -/
theorem readArgument_lower {additional value : Nat}
    (h : (s.raise allocation items).readArgument additional = .ok (value, s')) :
    ∃ next, s.readArgument additional = .ok (value, next) := by
  simp only [readArgument] at h ⊢
  by_cases h23 : additional ≤ 23
  · rw [if_pos h23] at h ⊢
    cases h
    exact ⟨s, rfl⟩
  rw [if_neg h23] at h ⊢
  by_cases h24 : additional = 24
  · rw [if_pos h24] at h ⊢
    simp only [bind_eq_ok_iff] at h
    obtain ⟨⟨byte, last⟩, hread, u, hleast, heq⟩ := h
    cases heq
    obtain ⟨next, hnext⟩ := readU8_lower hread
    refine ⟨next, ?_⟩
    rw [hnext, ok_bind]
    simp only
    rw [hleast, ok_bind, pure_eq_ok]
  rw [if_neg h24] at h ⊢
  by_cases h25 : additional = 25
  · rw [if_pos h25] at h ⊢
    exact readWideArgument_lower h
  rw [if_neg h25] at h ⊢
  by_cases h26 : additional = 26
  · rw [if_pos h26] at h ⊢
    exact readWideArgument_lower h
  rw [if_neg h26] at h ⊢
  by_cases h27 : additional = 27
  · rw [if_pos h27] at h ⊢
    exact readWideArgument_lower h
  rw [if_neg h27] at h
  cases h

/-- A declared length above the budget is the only reason left. -/
theorem readLen_falls {additional len max max' : Nat}
    (h : (s.raise allocation items).readLen additional max' = .ok (len, s'))
    (herror : s.readLen additional max = .error e) : e = .resourceLimitExceeded := by
  simp only [readLen, bind_eq_ok_iff] at h
  obtain ⟨⟨value, last⟩, hread, -⟩ := h
  obtain ⟨next, hnext⟩ := readArgument_lower hread
  rw [readLen, hnext, ok_bind] at herror
  refine failsOnlyWith_bind (failsOnlyWith_rejectIf _) ?_ e herror
  intro _ _
  refine failsOnlyWith_bind (failsOnlyWith_u64ToUsize _) ?_
  intro len _
  exact failsOnlyWith_ok _

theorem readString_falls (additional : Nat) : Falls fun s => s.readString additional := by
  intro s result e allocation items h herror
  simp only [readString, bind_eq_ok_iff] at h
  obtain ⟨⟨len, last⟩, hlen, charged, hcharge, hread⟩ := h
  simp only [readString, bind_eq_error_iff] at herror
  rcases herror with herror | ⟨⟨len', next⟩, hnext, herror | ⟨charged', hcharged, herror⟩⟩
  · exact readLen_falls hlen herror
  · exact failsOnlyWith_consumeAllocation _ _ _ herror
  · -- Everything before went the same way, and the payload is read without a budget.
    have hmax : s.remainingAllocation ≤ (s.raise allocation items).remainingAllocation :=
      Nat.le_add_right _ _
    rw [readLen_raise allocation items hmax hnext, Except.ok.injEq, Prod.mk.injEq] at hlen
    obtain ⟨rfl, rfl⟩ := hlen
    simp only at hcharge
    rw [consumeAllocation_raise allocation items hcharged, Except.ok.injEq] at hcharge
    subst hcharge
    obtain ⟨bytes, after⟩ := result
    obtain ⟨final, hfinal⟩ := readExact_lower hread
    simp only at herror
    rw [hfinal] at herror
    cases herror

end Steps

section Loops

variable {parse : Parser → Result (CborValue × Parser)} (hraises : Raises parse)
  (hfalls : Falls parse)
include hraises hfalls

theorem parseItems_falls (count : Nat) : Falls (parseItems parse count) := by
  induction count with
  | zero =>
    intro s result e allocation items h herror
    cases herror
  | succ count ih =>
    intro s result e allocation items h herror
    simp only [parseItems, bind_eq_ok_iff] at h
    obtain ⟨⟨value, next⟩, hvalue, ⟨others, last⟩, hothers, -⟩ := h
    simp only [parseItems, bind_eq_error_iff] at herror
    rcases herror with herror | ⟨⟨value', next'⟩, hvalue', herror | ⟨_, -, herror⟩⟩
    · exact hfalls allocation items hvalue herror
    · rw [hraises allocation items hvalue', Except.ok.injEq, Prod.mk.injEq] at hvalue
      obtain ⟨-, rfl⟩ := hvalue
      exact ih allocation items hothers herror
    · cases herror

theorem parseEntries_falls (count : Nat) (previous : Option (List UInt8)) :
    Falls (parseEntries parse count previous) := by
  induction count generalizing previous with
  | zero =>
    intro s result e allocation items h herror
    cases herror
  | succ count ih =>
    intro s result e allocation items h herror
    simp only [parseEntries, bind_eq_ok_iff] at h
    obtain ⟨⟨key, next⟩, hkey, charged, hcharge, u, horder, ⟨value, after⟩, hvalue,
      ⟨others, last⟩, hothers, -⟩ := h
    simp only [parseEntries, bind_eq_error_iff] at herror
    rcases herror with herror | ⟨⟨key', next'⟩, hkey', herror⟩
    · exact hfalls allocation items hkey herror
    rw [hraises allocation items hkey', Except.ok.injEq, Prod.mk.injEq] at hkey
    obtain ⟨rfl, rfl⟩ := hkey
    rcases herror with herror | ⟨charged', hcharged, herror⟩
    · exact failsOnlyWith_consumeAllocation _ _ _ herror
    simp only at hcharge hcharged
    -- Offsets are untouched by the surplus, so the copies and their lengths are the same.
    have hoffset : ∀ t : Parser, (t.raise allocation items).offset = t.offset := fun _ => rfl
    have hrest : (s.raise allocation items).rest = s.rest := rfl
    rw [hoffset, hoffset, consumeAllocation_raise allocation items hcharged,
      Except.ok.injEq] at hcharge
    subst hcharge
    simp only [hoffset, hrest] at horder hothers
    rcases herror with herror | ⟨_, -, herror⟩
    · rw [horder] at herror
      cases herror
    rcases herror with herror | ⟨⟨value', after'⟩, hvalue', herror⟩
    · exact hfalls allocation items hvalue herror
    rw [hraises allocation items hvalue', Except.ok.injEq, Prod.mk.injEq] at hvalue
    obtain ⟨rfl, rfl⟩ := hvalue
    rcases herror with herror | ⟨_, -, herror⟩
    · exact ih _ allocation items hothers herror
    · cases herror

end Loops

/-- Behind the initial byte, one case per major type. -/
theorem parseTyped_falls {levels : Nat} (hfalls : Falls (parseValue levels))
    (major additional : Nat) : Falls (parseTyped levels major additional) := by
  have hraises : Raises (parseValue levels) := parseValue_raises levels
  intro s result e allocation items h herror
  match major, h, herror with
  | 0, h, herror =>
    simp only [parseTyped, bind_eq_ok_iff] at h
    obtain ⟨⟨argument, last⟩, hargument, -⟩ := h
    obtain ⟨last', hlast⟩ := readArgument_lower hargument
    simp only [parseTyped] at herror
    rw [hlast, ok_bind] at herror
    cases herror
  | 1, h, herror =>
    simp only [parseTyped, bind_eq_ok_iff] at h
    obtain ⟨⟨argument, last⟩, hargument, -⟩ := h
    obtain ⟨last', hlast⟩ := readArgument_lower hargument
    simp only [parseTyped] at herror
    rw [hlast, ok_bind] at herror
    cases herror
  | 2, h, herror =>
    simp only [parseTyped, parseBytes, bind_eq_ok_iff] at h
    obtain ⟨_, hbytes, -⟩ := h
    simp only [parseTyped, parseBytes, bind_eq_error_iff] at herror
    rcases herror with herror | ⟨_, -, herror⟩
    · exact readString_falls _ allocation items hbytes herror
    · cases herror
  | 3, h, herror =>
    simp only [parseTyped, parseText, bind_eq_ok_iff] at h
    obtain ⟨⟨bytes, last⟩, hbytes, text, htext, -⟩ := h
    simp only [parseTyped, parseText, bind_eq_error_iff] at herror
    rcases herror with herror | ⟨⟨bytes', last'⟩, hbytes', herror⟩
    · exact readString_falls _ allocation items hbytes herror
    rw [readString_raise allocation items hbytes', Except.ok.injEq, Prod.mk.injEq] at hbytes
    obtain ⟨rfl, rfl⟩ := hbytes
    rcases herror with herror | ⟨_, -, herror⟩
    · rw [htext] at herror
      cases herror
    · cases herror
  | 4, h, herror =>
    simp only [parseTyped, parseArray, bind_eq_ok_iff] at h
    obtain ⟨⟨len, afterLen⟩, hlen, ⟨values, last⟩, hvalues, -⟩ := h
    simp only [parseTyped, parseArray, bind_eq_error_iff] at herror
    rcases herror with herror | ⟨⟨len', afterLen'⟩, hlen', herror⟩
    · exact readLen_falls hlen herror
    have hmax : s.remainingItems ≤ (s.raise allocation items).remainingItems :=
      Nat.le_add_right _ _
    rw [readLen_raise allocation items hmax hlen', Except.ok.injEq, Prod.mk.injEq] at hlen
    obtain ⟨rfl, rfl⟩ := hlen
    rcases herror with herror | ⟨_, -, herror⟩
    · exact parseItems_falls hraises hfalls _ allocation items hvalues herror
    · cases herror
  | 5, h, herror =>
    simp only [parseTyped, parseMap, bind_eq_ok_iff] at h
    obtain ⟨⟨len, afterLen⟩, hlen, ⟨entries, last⟩, hentries, -⟩ := h
    simp only [parseTyped, parseMap, bind_eq_error_iff] at herror
    rcases herror with herror | ⟨⟨len', afterLen'⟩, hlen', herror⟩
    · exact readLen_falls hlen herror
    have hmax : s.remainingItems / 2 ≤ (s.raise allocation items).remainingItems / 2 :=
      Nat.div_le_div_right (Nat.le_add_right _ _)
    rw [readLen_raise allocation items hmax hlen', Except.ok.injEq, Prod.mk.injEq] at hlen
    obtain ⟨rfl, rfl⟩ := hlen
    rcases herror with herror | ⟨_, -, herror⟩
    · exact parseEntries_falls hraises hfalls _ _ allocation items hentries herror
    · cases herror
  | 6, h, herror => cases h
  | _ + 7, h, herror =>
    simp only [parseTyped, parseSimple] at h herror
    split_ifs at h herror

/-- A value that parses with larger budgets is refused for its budgets only. -/
theorem parseValue_falls (levels : Nat) : Falls (parseValue levels) := by
  induction levels with
  | zero =>
    intro s result e allocation items h herror
    cases h
  | succ levels ih =>
    intro s result e allocation items h herror
    simp only [parseValue, bind_eq_ok_iff, okOr_eq_ok_iff, checkedSub_eq_some_iff] at h
    obtain ⟨_, ⟨hitem', rfl⟩, ⟨initial, next⟩, hread, hgo⟩ := h
    by_cases hitem : 1 ≤ s.remainingItems
    swap
    · rw [parseValue, checkedSub, if_neg hitem] at herror
      cases herror
      rfl
    rw [parseValue, checkedSub_of_le hitem, okOr_some, ok_bind] at herror
    have hstart : { s.raise allocation items with
        remainingItems := (s.raise allocation items).remainingItems - 1 } =
          Parser.raise { s with remainingItems := s.remainingItems - 1 } allocation items := by
      simp only [raise, mk.injEq, true_and]
      omega
    rw [hstart] at hread
    obtain ⟨next', hread'⟩ := readU8_lower hread
    rw [readU8_raise allocation items hread', Except.ok.injEq, Prod.mk.injEq] at hread
    obtain ⟨-, rfl⟩ := hread
    dsimp only at herror
    rw [hread', ok_bind] at herror
    exact parseTyped_falls ih _ _ allocation items hgo herror

end Parser

/-- Outside of its limits an encoded value is refused for its limits. -/
theorem RoundTrips.validates_eq {value : CborValue} (h : RoundTrips value)
    (hdepth : value.depth ≤ maxNestingDepth) (hword : (encodedForm value).length < 2 ^ 64)
    (limits : CborLimits) :
    validateDeterministicWithLimits (encodedForm value) limits =
      if value.usage.items ≤ limits.maxItems ∧ value.usage.allocation ≤ limits.maxAllocation
        then .ok value.sorted else .error .resourceLimitExceeded := by
  by_cases hfits : value.usage.items ≤ limits.maxItems ∧
      value.usage.allocation ≤ limits.maxAllocation
  · rw [if_pos hfits]
    exact h.validates hdepth hword hfits.1 hfits.2
  rw [if_neg hfits]
  -- With the usage as a surplus the parse succeeds, so the budgets are all that can fail.
  let larger : CborLimits :=
    { maxAllocation := limits.maxAllocation + value.usage.allocation,
      maxItems := limits.maxItems + value.usage.items }
  have hvalid : validateDeterministicWithLimits (encodedForm value) larger = .ok value.sorted :=
    h.validates hdepth hword (Nat.le_add_left _ _) (Nat.le_add_left _ _)
  obtain ⟨last, hlarger, -⟩ := validateDeterministicWithLimits_eq_ok_iff.mp hvalid
  cases hparse : Parser.parseValue (maxNestingDepth + 1) (.start (encodedForm value) limits) with
  | error e =>
    have he := Parser.parseValue_falls _ value.usage.allocation value.usage.items hlarger hparse
    have hfail : validateDeterministicWithLimits (encodedForm value) limits = .error e := by
      rw [validateDeterministicWithLimits]
      exact (congrArg (· >>= _) hparse).trans (error_bind _ _)
    rw [hfail, he]
  | ok result =>
    -- A parse under these limits would stop at the same place, and validation would accept it.
    exfalso
    obtain ⟨read, s⟩ := result
    have hraised := Parser.parseValue_raises _ value.usage.allocation value.usage.items hparse
    have hsame := h.parses
      (s := (Parser.start (encodedForm value) limits).raise value.usage.allocation
        value.usage.items)
      (Nat.lt_succ_of_le hdepth) (List.append_nil _).symm
      ⟨by rw [← h.length]; exact (Nat.zero_add _).symm ▸ hword, Nat.le_add_left _ _,
        Nat.le_add_left _ _⟩
    rw [hraised, Except.ok.injEq, Prod.mk.injEq] at hsame
    have hend := hsame.2
    simp only [Parser.raise, Parser.charge, Parser.start, Parser.mk.injEq] at hend
    omega

/-! ## Measuring -/

/-- Every counter is a `u64`. -/
structure CborUsage.Fits (usage : CborUsage) : Prop where
  items : usage.items < 2 ^ 64
  allocation : usage.allocation < 2 ^ 64
  encodedBytes : usage.encodedBytes < 2 ^ 64

theorem CborUsage.fits_iff (usage : CborUsage) : usage.Fits ↔
    usage.items < 2 ^ 64 ∧ usage.allocation < 2 ^ 64 ∧ usage.encodedBytes < 2 ^ 64 :=
  ⟨fun h => ⟨h.items, h.allocation, h.encodedBytes⟩, fun h => ⟨h.1, h.2.1, h.2.2⟩⟩

instance (usage : CborUsage) : Decidable usage.Fits :=
  decidable_of_iff _ usage.fits_iff.symm

/-- The usage, or the error of a counter that overflows. -/
def CborUsage.measured (usage : CborUsage) : Result CborUsage :=
  if usage.Fits then .ok usage else .error .resourceLimitExceeded

theorem CborUsage.Fits.left {a b : CborUsage} (h : (a + b).Fits) : a.Fits := by
  obtain ⟨hitems, hallocation, hbytes⟩ := h
  simp only [CborUsage.add_items, CborUsage.add_allocation, CborUsage.add_encodedBytes] at *
  exact ⟨by omega, by omega, by omega⟩

theorem CborUsage.Fits.right {a b : CborUsage} (h : (a + b).Fits) : b.Fits := by
  obtain ⟨hitems, hallocation, hbytes⟩ := h
  simp only [CborUsage.add_items, CborUsage.add_allocation, CborUsage.add_encodedBytes] at *
  exact ⟨by omega, by omega, by omega⟩

theorem CborUsage.measured_of_fits {usage : CborUsage} (h : usage.Fits) :
    usage.measured = .ok usage :=
  if_pos h

theorem CborUsage.measured_of_not {usage : CborUsage} (h : ¬ usage.Fits) :
    usage.measured = .error .resourceLimitExceeded :=
  if_neg h

/-- The checked sum. -/
theorem CborUsage.add_eq (a b : CborUsage) : a.add b = (a + b).measured := by
  by_cases h : (a + b).Fits
  · rw [measured_of_fits h, CborUsage.add, checkedAdd_of_lt h.items, okOr_some, ok_bind,
      checkedAdd_of_lt h.allocation, okOr_some, ok_bind, checkedAdd_of_lt h.encodedBytes,
      okOr_some, ok_bind, pure_eq_ok]
    rfl
  · rw [measured_of_not h]
    have honly : FailsOnlyWith .resourceLimitExceeded (a.add b) := by
      refine failsOnlyWith_bind (failsOnlyWith_okOr _ _) fun _ _ => ?_
      refine failsOnlyWith_bind (failsOnlyWith_okOr _ _) fun _ _ => ?_
      refine failsOnlyWith_bind (failsOnlyWith_okOr _ _) fun _ _ => ?_
      exact failsOnlyWith_ok _
    refine honly.eq_error ?_
    intro sum hsum
    simp only [CborUsage.add, bind_eq_ok_iff, okOr_eq_ok_iff, checkedAdd_eq_some_iff] at hsum
    obtain ⟨_, ⟨hitems, -⟩, _, ⟨hallocation, -⟩, _, ⟨hbytes, -⟩, -⟩ := hsum
    exact h ⟨hitems, hallocation, hbytes⟩

/-- Measuring a part and adding the rest to it: the first overflow of the parts is an overflow of
the sum. -/
theorem CborUsage.measured_bind {part total : CborUsage} {next : CborUsage → Result CborUsage}
    (hpart : total.Fits → part.Fits) (hnext : part.Fits → next part = total.measured) :
    (part.measured >>= next) = total.measured := by
  by_cases h : part.Fits
  · rw [measured_of_fits h, ok_bind, hnext h]
  · rw [measured_of_not h, error_bind, measured_of_not fun htotal => h (hpart htotal)]

theorem headLen_le (value : Nat) : headLen value ≤ 9 := by
  unfold headLen
  split_ifs <;> omega

/-- The usage of a head. -/
theorem fits_head (value : Nat) :
    ({ items := 1, encodedBytes := headLen value } : CborUsage).Fits := by
  have := headLen_le value
  have hone : 1 < 2 ^ 64 := by decide
  exact ⟨hone, Nat.two_pow_pos 64, show headLen value < 2 ^ 64 by omega⟩

theorem measureString_eq {len : Nat} (hlen : len < 2 ^ 64) :
    measureString len = (stringUsage len).measured := by
  rw [measureString, usizeToU64_of_lt hlen, ok_bind]
  by_cases h : headLen len + len < 2 ^ 64
  · rw [checkedAdd_of_lt h, okOr_some, ok_bind, pure_eq_ok, CborUsage.measured_of_fits]
    · rfl
    · exact ⟨show 1 < 2 ^ 64 by decide, hlen, h⟩
  · rw [checkedAdd_of_ge (Nat.le_of_not_lt h), okOr_none, error_bind, CborUsage.measured_of_not]
    exact fun hfits => h hfits.encodedBytes

theorem measureValues_eq {values : List CborValue}
    (h : ∀ value ∈ values, measureValue value = value.usage.measured) {start : CborUsage}
    (hstart : start.Fits) :
    measureValues values start = (start + usageValues values).measured := by
  induction values generalizing start with
  | nil =>
    have hzero : start + usageValues [] = start := rfl
    rw [hzero, CborUsage.measured_of_fits hstart]
    rfl
  | cons value values ih =>
    have hrest := fun v hv => h v (List.mem_cons_of_mem _ hv)
    rw [measureValues, h value List.mem_cons_self, usageValues]
    refine CborUsage.measured_bind (fun htotal => htotal.right.left) fun _ => ?_
    rw [CborUsage.add_eq, ← CborUsage.add_assoc]
    exact CborUsage.measured_bind (fun htotal => htotal.left) fun hsum => ih hrest hsum

theorem measureEntries_eq {entries : List (CborValue × CborValue)}
    (h : ∀ entry ∈ entries, measureValue entry.1 = entry.1.usage.measured ∧
      measureValue entry.2 = entry.2.usage.measured) {start : CborUsage} (hstart : start.Fits) :
    measureEntries entries start = (start + usageEntries entries).measured := by
  induction entries generalizing start with
  | nil =>
    have hzero : start + usageEntries [] = start := rfl
    rw [hzero, CborUsage.measured_of_fits hstart]
    rfl
  | cons entry entries ih =>
    obtain ⟨key, value⟩ := entry
    obtain ⟨hkey, hvalue⟩ := h (key, value) List.mem_cons_self
    have hrest := fun e he => h e (List.mem_cons_of_mem _ he)
    -- The sum in the order in which the source takes it: copy, key, value, other entries.
    have hsum : start + usageEntries ((key, value) :: entries) =
        start + { allocation := key.usage.encodedBytes } + key.usage + value.usage +
          usageEntries entries := by
      rw [usageEntries]
      simp only [CborUsage.add_assoc]
    rw [hsum, measureEntries, hkey]
    refine CborUsage.measured_bind (fun htotal => htotal.left.left.right) fun _ => ?_
    by_cases hcopy : start.allocation + key.usage.encodedBytes < 2 ^ 64
    · rw [checkedAdd_of_lt hcopy, okOr_some, ok_bind]
      have hcharged : { start with allocation := start.allocation + key.usage.encodedBytes } =
          start + { allocation := key.usage.encodedBytes } := rfl
      simp only [hcharged]
      rw [CborUsage.add_eq]
      refine CborUsage.measured_bind (fun htotal => htotal.left.left) fun _ => ?_
      rw [hvalue]
      refine CborUsage.measured_bind (fun htotal => htotal.left.right) fun _ => ?_
      rw [CborUsage.add_eq]
      exact CborUsage.measured_bind (fun htotal => htotal.left) fun hnext => ih hrest hnext
    · rw [checkedAdd_of_ge (Nat.le_of_not_lt hcopy), okOr_none, error_bind,
        CborUsage.measured_of_not]
      exact fun htotal => hcopy htotal.left.left.left.allocation

/-- The measure of an encodable value is its usage, unless a counter overflows. -/
theorem measureValue_eq {value : CborValue} (h : Encodable value) :
    measureValue value = value.usage.measured := by
  induction h with
  | @integer value hleast hgreatest =>
    obtain ⟨argument, hargument⟩ : ∃ argument, integerArgument value = some argument := by
      unfold integerArgument
      by_cases hsign : 0 ≤ value
      · rw [if_pos hsign, if_pos (by omega)]
        exact ⟨_, rfl⟩
      · rw [if_neg hsign, if_pos (by omega)]
        exact ⟨_, rfl⟩
    rw [measureValue, CborValue.usage, hargument, okOr_some, ok_bind]
    exact (CborUsage.measured_of_fits (fits_head _)).symm
  | bytes hlen => exact measureString_eq hlen
  | text hlen => exact measureString_eq hlen
  | array hlen _ ih =>
    rw [measureValue, usizeToU64_of_lt hlen, ok_bind]
    exact measureValues_eq ih (fits_head _)
  | map hlen _ _ _ ihKeys ihValues =>
    rw [measureValue, usizeToU64_of_lt hlen, ok_bind]
    exact measureEntries_eq (fun entry hmem => ⟨ihKeys entry hmem, ihValues entry hmem⟩)
      (fits_head _)
  | bool value => rfl
  | null => rfl

/-! ## The size of the counters -/

mutual

/-- Every item is at least one byte. -/
theorem usage_items_le : (value : CborValue) → value.usage.items ≤ value.usage.encodedBytes
  | .integer _ => headLen_pos _
  | .bytes _ => Nat.le_add_right_of_le (headLen_pos _)
  | .text _ => Nat.le_add_right_of_le (headLen_pos _)
  | .array values => Nat.add_le_add (headLen_pos _) (usageValues_items_le values)
  | .map entries => Nat.add_le_add (headLen_pos _) (usageEntries_items_le entries)
  | .bool _ => Nat.le_refl _
  | .null => Nat.le_refl _

theorem usageValues_items_le : (values : List CborValue) →
    (usageValues values).items ≤ (usageValues values).encodedBytes
  | [] => Nat.le_refl _
  | value :: values => Nat.add_le_add (usage_items_le value) (usageValues_items_le values)

theorem usageEntries_items_le : (entries : List (CborValue × CborValue)) →
    (usageEntries entries).items ≤ (usageEntries entries).encodedBytes
  | [] => Nat.le_refl _
  | (key, value) :: entries => by
    have hkey := usage_items_le key
    have hvalue := usage_items_le value
    have hentries := usageEntries_items_le entries
    simp only [usageEntries, CborUsage.add_items, CborUsage.add_encodedBytes]
    omega

end

mutual

/-- A byte is charged once as a payload and once for every key it lies in. -/
theorem usage_allocation_le : (value : CborValue) →
    value.usage.allocation ≤ (value.depth + 1) * value.usage.encodedBytes
  | .integer _ => Nat.zero_le _
  | .bytes bytes => by
    simp only [CborValue.usage, stringUsage, CborValue.depth]
    omega
  | .text text => by
    simp only [CborValue.usage, stringUsage, CborValue.depth]
    omega
  | .array values => by
    have hvalues := usageValues_allocation_le values
    simp only [CborValue.usage, CborValue.depth, CborUsage.add_allocation,
      CborUsage.add_encodedBytes]
    nlinarith
  | .map entries => by
    have hentries := usageEntries_allocation_le entries
    simp only [CborValue.usage, CborValue.depth, CborUsage.add_allocation,
      CborUsage.add_encodedBytes]
    nlinarith
  | .bool _ => Nat.zero_le _
  | .null => Nat.zero_le _

theorem usageValues_allocation_le : (values : List CborValue) →
    (usageValues values).allocation ≤ depthValues values * (usageValues values).encodedBytes
  | [] => Nat.zero_le _
  | value :: values => by
    have hvalue := usage_allocation_le value
    have hvalues := usageValues_allocation_le values
    have hleft : (value.depth + 1) * value.usage.encodedBytes ≤
        depthValues (value :: values) * value.usage.encodedBytes :=
      Nat.mul_le_mul_right _ (le_max_left _ _)
    have hright : depthValues values * (usageValues values).encodedBytes ≤
        depthValues (value :: values) * (usageValues values).encodedBytes :=
      Nat.mul_le_mul_right _ (le_max_right _ _)
    rw [usageValues, CborUsage.add_allocation, CborUsage.add_encodedBytes, Nat.mul_add]
    omega

theorem usageEntries_allocation_le : (entries : List (CborValue × CborValue)) →
    (usageEntries entries).allocation ≤
      (depthEntries entries + 1) * (usageEntries entries).encodedBytes
  | [] => Nat.zero_le _
  | (key, value) :: entries => by
    have hkey := usage_allocation_le key
    have hvalue := usage_allocation_le value
    have hentries := usageEntries_allocation_le entries
    have hdepth : depthEntries ((key, value) :: entries) =
        max (max (key.depth + 1) (value.depth + 1)) (depthEntries entries) := rfl
    -- The key is charged one level deeper than it is nested.
    have hfirst : (key.depth + 1 + 1) * key.usage.encodedBytes ≤
        (depthEntries ((key, value) :: entries) + 1) * key.usage.encodedBytes :=
      Nat.mul_le_mul_right _ (by omega)
    have hsecond : (value.depth + 1) * value.usage.encodedBytes ≤
        (depthEntries ((key, value) :: entries) + 1) * value.usage.encodedBytes :=
      Nat.mul_le_mul_right _ (by omega)
    have hothers : (depthEntries entries + 1) * (usageEntries entries).encodedBytes ≤
        (depthEntries ((key, value) :: entries) + 1) * (usageEntries entries).encodedBytes :=
      Nat.mul_le_mul_right _ (by omega)
    simp only [usageEntries, CborUsage.add_allocation, CborUsage.add_encodedBytes, Nat.mul_add,
      Nat.add_mul] at *
    omega

end

/-- The prediction of the writer is the verdict of the reader.  The encoding of an encodable value
that is nested at most 64 deep has the measured length, and it is read back exactly under the
limits that cover the measured items and the measured allocation; other limits end in
`ResourceLimitExceeded`.  The allocation of a value whose encoding is shorter than 2^57 bytes is a
`u64`; where it is none, the measure and every reader report the resource limit. -/
theorem measureValue_predicts {value : CborValue} (hencodable : Encodable value)
    (hdepth : value.depth ≤ maxNestingDepth) :
    ∃ bytes, encodeDeterministic value = .ok bytes ∧ (bytes.length < 2 ^ 64 →
      (bytes.length < 2 ^ 57 → value.usage.allocation < 2 ^ 64) ∧
      (value.usage.allocation < 2 ^ 64 → ∃ usage, measureValue value = .ok usage ∧
        usage.encodedBytes = bytes.length ∧ ∀ limits : CborLimits,
          validateDeterministicWithLimits bytes limits =
            if usage.items ≤ limits.maxItems ∧ usage.allocation ≤ limits.maxAllocation
              then .ok value.sorted else .error .resourceLimitExceeded) ∧
      (2 ^ 64 ≤ value.usage.allocation → measureValue value = .error .resourceLimitExceeded ∧
        ∀ limits : CborLimits, limits.maxAllocation < 2 ^ 64 →
          validateDeterministicWithLimits bytes limits = .error .resourceLimitExceeded)) := by
  have h := hencodable.roundTrips
  have hmeasure := measureValue_eq hencodable
  refine ⟨encodedForm value, h.encodes, ?_⟩
  intro hword
  have hverdict := h.validates_eq hdepth hword
  have hitems := usage_items_le value
  rw [h.length] at hword
  refine ⟨?_, ?_, ?_⟩
  · intro hshort
    have hdeep : value.depth + 1 ≤ 65 := Nat.add_le_add_right hdepth 1
    calc value.usage.allocation
        ≤ (value.depth + 1) * value.usage.encodedBytes := usage_allocation_le value
      _ ≤ 65 * value.usage.encodedBytes := Nat.mul_le_mul_right _ hdeep
      _ < 2 ^ 64 := by
        rw [h.length] at hshort
        omega
  · intro hallocation
    have hfits : value.usage.Fits := ⟨by omega, hallocation, hword⟩
    rw [CborUsage.measured_of_fits hfits] at hmeasure
    exact ⟨value.usage, hmeasure, h.length.symm, hverdict⟩
  · intro hallocation
    have hnot : ¬ value.usage.Fits := fun hfits => absurd hfits.allocation (by omega)
    rw [CborUsage.measured_of_not hnot] at hmeasure
    refine ⟨hmeasure, ?_⟩
    intro limits hlimit
    rw [hverdict limits, if_neg (by omega)]

/-- `["a", {-1: h'01'}]`. -/
def measuredValue : CborValue :=
  .array [.text "a", .map [(.integer (-1), .bytes [1])]]

theorem measureValue_predicts_measuredValue :
    encodeDeterministic measuredValue = .ok [0x82, 0x61, 0x61, 0xa1, 0x20, 0x41, 0x01] ∧
      measureValue measuredValue = .ok { items := 5, allocation := 3, encodedBytes := 7 } ∧
      ∃ bytes, encodeDeterministic measuredValue = .ok bytes ∧ (bytes.length < 2 ^ 64 →
        (bytes.length < 2 ^ 57 → measuredValue.usage.allocation < 2 ^ 64) ∧
        (measuredValue.usage.allocation < 2 ^ 64 → ∃ usage, measureValue measuredValue = .ok usage ∧
          usage.encodedBytes = bytes.length ∧ ∀ limits : CborLimits,
            validateDeterministicWithLimits bytes limits =
              if usage.items ≤ limits.maxItems ∧ usage.allocation ≤ limits.maxAllocation
                then .ok measuredValue.sorted else .error .resourceLimitExceeded) ∧
        (2 ^ 64 ≤ measuredValue.usage.allocation →
          measureValue measuredValue = .error .resourceLimitExceeded ∧
          ∀ limits : CborLimits, limits.maxAllocation < 2 ^ 64 →
            validateDeterministicWithLimits bytes limits = .error .resourceLimitExceeded)) := by
  have hmap : Encodable (.map [(.integer (-1), .bytes [1])]) := by
    refine .map (by decide) ?_ ?_ (List.pairwise_singleton _ _)
    · intro entry hmem
      rw [List.mem_singleton.mp hmem]
      exact .integer (by decide) (by decide)
    · intro entry hmem
      rw [List.mem_singleton.mp hmem]
      exact .bytes (by decide)
  have hencodable : Encodable measuredValue := by
    refine .array (by decide) ?_
    simp only [List.forall_mem_cons, List.not_mem_nil, false_implies, implies_true, and_true]
    exact ⟨.text (by decide), hmap⟩
  exact ⟨rfl, rfl, measureValue_predicts hencodable (by decide)⟩

end Qzt
