import Qzt.Search.Truncation

/-!
# The intersection of posting lists

Two cursors walk two increasing lists, and every round is charged: one unit for a miss,
two for a match.  A walk that is not stopped keeps exactly the common values, and a
match moves both cursors, so a walk never charges more than the lengths of its lists.
-/

namespace Qzt

open Foundation

/-! ## Two lists -/

section TwoLists

variable {maxWork fuel work : Nat} {left right : List Nat}

theorem chargePostingWork_eq_ok {work' : Nat} (h : chargePostingWork work maxWork = .ok work') :
    work' = work + 1 := by
  obtain ⟨charged, hcharged, h⟩ := bind_eq_ok_iff.mp h
  obtain ⟨_, -, h⟩ := bind_eq_ok_iff.mp h
  rw [okOr_eq_ok_iff, checkedAdd_eq_some_iff] at hcharged
  rw [← Except.ok.inj h]
  exact hcharged.2.symm

theorem chargePostingWork_of_lt (hword : maxWork < 2 ^ 64) (h : work < maxWork) :
    chargePostingWork work maxWork = .ok (work + 1) := by
  have hfits : work + 1 < 2 ^ 64 := Nat.lt_of_le_of_lt h hword
  rw [chargePostingWork, checkedAdd_of_lt hfits, okOr_some, ok_bind,
    rejectIf_of_not (Nat.not_lt.mpr h), ok_bind, pure_eq_ok]

theorem failsOnlyWith_chargePostingWork (work maxWork : Nat) :
    FailsOnlyWith .resourceLimitExceeded (chargePostingWork work maxWork) := by
  apply failsOnlyWith_bind (failsOnlyWith_okOr _ _)
  intro charged _
  apply failsOnlyWith_bind (failsOnlyWith_rejectIf _)
  intro _ _
  exact failsOnlyWith_ok _

/-- A value below the head of an increasing list is not in it. -/
theorem not_mem_of_lt_head {value head : Nat} {tail : List Nat}
    (hsorted : (head :: tail).Pairwise (· < ·)) (hlt : value < head) : value ∉ head :: tail := by
  intro hmem
  rcases List.mem_cons.mp hmem with rfl | htail
  · exact Nat.lt_irrefl _ hlt
  · exact Nat.lt_asymm hlt (List.rel_of_pairwise_cons hsorted htail)

/-- A walk that ends keeps the values of the left list that are in the right one. -/
theorem intersectRounds_eq_ok (hleft : left.Pairwise (· < ·)) (hright : right.Pairwise (· < ·))
    (hfuel : left.length + right.length ≤ fuel) {output : List Nat} {work' : Nat}
    (h : intersectRounds maxWork fuel left right work = .ok (output, work')) :
    output = left.filter (· ∈ right) := by
  induction fuel generalizing left right work output work' with
  | zero =>
    obtain rfl := List.length_eq_zero_iff.mp (Nat.eq_zero_of_add_eq_zero_right (Nat.le_zero.mp hfuel))
    cases h
    rfl
  | succ fuel ih =>
    cases left with
    | nil =>
      cases h
      rfl
    | cons l ls =>
      cases right with
      | nil =>
        cases h
        apply Eq.symm
        rw [List.filter_eq_nil_iff]
        intro value _
        rw [decide_eq_true_eq]
        exact List.not_mem_nil
      | cons r rs =>
        rw [List.length_cons, List.length_cons] at hfuel
        rw [intersectRounds] at h
        obtain ⟨charged, -, hround⟩ := bind_eq_ok_iff.mp h
        split at hround
        case isTrue hlt =>
          -- The left value is passed over: it is below the right list.
          have hmiss : ¬ decide (l ∈ r :: rs) = true := by
            rw [decide_eq_true_eq]
            exact not_mem_of_lt_head hright hlt
          rw [List.filter_cons, if_neg hmiss]
          exact ih hleft.of_cons hright (by rw [List.length_cons]; omega) hround
        case isFalse hge =>
          split at hround
          case isTrue hlt =>
            -- The right value is passed over: it is below the left list.
            rw [ih hleft hright.of_cons (by rw [List.length_cons]; omega) hround]
            apply List.filter_congr
            intro value hvalue
            rw [decide_eq_decide, List.mem_cons]
            refine ⟨Or.inr, fun hmem => hmem.resolve_left ?_⟩
            rintro rfl
            exact not_mem_of_lt_head hleft hlt hvalue
          case isFalse hle =>
            obtain rfl : l = r := Nat.le_antisymm (Nat.not_lt.mp hle) (Nat.not_lt.mp hge)
            obtain ⟨charged', -, hround⟩ := bind_eq_ok_iff.mp hround
            obtain ⟨⟨rest, final⟩, hrest, hpair⟩ := bind_eq_ok_iff.mp hround
            obtain ⟨rfl, -⟩ := Prod.mk.injEq .. ▸ Except.ok.inj hpair
            have hmatch : decide (l ∈ l :: rs) = true := decide_eq_true List.mem_cons_self
            rw [List.filter_cons, if_pos hmatch, ih hleft.of_cons hright.of_cons (by omega) hrest]
            congr 1
            apply List.filter_congr
            intro value hvalue
            rw [decide_eq_decide, List.mem_cons]
            refine ⟨Or.inr, fun hmem => hmem.resolve_left ?_⟩
            rintro rfl
            exact Nat.lt_irrefl _ (List.rel_of_pairwise_cons hleft hvalue)

/-- With the lengths of both lists left to charge, a walk ends, and charges no more. -/
theorem intersectRounds_of_le (hword : maxWork < 2 ^ 64)
    (hwork : work + (left.length + right.length) ≤ maxWork) :
    ∃ output work', intersectRounds maxWork fuel left right work = .ok (output, work') ∧
      work' ≤ work + (left.length + right.length) := by
  induction fuel generalizing left right work with
  | zero => exact ⟨[], work, rfl, Nat.le_add_right _ _⟩
  | succ fuel ih =>
    cases left with
    | nil => exact ⟨[], work, rfl, Nat.le_add_right _ _⟩
    | cons l ls =>
      cases right with
      | nil => exact ⟨[], work, rfl, Nat.le_add_right _ _⟩
      | cons r rs =>
        rw [List.length_cons, List.length_cons] at hwork
        rw [intersectRounds, chargePostingWork_of_lt hword (by omega), ok_bind]
        split
        case isTrue =>
          obtain ⟨output, final, hrest, hle⟩ :=
            @ih (work + 1) ls (r :: rs) (by rw [List.length_cons]; omega)
          refine ⟨output, final, hrest, ?_⟩
          rw [List.length_cons] at hle
          rw [List.length_cons, List.length_cons]
          omega
        case isFalse =>
          split
          case isTrue =>
            obtain ⟨output, final, hrest, hle⟩ :=
              @ih (work + 1) (l :: ls) rs (by rw [List.length_cons]; omega)
            refine ⟨output, final, hrest, ?_⟩
            rw [List.length_cons] at hle
            rw [List.length_cons, List.length_cons]
            omega
          case isFalse =>
            -- A match is charged twice, and it moves both cursors.
            obtain ⟨output, final, hrest, hle⟩ := @ih (work + 1 + 1) ls rs (by omega)
            refine ⟨l :: output, final, ?_, ?_⟩
            · rw [chargePostingWork_of_lt hword (by omega), ok_bind, hrest]
              rfl
            · rw [List.length_cons, List.length_cons]
              omega

theorem failsOnlyWith_intersectRounds :
    FailsOnlyWith .resourceLimitExceeded (intersectRounds maxWork fuel left right work) := by
  induction fuel generalizing left right work with
  | zero => exact failsOnlyWith_ok _
  | succ fuel ih =>
    cases left with
    | nil => exact failsOnlyWith_ok _
    | cons l ls =>
      cases right with
      | nil => exact failsOnlyWith_ok _
      | cons r rs =>
        rw [intersectRounds]
        apply failsOnlyWith_bind (failsOnlyWith_chargePostingWork _ _)
        intro charged _
        split
        · exact ih
        · split
          · exact ih
          · apply failsOnlyWith_bind (failsOnlyWith_chargePostingWork _ _)
            intro charged' _
            apply failsOnlyWith_bind ih
            intro result _
            exact failsOnlyWith_ok _

end TwoLists

/-! ## Any number of lists -/

section Lists

variable {maxWork work : Nat} {current : List Nat} {lists : List (List Nat)}

/-- The loop keeps the values that are in every list still to come. -/
theorem intersectLoop_eq_ok (hcurrent : current.Pairwise (· < ·))
    (hlists : ∀ list ∈ lists, list.Pairwise (· < ·)) {result : List Nat}
    (h : intersectLoop maxWork lists current work = .ok result) :
    result = current.filter fun value => ∀ list ∈ lists, value ∈ list := by
  induction lists generalizing current work with
  | nil =>
    cases h
    apply Eq.symm
    rw [List.filter_eq_self]
    intro value _
    rw [decide_eq_true_eq]
    exact fun _ hnone => absurd hnone List.not_mem_nil
  | cons list lists ih =>
    rw [List.forall_mem_cons] at hlists
    obtain ⟨⟨common, charged⟩, hcommon, h⟩ := bind_eq_ok_iff.mp h
    have hkept := intersectRounds_eq_ok hcurrent hlists.1 (Nat.le_refl _) hcommon
    have hsplit : (current.filter fun value => ∀ other ∈ list :: lists, value ∈ other) =
        common.filter fun value => ∀ other ∈ lists, value ∈ other := by
      rw [hkept, List.filter_filter]
      apply List.filter_congr
      intro value _
      rw [← Bool.decide_and, decide_eq_decide, List.forall_mem_cons]
      exact and_comm
    rw [hsplit]
    dsimp only at h
    split at h
    case isTrue hnone =>
      -- The early end: nothing is left to intersect.
      obtain rfl := Except.ok.inj h
      rw [hnone, List.filter_nil]
    case isFalse =>
      refine ih ?_ hlists.2 h
      rw [hkept]
      exact hcurrent.filter _

/-- What the loop charges at most.  An intermediate result is no longer than the list it was last
intersected with, so every list is paid for twice. -/
theorem intersectLoop_of_le (hword : maxWork < 2 ^ 64) (hcurrent : current.Pairwise (· < ·))
    (hlists : ∀ list ∈ lists, list.Pairwise (· < ·))
    (hwork : work + (current.length + 2 * (lists.map List.length).sum) ≤ maxWork) :
    ∃ result, intersectLoop maxWork lists current work = .ok result := by
  induction lists generalizing current work with
  | nil => exact ⟨current, rfl⟩
  | cons list lists ih =>
    rw [List.forall_mem_cons] at hlists
    rw [List.map_cons, List.sum_cons] at hwork
    obtain ⟨common, charged, hcommon, hcharged⟩ :=
      @intersectRounds_of_le maxWork (current.length + list.length) work current list hword
        (by omega)
    have hkept := intersectRounds_eq_ok hcurrent hlists.1 (Nat.le_refl _) hcommon
    have hsorted : common.Pairwise (· < ·) := by
      rw [hkept]
      exact hcurrent.filter _
    -- The common values are values of the list.
    have hlength : common.length ≤ list.length := by
      apply List.Subperm.length_le
      apply List.subperm_of_subset (hsorted.imp Nat.ne_of_lt)
      intro value hvalue
      rw [hkept, List.mem_filter] at hvalue
      exact of_decide_eq_true hvalue.2
    rw [intersectLoop, intersectTwoSorted, hcommon, ok_bind]
    dsimp only
    split
    · exact ⟨common, rfl⟩
    · exact ih hsorted hlists.2 (by omega)

theorem failsOnlyWith_intersectLoop :
    FailsOnlyWith .resourceLimitExceeded (intersectLoop maxWork lists current work) := by
  induction lists generalizing current work with
  | nil => exact failsOnlyWith_ok _
  | cons list lists ih =>
    apply failsOnlyWith_bind failsOnlyWith_intersectRounds
    intro result _
    dsimp only
    split
    · exact failsOnlyWith_ok _
    · exact ih

theorem failsOnlyWith_intersectPostings :
    FailsOnlyWith .resourceLimitExceeded (intersectPostings lists maxWork) := by
  cases lists with
  | nil => exact failsOnlyWith_ok _
  | cons first rest =>
    apply failsOnlyWith_bind (failsOnlyWith_usizeToU64 _)
    intro count _
    apply failsOnlyWith_bind (failsOnlyWith_rejectIf _)
    intro _ _
    exact failsOnlyWith_intersectLoop

/-- An intersection that is returned is increasing and holds the values of all lists. -/
theorem intersectPostings_eq_ok (hne : lists ≠ []) (hlists : ∀ list ∈ lists, list.Pairwise (· < ·))
    {result : List Nat} (h : intersectPostings lists maxWork = .ok result) :
    result.Pairwise (· < ·) ∧ ∀ value, value ∈ result ↔ ∀ list ∈ lists, value ∈ list := by
  cases lists with
  | nil => exact absurd rfl hne
  | cons first rest =>
    rw [List.forall_mem_cons] at hlists
    obtain ⟨count, -, h⟩ := bind_eq_ok_iff.mp h
    obtain ⟨_, -, h⟩ := bind_eq_ok_iff.mp h
    rw [intersectLoop_eq_ok hlists.1 hlists.2 h]
    refine ⟨hlists.1.filter _, fun value => ?_⟩
    rw [List.mem_filter, decide_eq_true_eq, List.forall_mem_cons]

theorem intersectPostings_of_le (hword : maxWork < 2 ^ 64)
    (hlists : ∀ list ∈ lists, list.Pairwise (· < ·))
    (hwork : 2 * (lists.map List.length).sum ≤ maxWork) :
    ∃ result, intersectPostings lists maxWork = .ok result := by
  cases lists with
  | nil => exact ⟨[], rfl⟩
  | cons first rest =>
    rw [List.forall_mem_cons] at hlists
    rw [List.map_cons, List.sum_cons] at hwork
    obtain ⟨result, hresult⟩ :=
      @intersectLoop_of_le maxWork first.length first rest hword hlists.1 hlists.2 (by omega)
    refine ⟨result, ?_⟩
    rw [intersectPostings, usizeToU64_of_lt (by omega), ok_bind, rejectIf_of_not (by omega), ok_bind,
      hresult]

end Lists

/-- The intersection is exact or an error.  For all increasing lists, what is returned is
increasing and holds exactly the values of all lists; any other outcome is a resource limit.  A
result depends neither on the order of the lists nor on how much more work is allowed, and it is
returned whenever the work allowed is twice the lengths of the lists. -/
theorem intersectPostings_exact {lists : List (List Nat)} (hne : lists ≠ [])
    (hlists : ∀ list ∈ lists, list.Pairwise (· < ·)) :
    (∀ maxWork result, intersectPostings lists maxWork = .ok result →
      result.Pairwise (· < ·) ∧ (∀ value, value ∈ result ↔ ∀ list ∈ lists, value ∈ list) ∧
      (∀ maxWork', maxWork ≤ maxWork' → intersectPostings lists maxWork' = .ok result) ∧
      ∀ lists', lists'.Perm lists → ∀ maxWork' result',
        intersectPostings lists' maxWork' = .ok result' → result' = result) ∧
    (∀ maxWork error, intersectPostings lists maxWork = .error error →
      error = .resourceLimitExceeded) ∧
    ∀ maxWork, maxWork < 2 ^ 64 → 2 * (lists.map List.length).sum ≤ maxWork →
      ∃ result, intersectPostings lists maxWork = .ok result := by
  refine ⟨?_, ?_, ?_⟩
  · intro maxWork result h
    obtain ⟨hsorted, hmem⟩ := intersectPostings_eq_ok hne hlists h
    refine ⟨hsorted, hmem, ?_, ?_⟩
    · intro maxWork' hle
      exact admits_intersectPostings hle lists _ h
    · intro lists' hperm maxWork' result' h'
      have hne' : lists' ≠ [] := by
        rintro rfl
        exact hne hperm.nil_eq.symm
      obtain ⟨hsorted', hmem'⟩ := intersectPostings_eq_ok hne'
        (fun list hlist => hlists list (hperm.mem_iff.mp hlist)) h'
      have hirrefl : Std.Irrefl fun a b : Nat => a < b := ⟨Nat.lt_irrefl⟩
      apply List.Pairwise.eq_of_mem_iff hsorted' hsorted
      intro value
      rw [hmem', hmem]
      exact forall_congr' fun list => imp_congr_left hperm.mem_iff
  · intro maxWork error h
    exact failsOnlyWith_intersectPostings error h
  · intro maxWork hword hwork
    exact intersectPostings_of_le hword hlists hwork

/-- The lists of the inclusive boundary: five units of work are just enough. -/
theorem intersectPostings_exact_boundary :
    intersectPostings [[1, 3], [3]] 4 = .error .resourceLimitExceeded ∧
    intersectPostings [[1, 3], [3]] 5 = .ok [3] ∧
    intersectPostings [[3], [1, 3]] 6 = .ok [3] := by
  have hlists : ∀ list ∈ [[1, 3], [3]], list.Pairwise (· < ·) := by decide
  obtain ⟨hexact, -, hroom⟩ := intersectPostings_exact (by decide) hlists
  obtain ⟨result, hresult⟩ := hroom 6 (by decide) (by decide)
  have hfive : intersectPostings [[1, 3], [3]] 5 = .ok [3] := by decide
  obtain ⟨-, -, hmore, horder⟩ := hexact 5 [3] hfive
  refine ⟨by decide, hfive, ?_⟩
  obtain rfl := Except.ok.inj (hresult.symm.trans (hmore 6 (by decide)))
  have hswapped : intersectPostings [[3], [1, 3]] 6 = .ok [3] := by decide
  rw [hswapped, horder _ (List.Perm.swap _ _ _) 6 [3] hswapped]

end Qzt
