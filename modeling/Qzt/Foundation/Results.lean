import Mathlib.Data.List.Forall2
import Mathlib.Tactic.Common

/-!
# Fallible computations

Rewriting rules for computations in `Except ε`.  A program that stops at its first
error is a chain of binds; `bind_eq_ok_iff` takes such a chain apart into the facts
that made every step succeed, and `ok_bind` puts it back together.

Guards (`rejectIf`), checks over a list (`checkAll`) and element-wise traversals
(`collect`) each get one characterisation of success.
-/

namespace Foundation

variable {ε α β : Type}

/-! ## Sequencing -/

@[simp] theorem ok_bind (a : α) (f : α → Except ε β) :
    ((Except.ok a : Except ε α) >>= f) = f a := rfl

@[simp] theorem error_bind (e : ε) (f : α → Except ε β) :
    ((Except.error e : Except ε α) >>= f) = .error e := rfl

@[simp] theorem pure_eq_ok (a : α) : (pure a : Except ε α) = .ok a := rfl

@[simp] theorem throw_eq_error (e : ε) : (throw e : Except ε α) = .error e := rfl

/-- A chain succeeds exactly when its first step does and the rest succeeds on it. -/
theorem bind_eq_ok_iff {x : Except ε α} {f : α → Except ε β} {b : β} :
    (x >>= f) = .ok b ↔ ∃ a, x = .ok a ∧ f a = .ok b := by
  cases x with
  | error e => simp
  | ok a => simp

/-- A chain fails in its first step, or in the rest. -/
theorem bind_eq_error_iff {x : Except ε α} {f : α → Except ε β} {e : ε} :
    (x >>= f) = .error e ↔ x = .error e ∨ ∃ a, x = .ok a ∧ f a = .error e := by
  cases x with
  | error e' => simp
  | ok a => simp

/-- Two chains with one first step need only agree on its result. -/
theorem bind_congr_ok {x : Except ε α} {f g : α → Except ε β}
    (h : ∀ a, x = .ok a → f a = g a) : (x >>= f) = (x >>= g) := by
  cases x with
  | error e => rfl
  | ok a => exact h a rfl

theorem map_eq_ok_iff {x : Except ε α} {f : α → β} {b : β} :
    (f <$> x) = .ok b ↔ ∃ a, x = .ok a ∧ f a = b := by
  cases x with
  | error e => simp [Functor.map, Except.map]
  | ok a => simp [Functor.map, Except.map]

@[simp] theorem map_ok (f : α → β) (a : α) :
    (f <$> (Except.ok a : Except ε α)) = .ok (f a) := rfl

@[simp] theorem map_error (f : α → β) (e : ε) :
    (f <$> (Except.error e : Except ε α)) = .error e := rfl

/-! ## Guards -/

/-- Fail with `e` when `bad` holds. -/
def rejectIf {ε : Type} (bad : Prop) [Decidable bad] (e : ε) : Except ε Unit :=
  if bad then .error e else .ok ⟨⟩

@[simp] theorem rejectIf_eq_ok_iff {bad : Prop} [Decidable bad] {e : ε} {u : Unit} :
    rejectIf bad e = .ok u ↔ ¬ bad := by
  unfold rejectIf
  split <;> simp_all

theorem rejectIf_of_not {bad : Prop} [Decidable bad] {e : ε} (h : ¬ bad) :
    rejectIf bad e = .ok ⟨⟩ := by
  simp [rejectIf, h]

theorem rejectIf_of {bad : Prop} [Decidable bad] {e : ε} (h : bad) :
    rejectIf bad e = .error e := by
  simp [rejectIf, h]

/-- Turn absence into the error `e`. -/
def okOr {ε α : Type} (e : ε) : Option α → Except ε α
  | some a => .ok a
  | none => .error e

@[simp] theorem okOr_some (e : ε) (a : α) : okOr e (some a) = .ok a := rfl

@[simp] theorem okOr_none (e : ε) : (okOr e none : Except ε α) = .error e := rfl

@[simp] theorem okOr_eq_ok_iff {e : ε} {o : Option α} {a : α} :
    okOr e o = .ok a ↔ o = some a := by
  cases o <;> simp

/-! ## The error of a failed computation -/

/-- The only error the computation can end with. -/
def FailsOnlyWith (e : ε) (x : Except ε α) : Prop :=
  ∀ e', x = .error e' → e' = e

theorem failsOnlyWith_ok {e : ε} (a : α) : FailsOnlyWith e (.ok a : Except ε α) := by
  intro e' h
  cases h

theorem failsOnlyWith_error (e : ε) : FailsOnlyWith e (.error e : Except ε α) := by
  intro e' h
  cases h
  rfl

theorem failsOnlyWith_bind {e : ε} {x : Except ε α} {f : α → Except ε β}
    (hfirst : FailsOnlyWith e x) (hrest : ∀ a, x = .ok a → FailsOnlyWith e (f a)) :
    FailsOnlyWith e (x >>= f) := by
  intro e' h
  rcases bind_eq_error_iff.mp h with h | ⟨a, ha, h⟩
  · exact hfirst e' h
  · exact hrest a ha e' h

theorem failsOnlyWith_rejectIf {bad : Prop} [Decidable bad] (e : ε) :
    FailsOnlyWith e (rejectIf bad e) := by
  unfold rejectIf
  split
  · exact failsOnlyWith_error e
  · exact failsOnlyWith_ok _

theorem failsOnlyWith_okOr (e : ε) (o : Option α) : FailsOnlyWith e (okOr e o) := by
  cases o with
  | none => exact failsOnlyWith_error e
  | some a => exact failsOnlyWith_ok a

/-- A computation with one error either succeeds or ends with that error. -/
theorem FailsOnlyWith.eq_error {e : ε} {x : Except ε α} (h : FailsOnlyWith e x)
    (hnot : ∀ a, x ≠ .ok a) : x = .error e := by
  cases x with
  | ok a => exact absurd rfl (hnot a)
  | error e' => rw [h e' rfl]

/-! ## Checks and traversals over lists -/

/-- Run a check on every element, stopping at the first error. -/
def checkAll {ε α : Type} (check : α → Except ε Unit) : List α → Except ε Unit
  | [] => .ok ⟨⟩
  | a :: as => do
      check a
      checkAll check as

theorem checkAll_eq_ok_iff {check : α → Except ε Unit} {as : List α} {u : Unit} :
    checkAll check as = .ok u ↔ ∀ a ∈ as, check a = .ok ⟨⟩ := by
  induction as with
  | nil => simp [checkAll]
  | cons a as ih =>
    simp only [checkAll, bind_eq_ok_iff, List.forall_mem_cons, ih]
    constructor
    · rintro ⟨⟨⟩, hhead, htail⟩
      exact ⟨hhead, htail⟩
    · rintro ⟨hhead, htail⟩
      exact ⟨⟨⟩, hhead, htail⟩

/-- Apply a fallible function to every element, stopping at the first error. -/
def collect {ε α β : Type} (f : α → Except ε β) : List α → Except ε (List β)
  | [] => .ok []
  | a :: as => do
      let b ← f a
      let bs ← collect f as
      return b :: bs

theorem collect_eq_ok_iff {f : α → Except ε β} {as : List α} {bs : List β} :
    collect f as = .ok bs ↔ List.Forall₂ (fun a b => f a = .ok b) as bs := by
  induction as generalizing bs with
  | nil => cases bs <;> simp [collect]
  | cons a as ih =>
    cases bs with
    | nil => simp [collect, bind_eq_ok_iff]
    | cons b bs => simp [collect, bind_eq_ok_iff, ih]

/-- When every element succeeds with a known value, so does the traversal. -/
theorem collect_of_forall {f : α → Except ε β} {g : α → β} {as : List α}
    (h : ∀ a ∈ as, f a = .ok (g a)) : collect f as = .ok (as.map g) := by
  induction as with
  | nil => rfl
  | cons a as ih =>
    simp [collect, h a (List.mem_cons_self ..),
      ih (fun x hx => h x (List.mem_cons_of_mem _ hx))]

/-! ## Admission -/

/-- Whatever the first computation returns, the second returns too.  A check with a looser bound
admits what the tighter one did. -/
def Admits (x y : Except ε α) : Prop :=
  ∀ a, x = .ok a → y = .ok a

theorem admits_refl (x : Except ε α) : Admits x x :=
  fun _ h => h

theorem admits_bind {x x' : Except ε α} {f f' : α → Except ε β} (hfirst : Admits x x')
    (hrest : ∀ a, x = .ok a → Admits (f a) (f' a)) : Admits (x >>= f) (x' >>= f') := by
  intro b h
  obtain ⟨a, hx, hf⟩ := bind_eq_ok_iff.mp h
  exact bind_eq_ok_iff.mpr ⟨a, hfirst a hx, hrest a hx b hf⟩

/-- The common case: only what follows differs. -/
theorem admits_bind_right {x : Except ε α} {f f' : α → Except ε β}
    (hrest : ∀ a, x = .ok a → Admits (f a) (f' a)) : Admits (x >>= f) (x >>= f') :=
  admits_bind (admits_refl x) hrest

theorem admits_rejectIf {bad bad' : Prop} [Decidable bad] [Decidable bad'] {e : ε}
    (h : bad' → bad) : Admits (rejectIf bad e) (rejectIf bad' e) := by
  intro u hu
  rw [rejectIf_eq_ok_iff] at hu ⊢
  exact fun hbad => hu (h hbad)

/-! ## Related lists -/

section Pairs

variable {related : α → β → Prop} {as : List α} {bs : List β}

theorem exists_of_forall₂_left (h : List.Forall₂ related as bs) {a : α} (ha : a ∈ as) :
    ∃ b ∈ bs, related a b := by
  induction h with
  | nil => exact absurd ha List.not_mem_nil
  | cons hpair _ ih =>
    rcases List.mem_cons.mp ha with rfl | hrest
    · exact ⟨_, List.mem_cons_self, hpair⟩
    · obtain ⟨b, hb, hrelated⟩ := ih hrest
      exact ⟨b, List.mem_cons_of_mem _ hb, hrelated⟩

theorem exists_of_forall₂_right (h : List.Forall₂ related as bs) {b : β} (hb : b ∈ bs) :
    ∃ a ∈ as, related a b :=
  exists_of_forall₂_left h.flip hb

end Pairs

end Foundation
