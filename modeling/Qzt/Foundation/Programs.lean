import Qzt.Foundation.Results

/-!
# Stateful computations that may fail

Weakest preconditions for `ExceptT ε (StateM σ)`, where the state survives an error.
`Ensures m s post fail` says that running `m` from `s` ends in `post`, or fails in
`fail`.  There is one rule for each way to build a program.
-/

namespace Foundation

variable {ε σ α β : Type}

/-- Running `m` from `s` returns into `post`, or fails into `fail`. -/
def Ensures (m : ExceptT ε (StateM σ) α) (s : σ) (post : α → σ → Prop) (fail : ε → σ → Prop) :
    Prop :=
  match m.run.run s with
  | (.ok a, s') => post a s'
  | (.error e, s') => fail e s'

variable {s : σ} {post : α → σ → Prop} {fail : ε → σ → Prop}

theorem ensures_pure {a : α} (h : post a s) :
    Ensures (Pure.pure a : ExceptT ε (StateM σ) α) s post fail := h

theorem run_bind (m : ExceptT ε (StateM σ) α) (f : α → ExceptT ε (StateM σ) β) (s : σ) :
    (m >>= f).run.run s =
      match m.run.run s with
      | (.ok a, s') => (f a).run.run s'
      | (.error e, s') => (.error e, s') := by
  change (ExceptT.bindCont f (m.run.run s).1).run (m.run.run s).2 = _
  rcases m.run.run s with ⟨a | e, s'⟩ <;> rfl

theorem run_get_bind (f : σ → ExceptT ε (StateM σ) β) (s : σ) :
    ((MonadState.get : ExceptT ε (StateM σ) σ) >>= f).run.run s = (f s).run.run s := rfl

theorem run_modify_bind (g : σ → σ) (f : PUnit → ExceptT ε (StateM σ) β) (s : σ) :
    ((modify g : ExceptT ε (StateM σ) PUnit) >>= f).run.run s = (f ⟨⟩).run.run (g s) := rfl

theorem run_lift_bind_of_ok {x : Except ε α} {a : α} (h : x = .ok a)
    (f : α → ExceptT ε (StateM σ) β) (s : σ) :
    ((liftM x : ExceptT ε (StateM σ) α) >>= f).run.run s = (f a).run.run s := by
  subst h
  rfl

theorem ensures_bind {m : ExceptT ε (StateM σ) α} {f : α → ExceptT ε (StateM σ) β}
    {post : β → σ → Prop} (h : Ensures m s (fun a s' => Ensures (f a) s' post fail) fail) :
    Ensures (m >>= f) s post fail := by
  unfold Ensures at h ⊢
  rw [run_bind]
  revert h
  rcases m.run.run s with ⟨a | e, s'⟩ <;> exact id

theorem ensures_lift {x : Except ε α} (hok : ∀ a, x = .ok a → post a s)
    (herror : ∀ e, x = .error e → fail e s) :
    Ensures (liftM x : ExceptT ε (StateM σ) α) s post fail := by
  cases x with
  | ok a => exact hok a rfl
  | error e => exact herror e rfl

theorem ensures_lift_ok {x : Except ε α} {a : α} (hx : x = .ok a) (h : post a s) :
    Ensures (liftM x : ExceptT ε (StateM σ) α) s post fail := by
  subst hx
  exact h

theorem ensures_get {post : σ → σ → Prop} (h : post s s) :
    Ensures (MonadState.get : ExceptT ε (StateM σ) σ) s post fail := h

theorem ensures_set {post : PUnit → σ → Prop} {s' : σ} (h : post ⟨⟩ s') :
    Ensures (MonadStateOf.set s' : ExceptT ε (StateM σ) PUnit) s post fail := h

theorem ensures_modify {post : PUnit → σ → Prop} {f : σ → σ} (h : post ⟨⟩ (f s)) :
    Ensures (modify f : ExceptT ε (StateM σ) PUnit) s post fail := h

theorem ensures_ite {c : Prop} [Decidable c] {m m' : ExceptT ε (StateM σ) α}
    (htrue : c → Ensures m s post fail) (hfalse : ¬ c → Ensures m' s post fail) :
    Ensures (if c then m else m') s post fail := by
  split
  · exact htrue ‹_›
  · exact hfalse ‹_›

/-- What holds in every outcome. -/
theorem ensures_of_forall {m : ExceptT ε (StateM σ) α} (hpost : ∀ a s', post a s')
    (hfail : ∀ e s', fail e s') : Ensures m s post fail := by
  unfold Ensures
  split
  · exact hpost _ _
  · exact hfail _ _

/-- The rule of consequence. -/
theorem Ensures.mono {m : ExceptT ε (StateM σ) α} {post' : α → σ → Prop} {fail' : ε → σ → Prop}
    (h : Ensures m s post fail) (hpost : ∀ a s', post a s' → post' a s')
    (hfail : ∀ e s', fail e s' → fail' e s') : Ensures m s post' fail' := by
  unfold Ensures at h ⊢
  revert h
  rcases m.run.run s with ⟨a | e, s'⟩
  · exact hfail a s'
  · exact hpost _ s'

/-- What each of several accounts of a failure says, all of them say together. -/
theorem ensures_forall {ι : Type} [Nonempty ι] {m : ExceptT ε (StateM σ) α}
    {fail : ι → ε → σ → Prop} (h : ∀ i, Ensures m s post (fail i)) :
    Ensures m s post (fun e s' => ∀ i, fail i e s') := by
  unfold Ensures at h ⊢
  revert h
  rcases m.run.run s with ⟨e | a, s'⟩
  · exact id
  · exact fun h => h (Classical.arbitrary ι)

/-- Two accounts of one run hold together. -/
theorem Ensures.and {m : ExceptT ε (StateM σ) α} {post' : α → σ → Prop} {fail' : ε → σ → Prop}
    (h : Ensures m s post fail) (h' : Ensures m s post' fail') :
    Ensures m s (fun a s' => post a s' ∧ post' a s') (fun e s' => fail e s' ∧ fail' e s') := by
  unfold Ensures at h h' ⊢
  revert h h'
  rcases m.run.run s with ⟨e | a, s'⟩
  · exact fun h h' => ⟨h, h'⟩
  · exact fun h h' => ⟨h, h'⟩

theorem Ensures.of_ok {m : ExceptT ε (StateM σ) α} {a : α} {s' : σ}
    (h : Ensures m s post fail) (hm : m.run.run s = (.ok a, s')) : post a s' := by
  rw [Ensures, hm] at h
  exact h

theorem Ensures.of_error {m : ExceptT ε (StateM σ) α} {e : ε} {s' : σ}
    (h : Ensures m s post fail) (hm : m.run.run s = (.error e, s')) : fail e s' := by
  rw [Ensures, hm] at h
  exact h

/-! ## What a program leaves alone -/

/-- `m` leaves the part `f` of the state as it was, in every outcome. -/
def Keeps {τ : Type} (f : σ → τ) (m : ExceptT ε (StateM σ) α) : Prop :=
  ∀ s, f (m.run.run s).2 = f s

section Keeps

variable {τ : Type} {f : σ → τ}

theorem keeps_pure (a : α) : Keeps f (Pure.pure a : ExceptT ε (StateM σ) α) := fun _ => rfl

theorem keeps_get : Keeps f (MonadState.get : ExceptT ε (StateM σ) σ) := fun _ => rfl

theorem keeps_lift (x : Except ε α) : Keeps f (liftM x : ExceptT ε (StateM σ) α) := fun _ => by
  cases x <;> rfl

theorem keeps_bind {m : ExceptT ε (StateM σ) α} {k : α → ExceptT ε (StateM σ) β}
    (hm : Keeps f m) (hk : ∀ a, Keeps f (k a)) : Keeps f (m >>= k) := by
  intro s
  have hfirst := hm s
  rw [run_bind]
  revert hfirst
  rcases m.run.run s with ⟨e | a, s'⟩
  · exact id
  · intro hfirst
    exact (hk a s').trans hfirst

theorem keeps_ite {c : Prop} [Decidable c] {m m' : ExceptT ε (StateM σ) α} (hm : Keeps f m)
    (hm' : Keeps f m') : Keeps f (if c then m else m') := by
  split
  · exact hm
  · exact hm'

theorem Keeps.ensures {m : ExceptT ε (StateM σ) α} (h : Keeps f m) :
    Ensures m s (fun _ s' => f s' = f s) (fun _ s' => f s' = f s) := by
  have hs := h s
  unfold Ensures
  revert hs
  rcases m.run.run s with ⟨e | a, s'⟩ <;> exact id

end Keeps

/-! ## Forgetting the state at an error -/

/-- The outcome of a run for a caller that drops the state when it fails. -/
def outcome (m : ExceptT ε (StateM σ) α) (s : σ) : Except ε (α × σ) :=
  match m.run.run s with
  | (.ok a, s') => .ok (a, s')
  | (.error e, _) => .error e

theorem outcome_of_ok {m : ExceptT ε (StateM σ) α} {a : α} {s' : σ}
    (h : m.run.run s = (.ok a, s')) : outcome m s = .ok (a, s') := by
  rw [outcome, h]

theorem outcome_pure (a : α) :
    outcome (Pure.pure a : ExceptT ε (StateM σ) α) s = .ok (a, s) := rfl

theorem outcome_get : outcome (MonadState.get : ExceptT ε (StateM σ) σ) s = .ok (s, s) := rfl

theorem outcome_modify (f : σ → σ) :
    outcome (modify f : ExceptT ε (StateM σ) PUnit) s = .ok (⟨⟩, f s) := rfl

theorem outcome_lift (x : Except ε α) :
    outcome (liftM x : ExceptT ε (StateM σ) α) s = (fun a => (a, s)) <$> x := by
  cases x <;> rfl

theorem outcome_bind (m : ExceptT ε (StateM σ) α) (f : α → ExceptT ε (StateM σ) β) :
    outcome (m >>= f) s = outcome m s >>= fun result => outcome (f result.1) result.2 := by
  simp only [outcome, run_bind]
  rcases m.run.run s with ⟨e | a, s'⟩ <;> rfl

/-! ## Results as values -/

/-- Run `m` and hand its result on as a value, as a `match` on a `Result` does. -/
def attempt {ε' : Type} (m : ExceptT ε (StateM σ) α) : ExceptT ε' (StateM σ) (Except ε α) := fun s =>
  let (result, s') := m.run.run s
  (.ok result, s')

/-- `map_err` with a handler that may use the state. -/
def onError {ε' : Type} (m : ExceptT ε (StateM σ) α) (handler : ε → StateM σ ε') :
    ExceptT ε' (StateM σ) α := fun s =>
  match m.run.run s with
  | (.ok a, s') => (.ok a, s')
  | (.error e, s') => (.error ((handler e).run s').1, ((handler e).run s').2)

theorem ensures_throw {e : ε} (h : fail e s) :
    Ensures (throw e : ExceptT ε (StateM σ) α) s post fail := h

theorem ensures_attempt {ε' : Type} {m : ExceptT ε (StateM σ) α} {post : Except ε α → σ → Prop}
    {fail : ε' → σ → Prop}
    (h : Ensures m s (fun a s' => post (.ok a) s') (fun e s' => post (.error e) s')) :
    Ensures (attempt m) s post fail := by
  change post (m.run.run s).1 (m.run.run s).2
  unfold Ensures at h
  revert h
  rcases m.run.run s with ⟨a | e, s'⟩ <;> exact id

theorem ensures_onError {ε' : Type} {m : ExceptT ε (StateM σ) α} {handler : ε → StateM σ ε'}
    {fail : ε' → σ → Prop}
    (h : Ensures m s post (fun e s' => fail ((handler e).run s').1 ((handler e).run s').2)) :
    Ensures (onError m handler) s post fail := by
  have hrun : (onError m handler).run.run s =
      match m.run.run s with
      | (.ok a, s') => (.ok a, s')
      | (.error e, s') => (.error ((handler e).run s').1, ((handler e).run s').2) := rfl
  unfold Ensures at h ⊢
  rw [hrun]
  revert h
  rcases m.run.run s with ⟨a | e, s'⟩ <;> exact id

end Foundation
