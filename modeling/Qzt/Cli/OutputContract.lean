import Qzt.Cli.AtomicOutput

/-!
# The output is replaced or left alone

`write_atomically` under every failure pattern and every callback.  A run is followed
through three trees: the one at the start, the one with the temporary file beside it, and
the one with the new output.  `Stopped` is what the closure may leave when it fails and
`Failed` what is left after the cleanup; each step keeps the run inside these.
-/

namespace Qzt

open Foundation Disk

variable {host : Host} {start s : Disk} {done : List Step} {tree base : Tree}
  {outputPath tempPath : Path} {inputs : List Path} {write : WriteCallback}

/-! ## The shapes of a run -/

/-- `tree` is `base`, with or without a file at `tempPath`. -/
def HoldsTemporary (base : Tree) (tempPath : Path) (tree : Tree) : Prop :=
  tree = base ∨ ∃ state, tree = Function.update base tempPath.location (some (.file state))

/-- `after` is `before` with a file of these bytes at the output. -/
def Replaced (before : Tree) (outputPath : Path) (bytes : List UInt8) (after : Tree) : Prop :=
  ∃ state : FileState, state.bytes = bytes ∧
    after = Function.update before outputPath.location (some (.file state))

/-- Nothing was at the temporary path before the run. -/
structure Fresh (start : Disk) (outputPath tempPath : Path) : Prop where
  absent : start.tree tempPath.location = none
  ne_output : tempPath.location ≠ outputPath.location

/-- The tree below the temporary file when the run fails with `error`: the one at the start,
or, once the rename was issued, the one with the new output. -/
def Settled (start : Disk) (outputPath : Path) (write : WriteCallback) (error : CliError)
    (base : Tree) (done : List Step) : Prop :=
  (base = start.tree ∧ ∀ cause, error = .durabilityUnconfirmed cause →
      (write []).1 = .error (.durabilityUnconfirmed cause)) ∨
    (Replaced start.tree outputPath (write []).2 base ∧
      ∃ tempPath, done = [.rename tempPath outputPath])

/-- The closure has failed; the temporary file may be there. -/
def Stopped (start : Disk) (outputPath : Path) (write : WriteCallback) (tempPath : Path)
    (error : CliError) (s : Disk) : Prop :=
  ∃ base done tree, Settled start outputPath write error base done ∧
    HoldsTemporary base tempPath tree ∧ At start done tree s

/-- The run has failed: no temporary file is left, or the error names it. -/
def Failed (host : Host) (start : Disk) (outputPath : Path) (write : WriteCallback)
    (error : CliError) (s : Disk) : Prop :=
  ∃ base done, Settled start outputPath write error base done ∧
    (At start done base s ∨
      ∃ tempPath primaryError cleanupError tree, Fresh start outputPath tempPath ∧
        error = removalFailure host tempPath primaryError cleanupError ∧
          HoldsTemporary base tempPath tree ∧ At start done tree s)

theorem Settled.start_of_io (error : IoError) :
    Settled start outputPath write (.io error) start.tree done :=
  .inl ⟨rfl, fun _ h => by cases h⟩

/-- Before the closure ran, a failure leaves the tree as it was. -/
theorem Failed.of_at {error : IoError} (h : At start done start.tree s) :
    Failed host start outputPath write (.io error) s :=
  ⟨_, done, .start_of_io error, .inl h⟩

theorem Settled.absent {error : CliError} (hfresh : Fresh start outputPath tempPath)
    (h : Settled start outputPath write error base done) : base tempPath.location = none := by
  rcases h with ⟨rfl, -⟩ | ⟨⟨state, -, rfl⟩, -⟩
  · exact hfresh.absent
  · rw [Function.update_of_ne hfresh.ne_output]
    exact hfresh.absent

/-- The error of a failed cleanup is an I/O error of its own. -/
theorem Settled.removalFailure {error : CliError} {cleanupError : IoError}
    (h : Settled start outputPath write error base done) :
    Settled start outputPath write (removalFailure host tempPath error cleanupError) base done := by
  rcases h with ⟨hbase, -⟩ | hreplaced
  · exact .inl ⟨hbase, fun _ heq => by cases heq⟩
  · exact .inr hreplaced

/-! ## Single steps -/

theorem ensures_liftIo {α : Type} {m : DiskM α} {post : α → Disk → Prop}
    {fail : CliError → Disk → Prop} (h : Ensures m s post (fun e s' => fail (.io e) s')) :
    Ensures (liftIo m) s post fail :=
  ensures_onError h

/-! ## Collisions -/

/-- What the collision check has established. -/
structure Clear (tree : Tree) (outputPath : Path) (inputs : List Path) : Prop where
  not_symlink : ∀ target, tree outputPath.location ≠ some (.symlink target)
  not_input : ∀ input ∈ inputs, tree.resolve input.location ≠ some outputPath.location

theorem clear_of_absent (h : tree outputPath.location = none) : Clear tree outputPath inputs where
  not_symlink := fun target heq => by rw [h] at heq; cases heq
  not_input := fun _ _ heq => Tree.follow_isSome _ heq h

theorem checkInputs_ensures {state : FileState} (hfile : tree outputPath.location = some (.file state))
    (inputs : List Path) :
    ∀ {s : Disk}, At start done tree s →
      Ensures (checkInputs host outputPath inputs) s
        (fun _ s' => At start done tree s' ∧
          ∀ input ∈ inputs, tree.resolve input.location ≠ some outputPath.location)
        (fun e s' => (∃ cause, e = .io cause) ∧ At start done tree s') := by
  induction inputs with
  | nil =>
    intro s h
    exact ensures_pure ⟨h, by simp⟩
  | cons input inputs ih =>
    intro s h
    apply ensures_bind
    apply ensures_liftIo
    apply ensures_look
    · intro same tree' heq
      simp only [bind_eq_ok_iff, Except.ok.injEq, Prod.mk.injEq] at heq
      obtain ⟨_, -, -, rfl⟩ := heq
      rfl
    · intro same heq
      simp only [bind_eq_ok_iff, Except.ok.injEq, Prod.mk.injEq] at heq
      obtain ⟨_, hsame, rfl, -⟩ := heq
      apply ensures_ite
      · intro _
        exact ensures_throw ⟨⟨_, rfl⟩, h.after_same _⟩
      · intro hdiffer
        refine (ih (h.after_same _)).mono ?_ (fun _ _ hfail => hfail)
        rintro _ s' ⟨hat, hinputs⟩
        refine ⟨hat, ?_⟩
        simp only [List.mem_cons, forall_eq_or_imp]
        refine ⟨fun hresolve => hdiffer ?_, hinputs⟩
        -- the output is a regular file, so it leads to itself
        have hself : tree.resolve outputPath.location = some outputPath.location := by
          simp [Tree.resolve, Tree.follow, hfile]
        rw [h.tree_eq, host.sameFile_of_resolve tree input outputPath _ state hresolve hself hfile]
          at hsame
        cases hsame
        rfl
    · exact fun e _ => ⟨⟨e, rfl⟩, h.after_same _⟩

/-- The check changes nothing; if it passes, the output is no link and no input leads to it. -/
theorem checkOutputCollision_ensures (h : At start done tree s) :
    Ensures (checkOutputCollision host outputPath inputs) s
      (fun _ s' => At start done tree s' ∧ Clear tree outputPath inputs)
      (fun e s' => (∃ cause, e = .io cause) ∧ At start done tree s') := by
  apply ensures_bind
  apply ensures_attempt
  refine (ensures_symlinkMetadata h).mono ?_ ?_
  · rintro entry s' ⟨hentry, hat⟩
    apply ensures_ite
    · exact fun _ => ensures_throw ⟨⟨_, rfl⟩, hat⟩
    · intro hsymlink
      apply ensures_ite
      · exact fun _ => ensures_throw ⟨⟨_, rfl⟩, hat⟩
      · intro hfile
        cases entry with
        | file state =>
          refine (checkInputs_ensures hentry inputs hat).mono ?_ (fun _ _ hfail => hfail)
          rintro _ s'' ⟨hat', hinputs⟩
          refine ⟨hat', fun target heq => ?_, hinputs⟩
          rw [hentry] at heq
          cases heq
        | symlink target => exact absurd rfl hsymlink
        | directory => exact absurd rfl hfile
        | special => exact absurd rfl hfile
  · rintro e s' ⟨habsent, hat⟩
    apply ensures_ite
    · exact fun hkind => ensures_pure ⟨hat, clear_of_absent (habsent hkind)⟩
    · exact fun _ => ensures_throw ⟨⟨_, rfl⟩, hat⟩

/-! ## The cleanup -/

theorem cleanupAtomicOutput_run (error : CliError) (s : Disk) :
    (cleanupAtomicOutput host tempPath error).run s =
      match (removeFile tempPath).run.run s with
      | (.ok _, s') => (error, s')
      | (.error cleanupError, s') =>
        (if cleanupError.kind = .notFound then error
          else removalFailure host tempPath error cleanupError, s') := by
  unfold cleanupAtomicOutput
  rw [StateT.run_bind]
  rcases (removeFile tempPath).run.run s with ⟨cleanupError | _, s'⟩
  · have hcleanup : StateT.run (if cleanupError.kind = .notFound then pure error
        else pure (removalFailure host tempPath error cleanupError) : StateM Disk CliError) s' =
        (if cleanupError.kind = .notFound then error
          else removalFailure host tempPath error cleanupError, s') := by
      split
      · rfl
      · rfl
    exact hcleanup
  · rfl

/-- The cleanup removes the temporary file, or its error names the file. -/
theorem Stopped.cleanup {error : CliError} (hfresh : Fresh start outputPath tempPath)
    (h : Stopped start outputPath write tempPath error s) :
    Failed host start outputPath write ((cleanupAtomicOutput host tempPath error).run s).1
      ((cleanupAtomicOutput host tempPath error).run s).2 := by
  obtain ⟨base, done, tree, hsettled, hholds, hat⟩ := h
  have hremove := ensures_removeFile (hsettled.absent hfresh) hholds hat
  rw [cleanupAtomicOutput_run]
  cases hrun : (removeFile tempPath).run.run s with
  | mk result s' =>
    cases result with
    | ok _ => exact ⟨base, done, hsettled, .inl (hremove.of_ok hrun)⟩
    | error cleanupError =>
      have hleft := hremove.of_error hrun
      dsimp only
      split
      case isTrue hkind =>
        rcases hleft with hbase | ⟨hne, -⟩
        · exact ⟨base, done, hsettled, .inl hbase⟩
        · exact absurd hkind hne
      case isFalse =>
        refine ⟨base, done, hsettled.removalFailure, .inr ⟨tempPath, error, cleanupError, ?_⟩⟩
        rcases hleft with hbase | ⟨-, htree⟩
        · exact ⟨base, hfresh, rfl, .inl rfl, hbase⟩
        · exact ⟨tree, hfresh, rfl, hholds, htree⟩

/-! ## The temporary file -/

/-- The run holds a temporary file with these bytes beside the tree it began with. -/
def WithTemporary (start : Disk) (tempPath : Path) (bytes : List UInt8) (s : Disk) : Prop :=
  ∃ state : FileState, state.bytes = bytes ∧
    At start [] (Function.update start.tree tempPath.location (some (.file state))) s

/-- An operation on the temporary file. -/
theorem WithTemporary.ensures_onFile {label : Step} {bytes : List UInt8}
    {change : FileState → Except IoError FileState}
    (h : WithTemporary start tempPath bytes s)
    (hchange : ∀ state state', change state = .ok state' → state'.bytes = state.bytes) :
    Ensures (onFile label tempPath change) s
      (fun _ s' => WithTemporary start tempPath bytes s')
      (fun _ s' => WithTemporary start tempPath bytes s') := by
  obtain ⟨state, hbytes, hat⟩ := h
  refine (Foundation.ensures_onFile hat (hchange state)).mono ?_ ?_
  · rintro _ s' ⟨state', hstate, hat'⟩
    exact ⟨state', hstate.trans hbytes, hat'⟩
  · rintro _ s' ⟨state', hstate, hat'⟩
    exact ⟨state', hstate.trans hbytes, hat'⟩

/-- A step that changes nothing keeps the temporary file. -/
theorem WithTemporary.ensures_look {α : Type} {label : Step} {bytes : List UInt8}
    {effect : Tree → Except IoError (α × Tree)} (h : WithTemporary start tempPath bytes s)
    (hlook : ∀ tree a tree', effect tree = .ok (a, tree') → tree' = tree) :
    Ensures (Disk.step label true effect) s
      (fun _ s' => WithTemporary start tempPath bytes s')
      (fun _ s' => WithTemporary start tempPath bytes s') := by
  obtain ⟨state, hbytes, hat⟩ := h
  apply Disk.ensures_look (hlook s.tree)
  · exact fun _ _ => ⟨state, hbytes, hat.after_same _⟩
  · exact fun _ _ => ⟨state, hbytes, hat.after_same _⟩

theorem openFile_ensures {path : Path} {bytes : List UInt8}
    (h : WithTemporary start tempPath bytes s) :
    Ensures (openFile path) s
      (fun _ s' => WithTemporary start tempPath bytes s')
      (fun _ s' => WithTemporary start tempPath bytes s') := by
  apply h.ensures_look
  intro tree a tree' heq
  split at heq
  · cases heq
    rfl
  · cases heq

theorem getAcl_ensures {label : Step} {path : Path} {bytes : List UInt8}
    (h : WithTemporary start tempPath bytes s) :
    Ensures (getAcl label path) s
      (fun _ s' => WithTemporary start tempPath bytes s')
      (fun _ s' => WithTemporary start tempPath bytes s') := by
  apply h.ensures_look
  intro tree a tree' heq
  split at heq
  · cases heq
    rfl
  · cases heq

theorem removeAcl_ensures {bytes : List UInt8} (h : WithTemporary start tempPath bytes s) :
    Ensures (removeAcl tempPath) s
      (fun _ s' => WithTemporary start tempPath bytes s')
      (fun _ s' => WithTemporary start tempPath bytes s') := by
  apply h.ensures_onFile
  intro state state' heq
  split at heq
  · cases heq
  · cases heq
    rfl

/-- Copying the access control list changes at most the temporary file's metadata. -/
theorem preserveOutputSecurity_ensures {bytes : List UInt8}
    (h : WithTemporary start tempPath bytes s) :
    Ensures (preserveOutputSecurity outputPath tempPath) s
      (fun _ s' => WithTemporary start tempPath bytes s')
      (fun _ s' => WithTemporary start tempPath bytes s') := by
  apply ensures_bind
  refine (openFile_ensures h).mono ?_ (fun _ _ h => h)
  intro _ s₁ h₁
  apply ensures_bind
  apply ensures_attempt
  refine (getAcl_ensures h₁).mono ?_ ?_
  · -- the existing output has a list of its own
    intro measured s₂ h₂
    apply ensures_bind
    refine (getAcl_ensures h₂).mono ?_ (fun _ _ h => h)
    intro acl s₃ h₃
    apply ensures_ite
    · exact fun _ => ensures_throw h₃
    · exact fun _ => h₃.ensures_onFile fun _ _ heq => by cases heq; rfl
  · intro error s₂ h₂
    apply ensures_ite
    · intro _
      apply ensures_bind
      apply ensures_attempt
      refine (removeAcl_ensures h₂).mono ?_ ?_
      · exact fun _ _ h₃ => ensures_pure h₃
      · intro removeError s₃ h₃
        apply ensures_ite
        · exact fun _ => ensures_throw h₃
        · exact fun _ => ensures_pure h₃
    · intro _
      apply ensures_ite
      · exact fun _ => ensures_pure h₂
      · exact fun _ => ensures_throw h₂

/-- A failure with the temporary file in place and the output untouched. -/
theorem WithTemporary.stopped {bytes : List UInt8} {error : CliError}
    (h : WithTemporary start tempPath bytes s)
    (hcallback : ∀ cause, error = .durabilityUnconfirmed cause →
      (write []).1 = .error (.durabilityUnconfirmed cause)) :
    Stopped start outputPath write tempPath error s := by
  obtain ⟨state, -, hat⟩ := h
  exact ⟨start.tree, [], _, .inl ⟨rfl, hcallback⟩, .inr ⟨state, rfl⟩, hat⟩

/-- Passing on permissions and access control keeps the new file, or cleans it up. -/
theorem inheritMetadata_ensures {permissions : Option Nat} {bytes : List UInt8}
    (hfresh : Fresh start outputPath tempPath) (h : WithTemporary start tempPath bytes s) :
    Ensures (inheritMetadata host outputPath tempPath permissions) s
      (fun _ s' => WithTemporary start tempPath bytes s')
      (fun e s' => Failed host start outputPath write e s') := by
  cases permissions with
  | none => exact ensures_pure h
  | some permissions =>
    apply ensures_bind
    apply ensures_onError
    apply ensures_liftIo
    refine (h.ensures_onFile fun _ _ heq => by cases heq; rfl).mono ?_ ?_
    · intro _ s₁ h₁
      apply ensures_onError
      apply ensures_liftIo
      refine (preserveOutputSecurity_ensures h₁).mono (fun _ _ h₂ => h₂) ?_
      exact fun _ _ h₂ => (h₂.stopped fun _ heq => by cases heq).cleanup hfresh
    · exact fun _ _ h₁ => (h₁.stopped fun _ heq => by cases heq).cleanup hfresh

/-- The temporary name is longer than the output's. -/
theorem temporaryName_ne (fileName : String) (number : Nat) :
    temporaryName host fileName number ≠ fileName := by
  intro heq
  have hlength := congrArg String.length heq
  simp only [temporaryName, String.length_append] at hlength
  have hdot : ".".length = 1 := rfl
  omega

/-- Every attempt creates a file where nothing was, or leaves the tree as it is. -/
theorem tryTemporaryNames_ensures {readAccess : Bool} {fileName : String}
    {permissions : Option Nat} (hname : outputPath.fileName = some fileName) (remaining : Nat) :
    ∀ {number : Nat} {s : Disk}, At start [] start.tree s →
      Ensures (tryTemporaryNames host outputPath readAccess fileName permissions remaining number) s
        (fun tempPath s' => Fresh start outputPath tempPath ∧ WithTemporary start tempPath [] s')
        (fun e s' => Failed host start outputPath write e s') := by
  induction remaining with
  | zero =>
    intro number s h
    exact ensures_throw (.of_at h)
  | succ remaining ih =>
    intro number s h
    apply ensures_bind
    apply ensures_attempt
    refine (ensures_createNew h).mono ?_ ?_
    · rintro _ s' ⟨habsent, hcreated⟩
      have hfresh : Fresh start outputPath
          ((outputParent outputPath).join (temporaryName host fileName number)) :=
        ⟨habsent, Path.location_join_ne hname (temporaryName_ne fileName number)⟩
      apply ensures_bind
      refine (inheritMetadata_ensures hfresh hcreated).mono ?_ (fun _ _ hfail => hfail)
      exact fun _ s'' h'' => ensures_pure ⟨hfresh, h''⟩
    · intro error s' hat
      apply ensures_ite
      · exact fun _ => ih hat
      · exact fun _ => ensures_throw (.of_at hat)

/-- A temporary file is opened at a path of its own, or nothing is left behind unnamed. -/
theorem createAtomicOutput_ensures (write : WriteCallback) {readAccess : Bool}
    (h : At start [] start.tree s) :
    Ensures (createAtomicOutput host outputPath readAccess) s
      (fun tempPath s' => Fresh start outputPath tempPath ∧ WithTemporary start tempPath [] s')
      (fun e s' => Failed host start outputPath write e s') := by
  unfold createAtomicOutput
  split
  case h_1 => exact ensures_throw (.of_at h)
  case h_2 fileName hname =>
    apply ensures_bind
    apply ensures_attempt
    refine (ensures_symlinkMetadata h).mono ?_ ?_
    · rintro entry s' ⟨-, hat⟩
      cases entry with
      | file state => exact tryTemporaryNames_ensures hname 128 hat
      | symlink target => exact tryTemporaryNames_ensures hname 128 hat
      | directory => exact tryTemporaryNames_ensures hname 128 hat
      | special => exact tryTemporaryNames_ensures hname 128 hat
    · rintro error s' ⟨-, hat⟩
      apply ensures_ite
      · exact fun _ => tryTemporaryNames_ensures hname 128 hat
      · exact fun _ => ensures_throw (.of_at hat)

/-! ## Replacement -/

/-- The callback decides what the temporary file holds, whether it fails or not. -/
theorem withFile_ensures (h : WithTemporary start tempPath [] s) :
    Ensures (withFile tempPath write) s
      (fun _ s' => WithTemporary start tempPath (write []).2 s')
      (fun e s' => (write []).1 = .error e ∧ WithTemporary start tempPath (write []).2 s') := by
  obtain ⟨state, hbytes, hat⟩ := h
  have hrun : (withFile tempPath write).run.run s =
      ((write []).1, { s with
        tree := Function.update s.tree tempPath.location
          (some (.file { state with bytes := (write []).2 })) }) := by
    change withFile tempPath write s = _
    unfold withFile
    rw [hat.tree_eq, Function.update_self]
    simp only [hbytes]
  have hleft : WithTemporary start tempPath (write []).2 { s with
      tree := Function.update s.tree tempPath.location
        (some (.file { state with bytes := (write []).2 })) } := by
    refine ⟨{ state with bytes := (write []).2 }, rfl, ?_, hat.issued⟩
    rw [hat.tree_eq, Function.update_idem]
  unfold Ensures
  rw [hrun]
  cases hresult : (write []).1 with
  | ok _ => exact hleft
  | error e => exact ⟨rfl, hleft⟩

theorem syncOutputDirectory_ensures (h : At start done tree s) :
    Ensures (syncOutputDirectory outputPath) s
      (fun _ s' => At start done tree s') (fun _ s' => At start done tree s') := by
  have hlook : ∀ (tree : Tree) (a : PUnit) (tree' : Tree),
      (Except.ok (PUnit.unit, tree) : Except IoError (PUnit × Tree)) = .ok (a, tree') →
        tree' = tree := by
    intro tree a tree' heq
    cases heq
    rfl
  apply ensures_bind
  apply Disk.ensures_look (hlook s.tree)
  · intro _ _
    apply Disk.ensures_look (hlook _)
    · exact fun _ _ => (h.after_same _).after_same _
    · exact fun _ _ => (h.after_same _).after_same _
  · exact fun _ _ => h.after_same _

theorem writeAndReplace_ensures (hfresh : Fresh start outputPath tempPath)
    (h : WithTemporary start tempPath [] s) :
    Ensures (writeAndReplace host outputPath inputs write tempPath) s
      (fun _ s' => ∃ after, Replaced start.tree outputPath (write []).2 after ∧
        At start [.rename tempPath outputPath] after s')
      (fun e s' => Stopped start outputPath write tempPath e s') := by
  apply ensures_bind
  refine (withFile_ensures h).mono ?_ ?_
  · intro _ s₁ h₁
    apply ensures_bind
    apply ensures_liftIo
    refine (h₁.ensures_onFile fun _ _ heq => by cases heq; rfl).mono ?_ ?_
    · intro _ s₂ h₂
      apply ensures_bind
      apply ensures_liftIo
      refine (h₂.ensures_onFile fun _ _ heq => by cases heq; rfl).mono ?_ ?_
      · rintro _ s₃ ⟨state, hbytes, hat⟩
        apply ensures_bind
        refine (checkOutputCollision_ensures hat).mono ?_ ?_
        · rintro _ s₄ ⟨hat₄, -⟩
          have hreplaced : Replaced start.tree outputPath (write []).2
              (Function.update start.tree outputPath.location (some (.file state))) :=
            ⟨state, hbytes, rfl⟩
          apply ensures_bind
          apply ensures_onError
          refine (ensures_rename hat₄ hfresh.absent).mono ?_ ?_
          · intro _ s₅ hat₅
            apply ensures_onError
            refine (syncOutputDirectory_ensures hat₅).mono ?_ ?_
            · exact fun _ _ hat₆ => ⟨_, hreplaced, hat₆⟩
            · exact fun _ _ hat₆ => ⟨_, _, _, .inr ⟨hreplaced, _, rfl⟩, .inl rfl, hat₆⟩
          · -- a failed rename: the error does not say whether the output was replaced
            rintro _ s₅ (hat₅ | hat₅)
            · exact ⟨start.tree, _, _, .inl ⟨rfl, fun _ heq => by cases heq⟩, .inr ⟨state, rfl⟩, hat₅⟩
            · exact ⟨_, _, _, .inr ⟨hreplaced, _, rfl⟩, .inl rfl, hat₅⟩
        · rintro _ s₄ ⟨⟨cause, rfl⟩, hat₄⟩
          exact ⟨start.tree, [], _, .start_of_io cause, .inr ⟨state, rfl⟩, hat₄⟩
      · exact fun _ _ h₃ => h₃.stopped fun _ heq => by cases heq
    · exact fun _ _ h₂ => h₂.stopped fun _ heq => by cases heq
  · rintro error s₁ ⟨hcallback, h₁⟩
    exact h₁.stopped fun cause heq => by rw [hcallback, heq]

/-- The whole run.  If it gets past the first check, no input leads to the output. -/
theorem writeAtomically_ensures (host : Host) (outputPath : Path) (inputs : List Path)
    (readAccess : Bool) (write : WriteCallback) (start : Disk) :
    Ensures (writeAtomically host outputPath inputs readAccess write) start
      (fun _ s' => Clear start.tree outputPath inputs ∧
        ∃ after, Replaced start.tree outputPath (write []).2 after ∧ At start [] after s')
      (fun e s' => (Clear start.tree outputPath inputs ∨ s'.tree = start.tree) ∧
        Failed host start outputPath write e s') := by
  apply ensures_bind
  refine (checkOutputCollision_ensures (At.refl start)).mono ?_ ?_
  · rintro _ s₁ ⟨hat, hclear⟩
    apply ensures_bind
    refine (createAtomicOutput_ensures write hat).mono ?_ ?_
    · rintro tempPath s₂ ⟨hfresh, h₂⟩
      apply ensures_onError
      refine (writeAndReplace_ensures hfresh h₂).mono ?_ ?_
      · rintro _ s₃ ⟨after, hreplaced, hat₃⟩
        exact ⟨hclear, after, hreplaced, hat₃.tree_eq, hat₃.issued.imp fun _ h => ⟨h.1, by simp⟩⟩
      · exact fun _ _ hstopped => ⟨.inl hclear, hstopped.cleanup hfresh⟩
    · exact fun _ _ hfailed => ⟨.inl hclear, hfailed⟩
  · rintro _ s₁ ⟨⟨cause, rfl⟩, hat⟩
    exact ⟨.inr hat.tree_eq, .of_at hat⟩

/-! ## All or nothing -/

/-- What a run of `write_atomically` from `start` to `final` leaves. -/
structure AllOrNothing (host : Host) (outputPath : Path) (inputs : List Path) (write : WriteCallback)
    (start : Disk) (result : Except CliError PUnit) (final : Disk) : Prop where
  /-- An input that could be read keeps its entry and what is read through it. -/
  inputs_unchanged : ∀ input ∈ inputs, start.tree.readThrough input.location ≠ none →
    final.tree input.location = start.tree input.location ∧
      final.tree.readThrough input.location = start.tree.readThrough input.location
  /-- So does every other entry. -/
  others_unchanged : Tree.KeepsExcept outputPath.location start.tree final.tree
  /-- The output is as before, or a file of exactly the bytes the callback wrote. -/
  output_old_or_new : final.tree outputPath.location = start.tree outputPath.location ∨
    ∃ state : FileState, state.bytes = (write []).2 ∧
      final.tree outputPath.location = some (.file state)
  ok_new : ∀ u, result = .ok u → ∃ state : FileState, state.bytes = (write []).2 ∧
    final.tree outputPath.location = some (.file state)
  /-- Without a rename among the steps of the run, an error leaves the output as it was. -/
  error_before_replace : ∀ e, result = .error e →
    (∀ path target, .rename path target ∉ final.log.drop start.log.length) →
      final.tree outputPath.location = start.tree outputPath.location
  /-- The error is the run's own, not one the callback made up. -/
  durability_new : ∀ cause, result = .error (.durabilityUnconfirmed cause) →
    (write []).1 ≠ .error (.durabilityUnconfirmed cause) →
      ∃ state : FileState, state.bytes = (write []).2 ∧
        final.tree outputPath.location = some (.file state)
  /-- No new path remains beside the output, unless the error names its failed removal. -/
  temporary_gone : ∀ location, location ≠ outputPath.location → start.tree location = none →
    final.tree location = none ∨
      ∃ tempPath primaryError cleanupError, tempPath.location = location ∧
        result = .error (removalFailure host tempPath primaryError cleanupError)

theorem Replaced.at_output {before after : Tree} {bytes : List UInt8}
    (h : Replaced before outputPath bytes after) :
    ∃ state : FileState, state.bytes = bytes ∧ after outputPath.location = some (.file state) := by
  obtain ⟨state, hbytes, rfl⟩ := h
  exact ⟨state, hbytes, Function.update_self _ _ _⟩

theorem Replaced.elsewhere {before after : Tree} {bytes : List UInt8} {location : Location}
    (h : Replaced before outputPath bytes after) (hne : location ≠ outputPath.location) :
    after location = before location := by
  obtain ⟨state, -, rfl⟩ := h
  exact Function.update_of_ne hne _ _

theorem HoldsTemporary.elsewhere {location : Location} (h : HoldsTemporary base tempPath tree)
    (hne : location ≠ tempPath.location) : tree location = base location := by
  rcases h with rfl | ⟨state, rfl⟩
  · rfl
  · exact Function.update_of_ne hne _ _

theorem Settled.elsewhere {error : CliError} {location : Location}
    (h : Settled start outputPath write error base done) (hne : location ≠ outputPath.location) :
    base location = start.tree location := by
  rcases h with ⟨rfl, -⟩ | ⟨hreplaced, -⟩
  · rfl
  · exact hreplaced.elsewhere hne

/-- A failed run differs from its tree `base` at most at a temporary path it names. -/
theorem Failed.cases {error : CliError} (h : Failed host start outputPath write error s) :
    ∃ base done, Settled start outputPath write error base done ∧ (∃ tree, At start done tree s) ∧
      s.tree outputPath.location = base outputPath.location ∧
        ∀ location, s.tree location = base location ∨
          (start.tree location = none ∧ ∃ tempPath primaryError cleanupError,
            tempPath.location = location ∧
              error = removalFailure host tempPath primaryError cleanupError) := by
  obtain ⟨base, done, hsettled, hat | ⟨tempPath, primaryError, cleanupError, tree, hfresh, rfl, hholds,
    hat⟩⟩ := h
  · refine ⟨base, done, hsettled, ⟨base, hat⟩, ?_, fun location => .inl ?_⟩
    · rw [hat.tree_eq]
    · rw [hat.tree_eq]
  · refine ⟨base, done, hsettled, ⟨tree, hat⟩, ?_, fun location => ?_⟩
    · rw [hat.tree_eq]
      exact hholds.elsewhere hfresh.ne_output.symm
    · by_cases heq : location = tempPath.location
      · subst heq
        exact .inr ⟨hfresh.absent, tempPath, primaryError, cleanupError, rfl, rfl⟩
      · rw [hat.tree_eq]
        exact .inl (hholds.elsewhere heq)

/-- Inputs are safe in a tree that keeps everything but the output. -/
theorem inputs_unchanged_of_keeps {after : Tree}
    (hkeeps : Tree.KeepsExcept outputPath.location start.tree after)
    (hclear : Clear start.tree outputPath inputs ∨ after = start.tree) :
    ∀ input ∈ inputs, start.tree.readThrough input.location ≠ none →
      after input.location = start.tree input.location ∧
        after.readThrough input.location = start.tree.readThrough input.location := by
  intro input hinput hread
  rcases hclear with hclear | rfl
  · have hthrough := Tree.readThrough_of_keepsExcept hkeeps hclear.not_symlink hread
      (hclear.not_input input hinput)
    refine ⟨?_, hthrough⟩
    have hentry : start.tree input.location ≠ none := by
      intro hnone
      apply hread
      simp [Tree.readThrough, Tree.resolve, Tree.follow, hnone]
    apply hkeeps input.location _ hentry
    -- an input at the output itself would lead to it
    intro heq
    apply hclear.not_input input hinput
    cases houtput : start.tree outputPath.location with
    | none => exact absurd (heq ▸ houtput) hentry
    | some entry =>
      cases entry with
      | symlink target => exact absurd houtput (hclear.not_symlink target)
      | file state => simp [Tree.resolve, Tree.follow, heq, houtput]
      | directory => simp [Tree.resolve, Tree.follow, heq, houtput]
      | special => simp [Tree.resolve, Tree.follow, heq, houtput]
  · exact ⟨rfl, rfl⟩

theorem Settled.at_output {error : CliError}
    (h : Settled start outputPath write error base done) :
    base outputPath.location = start.tree outputPath.location ∨
      ∃ state : FileState, state.bytes = (write []).2 ∧
        base outputPath.location = some (.file state) := by
  rcases h with ⟨rfl, -⟩ | ⟨hreplaced, -⟩
  · exact .inl rfl
  · exact .inr hreplaced.at_output

/-- A failure that is the same whatever was written leaves the output as it was. -/
theorem Failed.output_unchanged {error : CliError} {result : Except CliError PUnit}
    (h : ∀ bytes, Failed host start outputPath (fun _ => (result, bytes)) error s) :
    s.tree outputPath.location = start.tree outputPath.location := by
  have hold : ∀ bytes : List UInt8, s.tree outputPath.location = start.tree outputPath.location ∨
      ∃ state : FileState, state.bytes = bytes ∧
        s.tree outputPath.location = some (.file state) := by
    intro bytes
    obtain ⟨base, done, hsettled, -, houtput, -⟩ := (h bytes).cases
    rw [houtput]
    exact hsettled.at_output
  -- two files of different bytes cannot both be there
  rcases hold [] with heq | ⟨state, hbytes, hfile⟩
  · exact heq
  · rcases hold [0] with heq | ⟨state', hbytes', hfile'⟩
    · exact heq
    · rw [hfile] at hfile'
      cases hfile'
      rw [hbytes] at hbytes'
      cases hbytes'

theorem Failed.keepsExcept {error : CliError}
    (h : Failed host start outputPath write error s) :
    Tree.KeepsExcept outputPath.location start.tree s.tree := by
  obtain ⟨base, done, hsettled, -, -, hpaths⟩ := h.cases
  intro location hne hsome
  rcases hpaths location with hsame | ⟨hnone, -⟩
  · exact hsame.trans (hsettled.elsewhere hne)
  · exact absurd hnone hsome

/-- The temporary file is there, and the callback returns its error. -/
theorem withFile_fails {error : CliError} (hcallback : (write []).1 = .error error)
    (h : WithTemporary start tempPath [] s) :
    Ensures (withFile tempPath write) s (fun _ _ => False)
      (fun e s' => (write []).1 = .error e ∧ WithTemporary start tempPath (write []).2 s') := by
  have hensures : Ensures (withFile tempPath write) s _ _ := withFile_ensures h
  obtain ⟨state, hbytes, hat⟩ := h
  have hresult : ((withFile tempPath write).run.run s).1 = .error error := by
    change (withFile tempPath write s).1 = _
    unfold withFile
    rw [hat.tree_eq, Function.update_self]
    simp only [hbytes]
    exact hcallback
  unfold Ensures at hensures ⊢
  revert hensures hresult
  rcases (withFile tempPath write).run.run s with ⟨e | a, s'⟩
  · exact fun hleft _ => hleft
  · intro _ hresult
    cases hresult

/-- A run whose callback fails fails too, and leaves the output as it was. -/
theorem writeAtomically_callbackFails {readAccess : Bool} {error : CliError}
    (hcallback : (write []).1 = .error error) :
    Ensures (writeAtomically host outputPath inputs readAccess write) start
      (fun _ _ => False)
      (fun _ s' => s'.tree outputPath.location = start.tree outputPath.location) := by
  apply ensures_bind
  refine (checkOutputCollision_ensures (At.refl start)).mono ?_ ?_
  · rintro _ s₁ ⟨hat, -⟩
    apply ensures_bind
    have hcreate : ∀ bytes : List UInt8, Ensures (createAtomicOutput host outputPath readAccess) s₁
        (fun tempPath s' => Fresh start outputPath tempPath ∧ WithTemporary start tempPath [] s')
        (fun e s' => Failed host start outputPath (fun _ => ((write []).1, bytes)) e s') :=
      fun bytes => createAtomicOutput_ensures _ hat
    refine (ensures_forall hcreate).mono ?_ (fun _ _ hfailed => Failed.output_unchanged hfailed)
    rintro tempPath s₂ ⟨hfresh, h₂⟩
    apply ensures_onError
    apply ensures_bind
    refine (withFile_fails hcallback h₂).mono ?_ ?_
    · exact fun _ _ hfalse => hfalse.elim
    · rintro e s₃ ⟨he, h₃⟩
      have hfailed : ∀ bytes : List UInt8, Failed host start outputPath
          (fun _ => ((write []).1, bytes)) ((cleanupAtomicOutput host tempPath e).run s₃).1
          ((cleanupAtomicOutput host tempPath e).run s₃).2 := by
        intro bytes
        refine Stopped.cleanup hfresh (h₃.stopped ?_)
        intro cause heq
        rw [← heq]
        exact he
      exact Failed.output_unchanged hfailed
  · rintro e s₁ ⟨-, hat⟩
    rw [hat.tree_eq]

/-! ## A run -/

/-- A host whose `same-file` compares where the paths lead. -/
def Host.following (processId : Nat) (kindText : IoErrorKind → String) : Host where
  processId
  kindText
  sameFile := fun tree path other =>
    match tree.resolve path.location, tree.resolve other.location with
    | some location, some location' => .ok (location = location')
    | _, _ => .error notFoundError
  sameFile_of_resolve := by
    intro tree path other location state hpath hother _
    simp [hpath, hother]

/-- The directory cannot be synced after the rename: the new bytes are there. -/
example :
    let output : Path := ⟨[.normal "out"]⟩
    let input : Path := ⟨[.normal "in"]⟩
    let old : FileState := { bytes := [1], permissions := 420, acl := none }
    let start : Disk := {
      tree := fun location =>
        if location = output.location ∨ location = input.location then some (.file old) else none
      faults := fun n =>
        if n = 14 then some ⟨ioError (.os 5) "Input/output error (os error 5)", false, by decide⟩
        else none
      log := []
      newPermissions := 384
      newAcl := none }
    let run := (writeAtomically (.following 7 fun _ => "") output [input] false
      fun bytes => (.ok ⟨⟩, bytes ++ [2, 3])).run.run start
    (match run.1 with
      | .error (.durabilityUnconfirmed _) => true
      | _ => false) = true ∧
      run.2.tree output.location = some (.file { old with bytes := [2, 3] }) ∧
        run.2.tree input.location = some (.file old) := by
  decide +kernel

end Qzt
