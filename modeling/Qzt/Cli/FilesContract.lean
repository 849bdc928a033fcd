import Qzt.Cli.Files
import Qzt.Cli.OutputContract

/-!
# Files that are read and written

Reading changes nothing, and a reader over a file answers what the bytes of the file answer.  A
container is at the output whole, or the output is as it was.
-/

namespace Qzt

open Foundation Disk

variable {host : Host} {env : Env} {special : Path → Except IoError (List UInt8)}
  {reads : FileReads} {start s : Disk} {done : List Step} {tree : Tree} {path : Path}

/-! ## Results -/

theorem mapError_eq_ok_iff {ε ε' α : Type} {x : Except ε α} {f : ε → ε'} {a : α} :
    x.mapError f = .ok a ↔ x = .ok a := by
  cases x <;> simp [Except.mapError]

theorem ensures_liftQzt {α : Type} {result : Result α} {post : α → Disk → Prop}
    {fail : CliError → Disk → Prop} (hok : ∀ a, result = .ok a → post a s)
    (herror : ∀ e, result = .error e → fail (.qzt e) s) :
    Ensures (liftQzt result) s post fail := by
  cases result with
  | ok a => exact hok a rfl
  | error e => exact herror e rfl

/-! ## Reading -/

theorem readFile_ensures (h : At start done tree s) :
    Ensures (readFile special path) s
      (fun bytes s' => readTree special tree path = .ok bytes ∧ At start done tree s')
      (fun _ s' => At start done tree s') := by
  apply ensures_look
  · intro bytes tree' heq
    obtain ⟨_, -, hread⟩ := bind_eq_ok_iff.mp heq
    cases hread
    rfl
  · intro bytes heq
    obtain ⟨_, hread, hbytes⟩ := bind_eq_ok_iff.mp heq
    cases hbytes
    refine ⟨?_, h.after_same _⟩
    rw [← h.tree_eq]
    exact hread
  · exact fun _ _ => h.after_same _

theorem ensures_openFile (h : At start done tree s) :
    Ensures (openFile path) s (fun _ s' => At start done tree s') (fun _ s' => At start done tree s') := by
  apply ensures_look
  · intro _ tree' heq
    split at heq
    · cases heq
      rfl
    · cases heq
  · exact fun _ _ => h.after_same _
  · exact fun _ _ => h.after_same _

/-- Whatever the reader answers, a reader over these bytes in memory answers too. -/
def ReadsFile (env : Env) (fileReader : QztFileReader) (bytes : List UInt8) : Prop :=
  ∃ reader, QztReader.openWithLimits env bytes .default = .ok reader ∧
    fileReader.details = reader.details ∧ ReadsWithin env fileReader reader

theorem readsFile_of_openBytes {bytes : List UInt8} {fileReader : QztFileReader}
    (h : openBytes env reads bytes = .ok fileReader) : ReadsFile env fileReader bytes := by
  unfold openBytes at h
  split at h
  case isTrue hlength =>
    have hbytes := reads.positioned_bytes bytes hlength
    have hopen : QztFileReader.openReadAtWithLimits env
        ((reads.positioned bytes hlength).source reads.schedule)
        (reads.positioned bytes hlength).bytes.length .default = .ok fileReader := by
      rw [hbytes]
      exact h
    have hwithin := (reads.positioned bytes hlength).opens_within hopen
    rw [hbytes] at hwithin
    exact hwithin
  case isFalse => cases h

theorem openPath_ensures (h : At start done tree s) :
    Ensures (openPath env reads path) s
      (fun fileReader s' => At start done tree s' ∧ ∃ bytes,
        (tree.readThrough path.location).bind positionedBytes = some bytes ∧
          ReadsFile env fileReader bytes)
      (fun _ s' => At start done tree s') := by
  apply ensures_bind
  apply ensures_onError
  refine (ensures_openFile h).mono ?_ (fun _ _ hat => hat)
  intro _ s₁ hat
  apply ensures_bind
  apply ensures_get
  apply ensures_bind
  apply ensures_liftQzt
  · intro bytes hbytes
    rw [okOr_eq_ok_iff, hat.tree_eq] at hbytes
    apply ensures_liftQzt
    · exact fun fileReader hopen => ⟨hat, bytes, hbytes, readsFile_of_openBytes hopen⟩
    · exact fun _ _ => hat
  · exact fun _ _ => hat

/-! ## Writing -/

/-- What a run leaves that writes one output: the output is as it was or as `made` says, and it is
as `made` says if the run has succeeded.  Nothing else changes. -/
structure OutputRun (special : Path → Except IoError (List UInt8)) (outputPath : Path)
    (inputs : List Path) (made : Tree → Prop) (before : Tree) (succeeded : Prop) (after : Tree) :
    Prop where
  inputs_unchanged : ∀ input ∈ inputs, ∀ bytes, readTree special before input = .ok bytes →
    readTree special after input = .ok bytes
  others_unchanged : Tree.KeepsExcept outputPath.location before after
  old_or_made : after outputPath.location = before outputPath.location ∨ made after
  made_of_succeeded : succeeded → made after

section Runs

variable {outputPath : Path} {inputs : List Path} {made made' : Tree → Prop} {before after : Tree}
  {succeeded : Prop}

theorem OutputRun.mono (h : OutputRun special outputPath inputs made before succeeded after)
    (hmade : made after → made' after) :
    OutputRun special outputPath inputs made' before succeeded after :=
  ⟨h.inputs_unchanged, h.others_unchanged, h.old_or_made.imp_right hmade,
    fun hsucceeded => hmade (h.made_of_succeeded hsucceeded)⟩

theorem OutputRun.weaken {succeeded' : Prop}
    (h : OutputRun special outputPath inputs made before succeeded after)
    (hsucceeded : succeeded' → succeeded) :
    OutputRun special outputPath inputs made before succeeded' after :=
  ⟨h.inputs_unchanged, h.others_unchanged, h.old_or_made,
    fun hmade => h.made_of_succeeded (hsucceeded hmade)⟩

/-- A run that did not come to write anything. -/
theorem OutputRun.unstarted (h : At start done before s) :
    OutputRun special outputPath inputs made before False s.tree := by
  rw [h.tree_eq]
  exact ⟨fun _ _ _ hread => hread, fun _ _ _ => rfl, .inl rfl, False.elim⟩

theorem readTree_unchanged
    (hkeeps : Tree.KeepsExcept outputPath.location start.tree after)
    (hclear : Clear start.tree outputPath inputs ∨ after = start.tree) :
    ∀ input ∈ inputs, ∀ bytes, readTree special start.tree input = .ok bytes →
      readTree special after input = .ok bytes := by
  intro input hinput bytes hread
  have hsome : start.tree.readThrough input.location ≠ none := by
    intro hnone
    rw [readTree, hnone] at hread
    cases hread
  obtain ⟨-, hthrough⟩ := inputs_unchanged_of_keeps hkeeps hclear input hinput hsome
  rw [readTree, hthrough]
  exact hread

/-- The output has what a callback has written that returned. -/
def WrittenBy (write : WriteCallback) (outputPath : Path) (after : Tree) : Prop :=
  (write []).1 = .ok ⟨⟩ ∧ ∃ state : FileState, state.bytes = (write []).2 ∧
    after outputPath.location = some (.file state)

variable (special) in
theorem writeAtomically_run {readAccess : Bool} {write : WriteCallback} :
    Ensures (writeAtomically host outputPath inputs readAccess write) start
      (fun _ s' => OutputRun special outputPath inputs (WrittenBy write outputPath) start.tree True
        s'.tree)
      (fun _ s' => OutputRun special outputPath inputs (WrittenBy write outputPath) start.tree False
        s'.tree) := by
  have hensures := writeAtomically_ensures host outputPath inputs readAccess write start
  cases hcallback : (write []).1 with
  | ok u =>
    refine hensures.mono ?_ ?_
    · rintro _ s' ⟨hclear, after, hreplaced, hat⟩
      rw [hat.tree_eq]
      have hkeeps : Tree.KeepsExcept outputPath.location start.tree after :=
        fun location hne _ => hreplaced.elsewhere hne
      have hwritten : WrittenBy write outputPath after := ⟨hcallback, hreplaced.at_output⟩
      exact ⟨readTree_unchanged hkeeps (.inl hclear), hkeeps, .inr hwritten, fun _ => hwritten⟩
    · rintro error s' ⟨hclear, hfailed⟩
      have hkeeps := hfailed.keepsExcept
      refine ⟨readTree_unchanged hkeeps hclear, hkeeps, ?_, False.elim⟩
      obtain ⟨base, done, hsettled, -, houtput, -⟩ := hfailed.cases
      rw [houtput]
      refine hsettled.at_output.imp_right ?_
      rintro ⟨state, hbytes, hfile⟩
      exact ⟨hcallback, state, hbytes, houtput.trans hfile⟩
  | error error =>
    refine (hensures.and (writeAtomically_callbackFails hcallback)).mono ?_ ?_
    · exact fun _ _ hfalse => hfalse.2.elim
    · rintro error s' ⟨⟨hclear, hfailed⟩, hsame⟩
      have hkeeps := hfailed.keepsExcept
      exact ⟨readTree_unchanged hkeeps hclear, hkeeps, .inl hsame, False.elim⟩

/-- The output has these bytes. -/
def HasBytes (outputPath : Path) (bytes : List UInt8) (after : Tree) : Prop :=
  ∃ state : FileState, state.bytes = bytes ∧ after outputPath.location = some (.file state)

variable (special) in
/-- Nothing is left of a container that could not be written whole. -/
theorem writeContainerAtomically_run {container : List UInt8}
    (fault : Option (WriteFault IoError)) :
    Ensures (writeContainerAtomically host outputPath inputs container fault) start
      (fun _ s' => OutputRun special outputPath inputs (HasBytes outputPath container) start.tree
        True s'.tree)
      (fun _ s' => OutputRun special outputPath inputs (HasBytes outputPath container) start.tree
        False s'.tree) := by
  have hwritten : ∀ after, WrittenBy (writeAll container fault) outputPath after →
      HasBytes outputPath container after := by
    rintro after ⟨hok, hstate⟩
    cases fault with
    | none => exact hstate
    | some fault => cases hok
  refine (writeAtomically_run special).mono ?_ ?_
  · exact fun _ s' hrun => hrun.mono (hwritten s'.tree)
  · exact fun _ s' hrun => hrun.mono (hwritten s'.tree)

end Runs

/-! ## A disk -/

/-- Every read returns one byte. -/
def FileReads.trickling : FileReads where
  streamed := fun bytes => {
    pieces := bytes.map fun byte => [byte]
    failure := none
    inOrder := by
      rw [← List.flatMap_def, List.flatMap_singleton']
    short := by
      intro piece hpiece
      obtain ⟨byte, -, rfl⟩ := List.mem_map.mp hpiece
      exact ⟨List.cons_ne_nil _ _, by simp⟩
    whole := by
      intro _
      rw [← List.flatMap_def, List.flatMap_singleton'] }
  positioned := PositionedFile.trickle
  positioned_bytes := fun _ _ => rfl
  schedule := fun _ _ => 0
  special := fun _ => .error notFoundError
  kindOf := fun _ => .other 0

/-- A tree with two files. -/
def sampleTree : Tree := fun location =>
  if location = [.normal "a.txt"] then
    some (.file { bytes := [0x61, 0x0a], permissions := 420, acl := none })
  else if location = [.normal "d", .normal "b.txt"] then
    some (.file { bytes := [0xc3, 0xa9], permissions := 420, acl := none })
  else none

/-- A disk on which no step fails. -/
def sampleDisk : Disk where
  tree := sampleTree
  faults := fun _ => none
  log := []
  newPermissions := 384
  newAcl := none

end Qzt
