import Mathlib.Logic.Function.Basic
import Qzt.Foundation.Programs

/-!
# A file system whose steps may fail

Paths, the entries of a directory tree, and the steps a program takes on them.  The tree
is a map from locations to entries.  A failure pattern says which steps fail: a step that
fails touches no other path, and may or may not have done its own work.  The kind
`notFound` is never injected: it means that the entry is absent.  The steps issued so far
are kept in order.
-/

namespace Foundation

/-! ## Paths -/

/-- `std::path::Component` on Unix. -/
inductive Component where
  | rootDir
  | curDir
  | parentDir
  | normal (name : String)
  deriving DecidableEq, Repr

/-- A path, by its components. -/
structure Path where
  components : List Component
  deriving DecidableEq, Repr

/-- The place of an entry in the tree: a path without its `.` components. -/
abbrev Location := List Component

/-- The component that a piece between slashes stands for, if any. -/
def Component.ofPiece (piece : String) : Option Component :=
  if piece = "" ∨ piece = "." then none
  else if piece = ".." then some .parentDir
  else some (.normal piece)

namespace Path

/-- `Path::new`, by its components.  A `.` counts at the front only. -/
def ofString (path : String) : Path :=
  match (path.toList.splitOn '/').map String.ofList with
  | [] | [""] => ⟨[]⟩
  | "" :: pieces => ⟨.rootDir :: pieces.filterMap Component.ofPiece⟩
  | "." :: pieces => ⟨.curDir :: pieces.filterMap Component.ofPiece⟩
  | pieces => ⟨pieces.filterMap Component.ofPiece⟩

/-- `Path::file_name`. -/
def fileName (path : Path) : Option String :=
  match path.components.getLast? with
  | some (.normal name) => some name
  | _ => none

/-- `Path::parent`. -/
def parent (path : Path) : Option Path :=
  match path.components.getLast? with
  | none | some .rootDir => none
  | some _ => some ⟨path.components.dropLast⟩

/-- `Path::join` with a file name. -/
def join (path : Path) (name : String) : Path :=
  ⟨path.components ++ [.normal name]⟩

/-- `Path::display`. -/
def display (path : Path) : String :=
  match path.components with
  | [.rootDir] => "/"
  | components => "/".intercalate (components.map fun
      | .rootDir => ""
      | .curDir => "."
      | .parentDir => ".."
      | .normal name => name)

def location (path : Path) : Location :=
  path.components.filter (· ≠ .curDir)

theorem location_join (path : Path) (name : String) :
    (path.join name).location = path.location ++ [.normal name] := by
  simp [join, location]

theorem location_of_fileName {path : Path} {name : String} (h : path.fileName = some name) :
    ∃ front : Location, path.location = front ++ [.normal name] := by
  unfold fileName at h
  split at h
  case h_1 last hlast =>
    cases h
    obtain ⟨front, hfront⟩ := List.getLast?_eq_some_iff.mp hlast
    exact ⟨front.filter (· ≠ .curDir), by simp [location, hfront]⟩
  case h_2 => cases h

/-- A sibling under another name is another entry. -/
theorem location_join_ne {path parent : Path} {name other : String}
    (h : path.fileName = some name) (hne : other ≠ name) :
    (parent.join other).location ≠ path.location := by
  obtain ⟨front, hfront⟩ := location_of_fileName h
  rw [location_join, hfront]
  intro heq
  have hlast := (List.append_inj' heq rfl).2
  simp only [List.cons.injEq, Component.normal.injEq, and_true] at hlast
  exact hne hlast

end Path

/-! ## Entries -/

/-- A regular file: its bytes, its permission bits and its access control list. -/
structure FileState where
  bytes : List UInt8
  permissions : Nat
  acl : Option (List UInt8)
  deriving DecidableEq, Repr

/-- What a location holds. -/
inductive Entry where
  | file (state : FileState)
  | symlink (target : Location)
  | directory
  | special
  deriving DecidableEq, Repr

def Entry.isFile : Entry → Bool
  | .file _ => true
  | _ => false

def Entry.isSymlink : Entry → Bool
  | .symlink _ => true
  | _ => false

/-- The tree: what each location holds, if anything. -/
abbrev Tree := Location → Option Entry

/-- Follow symbolic links, at most `fuel` of them, to an entry that is none. -/
def Tree.follow (tree : Tree) : Nat → Location → Option Location
  | 0, _ => none
  | fuel + 1, location =>
    match tree location with
    | none => none
    | some (.symlink target) => tree.follow fuel target
    | some _ => some location

/-- The entry a path leads to.  The kernel gives up after 40 links. -/
def Tree.resolve (tree : Tree) (location : Location) : Option Location :=
  tree.follow 41 location

/-- What is read through a path. -/
def Tree.readThrough (tree : Tree) (location : Location) : Option Entry :=
  (tree.resolve location).bind tree

/-- The tree `after` differs from `before` at most at `location` and where `before` has
nothing. -/
def Tree.KeepsExcept (location : Location) (before after : Tree) : Prop :=
  ∀ other, other ≠ location → before other ≠ none → after other = before other

/-- A chain of links that ends elsewhere is not redirected. -/
theorem Tree.follow_of_keepsExcept {before after : Tree} {changed : Location}
    (hkeeps : Tree.KeepsExcept changed before after)
    (hlink : ∀ target, before changed ≠ some (.symlink target)) (fuel : Nat) :
    ∀ {location final : Location}, before.follow fuel location = some final → final ≠ changed →
      after.follow fuel location = some final ∧ after final = before final := by
  induction fuel with
  | zero =>
    intro location final h
    cases h
  | succ fuel ih =>
    intro location final h hne
    unfold Tree.follow at h ⊢
    split at h
    case h_1 => cases h
    case h_2 target htarget =>
      -- a link is not the changed entry, so it still points to the same place
      have hlocation : location ≠ changed := by
        rintro rfl
        exact hlink target htarget
      rw [hkeeps location hlocation (by simp [htarget]), htarget]
      exact ih h hne
    case h_3 entry hother hentry =>
      cases h
      have hsame := hkeeps location hne (by simp [hentry])
      rw [hsame, hentry]
      refine ⟨?_, rfl⟩
      split
      case h_1 heq => cases heq
      case h_2 target heq =>
        cases heq
        exact absurd rfl (hother target)
      case h_3 => rfl

theorem Tree.follow_isSome {tree : Tree} (fuel : Nat) :
    ∀ {location final : Location}, tree.follow fuel location = some final → tree final ≠ none := by
  induction fuel with
  | zero =>
    intro location final h
    cases h
  | succ fuel ih =>
    intro location final h
    unfold Tree.follow at h
    split at h
    case h_1 => cases h
    case h_2 => exact ih h
    case h_3 hentry =>
      cases h
      simp [hentry]

/-- What is read through a path stays when the path leads elsewhere. -/
theorem Tree.readThrough_of_keepsExcept {before after : Tree} {changed location : Location}
    (hkeeps : Tree.KeepsExcept changed before after)
    (hlink : ∀ target, before changed ≠ some (.symlink target))
    (hsome : before.readThrough location ≠ none) (hne : before.resolve location ≠ some changed) :
    after.readThrough location = before.readThrough location := by
  unfold Tree.readThrough at hsome ⊢
  cases hresolve : before.resolve location with
  | none => simp [hresolve] at hsome
  | some final =>
    have hfinal : final ≠ changed := by
      rintro rfl
      exact hne hresolve
    obtain ⟨hafter, hentry⟩ := Tree.follow_of_keepsExcept hkeeps hlink 41 hresolve hfinal
    have hafter : after.resolve location = some final := hafter
    simp [hafter, hentry]

/-! ## Steps -/

/-- The kinds of `std::io::Error` told apart. -/
inductive ErrorKind where
  | notFound
  | alreadyExists
  | invalidInput
  | isADirectory
  | other
  | os (code : Nat)
  deriving DecidableEq, Repr

/-- `std::io::Error`. -/
structure IoError where
  kind : ErrorKind
  rawOsError : Option Nat
  message : String
  deriving DecidableEq, Repr

/-- An injected failure.  `applied` says whether the step did its work all the same. -/
structure Fault where
  error : IoError
  applied : Bool
  kind_ne_notFound : error.kind ≠ .notFound

/-- The steps a program issues. -/
inductive Step where
  | symlinkMetadata (path : Path)
  | isSameFile (path other : Path)
  | createNew (path : Path) (read : Bool)
  | setPermissions (path : Path)
  | openFile (path : Path)
  | aclLength (path : Path)
  | readAcl (path : Path)
  | removeAcl (path : Path)
  | setAcl (path : Path)
  | flush (path : Path)
  | syncAll (path : Path)
  | rename (path target : Path)
  | removeFile (path : Path)
  deriving DecidableEq, Repr

/-- The tree, the failure pattern by step number, and the steps issued so far.  A new file
gets `newPermissions` and `newAcl`. -/
structure Disk where
  tree : Tree
  faults : Nat → Option Fault
  log : List Step
  newPermissions : Nat
  newAcl : Option (List UInt8)

abbrev DiskM := ExceptT IoError (StateM Disk)

namespace Disk

/-- The disk after one more step. -/
def after (s : Disk) (label : Step) (tree : Tree) : Disk :=
  { s with tree, log := s.log ++ [label] }

@[simp] theorem after_tree (s : Disk) (label : Step) (tree : Tree) :
    (s.after label tree).tree = tree := rfl

@[simp] theorem after_log (s : Disk) (label : Step) (tree : Tree) :
    (s.after label tree).log = s.log ++ [label] := rfl

/-- A step: it does its work, or fails by itself, or fails as the pattern says.  With
`mayApply` an injected failure may come after the work was done. -/
def step {α : Type} (label : Step) (mayApply : Bool) (effect : Tree → Except IoError (α × Tree)) :
    DiskM α := fun s =>
  match s.faults s.log.length, effect s.tree with
  | none, .ok (a, tree) => (.ok a, s.after label tree)
  | none, .error e => (.error e, s.after label s.tree)
  | some fault, .ok (_, tree) =>
    (.error fault.error, s.after label (if mayApply && fault.applied then tree else s.tree))
  | some fault, .error _ => (.error fault.error, s.after label s.tree)

/-- The rule for a step.  An injected failure leaves the tree before or after the work. -/
theorem ensures_step {α : Type} {label : Step} {mayApply : Bool}
    {effect : Tree → Except IoError (α × Tree)} {s : Disk} {post : α → Disk → Prop}
    {fail : IoError → Disk → Prop}
    (hok : ∀ a tree, effect s.tree = .ok (a, tree) → post a (s.after label tree))
    (herror : ∀ e, effect s.tree = .error e → fail e (s.after label s.tree))
    (hfault : ∀ e, e.kind ≠ .notFound → fail e (s.after label s.tree))
    (happlied : ∀ e a tree, mayApply = true → effect s.tree = .ok (a, tree) → e.kind ≠ .notFound →
      fail e (s.after label tree)) :
    Ensures (step label mayApply effect) s post fail := by
  have hrun : (step label mayApply effect).run.run s =
      match s.faults s.log.length, effect s.tree with
      | none, .ok (a, tree) => (.ok a, s.after label tree)
      | none, .error e => (.error e, s.after label s.tree)
      | some fault, .ok (_, tree) =>
        (.error fault.error, s.after label (if mayApply && fault.applied then tree else s.tree))
      | some fault, .error _ => (.error fault.error, s.after label s.tree) := rfl
  unfold Ensures
  rw [hrun]
  cases hfaults : s.faults s.log.length with
  | none =>
    cases heffect : effect s.tree with
    | ok result => exact hok result.1 result.2 heffect
    | error e => exact herror e heffect
  | some fault =>
    cases heffect : effect s.tree with
    | error e => exact hfault _ fault.kind_ne_notFound
    | ok result =>
      obtain ⟨a, tree⟩ := result
      change fail fault.error
        (s.after label (if (mayApply && fault.applied) = true then tree else s.tree))
      split
      case isTrue happly =>
        have hmay : mayApply = true := (Bool.and_eq_true_iff.mp happly).1
        exact happlied _ a tree hmay heffect fault.kind_ne_notFound
      case isFalse => exact hfault _ fault.kind_ne_notFound

/-- The rule for a step that changes nothing. -/
theorem ensures_look {α : Type} {label : Step} {mayApply : Bool}
    {effect : Tree → Except IoError (α × Tree)} {s : Disk} {post : α → Disk → Prop}
    {fail : IoError → Disk → Prop}
    (hlook : ∀ a tree, effect s.tree = .ok (a, tree) → tree = s.tree)
    (hok : ∀ a, effect s.tree = .ok (a, s.tree) → post a (s.after label s.tree))
    (hfail : ∀ e, effect s.tree = .error e ∨ e.kind ≠ .notFound → fail e (s.after label s.tree)) :
    Ensures (step label mayApply effect) s post fail := by
  apply ensures_step
  · intro a tree h
    have htree := hlook a tree h
    subst htree
    exact hok a h
  · exact fun e h => hfail e (.inl h)
  · exact fun e h => hfail e (.inr h)
  · intro e a tree _ h hkind
    rw [hlook a tree h]
    exact hfail e (.inr hkind)

/-- The run that began at `start` has issued the steps `done` and left `tree`. -/
structure At (start : Disk) (done : List Step) (tree : Tree) (s : Disk) : Prop where
  tree_eq : s.tree = tree
  issued : ∃ steps, s.log = start.log ++ steps ∧ done ⊆ steps

variable {start s : Disk} {done : List Step} {tree : Tree}

theorem At.refl (s : Disk) : At s [] s.tree s :=
  ⟨rfl, [], by simp, List.nil_subset []⟩

theorem At.after (h : At start done tree s) (label : Step) (tree' : Tree) :
    At start done tree' (s.after label tree') := by
  obtain ⟨steps, hlog, hdone⟩ := h.issued
  refine ⟨rfl, steps ++ [label], by simp [hlog], ?_⟩
  exact List.Subset.trans hdone (List.subset_append_left steps [label])

theorem At.after_self (h : At start done tree s) (label : Step) (tree' : Tree) :
    At start [label] tree' (s.after label tree') := by
  obtain ⟨steps, hlog, -⟩ := h.issued
  refine ⟨rfl, steps ++ [label], by simp [hlog], ?_⟩
  exact List.subset_append_right steps [label]

theorem At.mem_drop (h : At start done tree s) {label : Step} (hmem : label ∈ done) :
    label ∈ s.log.drop start.log.length := by
  obtain ⟨steps, hlog, hdone⟩ := h.issued
  rw [hlog, List.drop_left]
  exact hdone hmem

/-- A failed step left the tree as it was. -/
theorem At.after_same (h : At start done tree s) (label : Step) :
    At start done tree (s.after label s.tree) := by
  have hafter := h.after label s.tree
  rw [h.tree_eq] at hafter ⊢
  exact hafter

end Disk

/-! ## The operations -/

def notFoundError : IoError :=
  { kind := .notFound, rawOsError := some 2, message := "No such file or directory (os error 2)" }

def alreadyExistsError : IoError :=
  { kind := .alreadyExists, rawOsError := some 17, message := "File exists (os error 17)" }

def isADirectoryError : IoError :=
  { kind := .isADirectory, rawOsError := some 21, message := "Is a directory (os error 21)" }

/-- `ENODATA` and `ENOTSUP` on Linux. -/
def enodata : Nat := 61
def enotsup : Nat := 95

def noDataError : IoError :=
  { kind := .os enodata, rawOsError := some enodata, message := "No data available (os error 61)" }

/-- `std::fs::symlink_metadata`. -/
def symlinkMetadata (path : Path) : DiskM Entry :=
  Disk.step (.symlinkMetadata path) true fun tree =>
    match tree path.location with
    | some entry => .ok (entry, tree)
    | none => .error notFoundError

/-- `OpenOptions::create_new(true).open`.  A file that could not be opened was not created. -/
def createNew (path : Path) (read : Bool) : DiskM PUnit := do
  let s ← get
  Disk.step (.createNew path read) false fun tree =>
    match tree path.location with
    | some _ => .error alreadyExistsError
    | none =>
      .ok (⟨⟩, Function.update tree path.location
        (some (.file { bytes := [], permissions := s.newPermissions, acl := s.newAcl })))

/-- The tree with a change to one of its files. -/
def Tree.changeFile (tree : Tree) (location : Location)
    (change : FileState → Except IoError FileState) : Except IoError (PUnit × Tree) :=
  match tree location with
  | some (.file state) => do
    .ok (⟨⟩, Function.update tree location (some (.file (← change state))))
  | _ => .error notFoundError

/-- An operation on an open file. -/
def onFile (label : Step) (path : Path) (change : FileState → Except IoError FileState) : DiskM PUnit :=
  Disk.step label true fun tree => tree.changeFile path.location change

/-- `File::set_permissions`. -/
def setPermissions (path : Path) (permissions : Nat) : DiskM PUnit :=
  onFile (.setPermissions path) path fun state => .ok { state with permissions }

/-- `fremovexattr` of the access control list. -/
def removeAcl (path : Path) : DiskM PUnit :=
  onFile (.removeAcl path) path fun state =>
    if state.acl.isNone then .error noDataError else .ok { state with acl := none }

/-- `fsetxattr` of the access control list. -/
def setAcl (path : Path) (acl : List UInt8) : DiskM PUnit :=
  onFile (.setAcl path) path fun state => .ok { state with acl := some acl }

/-- `File::flush` and `File::sync_all`. -/
def flush (path : Path) : DiskM PUnit :=
  onFile (.flush path) path .ok

def syncAll (path : Path) : DiskM PUnit :=
  onFile (.syncAll path) path .ok

/-- `File::open` of a file that is read. -/
def openFile (path : Path) : DiskM PUnit :=
  Disk.step (.openFile path) true fun tree =>
    match tree.readThrough path.location with
    | some _ => .ok (⟨⟩, tree)
    | none => .error notFoundError

/-- `File::open` and `File::sync_all` of a directory that holds the entries. -/
def openDirectory (path : Path) : DiskM PUnit :=
  Disk.step (.openFile path) true fun tree => .ok (⟨⟩, tree)

def syncDirectory (path : Path) : DiskM PUnit :=
  Disk.step (.syncAll path) true fun tree => .ok (⟨⟩, tree)

/-- `fgetxattr` of the access control list. -/
def getAcl (label : Step) (path : Path) : DiskM (List UInt8) :=
  Disk.step label true fun tree =>
    match tree.readThrough path.location with
    | some (.file { acl := some acl, .. }) => .ok (acl, tree)
    | _ => .error noDataError

/-- `std::fs::rename`: all or nothing. -/
def rename (path target : Path) : DiskM PUnit :=
  Disk.step (.rename path target) true fun tree =>
    match tree path.location, tree target.location with
    | none, _ => .error notFoundError
    | some _, some .directory => .error isADirectoryError
    | some entry, _ =>
      .ok (⟨⟩, Function.update (Function.update tree path.location none) target.location (some entry))

/-- `std::fs::remove_file`. -/
def removeFile (path : Path) : DiskM PUnit :=
  Disk.step (.removeFile path) true fun tree =>
    match tree path.location with
    | none => .error notFoundError
    | some .directory => .error isADirectoryError
    | some _ => .ok (⟨⟩, Function.update tree path.location none)

/-- Hand the open file to a callback.  What it leaves in the file and what it returns are its
own; it has no other path. -/
def withFile {ε : Type} (path : Path) (write : List UInt8 → Except ε PUnit × List UInt8) :
    ExceptT ε (StateM Disk) PUnit := fun s =>
  match s.tree path.location with
  | some (.file state) =>
    ((write state.bytes).1,
      { s with
        tree := Function.update s.tree path.location
          (some (.file { state with bytes := (write state.bytes).2 })) })
  | _ => ((write []).1, s)

/-! ## Rules for the operations -/

section Rules

open Disk

variable {start s : Disk} {done : List Step} {tree base : Tree} {path target : Path}

/-- An operation on a file leaves a file of the same bytes there, also when it fails. -/
theorem ensures_onFile {label : Step} {change : FileState → Except IoError FileState}
    {state : FileState} (h : At start done (Function.update base path.location (some (.file state))) s)
    (hchange : ∀ state', change state = .ok state' → state'.bytes = state.bytes) :
    Ensures (onFile label path change) s
      (fun _ s' => ∃ state' : FileState, state'.bytes = state.bytes ∧
        At start done (Function.update base path.location (some (.file state'))) s')
      (fun _ s' => ∃ state' : FileState, state'.bytes = state.bytes ∧
        At start done (Function.update base path.location (some (.file state'))) s') := by
  have heffect : ∀ a tree, s.tree.changeFile path.location change = .ok (a, tree) →
      ∃ state' : FileState, state'.bytes = state.bytes ∧
        tree = Function.update base path.location (some (.file state')) := by
    intro a tree heq
    unfold Tree.changeFile at heq
    rw [h.tree_eq, Function.update_self] at heq
    simp only [bind_eq_ok_iff, Except.ok.injEq, Prod.mk.injEq] at heq
    obtain ⟨state', hstate, -, rfl⟩ := heq
    refine ⟨state', hchange state' hstate, ?_⟩
    rw [Function.update_idem]
  apply ensures_step
  · intro a tree heq
    obtain ⟨state', hstate, rfl⟩ := heffect a tree heq
    exact ⟨state', hstate, h.after label _⟩
  · exact fun _ _ => ⟨state, rfl, h.after_same label⟩
  · exact fun _ _ => ⟨state, rfl, h.after_same label⟩
  · intro e a tree _ heq _
    obtain ⟨state', hstate, rfl⟩ := heffect a tree heq
    exact ⟨state', hstate, h.after label _⟩

/-- A look at a path finds its entry, or the path is absent. -/
theorem ensures_symlinkMetadata (h : At start done tree s) :
    Ensures (symlinkMetadata path) s
      (fun entry s' => tree path.location = some entry ∧ At start done tree s')
      (fun e s' => (e.kind = .notFound → tree path.location = none) ∧ At start done tree s') := by
  apply ensures_look
  · intro a tree' heq
    split at heq
    · cases heq
      rfl
    · cases heq
  · intro entry heq
    refine ⟨?_, h.after_same _⟩
    rw [← h.tree_eq]
    split at heq
    case h_1 hentry =>
      cases heq
      exact hentry
    case h_2 => cases heq
  · intro e he
    refine ⟨fun hkind => ?_, h.after_same _⟩
    rcases he with heq | hne
    · rw [← h.tree_eq]
      split at heq
      case h_1 => cases heq
      case h_2 hentry => exact hentry
    · exact absurd hkind hne

/-- A new file is created only where nothing was. -/
theorem ensures_createNew {read : Bool} (h : At start done tree s) :
    Ensures (createNew path read) s
      (fun _ s' => tree path.location = none ∧ ∃ state : FileState, state.bytes = [] ∧
        At start done (Function.update tree path.location (some (.file state))) s')
      (fun _ s' => At start done tree s') := by
  apply ensures_bind
  apply ensures_get
  apply ensures_step
  · intro a tree' heq
    rw [h.tree_eq] at heq
    split at heq
    case h_1 => cases heq
    case h_2 hnone =>
      cases heq
      exact ⟨hnone, _, rfl, h.after _ _⟩
  · exact fun _ _ => h.after_same _
  · exact fun _ _ => h.after_same _
  · intro e a tree' happly
    cases happly

/-- A rename that fails has moved the file or done nothing. -/
theorem ensures_rename {state : FileState}
    (h : At start done (Function.update base path.location (some (.file state))) s)
    (habsent : base path.location = none) :
    Ensures (rename path target) s
      (fun _ s' => At start [.rename path target]
        (Function.update base target.location (some (.file state))) s')
      (fun _ s' =>
        At start [.rename path target] (Function.update base path.location (some (.file state))) s' ∨
          At start [.rename path target] (Function.update base target.location (some (.file state))) s') := by
  have hsame : At start [.rename path target] (Function.update base path.location (some (.file state)))
      (s.after (.rename path target) s.tree) := by
    rw [h.tree_eq]
    exact h.after_self _ _
  have hmoved : ∀ a tree, (match s.tree path.location, s.tree target.location with
      | none, _ => Except.error notFoundError
      | some _, some .directory => .error isADirectoryError
      | some entry, _ => .ok (PUnit.unit, Function.update (Function.update s.tree path.location none)
          target.location (some entry))) = .ok (a, tree) →
      tree = Function.update base target.location (some (.file state)) := by
    intro a tree heq
    rw [h.tree_eq, Function.update_self, Function.update_idem] at heq
    -- without the moved file, nothing is left of it
    have hback : Function.update base path.location none = base := by
      rw [← habsent, Function.update_eq_self]
    rw [hback] at heq
    split at heq
    · cases heq
    · cases heq
    · rename_i entry hentry _
      cases hentry
      cases heq
      rfl
  apply ensures_step
  · intro a tree heq
    rw [hmoved a tree heq]
    exact h.after_self _ _
  · exact fun _ _ => .inl hsame
  · exact fun _ _ => .inl hsame
  · intro e a tree _ heq _
    rw [hmoved a tree heq]
    exact .inr (h.after_self _ _)

/-- A file is removed, or the error is not that it is absent. -/
theorem ensures_removeFile (habsent : base path.location = none)
    (htree : tree = base ∨ ∃ state, tree = Function.update base path.location (some (.file state)))
    (h : At start done tree s) :
    Ensures (removeFile path) s
      (fun _ s' => At start done base s')
      (fun e s' => At start done base s' ∨ (e.kind ≠ .notFound ∧ At start done tree s')) := by
  have hremoved : ∀ a tree', (match s.tree path.location with
      | none => Except.error notFoundError
      | some .directory => .error isADirectoryError
      | some _ => .ok (PUnit.unit, Function.update s.tree path.location none)) = .ok (a, tree') →
      tree' = base := by
    intro a tree' heq
    have hback : Function.update tree path.location none = base := by
      rcases htree with rfl | ⟨state, rfl⟩
      · rw [← habsent, Function.update_eq_self]
      · rw [Function.update_idem, ← habsent, Function.update_eq_self]
    rw [h.tree_eq, hback] at heq
    split at heq
    · cases heq
    · cases heq
    · cases heq
      rfl
  apply ensures_step
  · intro a tree' heq
    rw [hremoved a tree' heq]
    exact h.after _ _
  · intro e heq
    rcases htree with rfl | ⟨state, rfl⟩
    · exact .inl (h.after_same _)
    · rw [h.tree_eq, Function.update_self] at heq
      cases heq
  · exact fun e hkind => .inr ⟨hkind, h.after_same _⟩
  · intro e a tree' _ heq hkind
    rw [hremoved a tree' heq]
    exact .inl (h.after _ _)

end Rules

end Foundation
