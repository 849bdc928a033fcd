import Qzt.Cli.Export
import Qzt.Cli.FilesContract
import Qzt.Cli.PackContract
import Qzt.Cli.PackDocsContract

/-!
# What `export` writes is the content

A file that `export` has written has the whole content of the container.  The standard output
receives a prefix of it, also from a damaged container.  So exporting what was packed gives the
input back.
-/

namespace Qzt

open Foundation Disk

variable {host : Host} {env : Env} {reads : FileReads} {start s : Disk} {done : List Step}
  {tree : Tree}

/-! ## Decoding into a writer -/

/-- The content up to the first chunk that cannot be decoded. -/
def decodedContent (decodeEntry : DecodeEntry) : List ChunkEntry → List UInt8
  | [] => []
  | entry :: entries =>
    match decodeEntry entry with
    | .ok decoded => decoded ++ decodedContent decodeEntry entries
    | .error _ => []

section Decoding

variable {decodeEntry other : DecodeEntry} {entries : List ChunkEntry}

theorem decodedContent_of_collect {parts : List (List UInt8)}
    (h : collect decodeEntry entries = .ok parts) :
    decodedContent decodeEntry entries = parts.flatten := by
  rw [collect_eq_ok_iff] at h
  induction h with
  | nil => rfl
  | cons hpart _ ih => rw [decodedContent, hpart, List.flatten_cons, ih]

/-- A decoder that fails more often decodes a prefix. -/
theorem decodedContent_of_within (h : decodeEntry.Within other) :
    decodedContent decodeEntry entries <+: decodedContent other entries := by
  induction entries with
  | nil => exact List.prefix_refl _
  | cons entry entries ih =>
    unfold decodedContent
    cases hdecoded : decodeEntry entry with
    | error e => exact List.nil_prefix
    | ok decoded =>
      rw [h entry decoded hdecoded]
      exact (List.prefix_append_right_inj _).mpr ih

/-- Whatever the writer does, it accepts a prefix of what is decoded; and all of it, if the export
returns. -/
theorem exportTo_ensures {ε σ : Type} {kindOf : ε → IoErrorKind}
    {writeAll : List UInt8 → ExceptT ε (StateM σ) PUnit} {accepted : σ → List UInt8}
    (hwrite : ∀ bytes s, Ensures (writeAll bytes) s
      (fun _ s' => accepted s' = accepted s ++ bytes)
      (fun _ s' => accepted s' <+: accepted s ++ bytes)) :
    ∀ s, Ensures (exportTo kindOf decodeEntry writeAll entries) s
      (fun _ s' => ∃ parts, collect decodeEntry entries = .ok parts ∧
        accepted s' = accepted s ++ parts.flatten)
      (fun _ s' => accepted s' <+: accepted s ++ decodedContent decodeEntry entries) := by
  induction entries with
  | nil => exact fun s => ensures_pure ⟨[], rfl, by simp⟩
  | cons entry entries ih =>
    intro s
    apply ensures_bind
    apply ensures_lift
    · intro decoded hdecoded
      unfold decodedContent
      rw [hdecoded]
      dsimp only
      rw [← List.append_assoc]
      apply ensures_bind
      apply ensures_onError
      refine (hwrite decoded s).mono ?_ ?_
      · intro _ s₁ hs₁
        rw [← hs₁]
        refine (ih s₁).mono ?_ (fun _ _ h => h)
        rintro _ s₂ ⟨parts, hparts, hs₂⟩
        refine ⟨decoded :: parts, ?_, ?_⟩
        · rw [collect_eq_ok_iff] at hparts ⊢
          exact .cons hdecoded hparts
        · rw [hs₂, hs₁, List.flatten_cons, List.append_assoc]
      · exact fun _ _ hprefix => hprefix.trans (List.prefix_append _ _)
    · exact fun _ _ => List.prefix_append _ _

end Decoding

section Over

variable {kindOf : ErrorKind → IoErrorKind} {reader : QztFileReader}
  {faults : Nat → Option (WriteFault IoError)}

theorem exportBuffered_ensures (s : BufWriter UInt8 bufWriterCapacity) :
    Ensures (exportBuffered env kindOf reader faults) s
      (fun _ s' => s'.buffer = [] ∧
        ∃ parts, collect (reader.decodeEntry env) reader.details.chunkEntries = .ok parts ∧
          s'.accepted = s.accepted ++ parts.flatten)
      (fun _ s' => s'.accepted <+:
        s.accepted ++ decodedContent (reader.decodeEntry env) reader.details.chunkEntries) := by
  have hwrite : ∀ bytes (s : BufWriter UInt8 bufWriterCapacity),
      Ensures (BufWriter.writeAll faults bytes) s
        (fun _ s' => s'.accepted = s.accepted ++ bytes)
        (fun _ s' => s'.accepted <+: s.accepted ++ bytes) := fun bytes s =>
    (BufWriter.writeAll_ensures bytes).mono (fun _ _ h => h) (fun _ _ h => h.1)
  apply ensures_bind
  apply ensures_onError
  refine (exportTo_ensures hwrite s).mono ?_ (fun _ _ h => h)
  rintro _ s₁ ⟨parts, hparts, hs₁⟩
  apply ensures_onError
  refine BufWriter.flush_ensures.mono ?_ ?_
  · rintro _ s₂ ⟨hs₂, hempty⟩
    exact ⟨hempty, parts, hparts, hs₂.trans hs₁⟩
  · rintro _ s₂ ⟨hs₂, -⟩
    change s₂.accepted <+: _
    rw [hs₂, hs₁, decodedContent_of_collect hparts]

/-- The content of a container, read in memory. -/
def Exports (env : Env) (container text : List UInt8) : Prop :=
  ∃ reader, QztReader.openWithLimits env container .default = .ok reader ∧
    reader.exportAll env = .ok text

/-- A prefix of what can be decoded of a container in memory. -/
def ExportsPrefix (env : Env) (container text : List UInt8) : Prop :=
  ∃ reader, QztReader.openWithLimits env container .default = .ok reader ∧
    text <+: decodedContent (reader.decodeEntry env) reader.details.chunkEntries

theorem exports_of_exportOver {container : List UInt8} (h : ReadsFile env reader container)
    {u : PUnit} (hok : (exportOver env kindOf reader faults []).1 = .ok u) :
    Exports env container (exportOver env kindOf reader faults []).2 := by
  have hensures : Ensures (exportBuffered env kindOf reader faults)
      (BufWriter.new { contents := [], writes := 0 }) _ _ := exportBuffered_ensures _
  obtain ⟨hempty, parts, hparts, haccepted⟩ := hensures.of_ok (Prod.ext hok rfl)
  obtain ⟨memory, hopen, -, hwithin⟩ := h
  refine ⟨memory, hopen, hwithin.exportAll _ ?_⟩
  rw [QztFileReader.exportAll, hparts]
  change Except.ok parts.flatten = Except.ok (BufWriter.dropped faults _).contents
  rw [BufWriter.dropped_of_empty hempty, haccepted]
  rfl

theorem exportsPrefix_of_exportOver {container : List UInt8} (h : ReadsFile env reader container) :
    ExportsPrefix env container (exportOver env kindOf reader faults []).2 := by
  have hensures : Ensures (exportBuffered env kindOf reader faults)
      (BufWriter.new { contents := [], writes := 0 }) _ _ := exportBuffered_ensures _
  obtain ⟨memory, hopen, hdetails, hwithin⟩ := h
  refine ⟨memory, hopen, ?_⟩
  rw [← hdetails]
  refine List.IsPrefix.trans ?_ (decodedContent_of_within hwithin.decodeEntry)
  refine BufWriter.dropped_prefix.trans ?_
  revert hensures
  unfold Ensures
  rcases (exportBuffered env kindOf reader faults).run.run
    (BufWriter.new { contents := [], writes := 0 }) with ⟨e | u, s'⟩
  · exact id
  · rintro ⟨-, parts, hparts, haccepted⟩
    change s'.accepted <+: _
    rw [haccepted, decodedContent_of_collect hparts]
    exact List.prefix_refl _

end Over

/-! ## A run -/

/-- The container at a path. -/
def containerAt (tree : Tree) (path : String) : Option (List UInt8) :=
  (tree.readThrough (Path.ofString path).location).bind positionedBytes

/-- The output has the content of the container. -/
def Exported (env : Env) (container : Option (List UInt8)) (output : String) (after : Tree) : Prop :=
  ∃ bytes text, container = some bytes ∧ Exports env bytes text ∧
    HasBytes (Path.ofString output) text after

/-- What a run of `export` leaves that was started. -/
structure ExportRun (env : Env) (special : Path → Except IoError (List UInt8)) (args : ExportArgs)
    (before : Tree) (succeeded : Prop) (stdout : List UInt8) (after : Tree) : Prop where
  file : ∀ output, args.outputPath = some output → stdout = [] ∧
    OutputRun special (Path.ofString output) [Path.ofString args.path]
      (Exported env (containerAt before args.path) output) before succeeded after
  /-- The standard output receives a prefix of the content, and all of it if the run succeeds. -/
  printed : args.outputPath = none → after = before ∧
    (stdout = [] ∨ ∃ bytes, containerAt before args.path = some bytes ∧
      ExportsPrefix env bytes stdout) ∧
    (succeeded → ∃ bytes, containerAt before args.path = some bytes ∧ Exports env bytes stdout)

theorem exportFile_ensures {path output : String} {faults : Nat → Option (WriteFault IoError)} :
    Ensures (exportFile env host reads path output faults) start
      (fun _ s' => OutputRun reads.special (Path.ofString output) [Path.ofString path]
        (Exported env (containerAt start.tree path) output) start.tree True s'.tree)
      (fun _ s' => OutputRun reads.special (Path.ofString output) [Path.ofString path]
        (Exported env (containerAt start.tree path) output) start.tree False s'.tree) := by
  apply ensures_bind
  refine (checkOutputCollision_ensures (At.refl start)).mono ?_ (fun _ _ h => .unstarted h.2)
  rintro _ s₁ ⟨hat, -⟩
  apply ensures_bind
  refine (openPath_ensures hat).mono ?_ (fun _ _ hat => .unstarted hat)
  rintro reader s₂ ⟨hat₂, container, hcontainer, hreads⟩
  have hmade : ∀ after, WrittenBy (exportOver env reads.kindOf reader faults) (Path.ofString output)
      after → Exported env (containerAt start.tree path) output after := by
    rintro after ⟨hok, hbytes⟩
    exact ⟨container, _, hcontainer, exports_of_exportOver hreads hok, hbytes⟩
  have hwrite := @writeAtomically_run host reads.special s₂ (Path.ofString output)
    [Path.ofString path] false (exportOver env reads.kindOf reader faults)
  rw [hat₂.tree_eq] at hwrite
  exact hwrite.mono (fun _ s' hrun => hrun.mono (hmade s'.tree))
    (fun _ s' hrun => hrun.mono (hmade s'.tree))

theorem exportStdout_run {path : String} {faults : Nat → Option (WriteFault IoError)}
    {printed : Printed} {final : Disk}
    (hrun : (exportStdout env reads path faults).run start = (printed, final)) :
    final.tree = start.tree ∧
      (printed.stdout = [] ∨ ∃ bytes, containerAt start.tree path = some bytes ∧
        ExportsPrefix env bytes printed.stdout) ∧
      ∀ u, printed.result = .ok u → ∃ bytes, containerAt start.tree path = some bytes ∧
        Exports env bytes printed.stdout := by
  have hopen := @openPath_ensures env reads start start [] start.tree (Path.ofString path)
    (At.refl start)
  have hcalled : (Printed.ofOpened env reads faults
      ((openPath env reads (Path.ofString path)).run.run start).1,
      ((openPath env reads (Path.ofString path)).run.run start).2) = (printed, final) := hrun
  cases hopened : (openPath env reads (Path.ofString path)).run.run start with
  | mk result s' =>
    rw [hopened] at hcalled
    cases hcalled
    cases result with
    | error error =>
      have hat := hopen.of_error hopened
      exact ⟨hat.tree_eq, .inl rfl, fun _ hok => by cases hok⟩
    | ok reader =>
      obtain ⟨hat, container, hcontainer, hreads⟩ := hopen.of_ok hopened
      exact ⟨hat.tree_eq, .inr ⟨container, hcontainer, exportsPrefix_of_exportOver hreads⟩,
        fun _ hok => ⟨container, hcontainer, exports_of_exportOver hreads hok⟩⟩

/-- A run of `export`.  A usage error touches nothing.  Otherwise the output is as it was or has the
whole content, and the standard output has a prefix of what can be decoded of the container; it has
the whole content if the run succeeds. -/
theorem runExport_contract {args : List String} {faults : Nat → Option (WriteFault IoError)}
    {exit : CommandExit} {stdout : List UInt8} {final : Disk}
    (hrun : (runExport env host reads args faults).run start = ((exit, stdout), final)) :
    ((∃ message, exit = .usage message) ∧ stdout = [] ∧ final = start) ∨
      ∃ parsed, ExportArgs.parse args = .ok parsed ∧
        ExportRun env reads.special parsed start.tree (exit = .success) stdout final.tree := by
  unfold runExport at hrun
  cases hparse : ExportArgs.parse args with
  | error message =>
    rw [hparse] at hrun
    cases hrun
    exact .inl ⟨⟨message, rfl⟩, rfl, rfl⟩
  | ok parsed =>
    rw [hparse] at hrun
    refine .inr ⟨parsed, rfl, ?_⟩
    obtain ⟨path, outputPath⟩ := parsed
    cases outputPath with
    | some output =>
      have hensures := @exportFile_ensures host env reads start path output faults
      cases hexport : (exportFile env host reads path output faults).run.run start with
      | mk result after =>
        have hcalled : ((CommandExit.ofResult
            ((exportFile env host reads path output faults).run.run start).1, ([] : List UInt8)),
            ((exportFile env host reads path output faults).run.run start).2) =
              ((exit, stdout), final) := hrun
        rw [hexport] at hcalled
        cases hcalled
        refine ⟨?_, fun heq => by cases heq⟩
        rintro _ ⟨⟩
        refine ⟨rfl, ?_⟩
        cases result with
        | ok _ => exact (hensures.of_ok hexport).weaken fun _ => trivial
        | error error => exact (hensures.of_error hexport).weaken fun heq => by cases heq
    | none =>
      cases hexport : (exportStdout env reads path faults).run start with
      | mk printed after =>
        have hcalled : ((CommandExit.ofResult ((exportStdout env reads path faults).run start).1.result,
            ((exportStdout env reads path faults).run start).1.stdout),
            ((exportStdout env reads path faults).run start).2) = ((exit, stdout), final) := hrun
        rw [hexport] at hcalled
        cases hcalled
        obtain ⟨htree, hprefix, hwhole⟩ := exportStdout_run hexport
        refine ⟨fun _ heq => (by cases heq), fun _ => ⟨htree, hprefix, ?_⟩⟩
        intro hsuccess
        cases hresult : printed.result with
        | ok u => exact hwhole u hresult
        | error error =>
          rw [hresult] at hsuccess
          cases hsuccess

end Qzt
