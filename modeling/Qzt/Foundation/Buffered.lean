import Qzt.Foundation.Programs

/-!
# Buffered writes

A device appends what is written to it, until a write fails after some of its bytes.  A buffered
writer collects small writes and passes large ones on.  What the device holds is always a prefix
of what was written, and after a flush that succeeds it is all of it.
-/

namespace Foundation

/-- A write that fails after some of its bytes. -/
structure WriteFault (ε : Type) where
  error : ε
  written : Nat

/-- What a device has received, and the number of writes. -/
structure Device (α : Type) where
  contents : List α
  writes : Nat

/-- `BufWriter`. -/
structure BufWriter (α : Type) (capacity : Nat) where
  device : Device α
  buffer : List α
  fits : buffer.length ≤ capacity

/-- A computation with a buffered writer. -/
abbrev BufM (ε α : Type) (capacity : Nat) := ExceptT ε (StateM (BufWriter α capacity))

variable {ε α : Type} {capacity : Nat}

namespace Device

/-- The device after a write. -/
def after (self : Device α) (bytes : List α) : Device α where
  contents := self.contents ++ bytes
  writes := self.writes + 1

@[simp] theorem after_contents (self : Device α) (bytes : List α) :
    (self.after bytes).contents = self.contents ++ bytes := rfl

end Device

namespace BufWriter

/-- An empty buffer over a device. -/
def new (device : Device α) : BufWriter α capacity where
  device
  buffer := []
  fits := Nat.zero_le _

/-- What was written, wherever it is. -/
def accepted (self : BufWriter α capacity) : List α :=
  self.device.contents ++ self.buffer

variable (faults : Nat → Option (WriteFault ε))

/-- `flush_buf`.  What could not be written stays in the buffer. -/
def flushBuf : BufM ε α capacity PUnit := fun self =>
  if self.buffer = [] then (.ok ⟨⟩, self)
  else
    match faults self.device.writes with
    | none =>
      (.ok ⟨⟩, { device := self.device.after self.buffer, buffer := [], fits := Nat.zero_le _ })
    | some fault =>
      (.error fault.error,
        { device := self.device.after (self.buffer.take fault.written)
          buffer := self.buffer.drop fault.written
          fits := by
            rw [List.length_drop]
            exact Nat.le_trans (Nat.sub_le _ _) self.fits })

/-- A write that passes the buffer by. -/
def writeDirectly (bytes : List α) : BufM ε α capacity PUnit := fun self =>
  match faults self.device.writes with
  | none => (.ok ⟨⟩, { self with device := self.device.after bytes })
  | some fault =>
    (.error fault.error, { self with device := self.device.after (bytes.take fault.written) })

/-- `write_to_buffer_unchecked`, where the bytes fit. -/
def writeToBuffer (bytes : List α) : BufM ε α capacity PUnit := fun self =>
  if h : (self.buffer ++ bytes).length ≤ capacity then
    (.ok ⟨⟩, { self with buffer := self.buffer ++ bytes, fits := h })
  else
    (.ok ⟨⟩, self)

/-- `flush_buf` where the bytes do not fit into what is left of the buffer. -/
def makeRoom (bytes : List α) : BufM ε α capacity PUnit := do
  let self ← get
  if bytes.length > capacity - self.buffer.length then flushBuf faults else pure ⟨⟩

/-- `write_all`. -/
def writeAll (bytes : List α) : BufM ε α capacity PUnit := do
  let self ← get
  if bytes.length < capacity - self.buffer.length then
    writeToBuffer bytes
  else do
    makeRoom faults bytes
    if bytes.length ≥ capacity then writeDirectly faults bytes else writeToBuffer bytes

/-- `flush` of the device. -/
def flushDevice : BufM ε α capacity PUnit := fun self =>
  match faults self.device.writes with
  | none => (.ok ⟨⟩, { self with device := self.device.after [] })
  | some fault => (.error fault.error, { self with device := self.device.after [] })

/-- `flush`. -/
def flush : BufM ε α capacity PUnit := do
  flushBuf faults
  flushDevice faults

/-- The device once the writer is dropped: a last flush, whatever becomes of it. -/
def dropped (self : BufWriter α capacity) : Device α :=
  ((flushBuf faults).run.run self).2.device

/-! ## Rules -/

/-- An error is one of the faults. -/
def Faulted (e : ε) : Prop :=
  ∃ n fault, faults n = some fault ∧ fault.error = e

variable {faults} {s : BufWriter α capacity}

/-- Nothing is lost or moved by a flush, and one that succeeds leaves no byte behind. -/
theorem flushBuf_ensures :
    Ensures (flushBuf faults) s
      (fun _ s' => s'.accepted = s.accepted ∧ s'.buffer = [])
      (fun e s' => s'.accepted = s.accepted ∧ Faulted faults e) := by
  unfold Ensures flushBuf
  by_cases hempty : s.buffer = []
  · simp only [ExceptT.run, StateT.run, if_pos hempty]
    exact ⟨trivial, hempty⟩
  · simp only [ExceptT.run, StateT.run, if_neg hempty]
    cases hfault : faults s.device.writes with
    | none =>
      simp only [accepted, Device.after_contents, List.append_nil]
      exact ⟨trivial, trivial⟩
    | some fault =>
      simp only [accepted, Device.after_contents, List.append_assoc, List.take_append_drop]
      exact ⟨trivial, _, fault, hfault, rfl⟩

theorem flushDevice_ensures (hempty : s.buffer = []) :
    Ensures (flushDevice faults) s
      (fun _ s' => s'.accepted = s.accepted ∧ s'.buffer = [])
      (fun e s' => s'.accepted = s.accepted ∧ Faulted faults e) := by
  unfold Ensures flushDevice
  simp only [ExceptT.run, StateT.run]
  cases hfault : faults s.device.writes with
  | none =>
    simp only [accepted, Device.after_contents, List.append_nil]
    exact ⟨trivial, hempty⟩
  | some fault =>
    simp only [accepted, Device.after_contents, List.append_nil]
    exact ⟨trivial, _, fault, hfault, rfl⟩

theorem flush_ensures :
    Ensures (flush faults) s
      (fun _ s' => s'.accepted = s.accepted ∧ s'.buffer = [])
      (fun e s' => s'.accepted = s.accepted ∧ Faulted faults e) := by
  apply ensures_bind
  refine flushBuf_ensures.mono ?_ (fun _ _ h => h)
  rintro _ s₁ ⟨haccepted, hempty⟩
  rw [← haccepted]
  exact flushDevice_ensures hempty

theorem writeDirectly_ensures {bytes : List α} (hempty : s.buffer = []) :
    Ensures (writeDirectly faults bytes) s
      (fun _ s' => s'.accepted = s.accepted ++ bytes)
      (fun e s' => s'.accepted <+: s.accepted ++ bytes ∧ Faulted faults e) := by
  unfold Ensures writeDirectly
  simp only [ExceptT.run, StateT.run]
  cases hfault : faults s.device.writes with
  | none => simp only [accepted, Device.after_contents, hempty, List.append_nil]
  | some fault =>
    refine ⟨?_, _, fault, hfault, rfl⟩
    simp only [accepted, Device.after_contents, hempty, List.append_nil]
    exact (List.prefix_append_right_inj _).mpr (List.take_prefix _ _)

theorem writeToBuffer_ensures {bytes : List α} {fail : ε → BufWriter α capacity → Prop}
    (h : (s.buffer ++ bytes).length ≤ capacity) :
    Ensures (writeToBuffer bytes) s (fun _ s' => s'.accepted = s.accepted ++ bytes) fail := by
  unfold Ensures writeToBuffer
  simp only [ExceptT.run, StateT.run, dif_pos h, accepted, List.append_assoc]

/-- Afterwards the buffer is empty, or the bytes fit beside what it holds. -/
theorem makeRoom_ensures {bytes : List α} :
    Ensures (makeRoom faults bytes) s
      (fun _ s' => s'.accepted = s.accepted ∧
        (s'.buffer = [] ∨ bytes.length ≤ capacity - s'.buffer.length))
      (fun e s' => s'.accepted = s.accepted ∧ Faulted faults e) := by
  apply ensures_bind
  apply ensures_get
  apply ensures_ite
  · intro _
    exact flushBuf_ensures.mono (fun _ _ h => ⟨h.1, .inl h.2⟩) (fun _ _ h => h)
  · exact fun hroom => ensures_pure ⟨rfl, .inr (Nat.le_of_not_lt hroom)⟩

/-- What is written is accepted whole, or a fault has let a part of it through. -/
theorem writeAll_ensures (bytes : List α) :
    Ensures (writeAll faults bytes) s
      (fun _ s' => s'.accepted = s.accepted ++ bytes)
      (fun e s' => s'.accepted <+: s.accepted ++ bytes ∧ Faulted faults e) := by
  apply ensures_bind
  apply ensures_get
  apply ensures_ite
  · intro hsmall
    apply writeToBuffer_ensures
    rw [List.length_append]
    omega
  · intro _
    apply ensures_bind
    refine makeRoom_ensures.mono ?_ ?_
    · rintro _ s₁ ⟨haccepted, hroom⟩
      rw [← haccepted]
      have hfits := s₁.fits
      apply ensures_ite
      · intro hlarge
        apply writeDirectly_ensures
        rcases hroom with hempty | hroom
        · exact hempty
        · exact List.length_eq_zero_iff.mp (by omega)
      · intro hsmall
        apply writeToBuffer_ensures
        rw [List.length_append]
        rcases hroom with hempty | hroom
        · rw [hempty, List.length_nil]
          omega
        · omega
    · rintro e s₁ ⟨haccepted, hfault⟩
      rw [haccepted]
      exact ⟨List.prefix_append _ _, hfault⟩

/-- The device of a dropped writer has a prefix of what was accepted. -/
theorem dropped_prefix : (dropped faults s).contents <+: s.accepted := by
  have hflush : Ensures (flushBuf faults) s _ _ := flushBuf_ensures
  unfold dropped
  revert hflush
  unfold Ensures
  rcases (flushBuf faults).run.run s with ⟨e | _, s'⟩
  · rintro ⟨haccepted, -⟩
    rw [← haccepted]
    exact List.prefix_append _ _
  · rintro ⟨haccepted, -⟩
    rw [← haccepted]
    exact List.prefix_append _ _

/-- After a flush the device has everything. -/
theorem dropped_of_empty (h : s.buffer = []) : (dropped faults s).contents = s.accepted := by
  have hrun : (flushBuf faults).run.run s = (.ok ⟨⟩, s) := if_pos h
  rw [dropped, hrun, accepted, h, List.append_nil]

end BufWriter

end Foundation
