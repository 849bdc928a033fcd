import Qzt.Writer.Assembly
import Qzt.Writer.Streaming

/-!
# Finishing a stream

`finish` drains the buffer, writes the tail of the container, patches the header and
hashes the prefix through the sink.  On the state that the simulation relation
describes this is what `assemble_container` computes for the same parts.
-/

namespace Qzt

open Foundation QztFileWriter

variable {env : Env} {σ : Type} {live : σ → Prop} {sink : Sink σ} {view : σ → SinkView}

/-! ## Draining -/

section Drain

variable {options : WriterOptions} {consumed hashed : List UInt8} {parts : List (List UInt8)}
  {self : QztFileWriter env σ}

/-- The drain loop emits all parts of the text. -/
theorem drainPending_ensures (hsink : FaithfulWhile live sink view)
    (hoptions : validateWriterOptions options = .ok ⟨⟩) {fuel : Nat}
    (hfuel : self.pending.length ≤ fuel)
    (h : Streamed live view (· = []) options consumed hashed parts self)
    (hcontinues : Continues (· = []) options consumed self) :
    Ensures (drainPending sink fuel) self
      (fun _ self' => (∃ parts', Streamed live view (· = []) options consumed hashed parts' self') ∧
        self'.pending = [])
      (fun e _ => StreamFails env live sink view (· = []) options consumed e) := by
  have hadmissible := validateWriterOptions_eq_ok hoptions
  induction fuel generalizing parts self with
  | zero =>
    apply ensures_pure
    exact ⟨⟨parts, h⟩, List.eq_nil_of_length_eq_zero (Nat.le_zero.mp hfuel)⟩
  | succ fuel ih =>
    unfold drainPending
    apply ensures_bind
    apply ensures_get
    apply ensures_ite
    · intro hnil
      apply ensures_pure
      exact ⟨⟨parts, h⟩, hnil⟩
    · intro hne
      rw [h.options_eq]
      apply ensures_bind
      refine ensures_lift (fun stop hstop => ?_) fun e he => ?_
      · obtain ⟨hpos, hle, hmax, -⟩ := chooseKnownChunkEnd_eq_ok hadmissible.target_le_max hne hstop
        apply ensures_bind
        have hnext : NextEnd (· = []) options.chunker self.pending stop :=
          ⟨hne, hpos, hle, hmax, fun more hmore => by rw [hmore, List.append_nil, hstop]⟩
        refine (emitPendingChunk_ensures hsink hoptions h hcontinues hnext).mono ?_ fun _ _ => id
        rintro _ self' ⟨hself', hcontinues', hpending'⟩
        refine ih ?_ hself' hcontinues'
        rw [hpending', List.length_drop]
        omega
      · rintro _ more rfl
        rw [hcontinues [] rfl e, List.append_nil]
        exact .noEnd hne he

/-- A drained writer has emitted the split of its text. -/
theorem Streamed.splits (h : Streamed live view (· = []) options consumed hashed parts self)
    (hpending : self.pending = []) : SplitsWithin options.chunker consumed parts := by
  refine ⟨?_, h.count⟩
  have hsplit := (h.splits_iff [] rfl parts).mpr
    ⟨[], (List.append_nil _).symm, by rw [hpending]; exact .nil⟩
  rwa [List.append_nil] at hsplit

end Drain

/-! ## The tail of the container -/

section Tail

variable {level : Int32} {parts : List (List UInt8)}

/-- The bytes before the footer. -/
def QztFileWriter.FinishPlan.prefixBytes (plan : FinishPlan) (frames : List UInt8) : List UInt8 :=
  plan.header.encode ++ (frames ++ (plan.metadataBytes ++
    (plan.chunkTableBytes ++ plan.indexRootBytes)))

/-- The batch assembly is the plan and the footer of the streaming writer. -/
theorem assembleContainer_eq_finish {options : WriterOptions} {consumed : List UInt8}
    {self : QztFileWriter env σ}
    (h : Streamed live view (· = []) options consumed consumed parts self)
    (hpending : self.pending = []) :
    assembleContainer env consumed (containerIdFromInput env consumed) (planOf parts)
        (parts.map (chunkFrame env options.zstdLevel)) (chunkTableOf env options.zstdLevel parts)
        { denseLineIndex := none, documentIndex := none, profile := "core",
          writerOptions := options } =
      (do
        let plan ← finishPlan self
        let (_, footerPayloadBytes, footerTrailer) ← finishFooter env plan
          (Checksum.blake3 env (plan.prefixBytes (chunkFrames env options.zstdLevel parts)))
        return plan.prefixBytes (chunkFrames env options.zstdLevel parts) ++
          (footerPayloadBytes ++ footerTrailer.encode)) := by
  have hflatten : parts.flatten = consumed := by
    rw [← h.text, hpending, List.append_nil]
  have hlen : consumed.length < 2 ^ 46 := by
    rw [← hflatten]
    exact h.length_lt
  have hlengths : ¬ ((parts.map (chunkFrame env options.zstdLevel)).length ≠
      (chunkTableOf env options.zstdLevel parts).length) := by
    simp [chunkTableOf]
  rw [assembleContainer, rejectIf_of_not hlengths, ok_bind,
    metadataOffsetOf_chunkTableOf h.count h.compress, ok_bind, usizeToU64_of_lt (by omega), ok_bind,
    finishPlan]
  simp only [bind_assoc, h.options_eq, h.physicalOffset, h.logicalOffset, h.lineStartsSeen,
    h.newlines, h.entries, h.hasher.finalize, hflatten]
  refine bind_congr_ok fun targetChunkSize _ => ?_
  refine bind_congr_ok fun maxChunkSize _ => ?_
  simp only [planOf, hflatten, Option.isSome_none]
  refine bind_congr_ok fun metadataBytes _ => ?_
  refine bind_congr_ok fun metadataSize _ => ?_
  refine bind_congr_ok fun _ _ => ?_
  -- The two optional blocks are absent, so the chunk table follows the metadata.
  simp only [checkSome, transposeMap, ok_bind, optionalBytes, Option.getD_none, List.length_nil]
  refine bind_congr_ok fun chunkTableOffset hoffset => ?_
  rw [okOr_eq_ok_iff, checkedAdd_eq_some_iff] at hoffset
  simp only [usizeToU64_of_lt (show 0 < 2 ^ 64 by decide), ok_bind,
    checkedAdd_of_lt (show chunkTableOffset + 0 < 2 ^ 64 by omega), okOr_some, Nat.add_zero]
  refine bind_congr_ok fun chunkTableSize _ => ?_
  refine bind_congr_ok fun chunkCount _ => ?_
  refine bind_congr_ok fun indexRootBytes _ => ?_
  refine bind_congr_ok fun _ _ => ?_
  refine bind_congr_ok fun indexRootOffset _ => ?_
  refine bind_congr_ok fun indexRootSize _ => ?_
  refine bind_congr_ok fun footerPayloadOffset _ => ?_
  simp only [finishFooter, bind_assoc, pure_eq_ok, ok_bind]
  rfl

/-- Where a plan puts the blocks. -/
theorem finishPlan_offsets {self : QztFileWriter env σ} {plan : FinishPlan}
    (h : finishPlan self = .ok plan) :
    plan.metadataOffset = self.physicalOffset ∧
      plan.footerPayloadOffset = self.physicalOffset + plan.metadataBytes.length +
        plan.chunkTableBytes.length + plan.indexRootBytes.length ∧
      plan.footerPayloadOffset < 2 ^ 64 := by
  simp only [finishPlan, bind_eq_ok_iff, okOr_eq_ok_iff, checkedAdd_eq_some_iff,
    usizeToU64_eq_ok_iff, pure_eq_ok, Except.ok.injEq] at h
  obtain ⟨_, ⟨_, rfl⟩, _, ⟨_, rfl⟩, metadataBytes, _, _, ⟨_, rfl⟩, _, _, _, ⟨_, rfl⟩, _, ⟨_, rfl⟩,
    _, ⟨_, rfl⟩, indexRootBytes, _, _, _, _, ⟨_, rfl⟩, _, ⟨_, rfl⟩, _, ⟨hlt, rfl⟩, rfl⟩ := h
  exact ⟨rfl, rfl, hlt⟩

theorem finishFooter_finalFileSize {plan : FinishPlan} {checksum : Checksum}
    {payload : FooterPayload} {bytes : List UInt8} {trailer : FooterTrailer}
    (h : finishFooter env plan checksum = .ok (payload, bytes, trailer)) :
    payload.finalFileSize = plan.footerPayloadOffset + bytes.length + footerTrailerLen := by
  simp only [finishFooter, bind_eq_ok_iff, pure_eq_ok, Except.ok.injEq, Prod.mk.injEq] at h
  obtain ⟨payload', hpayload, bytes', hbytes, _, _, _, _, rfl, rfl, rfl⟩ := h
  obtain ⟨bytes'', hbytes'', -, rfl⟩ := fixedPointLoop_finalFileSize hpayload
  rw [hbytes, Except.ok.injEq] at hbytes''
  rw [hbytes'']

end Tail

/-! ## Hashing the prefix through the sink -/

section HashPrefix

variable {self : QztFileWriter env σ} {fail : QztError → QztFileWriter env σ → Prop}

theorem hashPrefixLoop_ensures (hsink : FaithfulWhile live sink view) {fuel remaining : Nat}
    {hasher : env.blake3.Hasher} {seen contents : List UInt8} {position : Nat}
    (hfuel : remaining ≤ fuel) (hrange : position + remaining ≤ contents.length)
    (hview : live self.writer → view self.writer = { contents, position, synced := true })
    (hseen : live self.writer → env.blake3.Absorbed hasher seen)
    (hfail : ∀ e self', ¬ Works live sink view → fail e self') :
    Ensures (hashPrefixLoop sink fuel remaining hasher) self
      (fun hasher' self' => ∃ writer, self' = { self with writer } ∧ (live writer →
        env.blake3.Absorbed hasher' (seen ++ slice contents position remaining) ∧
          (view writer).contents = contents))
      fail := by
  induction fuel generalizing remaining hasher seen self position with
  | zero =>
    obtain rfl : remaining = 0 := by omega
    apply ensures_pure
    exact ⟨self.writer, rfl, fun hlive => ⟨by simpa using hseen hlive, by rw [hview hlive]⟩⟩
  | succ fuel ih =>
    unfold hashPrefixLoop
    apply ensures_ite
    · intro hpos
      have hbuffer : hashBufferSize = 65536 := rfl
      generalize hpiece : min remaining hashBufferSize = piece
      apply ensures_bind
      apply ensures_lift_ok (u64ToUsize_of_lt (show piece < 2 ^ 64 by omega))
      apply ensures_bind
      refine ensures_readExact hsink (fun hlive => by rw [hview hlive])
        (fun hlive => by rw [hview hlive]; simp only; omega) (fun bytes writer hread => ?_) hfail
      have hread' : live writer → bytes = slice contents position piece ∧ live self.writer ∧
          view writer = { contents, position := position + piece, synced := true } := by
        intro hlive
        obtain ⟨hself, hbytes, hnext⟩ := hread hlive
        rw [hview hself] at hbytes hnext
        exact ⟨hbytes, hself, hnext⟩
      have hnext : live writer → env.blake3.Absorbed (env.blake3.update hasher bytes)
          (seen ++ slice contents position piece) := by
        intro hlive
        obtain ⟨rfl, hself, -⟩ := hread' hlive
        exact (hseen hself).update _
      have hrest : position + piece + (remaining - piece) ≤ contents.length := by omega
      refine (ih (by omega) hrest (fun hlive => (hread' hlive).2.2) hnext).mono ?_ fun _ _ => id
      · rintro hasher' self' ⟨writer', rfl, hpost⟩
        refine ⟨writer', rfl, fun hlive => ?_⟩
        obtain ⟨habsorbed, hcontents⟩ := hpost hlive
        rw [List.append_assoc, slice_append_slice, show piece + (remaining - piece) = remaining by
          omega] at habsorbed
        exact ⟨habsorbed, hcontents⟩
    · intro hzero
      obtain rfl : remaining = 0 := by omega
      apply ensures_pure
      exact ⟨self.writer, rfl, fun hlive => ⟨by simpa using hseen hlive, by rw [hview hlive]⟩⟩

/-- `hash_prefix` of the whole file is its checksum. -/
theorem hashPrefix_ensures (hsink : FaithfulWhile live sink view) {contents : List UInt8}
    {position : Nat}
    (hview : live self.writer → view self.writer = { contents, position, synced := true })
    (hfail : ∀ e self', ¬ Works live sink view → fail e self') :
    Ensures (hashPrefix sink contents.length) self
      (fun checksum self' => ∃ writer, self' = { self with writer } ∧ (live writer →
        checksum = Checksum.blake3 env contents ∧ (view writer).contents = contents))
      fail := by
  unfold hashPrefix
  apply ensures_bind
  refine ensures_seekStart hsink (fun _ writer hseek => ?_) hfail
  apply ensures_bind
  have hstart : live writer → view writer = { contents, position := 0, synced := true } := by
    intro hlive
    obtain ⟨hself, hnext⟩ := hseek hlive
    rw [hview hself] at hnext
    exact hnext
  refine (hashPrefixLoop_ensures hsink (Nat.le_refl _) (Nat.le_of_eq (Nat.zero_add _)) hstart
    (fun _ => env.blake3.absorbed_new) hfail).mono ?_ fun _ _ => id
  · rintro hasher self' ⟨writer', rfl, hpost⟩
    apply ensures_pure
    refine ⟨writer', rfl, fun hlive => ?_⟩
    obtain ⟨habsorbed, hcontents⟩ := hpost hlive
    rw [slice_zero_length, List.nil_append] at habsorbed
    refine ⟨?_, hcontents⟩
    rw [Checksum.fromHasher, habsorbed.finalize]
    rfl

end HashPrefix

/-! ## The sink operations of `finish` -/

section Stages

variable {self : QztFileWriter env σ} {fail : QztError → QztFileWriter env σ → Prop}
  {plan : FinishPlan} {frames : List UInt8}

/-- The blocks are appended behind the frames. -/
theorem writeBlocks_ensures (hsink : FaithfulWhile live sink view)
    (hoffset : plan.metadataOffset = headerLen + frames.length)
    (hcontents : live self.writer →
      (view self.writer).contents = List.replicate headerLen 0 ++ frames)
    (hfail : ∀ e self', ¬ Works live sink view → fail e self') :
    Ensures (writeBlocks sink plan) self
      (fun _ self' => ∃ writer, self' = { self with writer } ∧ (live writer →
        (view writer).contents = List.replicate headerLen 0 ++ (frames ++
          (plan.metadataBytes ++ (plan.chunkTableBytes ++ plan.indexRootBytes)))))
      fail := by
  unfold writeBlocks
  apply ensures_bind
  refine ensures_seekStart hsink (fun _ writer₁ hseek₁ => ?_) hfail
  have hend₁ : AtEnd live view writer₁ (List.replicate headerLen 0 ++ frames) := by
    intro hlive
    obtain ⟨hself, hview₁⟩ := hseek₁ hlive
    rw [hview₁, hcontents hself, hoffset, List.length_append, List.length_replicate]
    exact ⟨rfl, rfl⟩
  apply ensures_bind
  refine ensures_append hsink hend₁ (fun writer₂ _ hend₂ => ?_) hfail
  apply ensures_bind
  refine ensures_append hsink hend₂ (fun writer₃ _ hend₃ => ?_) hfail
  refine ensures_append hsink hend₃ (fun writer₄ _ hend₄ => ?_) hfail
  refine ⟨writer₄, rfl, fun hlive => ?_⟩
  rw [(hend₄ hlive).1]
  simp only [List.append_assoc]

/-- The header replaces its placeholder. -/
theorem patchHeader_ensures (hsink : FaithfulWhile live sink view) {rest : List UInt8}
    (hcontents : live self.writer →
      (view self.writer).contents = List.replicate headerLen 0 ++ rest)
    (hfail : ∀ e self', ¬ Works live sink view → fail e self') :
    Ensures (patchHeader sink plan) self
      (fun _ self' => ∃ writer, self' = { self with writer } ∧ (live writer →
        view writer =
          { contents := plan.header.encode ++ rest, position := headerLen, synced := true }))
      fail := by
  have hlength := plan.header.length_encode
  unfold patchHeader
  apply ensures_bind
  refine ensures_seekStart hsink (fun _ writer₁ hseek₁ => ?_) hfail
  apply ensures_bind
  refine ensures_writeAll hsink (fun writer₂ hwrite₂ => ?_) hfail
  have hview₂ : live writer₂ → view writer₂ =
      { contents := plan.header.encode ++ rest, position := headerLen, synced := false } := by
    intro hlive
    obtain ⟨hlive₁, hview₂⟩ := hwrite₂ hlive
    obtain ⟨hself, hview₁⟩ := hseek₁ hlive₁
    rw [hview₂, hview₁, hcontents hself]
    simp only
    rw [writeAt_zero (by rw [hlength, List.length_replicate]), hlength, Nat.zero_add]
  apply ensures_bind
  refine ensures_streamPosition hsink (fun position writer₃ hposition₃ => ?_) hfail
  apply ensures_bind
  refine ensures_lift (fun _ _ => ?_) fun e he => hfail e _ fun hworks => ?_
  · refine ensures_flush hsink (fun writer₄ hflush₄ => ?_) hfail
    refine ⟨writer₄, rfl, fun hlive => ?_⟩
    obtain ⟨hlive₃, hview₄⟩ := hflush₄ hlive
    obtain ⟨hlive₂, -, hview₃⟩ := hposition₃ hlive₃
    rw [hview₃, hview₂ hlive₂] at hview₄
    exact hview₄
  · -- A sink that works stands behind the header.
    obtain ⟨hlive₂, hposition, -⟩ := hposition₃ (hworks.2 _)
    rw [hview₂ hlive₂] at hposition
    rw [rejectIf_of_not (by simp [hposition])] at he
    cases he

/-- The footer is appended to the prefix it describes. -/
theorem writeFooter_ensures (hsink : FaithfulWhile live sink view) {checksum : Checksum}
    {contents : List UInt8} (hoffset : plan.footerPayloadOffset = contents.length)
    (hcontents : live self.writer →
      checksum = Checksum.blake3 env contents ∧ (view self.writer).contents = contents)
    (hfail : ∀ e self', ¬ Works live sink view → fail e self')
    (herror : ∀ e, finishFooter env plan checksum = .error e → fail e self) :
    Ensures (writeFooter sink plan checksum) self
      (fun _ self' => live self'.writer → ∃ footer,
        finishFooter env plan (Checksum.blake3 env contents) = .ok footer ∧
          (view self'.writer).contents = contents ++ (footer.2.1 ++ footer.2.2.encode))
      fail := by
  unfold writeFooter
  apply ensures_bind
  refine ensures_lift (fun footer hfooter => ?_) herror
  obtain ⟨payload, payloadBytes, trailer⟩ := footer
  have hsize := finishFooter_finalFileSize hfooter
  apply ensures_bind
  refine ensures_seekStart hsink (fun _ writer₁ hseek₁ => ?_) hfail
  have hend₁ : AtEnd live view writer₁ contents := by
    intro hlive
    obtain ⟨hself, hview₁⟩ := hseek₁ hlive
    rw [hview₁, hoffset]
    exact ⟨(hcontents hself).2, rfl⟩
  apply ensures_bind
  refine ensures_append hsink hend₁ (fun writer₂ hlive₂ hend₂ => ?_) hfail
  apply ensures_bind
  refine ensures_append hsink hend₂ (fun writer₃ hlive₃ hend₃ => ?_) hfail
  apply ensures_bind
  refine ensures_flush hsink (fun writer₄ hflush₄ => ?_) hfail
  have hfinal : live writer₄ → checksum = Checksum.blake3 env contents ∧
      (view writer₄).contents = contents ++ payloadBytes ++ trailer.encode := by
    intro hlive
    obtain ⟨hlive', hview₄⟩ := hflush₄ hlive
    obtain ⟨hself, -⟩ := hseek₁ (hlive₂ (hlive₃ hlive'))
    rw [hview₄]
    exact ⟨(hcontents hself).1, (hend₃ hlive').1⟩
  apply ensures_bind
  refine ensures_seekEnd hsink (fun actualSize writer₅ hseek₅ => ?_) hfail
  refine ensures_lift (fun _ _ hlive => ?_) fun e he => hfail e _ fun hworks => ?_
  · obtain ⟨hlive₄, -, hview₅⟩ := hseek₅ hlive
    obtain ⟨hchecksum, hcontents₄⟩ := hfinal hlive₄
    refine ⟨(payload, payloadBytes, trailer), by rw [← hchecksum]; exact hfooter, ?_⟩
    rw [hview₅, hcontents₄, List.append_assoc]
  · obtain ⟨hlive₄, hactual, -⟩ := hseek₅ (hworks.2 _)
    rw [(hfinal hlive₄).2, List.length_append, List.length_append, FooterTrailer.length_encode,
      ← hoffset, ← hsize] at hactual
    rw [rejectIf_of_not (by simp [hactual])] at he
    cases he

end Stages

/-! ## `finish` -/

section Finish

variable {options : WriterOptions} {consumed : List UInt8} {parts : List (List UInt8)}
  {self : QztFileWriter env σ}

/-- From the drained writer on, `finish` leaves the container of the batch writer in the sink. -/
theorem finishTail_ensures (hsink : FaithfulWhile live sink view)
    (hoptions : validateWriterOptions options = .ok ⟨⟩)
    (h : Streamed live view (· = []) options consumed consumed parts self)
    (hpending : self.pending = []) :
    Ensures (finishTail sink) self
      (fun _ self' => live self'.writer →
        packBytes env consumed options = .ok (view self'.writer).contents)
      (fun e _ => BatchFails env live sink view (· = []) options consumed e) := by
  have hflatten : parts.flatten = consumed := by
    rw [← h.text, hpending, List.append_nil]
  have hvalid : Utf8.Valid consumed := hflatten ▸ h.text_valid
  have hpack := (packBytes_of_splits hoptions hvalid (h.splits hpending) h.compress).trans
    (assembleContainer_eq_finish h hpending)
  have hbroken : ∀ (e : QztError) (_ : QztFileWriter env σ), ¬ Works live sink view →
      BatchFails env live sink view (· = []) options consumed e :=
    fun _ _ => batchFails_of_not_works
  have hbatch : ∀ {e : QztError},
      (Works live sink view → packBytes env consumed options = .error e) →
        BatchFails env live sink view (· = []) options consumed e := by
    rintro e he hworks _ more rfl _
    rw [List.append_nil]
    exact he hworks
  unfold finishTail
  apply ensures_bind
  apply ensures_get
  apply ensures_bind
  refine ensures_lift (fun plan hplan => ?_) fun e he => hbatch fun _ => by rw [hpack, he]; rfl
  rw [hplan, ok_bind] at hpack
  obtain ⟨hmetadata, hfooter, -⟩ := finishPlan_offsets hplan
  rw [h.physicalOffset] at hmetadata hfooter
  have hbefore : (plan.prefixBytes (chunkFrames env options.zstdLevel parts)).length =
      plan.footerPayloadOffset := by
    simp only [FinishPlan.prefixBytes, List.length_append, plan.header.length_encode]
    omega
  apply ensures_bind
  refine (writeBlocks_ensures hsink hmetadata h.contents hbroken).mono ?_ fun _ _ => id
  rintro _ self₁ ⟨writer₁, rfl, hcontents₁⟩
  apply ensures_bind
  refine (patchHeader_ensures hsink hcontents₁ hbroken).mono ?_ fun _ _ => id
  rintro _ self₂ ⟨writer₂, rfl, hview₂⟩
  apply ensures_bind
  rw [← hbefore]
  refine (hashPrefix_ensures hsink hview₂ hbroken).mono ?_ fun _ _ => id
  rintro checksum self₃ ⟨writer₃, rfl, hhash₃⟩
  refine (writeFooter_ensures hsink hbefore.symm hhash₃ hbroken
    fun e he => hbatch fun hworks => ?_).mono ?_ fun _ _ => id
  · rw [hpack, ← (hhash₃ (hworks.2 _)).1, he]
    rfl
  · intro _ self₄ hpost hlive
    obtain ⟨footer, hfooterBytes, hcontents₄⟩ := hpost hlive
    rw [hpack, hfooterBytes, hcontents₄]
    rfl

/-- `finish` leaves the container of the batch writer in the sink, or the batch writer fails. -/
theorem finishInner_ensures (hsink : FaithfulWhile live sink view)
    (hoptions : validateWriterOptions options = .ok ⟨⟩)
    (h : Streamed live view (fun _ => True) options consumed consumed parts self)
    (hcontinues : Continues (fun _ => True) options consumed self) :
    Ensures (finishInner sink) self
      (fun _ self' => live self'.writer →
        packBytes env consumed options = .ok (view self'.writer).contents)
      (fun e _ => BatchFails env live sink view (· = []) options consumed e) := by
  unfold finishInner
  apply ensures_bind
  apply ensures_get
  apply ensures_bind
  refine (drainPending_ensures hsink hoptions (Nat.le_refl _) (h.restrict fun _ _ => trivial)
    fun more _ => hcontinues more trivial).mono ?_ fun _ _ => StreamFails.batchFails hoptions
  rintro _ self' ⟨⟨parts', hself'⟩, hpending⟩
  exact finishTail_ensures hsink hoptions hself' hpending

/-- `finish` on an open writer is `finish_inner`, followed by the flag that closes the writer. -/
theorem run_finish {futures : List UInt8 → Prop} {hashed : List UInt8}
    (h : Streamed live view futures options consumed hashed parts self) :
    (finish sink).run.run self =
      match (finishInner sink).run.run self with
      | (.ok u, self') => (.ok u, { self' with finished := true })
      | (.error e, self') => (.error e, { self' with poisoned := true }) := by
  have hlive : (self.finished || self.poisoned) = false := by
    rw [h.unfinished.1, h.unfinished.2]
    rfl
  change (if (self.finished || self.poisoned) = true then _ else _) = _
  rw [hlive]
  rfl

theorem finish_ensures (hsink : FaithfulWhile live sink view)
    (hoptions : validateWriterOptions options = .ok ⟨⟩)
    (h : Streamed live view (fun _ => True) options consumed consumed parts self)
    (hcontinues : Continues (fun _ => True) options consumed self) :
    Ensures (finish sink) self
      (fun _ self' => live self'.writer →
        packBytes env consumed options = .ok (view self'.writer).contents)
      (fun e _ => BatchFails env live sink view (· = []) options consumed e) := by
  have hinner := finishInner_ensures hsink hoptions h hcontinues
  unfold Ensures at hinner ⊢
  rw [run_finish h]
  revert hinner
  rcases (finishInner sink).run.run self with ⟨e | u, self'⟩ <;> exact id

end Finish

end Qzt
