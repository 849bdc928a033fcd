import Qzt.Foundation.Programs
import Qzt.Writer.FileWriter

/-!
# Faithful sinks

What the writer relies on of a sink.  A view gives the bytes a sink holds, its position
and whether its reads see all its writes.  A sink is faithful while `live` holds if its
successful operations act on the view as on a file; what `live` says is up to the user,
as long as a sink that is still live was live before.  A failed operation may leave any
bytes behind.  A reliable sink is always faithful and its operations succeed.
-/

namespace Qzt

open Foundation

/-- The file a sink stands for. -/
structure SinkView where
  contents : List UInt8
  position : Nat
  synced : Bool
  deriving DecidableEq, Repr

/-- Overwrite and extend from a position; a gap is filled with zeros. -/
def writeAt (contents : List UInt8) (position : Nat) (bytes : List UInt8) : List UInt8 :=
  contents.take position ++ (List.replicate (position - contents.length) 0 ++
    (bytes ++ contents.drop (position + bytes.length)))

theorem writeAt_length (contents bytes : List UInt8) :
    writeAt contents contents.length bytes = contents ++ bytes := by
  simp [writeAt]

theorem writeAt_nil (bytes : List UInt8) : writeAt [] 0 bytes = bytes := by
  simp [writeAt]

theorem writeAt_zero {head bytes : List UInt8} (h : bytes.length = head.length)
    (tail : List UInt8) : writeAt (head ++ tail) 0 bytes = bytes ++ tail := by
  simp [writeAt, h]

variable {σ : Type}

/-- While the sink is live, its successful operations act on the view as on a file. -/
structure FaithfulWhile (live : σ → Prop) (sink : Sink σ) (view : σ → SinkView) : Prop where
  live_streamPosition : ∀ {s}, live (sink.streamPosition s).2 → live s
  live_seekStart : ∀ {n s}, live (sink.seekStart n s).2 → live s
  live_seekEnd : ∀ {s}, live (sink.seekEnd s).2 → live s
  live_writeAll : ∀ {bytes s}, live (sink.writeAll bytes s).2 → live s
  live_readExact : ∀ {n s}, live (sink.readExact n s).2 → live s
  live_flush : ∀ {s}, live (sink.flush s).2 → live s
  streamPosition_ok : ∀ {s n s'}, live s' → sink.streamPosition s = (.ok n, s') →
    n = (view s).position ∧ view s' = view s
  seekStart_ok : ∀ {n s m s'}, live s' → sink.seekStart n s = (.ok m, s') →
    view s' = { view s with position := n }
  seekEnd_ok : ∀ {s n s'}, live s' → sink.seekEnd s = (.ok n, s') →
    n = (view s).contents.length ∧ view s' = { view s with position := n }
  writeAll_ok : ∀ {bytes s u s'}, live s' → sink.writeAll bytes s = (.ok u, s') →
    view s' =
      { contents := writeAt (view s).contents (view s).position bytes
        position := (view s).position + bytes.length
        synced := false }
  readExact_ok : ∀ {n s bytes s'}, live s' → sink.readExact n s = (.ok bytes, s') →
    (view s).synced = true →
      bytes = slice (view s).contents (view s).position n ∧
        view s' = { view s with position := (view s).position + n }
  flush_ok : ∀ {s u s'}, live s' → sink.flush s = (.ok u, s') →
    view s' = { view s with synced := true }

/-- Moving the position never changes the bytes, also when it fails. -/
structure SeeksKeepContents (sink : Sink σ) (view : σ → SinkView) : Prop where
  streamPosition : ∀ s, (view (sink.streamPosition s).2).contents = (view s).contents
  seekStart : ∀ n s, (view (sink.seekStart n s).2).contents = (view s).contents
  seekEnd : ∀ s, (view (sink.seekEnd s).2).contents = (view s).contents

/-- The sink is always faithful and every operation succeeds; a read needs the bytes it asks
for. -/
structure ReliableSink (sink : Sink σ) (view : σ → SinkView) : Prop
    extends FaithfulWhile (fun _ => True) sink view where
  streamPosition_succeeds : ∀ s, ∃ n s', sink.streamPosition s = (.ok n, s')
  seekStart_succeeds : ∀ n s, ∃ m s', sink.seekStart n s = (.ok m, s')
  seekEnd_succeeds : ∀ s, ∃ n s', sink.seekEnd s = (.ok n, s')
  writeAll_succeeds : ∀ bytes s, ∃ u s', sink.writeAll bytes s = (.ok u, s')
  readExact_succeeds : ∀ n s, (view s).synced = true →
    (view s).position + n ≤ (view s).contents.length → ∃ bytes s', sink.readExact n s = (.ok bytes, s')
  flush_succeeds : ∀ s, ∃ u s', sink.flush s = (.ok u, s')

/-- The sink is reliable and live in every state. -/
def Works (live : σ → Prop) (sink : Sink σ) (view : σ → SinkView) : Prop :=
  ReliableSink sink view ∧ ∀ s, live s

/-! ## A file in memory -/

/-- `Cursor<Vec<u8>>`. -/
def memorySink : Sink SinkView where
  streamPosition := fun s => (.ok s.position, s)
  seekStart := fun n s => (.ok n, { s with position := n })
  seekEnd := fun s => (.ok s.contents.length, { s with position := s.contents.length })
  writeAll := fun bytes s =>
    (.ok ⟨⟩,
      { contents := writeAt s.contents s.position bytes
        position := s.position + bytes.length
        synced := false })
  readExact := fun n s =>
    if s.position + n ≤ s.contents.length then
      (.ok (slice s.contents s.position n), { s with position := s.position + n })
    else
      (.error .unexpectedEof, s)
  flush := fun s => (.ok ⟨⟩, { s with synced := true })

/-- The memory file is reliable. -/
theorem memorySink_reliable : ReliableSink memorySink id where
  live_streamPosition := id
  live_seekStart := id
  live_seekEnd := id
  live_writeAll := id
  live_readExact := id
  live_flush := id
  streamPosition_ok := by
    rintro s n s' - ⟨⟩
    exact ⟨rfl, rfl⟩
  seekStart_ok := by
    rintro n s m s' - ⟨⟩
    rfl
  seekEnd_ok := by
    rintro s n s' - ⟨⟩
    exact ⟨rfl, rfl⟩
  writeAll_ok := by
    rintro bytes s u s' - ⟨⟩
    rfl
  readExact_ok := by
    intro n s bytes s' _ h _
    simp only [memorySink] at h
    split at h
    · cases h
      exact ⟨rfl, rfl⟩
    · cases h
  flush_ok := by
    rintro s u s' - ⟨⟩
    rfl
  streamPosition_succeeds := fun _ => ⟨_, _, rfl⟩
  seekStart_succeeds := fun _ _ => ⟨_, _, rfl⟩
  seekEnd_succeeds := fun _ => ⟨_, _, rfl⟩
  writeAll_succeeds := fun _ _ => ⟨_, _, rfl⟩
  readExact_succeeds := by
    intro n s _ h
    simp only [memorySink]
    exact ⟨_, _, if_pos h⟩
  flush_succeeds := fun _ => ⟨_, _, rfl⟩

theorem memorySink_seeksKeepContents : SeeksKeepContents memorySink id :=
  ⟨fun _ => rfl, fun _ _ => rfl, fun _ => rfl⟩

/-! ## Rules for the sink operations of the writer -/

namespace QztFileWriter

variable {env : Env} {live : σ → Prop} {sink : Sink σ} {view : σ → SinkView}
  {self : QztFileWriter env σ} {fail : QztError → QztFileWriter env σ → Prop}

/-- An operation fails only where the sink does not work. -/
theorem ensures_sinkOp {α : Type} {op : σ → Except IoErrorKind α × σ}
    {post : α → QztFileWriter env σ → Prop}
    (hok : ∀ a writer, op self.writer = (.ok a, writer) → post a { self with writer })
    (hsucceeds : Works live sink view → ∃ a writer, op self.writer = (.ok a, writer))
    (hfail : ∀ e self', ¬ Works live sink view → fail e self') :
    Ensures (sinkOp op) self post fail := by
  have hrun : (sinkOp op : WriterM env σ α).run.run self =
      (ioResult (op self.writer).1, { self with writer := (op self.writer).2 }) := rfl
  rw [Ensures, hrun]
  rcases hop : op self.writer with ⟨kind | a, writer⟩
  · refine hfail _ _ fun hworks => ?_
    obtain ⟨_, _, hsuccess⟩ := hsucceeds hworks
    rw [hop] at hsuccess
    cases hsuccess
  · exact hok a writer hop

theorem ensures_streamPosition {post : Nat → QztFileWriter env σ → Prop}
    (hsink : FaithfulWhile live sink view)
    (hpost : ∀ n writer, (live writer → live self.writer ∧ n = (view self.writer).position ∧
      view writer = view self.writer) → post n { self with writer })
    (hfail : ∀ e self', ¬ Works live sink view → fail e self') :
    Ensures (sinkOp sink.streamPosition) self post fail := by
  refine ensures_sinkOp (fun n writer h => hpost n writer fun hlive => ⟨?_, ?_⟩)
    (fun h => h.1.streamPosition_succeeds _) hfail
  · exact hsink.live_streamPosition (by rw [h]; exact hlive)
  · exact hsink.streamPosition_ok hlive h

theorem ensures_seekStart {post : Nat → QztFileWriter env σ → Prop} {n : Nat}
    (hsink : FaithfulWhile live sink view)
    (hpost : ∀ m writer, (live writer → live self.writer ∧
      view writer = { view self.writer with position := n }) → post m { self with writer })
    (hfail : ∀ e self', ¬ Works live sink view → fail e self') :
    Ensures (sinkOp (sink.seekStart n)) self post fail := by
  refine ensures_sinkOp (fun m writer h => hpost m writer fun hlive => ⟨?_, ?_⟩)
    (fun h => h.1.seekStart_succeeds _ _) hfail
  · exact hsink.live_seekStart (n := n) (by rw [h]; exact hlive)
  · exact hsink.seekStart_ok hlive h

theorem ensures_seekEnd {post : Nat → QztFileWriter env σ → Prop}
    (hsink : FaithfulWhile live sink view)
    (hpost : ∀ n writer, (live writer → live self.writer ∧
      n = (view self.writer).contents.length ∧
        view writer = { view self.writer with position := n }) → post n { self with writer })
    (hfail : ∀ e self', ¬ Works live sink view → fail e self') :
    Ensures (sinkOp sink.seekEnd) self post fail := by
  refine ensures_sinkOp (fun n writer h => hpost n writer fun hlive => ⟨?_, ?_⟩)
    (fun h => h.1.seekEnd_succeeds _) hfail
  · exact hsink.live_seekEnd (by rw [h]; exact hlive)
  · exact hsink.seekEnd_ok hlive h

theorem ensures_writeAll {post : Unit → QztFileWriter env σ → Prop} {bytes : List UInt8}
    (hsink : FaithfulWhile live sink view)
    (hpost : ∀ writer, (live writer → live self.writer ∧ view writer =
        { contents := writeAt (view self.writer).contents (view self.writer).position bytes
          position := (view self.writer).position + bytes.length
          synced := false }) →
      post ⟨⟩ { self with writer })
    (hfail : ∀ e self', ¬ Works live sink view → fail e self') :
    Ensures (sinkOp (sink.writeAll bytes)) self post fail := by
  refine ensures_sinkOp (fun _ writer h => hpost writer fun hlive => ⟨?_, ?_⟩)
    (fun h => h.1.writeAll_succeeds _ _) hfail
  · exact hsink.live_writeAll (show live (sink.writeAll bytes self.writer).2 by
      rw [h]
      exact hlive)
  · exact hsink.writeAll_ok hlive h

/-- While it is live, the sink holds `contents` and stands at their end. -/
def AtEnd (live : σ → Prop) (view : σ → SinkView) (writer : σ) (contents : List UInt8) : Prop :=
  live writer → (view writer).contents = contents ∧ (view writer).position = contents.length

/-- Writing at the end appends. -/
theorem ensures_append {post : Unit → QztFileWriter env σ → Prop} {contents bytes : List UInt8}
    (hsink : FaithfulWhile live sink view) (hend : AtEnd live view self.writer contents)
    (hpost : ∀ writer, (live writer → live self.writer) →
      AtEnd live view writer (contents ++ bytes) → post ⟨⟩ { self with writer })
    (hfail : ∀ e self', ¬ Works live sink view → fail e self') :
    Ensures (sinkOp (sink.writeAll bytes)) self post fail := by
  refine ensures_writeAll hsink (fun writer hwrite => hpost writer (fun hlive => (hwrite hlive).1)
    fun hlive => ?_) hfail
  obtain ⟨hself, hview⟩ := hwrite hlive
  rw [(hend hself).1, (hend hself).2, writeAt_length] at hview
  rw [hview, List.length_append]
  exact ⟨rfl, rfl⟩

theorem ensures_readExact {post : List UInt8 → QztFileWriter env σ → Prop} {n : Nat}
    (hsink : FaithfulWhile live sink view)
    (hsynced : live self.writer → (view self.writer).synced = true)
    (hlen : live self.writer →
      (view self.writer).position + n ≤ (view self.writer).contents.length)
    (hpost : ∀ bytes writer, (live writer → live self.writer ∧
        bytes = slice (view self.writer).contents (view self.writer).position n ∧
          view writer = { view self.writer with position := (view self.writer).position + n }) →
      post bytes { self with writer })
    (hfail : ∀ e self', ¬ Works live sink view → fail e self') :
    Ensures (sinkOp (sink.readExact n)) self post fail := by
  refine ensures_sinkOp (fun bytes writer h => hpost bytes writer fun hlive => ?_)
    (fun h => h.1.readExact_succeeds _ _ (hsynced (h.2 _)) (hlen (h.2 _))) hfail
  have hself : live self.writer := hsink.live_readExact (n := n) (by rw [h]; exact hlive)
  exact ⟨hself, hsink.readExact_ok hlive h (hsynced hself)⟩

theorem ensures_flush {post : Unit → QztFileWriter env σ → Prop}
    (hsink : FaithfulWhile live sink view)
    (hpost : ∀ writer, (live writer → live self.writer ∧
      view writer = { view self.writer with synced := true }) → post ⟨⟩ { self with writer })
    (hfail : ∀ e self', ¬ Works live sink view → fail e self') :
    Ensures (sinkOp sink.flush) self post fail := by
  refine ensures_sinkOp (fun _ writer h => hpost writer fun hlive => ⟨?_, ?_⟩)
    (fun h => h.1.flush_succeeds _) hfail
  · exact hsink.live_flush (by rw [h]; exact hlive)
  · exact hsink.flush_ok hlive h

end QztFileWriter

end Qzt
