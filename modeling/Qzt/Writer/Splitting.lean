import Mathlib.Data.List.Find
import Qzt.Text.Lines
import Qzt.Writer.FileWriter

/-!
# Where chunks end

The planner chooses chunk ends over the whole input from a start position; the
streaming writer chooses them over a buffer that begins at the chunk.  Both are
`choose_known_chunk_end` on what is left of the input, and the buffer decides as soon as
it is longer than the largest chunk.

`Splits options input parts` says that repeated choice cuts `input` into `parts`.
-/

namespace Qzt

open Foundation

open QztFileWriter (chooseNonFinalChunkEnd chooseStreamChunkEnd chooseKnownChunkEnd)

/-! ## Positions relative to the start of the chunk -/

section Shift

variable (input : List UInt8) (start : Nat)

private theorem foldl_lastLf_shift (cursors : List Nat) (boundary : Option Nat) :
    (cursors.map (start + ·)).foldl (fun boundary cursor =>
        if input[cursor]? = some lf then some (cursor + 1) else boundary)
      (boundary.map (start + ·)) =
    (cursors.foldl (fun boundary cursor =>
        if (input.drop start)[cursor]? = some lf then some (cursor + 1) else boundary)
      boundary).map (start + ·) := by
  induction cursors generalizing boundary with
  | nil => rfl
  | cons cursor cursors ih =>
    simp only [List.map_cons, List.foldl_cons, List.getElem?_drop]
    simp only [List.getElem?_drop] at ih
    rw [← ih]
    congr 1
    split
    · simp [Nat.add_assoc]
    · rfl

theorem lastLfEnd_shift (n : Nat) :
    lastLfEnd input start (start + n) =
      (lastLfEnd (input.drop start) 0 n).map (start + ·) := by
  have h := foldl_lastLf_shift input start (List.range' 0 n) none
  rw [List.map_add_range'] at h
  simpa [lastLfEnd] using h

theorem splitsCrlf_shift {k : Nat} (hk : 0 < k) :
    splitsCrlf input (start + k) = splitsCrlf (input.drop start) k := by
  have hpred : start + k - 1 = start + (k - 1) := by omega
  have hlt : start + k < input.length ↔ k < input.length - start := by omega
  simp [splitsCrlf, List.getElem?_drop, hpred, hlt, hk, show 0 < start + k by omega]

theorem isUtf8Boundary_shift {k : Nat} (hk : 0 < k) :
    isUtf8Boundary input (start + k) = isUtf8Boundary (input.drop start) k := by
  have hlen : start + k = input.length ↔ k = input.length - start := by omega
  have hzero : start + k ≠ 0 := by omega
  simp only [isUtf8Boundary, List.getElem?_drop, List.length_drop]
  congr 1
  by_cases hend : k = input.length - start
  · rw [beq_iff_eq.mpr (hlen.mpr hend), beq_iff_eq.mpr hend, Bool.or_true, Bool.or_true]
  · have hne : start + k ≠ input.length := fun h => hend (hlen.mp h)
    rw [beq_false_of_ne hzero, beq_false_of_ne hne, beq_false_of_ne (show k ≠ 0 by omega),
      beq_false_of_ne hend]

theorem lastLineBoundary_shift (n : Nat) :
    lastLineBoundary input start (start + n) =
      (lastLineBoundary (input.drop start) 0 n).map (start + ·) := by
  rw [lastLineBoundary, lastLfEnd_shift, lastLineBoundary]
  cases lastLfEnd (input.drop start) 0 n with
  | none => rfl
  | some k =>
    rcases Nat.eq_zero_or_pos k with rfl | hk
    · simp [Option.filter]
    · simp [Option.filter, splitsCrlf_shift input start hk, hk]

theorem previousValidSplit_shift (n : Nat) :
    previousValidSplit input start (start + n) =
      (previousValidSplit (input.drop start) 0 n).map (start + ·) := by
  rw [previousValidSplit, previousValidSplit, Nat.add_sub_cancel_left, ← List.map_add_range',
    ← List.map_reverse, List.find?_map]
  congr 1
  refine List.find?_congr fun k hk => ?_
  have hpos : 0 < k := by
    simp only [List.mem_reverse, List.mem_range'_1] at hk
    omega
  simp only [Function.comp_apply, isUtf8Boundary_shift input start hpos,
    splitsCrlf_shift input start hpos]

/-- The planner's choice at `start` is the choice on the rest of the input. -/
theorem chooseChunkEnd_eq {options : ChunkerOptions} (hstart : start ≤ input.length)
    (hword : start + options.maxChunkSize < 2 ^ 64) :
    chooseChunkEnd input start options =
      (start + ·) <$> chooseKnownChunkEnd (input.drop start) options := by
  rw [chooseChunkEnd, chooseKnownChunkEnd, List.length_drop, Nat.mod_eq_of_lt hword]
  by_cases hshort : input.length - start ≤ options.targetChunkSize
  · simp only [hshort, if_true, map_ok]
    congr 1
    omega
  · have hmax : min (start + options.maxChunkSize) input.length =
        start + min options.maxChunkSize (input.length - start) := by omega
    simp only [hshort, if_false, hmax, chooseNonFinalChunkEnd, lastLineBoundary_shift,
      previousValidSplit_shift]
    cases lastLineBoundary (input.drop start) 0 options.targetChunkSize with
    | some k => rfl
    | none =>
      cases lastLineBoundary (input.drop start) 0
          (min options.maxChunkSize (input.length - start)) with
      | some k => rfl
      | none =>
        cases previousValidSplit (input.drop start) 0
            (min options.maxChunkSize (input.length - start)) <;> rfl

end Shift

/-! ## Look-ahead -/

section Lookahead

variable {input : List UInt8} (more : List UInt8) {stop : Nat}

theorem lastLfEnd_append (h : stop ≤ input.length) :
    lastLfEnd (input ++ more) 0 stop = lastLfEnd input 0 stop := by
  have hcongr : ∀ (cursors : List Nat) (boundary : Option Nat),
      (∀ cursor ∈ cursors, cursor < input.length) →
      cursors.foldl (fun boundary cursor =>
          if (input ++ more)[cursor]? = some lf then some (cursor + 1) else boundary) boundary =
        cursors.foldl (fun boundary cursor =>
          if input[cursor]? = some lf then some (cursor + 1) else boundary) boundary := by
    intro cursors
    induction cursors with
    | nil => intros; rfl
    | cons cursor cursors ih =>
      intro boundary hlt
      simp only [List.foldl_cons]
      rw [List.getElem?_append_left (hlt cursor List.mem_cons_self)]
      exact ih _ fun c hc => hlt c (List.mem_cons_of_mem _ hc)
  refine hcongr _ _ fun cursor hcursor => ?_
  rw [List.mem_range'_1] at hcursor
  omega

theorem splitsCrlf_append (h : stop < input.length) :
    splitsCrlf (input ++ more) stop = splitsCrlf input stop := by
  have hlt : stop < (input ++ more).length := by
    rw [List.length_append]
    omega
  rw [splitsCrlf, splitsCrlf, List.getElem?_append_left h,
    List.getElem?_append_left (show stop - 1 < input.length by omega)]
  simp only [hlt, h, decide_true]

theorem isUtf8Boundary_append (h : stop < input.length) :
    isUtf8Boundary (input ++ more) stop = isUtf8Boundary input stop := by
  have hne : stop ≠ input.length := by omega
  have hne' : stop ≠ (input ++ more).length := by
    rw [List.length_append]
    omega
  rw [isUtf8Boundary, isUtf8Boundary, List.getElem?_append_left h, beq_false_of_ne hne,
    beq_false_of_ne hne']

/-- The LF that ends a line is inside the searched range. -/
theorem lastLfEnd_eq_some {start k : Nat} (h : lastLfEnd input start stop = some k) :
    start < k ∧ k ≤ stop ∧ input[k - 1]? = some lf := by
  have hfold : ∀ (cursors : List Nat) (boundary : Option Nat),
      (∀ cursor ∈ cursors, start ≤ cursor ∧ cursor < stop) →
      (∀ k, boundary = some k → start < k ∧ k ≤ stop ∧ input[k - 1]? = some lf) →
      ∀ k, cursors.foldl (fun boundary cursor =>
          if input[cursor]? = some lf then some (cursor + 1) else boundary) boundary = some k →
        start < k ∧ k ≤ stop ∧ input[k - 1]? = some lf := by
    intro cursors
    induction cursors with
    | nil =>
      intro boundary _ hboundary k hk
      exact hboundary k hk
    | cons cursor cursors ih =>
      intro boundary hrange hboundary k hk
      refine ih _ (fun c hc => hrange c (List.mem_cons_of_mem _ hc)) ?_ k hk
      intro k hk
      have hcursor := hrange cursor List.mem_cons_self
      beta_reduce at hk
      split at hk
      · cases hk
        exact ⟨by omega, by omega, by simpa⟩
      · exact hboundary k hk
  refine hfold _ none ?_ (by simp) k h
  intro cursor hcursor
  rw [List.mem_range'_1] at hcursor
  omega

theorem lastLineBoundary_append (h : stop < input.length) :
    lastLineBoundary (input ++ more) 0 stop = lastLineBoundary input 0 stop := by
  rw [lastLineBoundary, lastLineBoundary, lastLfEnd_append more (Nat.le_of_lt h)]
  cases hlf : lastLfEnd input 0 stop with
  | none => rfl
  | some k =>
    have hk := lastLfEnd_eq_some hlf
    simp only [Option.filter, splitsCrlf_append more (show k < input.length by omega)]

theorem previousValidSplit_append (h : stop < input.length) :
    previousValidSplit (input ++ more) 0 stop = previousValidSplit input 0 stop := by
  refine List.find?_congr fun k hk => ?_
  have hlt : k < input.length := by
    simp only [List.mem_reverse, List.mem_range'_1] at hk
    omega
  rw [isUtf8Boundary_append more hlt, splitsCrlf_append more hlt]

theorem chooseNonFinalChunkEnd_append {targetEnd maxEnd : Nat} (htarget : targetEnd ≤ maxEnd)
    (hmax : maxEnd < input.length) :
    chooseNonFinalChunkEnd (input ++ more) targetEnd maxEnd =
      chooseNonFinalChunkEnd input targetEnd maxEnd := by
  rw [chooseNonFinalChunkEnd, chooseNonFinalChunkEnd,
    lastLineBoundary_append more (show targetEnd < input.length by omega),
    lastLineBoundary_append more hmax, previousValidSplit_append more hmax]

/-- A buffer longer than the largest chunk already decides the next chunk end, whatever
follows. -/
theorem chooseStreamChunkEnd_eq {options : ChunkerOptions}
    (hoptions : options.targetChunkSize ≤ options.maxChunkSize)
    (hlen : options.maxChunkSize < input.length) :
    chooseStreamChunkEnd input options = chooseKnownChunkEnd (input ++ more) options := by
  have hlong : options.maxChunkSize ≤ input.length + more.length := by omega
  rw [chooseStreamChunkEnd, rejectIf_of_not (by omega), ok_bind, chooseKnownChunkEnd,
    List.length_append, if_neg (by omega), Nat.min_eq_left hlong,
    chooseNonFinalChunkEnd_append more hoptions hlen]

end Lookahead

/-! ## What a chosen end is -/

/-- The chunker options that `validate_writer_options` lets through. -/
structure ChunkerOptions.Admissible (options : ChunkerOptions) : Prop where
  target_pos : 0 < options.targetChunkSize
  target_le_max : options.targetChunkSize ≤ options.maxChunkSize
  max_le : options.maxChunkSize ≤ ResourceLimits.default.maxUncompressedChunkSize

theorem validateWriterOptions_eq_ok {options : WriterOptions} {u : Unit}
    (h : validateWriterOptions options = .ok u) : options.chunker.Admissible := by
  simp only [validateWriterOptions, ChunkerOptions.validate, bind_eq_ok_iff, rejectIf_eq_ok_iff,
    usizeToU64_eq_ok_iff, ResourceLimits.enforceChunkSizes_eq_ok_iff] at h
  obtain ⟨_, ⟨_, hpos, horder⟩, _, ⟨_, rfl⟩, _, hmax⟩ := h
  exact ⟨by omega, by omega, hmax⟩

variable {options : ChunkerOptions} {input : List UInt8} {stop : Nat}

/-- A cut that leaves well-formed text on both sides of well-formed text. -/
def CutsText (input : List UInt8) (stop : Nat) : Prop :=
  Utf8.Valid input → Utf8.Valid (input.take stop) ∧ Utf8.Valid (input.drop stop)

theorem cutsText_of_lf (hpos : 0 < stop) (h : input[stop - 1]? = some lf) :
    CutsText input stop := by
  rintro ⟨cs, rfl⟩
  obtain ⟨hlt, hget⟩ := List.getElem?_eq_some_iff.mp h
  have hsplit : Utf8.encode cs =
      (Utf8.encode cs).take (stop - 1) ++ lf :: (Utf8.encode cs).drop stop := by
    conv_lhs => rw [← List.take_append_drop (stop - 1) (Utf8.encode cs)]
    rw [List.drop_eq_getElem_cons hlt, hget, show stop - 1 + 1 = stop by omega]
  obtain ⟨cs₁, c, cs₂, -, hleft, hc, hright⟩ := Utf8.encode_eq_append_cons (by decide) hsplit
  refine ⟨⟨cs₁ ++ [c], ?_⟩, ⟨cs₂, hright⟩⟩
  have htake : (Utf8.encode cs).take stop = (Utf8.encode cs).take (stop - 1) ++ [lf] := by
    rw [show stop = stop - 1 + 1 by omega, List.take_add_one, h]
    rfl
  rw [htake, hleft, Utf8.encode_append, Utf8.encode_cons, hc, Utf8.encode_nil, List.append_nil]

theorem cutsText_of_boundary (h : isUtf8Boundary input stop = true) : CutsText input stop := by
  intro hvalid
  simp only [isUtf8Boundary, Bool.or_eq_true, beq_iff_eq, Option.any_eq_true] at h
  rcases h with (rfl | rfl) | ⟨byte, hget, hbyte⟩
  · exact ⟨Utf8.valid_nil, hvalid⟩
  · simpa using ⟨hvalid, Utf8.valid_nil⟩
  · refine Utf8.Valid.of_append_left (by rwa [List.take_append_drop]) ?_
    intro b hb
    rw [List.head?_drop, hget] at hb
    cases hb
    simpa using hbyte

theorem lastLineBoundary_eq_some {maxEnd : Nat} (h : lastLineBoundary input 0 maxEnd = some stop) :
    0 < stop ∧ stop ≤ maxEnd ∧ CutsText input stop := by
  rw [lastLineBoundary, Option.filter_eq_some_iff] at h
  obtain ⟨hpos, hle, hget⟩ := lastLfEnd_eq_some h.1
  exact ⟨hpos, hle, cutsText_of_lf hpos hget⟩

theorem previousValidSplit_eq_some {maxEnd : Nat}
    (h : previousValidSplit input 0 maxEnd = some stop) :
    0 < stop ∧ stop ≤ maxEnd ∧ CutsText input stop := by
  have hmem := List.mem_of_find?_eq_some h
  have htest := List.find?_some h
  simp only [List.mem_reverse, List.mem_range'_1] at hmem
  rw [Bool.and_eq_true] at htest
  exact ⟨by omega, by omega, cutsText_of_boundary htest.1⟩

theorem chooseNonFinalChunkEnd_eq_ok {targetEnd maxEnd : Nat} (horder : targetEnd ≤ maxEnd)
    (h : chooseNonFinalChunkEnd input targetEnd maxEnd = .ok stop) :
    0 < stop ∧ stop ≤ maxEnd ∧ CutsText input stop := by
  unfold chooseNonFinalChunkEnd at h
  split at h
  · rename_i lineEnd hline
    cases h
    obtain ⟨hpos, hle, hcut⟩ := lastLineBoundary_eq_some hline
    exact ⟨hpos, by omega, hcut⟩
  · split at h
    · rename_i lineEnd hline
      cases h
      exact lastLineBoundary_eq_some hline
    · rw [okOr_eq_ok_iff] at h
      exact previousValidSplit_eq_some h

/-- A chunk is not empty, fits the largest size, and is well-formed text where the input is. -/
theorem chooseKnownChunkEnd_eq_ok (horder : options.targetChunkSize ≤ options.maxChunkSize)
    (hinput : input ≠ [])
    (h : chooseKnownChunkEnd input options = .ok stop) :
    0 < stop ∧ stop ≤ input.length ∧ stop ≤ options.maxChunkSize ∧ CutsText input stop := by
  have hlen := List.length_pos_of_ne_nil hinput
  unfold chooseKnownChunkEnd at h
  split at h
  · cases h
    refine ⟨hlen, Nat.le_refl _, by omega, fun hvalid => ?_⟩
    simpa using ⟨hvalid, Utf8.valid_nil⟩
  · obtain ⟨hpos, hle, hcut⟩ := chooseNonFinalChunkEnd_eq_ok (by omega) h
    exact ⟨hpos, by omega, by omega, hcut⟩

theorem chooseKnownChunkEnd_eq_error {e : QztError}
    (h : chooseKnownChunkEnd input options = .error e) : e = .resourceLimitExceeded := by
  unfold chooseKnownChunkEnd chooseNonFinalChunkEnd at h
  split at h
  · cases h
  · split at h
    · cases h
    · split at h
      · cases h
      · unfold okOr at h
        split at h
        · cases h
        · cases h
          rfl

/-! ## Splitting an input -/

/-- Repeated choice of the next chunk end cuts the input into these parts. -/
inductive Splits (options : ChunkerOptions) : List UInt8 → List (List UInt8) → Prop where
  | nil : Splits options [] []
  | cons {input : List UInt8} {stop : Nat} {parts : List (List UInt8)} (hinput : input ≠ [])
      (hstop : chooseKnownChunkEnd input options = .ok stop)
      (hparts : Splits options (input.drop stop) parts) :
      Splits options input (input.take stop :: parts)

namespace Splits

theorem cons_iff (hinput : input ≠ []) {all : List (List UInt8)} :
    Splits options input all ↔ ∃ stop parts, chooseKnownChunkEnd input options = .ok stop ∧
      all = input.take stop :: parts ∧ Splits options (input.drop stop) parts := by
  constructor
  · intro h
    cases h with
    | nil => exact absurd rfl hinput
    | cons _ hstop hparts => exact ⟨_, _, hstop, rfl, hparts⟩
  · rintro ⟨stop, parts, hstop, rfl, hparts⟩
    exact .cons hinput hstop hparts

theorem nil_iff {all : List (List UInt8)} : Splits options [] all ↔ all = [] := by
  constructor
  · intro h
    cases h with
    | nil => rfl
    | cons hinput => exact absurd rfl hinput
  · rintro rfl
    exact .nil

theorem flatten {parts : List (List UInt8)} (h : Splits options input parts) :
    parts.flatten = input := by
  induction h with
  | nil => rfl
  | cons _ _ _ ih => rw [List.flatten_cons, ih, List.take_append_drop]

/-- The parts of a split: none is empty, all fit the largest size. -/
theorem parts_bounds (horder : options.targetChunkSize ≤ options.maxChunkSize)
    {parts : List (List UInt8)} (h : Splits options input parts) :
    ∀ part ∈ parts, part ≠ [] ∧ part.length ≤ options.maxChunkSize := by
  induction h with
  | nil => simp
  | cons hinput hstop _ ih =>
    obtain ⟨hpos, hle, hmax, -⟩ := chooseKnownChunkEnd_eq_ok horder hinput hstop
    intro part hpart
    rcases List.mem_cons.mp hpart with rfl | hpart
    · refine ⟨fun hnil => ?_, ?_⟩
      · have := congrArg List.length hnil
        rw [List.length_take, List.length_nil] at this
        omega
      · rw [List.length_take]
        omega
    · exact ih part hpart

theorem parts_valid (horder : options.targetChunkSize ≤ options.maxChunkSize)
    {parts : List (List UInt8)} (h : Splits options input parts) (hvalid : Utf8.Valid input) :
    ∀ part ∈ parts, Utf8.Valid part := by
  induction h with
  | nil => simp
  | cons hinput hstop _ ih =>
    obtain ⟨-, -, -, hcut⟩ := chooseKnownChunkEnd_eq_ok horder hinput hstop
    intro part hpart
    rcases List.mem_cons.mp hpart with rfl | hpart
    · exact (hcut hvalid).1
    · exact ih (hcut hvalid).2 part hpart

end Splits

end Qzt
