import Qzt.Text.Chunks
import Qzt.Writer.Splitting

/-!
# The batch plan

What `plan_chunks` and the compression loop compute, as functions of the parts of the
input: the planned chunks, the chunk table and the frames.  Where the input has no
split within the table limit, planning fails with `ResourceLimitExceeded`.
-/

namespace Qzt

open Foundation

open QztFileWriter (chooseKnownChunkEnd)

/-! ## The plan of a split -/

/-- The number of chunk entries that fit the default block limit. -/
def maxChunkCount : Nat := 524288

theorem enforceChunkTableEntries_default {count : Nat} (h : count ≤ maxChunkCount) :
    ResourceLimits.default.enforceChunkTableEntries count = .ok ⟨⟩ := by
  rw [ResourceLimits.enforceChunkTableEntries_eq_ok_iff]
  simp only [maxChunkCount, chunkEntryLen, ResourceLimits.default] at *
  omega

theorem enforceChunkTableEntries_default_of_lt {count : Nat} (h : maxChunkCount < count) :
    ResourceLimits.default.enforceChunkTableEntries count = .error .resourceLimitExceeded := by
  unfold ResourceLimits.enforceChunkTableEntries checkedMul
  split
  · rw [okOr_some, ok_bind, ResourceLimits.enforceIndexBlockSize]
    apply rejectIf_of
    simp only [maxChunkCount, chunkEntryLen, ResourceLimits.default] at *
    omega
  · rfl

/-- The planned chunk of a part that follows the parts `done`. -/
def plannedChunk (done : List (List UInt8)) (part : List UInt8) : PlannedChunk where
  chunkId := done.length
  logicalOffset := done.flatten.length
  uncompressedSize := part.length
  firstLine := countLines done.flatten
  lineCount := (partLineStarts done.flatten part).length
  flags := continuationFlag done.flatten

/-- Parts of at most the largest chunk size keep all positions far below `2 ^ 64`. -/
def FitsParts (done : List (List UInt8)) : Prop :=
  done.flatten.length ≤ done.length * ResourceLimits.default.maxUncompressedChunkSize

theorem fitsParts_nil : FitsParts [] := by
  simp [FitsParts]

theorem FitsParts.concat {done : List (List UInt8)} {part : List UInt8} (h : FitsParts done)
    (hpart : part.length ≤ ResourceLimits.default.maxUncompressedChunkSize) :
    FitsParts (done ++ [part]) := by
  simp only [FitsParts, List.flatten_append, List.flatten_singleton, List.length_append,
    List.length_singleton, Nat.add_mul] at *
  omega

theorem fitsParts_of_forall {parts : List (List UInt8)}
    (h : ∀ part ∈ parts, part.length ≤ ResourceLimits.default.maxUncompressedChunkSize) :
    FitsParts parts := by
  induction parts using List.reverseRecOn with
  | nil => exact fitsParts_nil
  | append_singleton parts part ih =>
    exact (ih fun p hp => h p (by simp [hp])).concat (h part (by simp))

theorem FitsParts.length_lt {done : List (List UInt8)} (h : FitsParts done)
    (hcount : done.length ≤ maxChunkCount) : done.flatten.length < 2 ^ 46 := by
  simp only [FitsParts, maxChunkCount, ResourceLimits.default] at *
  omega

section PlanLoop

variable {options : ChunkerOptions}

/-- One iteration of the planner. -/
theorem planLoop_step {done : List (List UInt8)} {rest : List UInt8} {stop : Nat}
    (hchoose : chooseChunkEnd (done.flatten ++ rest) done.flatten.length options =
      .ok (done.flatten.length + stop)) (hpos : 0 < stop) (hle : stop ≤ rest.length)
    (hcount : done.length < maxChunkCount) (hlen : done.flatten.length < 2 ^ 64)
    (hword : stop < 2 ^ 64) (fuel : Nat) :
    planLoop (done.flatten ++ rest) options (LineInfo.fromBytes (done.flatten ++ rest)).lineStarts
        (fuel + 1) done.length done.flatten.length =
      (plannedChunk done (rest.take stop) :: ·) <$>
        planLoop ((done ++ [rest.take stop]).flatten ++ rest.drop stop) options
          (LineInfo.fromBytes ((done ++ [rest.take stop]).flatten ++ rest.drop stop)).lineStarts
          fuel (done ++ [rest.take stop]).length (done ++ [rest.take stop]).flatten.length := by
  simp only [maxChunkCount] at hcount
  have htake : (rest.take stop).length = stop := by
    rw [List.length_take]
    omega
  have happend : (done ++ [rest.take stop]).flatten ++ rest.drop stop = done.flatten ++ rest := by
    simp
  have hstart : done.flatten.length < (done.flatten ++ rest).length := by
    rw [List.length_append]
    omega
  have hfirst := lowerBound_lineStarts done.flatten rest
  have hsecond : lowerBound (LineInfo.fromBytes (done.flatten ++ rest)).lineStarts
      (done.flatten.length + stop) =
        countLines done.flatten + (partLineStarts done.flatten (rest.take stop)).length := by
    have h := lowerBound_lineStarts (done ++ [rest.take stop]).flatten (rest.drop stop)
    rw [happend, List.flatten_append, List.flatten_singleton, List.length_append, htake,
      countLines_append] at h
    exact h
  have hlines := countLines_le done.flatten
  have hpartLines := length_partLineStarts_le done.flatten (rest.take stop)
  rw [happend, planLoop, if_pos hstart, checkedAdd_of_lt (by omega), okOr_some, ok_bind,
    enforceChunkTableEntries_default (by simp only [maxChunkCount]; omega), ok_bind, hchoose,
    ok_bind, rejectIf_of_not (by omega), ok_bind, hfirst, hsecond, planner_flags_eq,
    usizeToU64_of_lt (by omega), ok_bind, usizeToU64_of_lt (by omega), ok_bind,
    Nat.add_sub_cancel_left, usizeToU64_of_lt (by omega), ok_bind,
    usizeToU64_of_lt (by omega), ok_bind, Nat.add_sub_cancel_left,
    usizeToU64_of_lt (by omega), ok_bind]
  simp only [plannedChunk, htake, List.length_append, List.length_singleton,
    List.flatten_append, List.flatten_singleton]
  rfl

/-- The planner's choice behind the parts `done`. -/
theorem chooseChunkEnd_append {done : List (List UInt8)} {rest : List UInt8}
    (hword : done.flatten.length + options.maxChunkSize < 2 ^ 64) :
    chooseChunkEnd (done.flatten ++ rest) done.flatten.length options =
      (done.flatten.length + ·) <$> chooseKnownChunkEnd rest options := by
  rw [chooseChunkEnd_eq _ _ (by simp) hword, List.drop_left]

/-- The planner plans the split of the input. -/
theorem planLoop_of_splits (hoptions : options.Admissible) (done : List (List UInt8))
    {parts : List (List UInt8)} {rest : List UInt8} {fuel : Nat} (hsplit : Splits options rest parts)
    (hcount : done.length + parts.length ≤ maxChunkCount) (hfits : FitsParts done)
    (hfuel : rest.length ≤ fuel) :
    planLoop (done.flatten ++ rest) options (LineInfo.fromBytes (done.flatten ++ rest)).lineStarts
      fuel done.length done.flatten.length = .ok (mapWithHistory plannedChunk done parts) := by
  induction hsplit generalizing done fuel with
  | nil =>
    cases fuel with
    | zero => rfl
    | succ fuel =>
      rw [planLoop, if_neg (by simp)]
      rfl
  | @cons rest stop parts hrest hstop hparts ih =>
    obtain ⟨hpos, hle, hmax, -⟩ := chooseKnownChunkEnd_eq_ok hoptions.target_le_max hrest hstop
    have hrestLen := List.length_pos_of_ne_nil hrest
    obtain ⟨fuel, rfl⟩ : ∃ n, fuel = n + 1 := ⟨fuel - 1, by omega⟩
    rw [List.length_cons] at hcount
    have hcap : options.maxChunkSize ≤ 64 * 1024 * 1024 := hoptions.max_le
    have hlen := hfits.length_lt (show done.length ≤ maxChunkCount by omega)
    have hchoose := @chooseChunkEnd_append options done rest (by omega)
    rw [hstop, map_ok] at hchoose
    rw [planLoop_step hchoose hpos hle (by omega) (by omega) (by omega), ih]
    · rfl
    · rw [List.length_append, List.length_singleton]
      omega
    · refine hfits.concat ?_
      have hcap := hoptions.max_le
      rw [List.length_take]
      omega
    · rw [List.length_drop]
      omega

/-- The planner rejects an input without a split inside the table limit. -/
theorem planLoop_of_not_splits (hoptions : options.Admissible) (done : List (List UInt8))
    {rest : List UInt8} {fuel : Nat}
    (hsplit : ∀ parts, Splits options rest parts → maxChunkCount < done.length + parts.length)
    (hcount : done.length ≤ maxChunkCount) (hfits : FitsParts done)
    (hfuel : rest.length ≤ fuel) :
    planLoop (done.flatten ++ rest) options (LineInfo.fromBytes (done.flatten ++ rest)).lineStarts
      fuel done.length done.flatten.length = .error .resourceLimitExceeded := by
  have hrest : rest ≠ [] := by
    rintro rfl
    have := hsplit [] .nil
    rw [List.length_nil] at this
    omega
  have hrestLen := List.length_pos_of_ne_nil hrest
  induction fuel generalizing done rest with
  | zero => omega
  | succ fuel ih =>
    rcases Nat.lt_or_ge done.length maxChunkCount with hlt | hge
    · cases hstop : chooseKnownChunkEnd rest options with
      | error e =>
        have hcap : options.maxChunkSize ≤ 64 * 1024 * 1024 := hoptions.max_le
        have hlen := hfits.length_lt hcount
        have hstart : done.flatten.length < (done.flatten ++ rest).length := by
          rw [List.length_append]
          omega
        rw [planLoop, if_pos hstart,
          checkedAdd_of_lt (by simp only [maxChunkCount] at hlt; omega), okOr_some, ok_bind,
          enforceChunkTableEntries_default hlt, ok_bind,
          chooseChunkEnd_append (by omega), hstop, chooseKnownChunkEnd_eq_error hstop]
        rfl
      | ok stop =>
        obtain ⟨hpos, hle, hmax, -⟩ := chooseKnownChunkEnd_eq_ok hoptions.target_le_max hrest hstop
        have hnext : ∀ parts, Splits options (rest.drop stop) parts →
            maxChunkCount < (done ++ [rest.take stop]).length + parts.length := by
          intro parts hparts
          have := hsplit _ (.cons hrest hstop hparts)
          rw [List.length_cons] at this
          rw [List.length_append, List.length_singleton]
          omega
        have hnextNe : rest.drop stop ≠ [] := by
          intro hnil
          have := hnext [] (hnil ▸ .nil)
          rw [List.length_append, List.length_singleton, List.length_nil] at this
          omega
        have hcap : options.maxChunkSize ≤ 64 * 1024 * 1024 := hoptions.max_le
        have hlen := hfits.length_lt hcount
        have hchoose := @chooseChunkEnd_append options done rest (by omega)
        rw [hstop, map_ok] at hchoose
        rw [planLoop_step hchoose hpos hle hlt (by omega) (by omega), ih _ hnext]
        · rfl
        · rw [List.length_append, List.length_singleton]
          omega
        · refine hfits.concat ?_
          have hcap := hoptions.max_le
          rw [List.length_take]
          omega
        · rw [List.length_drop]
          omega
        · exact hnextNe
        · exact List.length_pos_of_ne_nil hnextNe
    · have hstart : done.flatten.length < (done.flatten ++ rest).length := by
        rw [List.length_append]
        omega
      rw [planLoop, if_pos hstart,
        checkedAdd_of_lt (by simp only [maxChunkCount] at hcount; omega), okOr_some, ok_bind,
        enforceChunkTableEntries_default_of_lt (by omega)]
      rfl

end PlanLoop

/-- The plan of the parts of an input. -/
def planOf (parts : List (List UInt8)) : ChunkPlan where
  chunks := mapWithHistory plannedChunk [] parts
  lineCount := countLines parts.flatten
  newlineMode := .fromCounts (newlineState parts.flatten).lfCount
    (newlineState parts.flatten).crlfCount

theorem ChunkerOptions.Admissible.validate {options : ChunkerOptions}
    (h : options.Admissible) : options.validate = .ok ⟨⟩ := by
  have hpos := h.target_pos
  have horder := h.target_le_max
  rw [ChunkerOptions.validate, rejectIf_of_not (by omega), ok_bind, rejectIf_of_not (by omega)]

/-- An input splits within the table limit. -/
def SplitsWithin (options : ChunkerOptions) (input : List UInt8) (parts : List (List UInt8)) :
    Prop :=
  Splits options input parts ∧ parts.length ≤ maxChunkCount

section PlanChunks

variable {options : ChunkerOptions} {input : List UInt8} {parts : List (List UInt8)}

theorem SplitsWithin.length_lt (hoptions : options.Admissible)
    (h : SplitsWithin options input parts) : input.length < 2 ^ 46 := by
  have hfits : FitsParts parts := fitsParts_of_forall fun part hpart =>
    Nat.le_trans (h.1.parts_bounds hoptions.target_le_max part hpart).2 hoptions.max_le
  rw [← h.1.flatten]
  exact hfits.length_lt h.2

theorem planChunks_of_splits (hoptions : options.Admissible) (hvalid : Utf8.Valid input)
    (h : SplitsWithin options input parts) : planChunks input options = .ok (planOf parts) := by
  have hdecode : ¬ (fromUtf8 input).isNone = true := by
    rw [Bool.not_eq_true, Option.isNone_eq_false_iff, isSome_fromUtf8_iff]
    exact hvalid
  have hflatten := h.1.flatten
  rw [planChunks, hoptions.validate, ok_bind, rejectIf_of_not hdecode, ok_bind]
  by_cases hnil : input = []
  · subst hnil
    obtain rfl := Splits.nil_iff.mp h.1
    simp only [if_true, pure_eq_ok]
    rfl
  · have hloop := planLoop_of_splits hoptions [] h.1 (by simpa using h.2) fitsParts_nil
      (Nat.le_refl _)
    have hcount : countLines input < 2 ^ 64 := by
      have := countLines_le input
      have := h.length_lt hoptions
      omega
    simp only [List.flatten_nil, List.nil_append, List.length_nil, lineInfo_lineStarts] at hloop
    simp only [hnil, if_false, lineInfo_lineStarts, lineInfo_newlineMode, hloop, ok_bind]
    rw [← countLines, usizeToU64_of_lt hcount]
    simp only [ok_bind, pure_eq_ok, planOf, hflatten]

theorem planChunks_of_not_splits (hoptions : options.Admissible) (hvalid : Utf8.Valid input)
    (h : ∀ parts, ¬ SplitsWithin options input parts) :
    planChunks input options = .error .resourceLimitExceeded := by
  have hdecode : ¬ (fromUtf8 input).isNone = true := by
    rw [Bool.not_eq_true, Option.isNone_eq_false_iff, isSome_fromUtf8_iff]
    exact hvalid
  have hnil : input ≠ [] := by
    rintro rfl
    exact h [] ⟨.nil, Nat.zero_le _⟩
  have hloop := planLoop_of_not_splits hoptions []
    (fun parts (hparts : Splits options input parts) => by
      have := h parts
      simp only [SplitsWithin, hparts, true_and, Nat.not_le] at this
      simpa using this) (Nat.zero_le _) fitsParts_nil (Nat.le_refl _)
  simp only [List.flatten_nil, List.nil_append, List.length_nil] at hloop
  rw [planChunks, hoptions.validate, ok_bind, rejectIf_of_not hdecode, ok_bind]
  simp only [hnil, if_false, hloop, error_bind]

theorem planChunks_invalid (hoptions : options.Admissible) (hvalid : ¬ Utf8.Valid input) :
    planChunks input options = .error .invalidUtf8 := by
  have hdecode : (fromUtf8 input).isNone = true := by
    rw [Option.isNone_iff_eq_none, ← Option.not_isSome_iff_eq_none, isSome_fromUtf8_iff]
    exact hvalid
  rw [planChunks, hoptions.validate, ok_bind, rejectIf_of hdecode, error_bind]

end PlanChunks

/-! ## Frames and table of a split -/

section Compress

variable (env : Env) (level : Int32)

/-- The compressed frame of a part. -/
def chunkFrame (part : List UInt8) : List UInt8 :=
  (env.zstd.encodeAll part level).getD []

/-- The frames of the parts, one after the other. -/
def chunkFrames (parts : List (List UInt8)) : List UInt8 :=
  (parts.map (chunkFrame env level)).flatten

/-- The entry of a part that follows the parts `done`. -/
def chunkEntryOf (done : List (List UInt8)) (part : List UInt8) : ChunkEntry where
  chunkId := done.length
  physicalOffset := headerLen + (chunkFrames env level done).length
  compressedSize := (chunkFrame env level part).length
  logicalOffset := done.flatten.length
  uncompressedSize := part.length
  firstLine := countLines done.flatten
  lineCount := (partLineStarts done.flatten part).length
  dictionaryId := 0
  flags := continuationFlag done.flatten
  compressedChecksumBlake3 := (Checksum.blake3 env (chunkFrame env level part)).value
  uncompressedChecksumBlake3 := (Checksum.blake3 env part).value

/-- The chunk table of the parts. -/
def chunkTableOf (parts : List (List UInt8)) : List ChunkEntry :=
  mapWithHistory (chunkEntryOf env level) [] parts

/-- The encoder produces a frame that the writer accepts. -/
structure Compresses (part : List UInt8) : Prop where
  encodes : env.zstd.encodeAll part level = some (chunkFrame env level part)
  frame_ne_nil : chunkFrame env level part ≠ []
  frame_le : (chunkFrame env level part).length ≤ ResourceLimits.default.maxCompressedChunkSize

/-- The encoder is a total function and its frames are not empty. -/
def Zstd.Total (zstd : Zstd) : Prop :=
  ∀ bytes level, ∃ frame, zstd.encodeAll bytes level = some frame ∧ frame ≠ []

variable {env level}

/-- Under a total encoder only an oversized frame is rejected. -/
theorem Compresses.of_total (htotal : env.zstd.Total) {part : List UInt8}
    (hlen : (chunkFrame env level part).length ≤
      ResourceLimits.default.maxCompressedChunkSize) : Compresses env level part := by
  obtain ⟨frame, hencode, hne⟩ := htotal part level
  have hframe : chunkFrame env level part = frame := by
    rw [chunkFrame, hencode, Option.getD_some]
  exact ⟨by rw [hframe]; exact hencode, by rw [hframe]; exact hne, hlen⟩

theorem chunkFrames_concat (done : List (List UInt8)) (part : List UInt8) :
    chunkFrames env level (done ++ [part]) =
      chunkFrames env level done ++ chunkFrame env level part := by
  simp [chunkFrames]

theorem length_chunkFrames_lt {done : List (List UInt8)}
    (hcount : done.length ≤ maxChunkCount) (h : ∀ part ∈ done, Compresses env level part) :
    (chunkFrames env level done).length < 2 ^ 46 := by
  have hsum : (chunkFrames env level done).length ≤
      done.length * ResourceLimits.default.maxCompressedChunkSize := by
    clear hcount
    induction done using List.reverseRecOn with
    | nil => simp [chunkFrames]
    | append_singleton done part ih =>
      have hpart := (h part (by simp)).frame_le
      have hdone := ih fun p hp => h p (by simp [hp])
      simp only [chunkFrames_concat, List.length_append, List.length_singleton, Nat.add_mul]
      omega
  simp only [maxChunkCount, ResourceLimits.default] at *
  omega

theorem chunkTableOf_describes {parts : List (List UInt8)} (h : ∀ part ∈ parts, part ≠ []) :
    Describes [] (chunkTableOf env level parts) parts := by
  have hgen : ∀ (done : List (List UInt8)), Describes done
      (mapWithHistory (chunkEntryOf env level) done parts) parts := by
    induction parts with
    | nil => exact fun done => .nil
    | cons part parts ih =>
      intro done
      exact .cons ⟨rfl, rfl, rfl, rfl, rfl, rfl, h part (by simp)⟩
        (ih (fun p hp => h p (by simp [hp])) _)
  exact hgen []

/-- The encoding steps of the chunk loop, up to the size check. -/
theorem compressChunks_step {done : List (List UInt8)} {part rest : List UInt8}
    (hcompress : Compresses env level part)
    (hpart : part.length ≤ ResourceLimits.default.maxUncompressedChunkSize)
    (hdone : done.flatten.length < 2 ^ 46) (hframes : (chunkFrames env level done).length < 2 ^ 46)
    (chunks : List PlannedChunk) :
    compressChunks env (done.flatten ++ (part ++ rest)) level (plannedChunk done part :: chunks)
        (headerLen + (chunkFrames env level done).length) =
      (fun r => (chunkEntryOf env level done part :: r.1, chunkFrame env level part :: r.2)) <$>
        compressChunks env (done.flatten ++ (part ++ rest)) level chunks
          (headerLen + (chunkFrames env level (done ++ [part])).length) := by
  have hframe := hcompress.frame_le
  have hpart' : part.length ≤ 64 * 1024 * 1024 := hpart
  have hframe' : (chunkFrame env level part).length ≤ 72 * 1024 * 1024 := hframe
  have hrange := getRange?_append_left done.flatten part rest
  have hencode : encodeChunk env part level = .ok (chunkFrame env level part) := by
    rw [encodeChunk, hcompress.encodes, okOr_some]
  have hsizes : ResourceLimits.default.enforceChunkSizes (chunkFrame env level part).length
      part.length = .ok ⟨⟩ :=
    (ResourceLimits.enforceChunkSizes_eq_ok_iff _).mpr ⟨hframe, hpart⟩
  have hoffset : headerLen + (chunkFrames env level done).length +
      (chunkFrame env level part).length < 2 ^ 64 := by
    rw [headerLen]
    omega
  have hconcat : headerLen + (chunkFrames env level (done ++ [part])).length =
      headerLen + (chunkFrames env level done).length + (chunkFrame env level part).length := by
    rw [chunkFrames_concat, List.length_append, Nat.add_assoc]
  rw [compressChunks]
  simp only [plannedChunk]
  rw [u64ToUsize_of_lt (by omega), ok_bind, u64ToUsize_of_lt (by omega), ok_bind,
    checkedAdd_of_lt (by omega), okOr_some, ok_bind, hrange, okOr_some, ok_bind, hencode, ok_bind,
    rejectIf_of_not hcompress.frame_ne_nil, ok_bind, usizeToU64_of_lt (by omega), ok_bind, hsizes,
    ok_bind, checkedAdd_of_lt hoffset, okOr_some, ok_bind, hconcat]
  rfl

/-- The chunk loop builds the table and the frames of the parts. -/
theorem compressChunks_of_compresses (done : List (List UInt8)) {parts : List (List UInt8)}
    (hcompress : ∀ part ∈ done ++ parts, Compresses env level part)
    (hparts : ∀ part ∈ done ++ parts,
      part.length ≤ ResourceLimits.default.maxUncompressedChunkSize)
    (hcount : (done ++ parts).length ≤ maxChunkCount) :
    compressChunks env (done.flatten ++ parts.flatten) level
        (mapWithHistory plannedChunk done parts)
        (headerLen + (chunkFrames env level done).length) =
      .ok (mapWithHistory (chunkEntryOf env level) done parts,
        parts.map (chunkFrame env level)) := by
  induction parts generalizing done with
  | nil => rfl
  | cons part parts ih =>
    have hcountDone : done.length ≤ maxChunkCount := by
      rw [List.length_append] at hcount
      omega
    have hdone : FitsParts done := fitsParts_of_forall fun p hp => hparts p (by simp [hp])
    rw [List.flatten_cons, mapWithHistory, compressChunks_step (hcompress part (by simp))
      (hparts part (by simp)) (hdone.length_lt hcountDone)
      (length_chunkFrames_lt hcountDone fun p hp => hcompress p (by simp [hp]))]
    have htail := ih (done ++ [part]) (by simpa using hcompress) (by simpa using hparts)
      (by simpa using hcount)
    rw [List.flatten_append, List.flatten_singleton, List.append_assoc] at htail
    rw [htail]
    rfl

/-- Under a total encoder the chunk loop fails only on an oversized frame. -/
theorem compressChunks_of_not_compresses (htotal : env.zstd.Total) (done : List (List UInt8))
    {parts : List (List UInt8)} (hdone : ∀ part ∈ done, Compresses env level part)
    (hparts : ∀ part ∈ done ++ parts,
      part.length ≤ ResourceLimits.default.maxUncompressedChunkSize)
    (hcount : (done ++ parts).length ≤ maxChunkCount)
    (hbad : ∃ part ∈ parts, ¬ Compresses env level part) :
    compressChunks env (done.flatten ++ parts.flatten) level
        (mapWithHistory plannedChunk done parts)
        (headerLen + (chunkFrames env level done).length) = .error .resourceLimitExceeded := by
  induction parts generalizing done with
  | nil => simp at hbad
  | cons part parts ih =>
    have hcountDone : done.length ≤ maxChunkCount := by
      rw [List.length_append] at hcount
      omega
    have hfits : FitsParts done := fitsParts_of_forall fun p hp => hparts p (by simp [hp])
    have hlen := hfits.length_lt hcountDone
    rw [List.flatten_cons, mapWithHistory]
    by_cases hpart : Compresses env level part
    · rw [compressChunks_step hpart (hparts part (by simp)) hlen
        (length_chunkFrames_lt hcountDone hdone)]
      have hbad' : ∃ part ∈ parts, ¬ Compresses env level part := by
        obtain ⟨p, hp, hnot⟩ := hbad
        rcases List.mem_cons.mp hp with rfl | hp
        · exact absurd hpart hnot
        · exact ⟨p, hp, hnot⟩
      have hdone' : ∀ p ∈ done ++ [part], Compresses env level p := by
        intro p hp
        rcases List.mem_append.mp hp with hp | hp
        · exact hdone p hp
        · rw [List.mem_singleton.mp hp]
          exact hpart
      have htail := ih (done ++ [part]) hdone' (by simpa using hparts) (by simpa using hcount) hbad'
      rw [List.flatten_append, List.flatten_singleton, List.append_assoc] at htail
      rw [htail]
      rfl
    · -- The frame exists and is not empty, so the size check is the step that fails.
      obtain ⟨frame, hencode, hne⟩ := htotal part level
      have hframe : chunkFrame env level part = frame := by
        rw [chunkFrame, hencode, Option.getD_some]
      have hlong : ¬ frame.length ≤ ResourceLimits.default.maxCompressedChunkSize :=
        fun hle => hpart (.of_total htotal (by rw [hframe]; exact hle))
      have hpartLen : part.length ≤ 64 * 1024 * 1024 := hparts part (by simp)
      have hrange := getRange?_append_left done.flatten part parts.flatten
      rw [compressChunks]
      simp only [plannedChunk]
      rw [u64ToUsize_of_lt (by omega), ok_bind, u64ToUsize_of_lt (by omega), ok_bind,
        checkedAdd_of_lt (by omega), okOr_some, ok_bind, hrange, okOr_some, ok_bind, encodeChunk,
        hencode, okOr_some, ok_bind, rejectIf_of_not hne, ok_bind]
      unfold usizeToU64
      split
      · rw [ok_bind, ResourceLimits.enforceChunkSizes, rejectIf_of (by omega), error_bind]
      · rw [error_bind]

end Compress

/-! ## The batch writer on a split -/

section PackBytes

variable {env : Env} {options : WriterOptions} {input : List UInt8}

/-- On an input that splits and compresses, the batch writer assembles the table of the parts. -/
theorem packBytes_of_splits (hoptions : validateWriterOptions options = .ok ⟨⟩)
    (hvalid : Utf8.Valid input) {parts : List (List UInt8)}
    (hsplit : SplitsWithin options.chunker input parts)
    (hcompress : ∀ part ∈ parts, Compresses env options.zstdLevel part) :
    packBytes env input options =
      assembleContainer env input (containerIdFromInput env input) (planOf parts)
        (parts.map (chunkFrame env options.zstdLevel)) (chunkTableOf env options.zstdLevel parts)
        { denseLineIndex := none, documentIndex := none, profile := "core",
          writerOptions := options } := by
  have hadmissible := validateWriterOptions_eq_ok hoptions
  have hloop := compressChunks_of_compresses [] (by simpa using hcompress)
    (fun part hpart => Nat.le_trans
      (hsplit.1.parts_bounds hadmissible.target_le_max part (by simpa using hpart)).2 hadmissible.max_le)
    (by simpa using hsplit.2)
  simp only [List.flatten_nil, List.nil_append, hsplit.1.flatten] at hloop
  have hheader : headerLen + (chunkFrames env options.zstdLevel []).length = headerLen := rfl
  rw [hheader] at hloop
  rw [packBytes, packBytesWithContainerId, packBytesInternal, hoptions, ok_bind,
    validateProfile, rejectIf_of_not (by decide), ok_bind, rejectIf_of_not (by simp), ok_bind,
    checkSome, ok_bind, planChunks_of_splits hadmissible hvalid hsplit, ok_bind,
    checkChunkTableSize, enforceChunkTableEntries_default (by simpa [planOf] using hsplit.2),
    ok_bind]
  simp only [planOf] at *
  rw [hloop]
  rfl

/-- An input without a split into compressible parts is rejected by the batch writer. -/
theorem packBytes_of_not_splits (htotal : env.zstd.Total)
    (hoptions : validateWriterOptions options = .ok ⟨⟩) (hvalid : Utf8.Valid input)
    (h : ∀ parts, SplitsWithin options.chunker input parts →
      ∃ part ∈ parts, ¬ Compresses env options.zstdLevel part) :
    packBytes env input options = .error .resourceLimitExceeded := by
  have hadmissible := validateWriterOptions_eq_ok hoptions
  rw [packBytes, packBytesWithContainerId, packBytesInternal, hoptions, ok_bind,
    validateProfile, rejectIf_of_not (by decide), ok_bind, rejectIf_of_not (by simp), ok_bind,
    checkSome, ok_bind]
  by_cases hsplit : ∃ parts, SplitsWithin options.chunker input parts
  · obtain ⟨parts, hparts⟩ := hsplit
    have hloop := compressChunks_of_not_compresses htotal [] (by simp)
      (fun part hpart => Nat.le_trans
        (hparts.1.parts_bounds hadmissible.target_le_max part (by simpa using hpart)).2 hadmissible.max_le)
      (by simpa using hparts.2) (h parts hparts)
    have hheader : headerLen + (chunkFrames env options.zstdLevel []).length = headerLen := rfl
    simp only [List.flatten_nil, List.nil_append, hparts.1.flatten, hheader] at hloop
    rw [planChunks_of_splits hadmissible hvalid hparts, ok_bind, checkChunkTableSize,
      enforceChunkTableEntries_default (by simpa [planOf] using hparts.2), ok_bind]
    simp only [planOf]
    rw [hloop, error_bind]
  · rw [planChunks_of_not_splits hadmissible hvalid fun parts hparts => hsplit ⟨parts, hparts⟩,
      error_bind]

end PackBytes

end Qzt
