import Qzt.Cli.ContextWindow
import Qzt.Text.Lines

/-!
# The lines of a context view

The lines of the window are counted by the line starts before a position.  From the counts
follow the order of the segments, the number of lines on each side of the hit, and what a
side that is reported complete contains.
-/

namespace Qzt.Context

open Foundation

/-! ## Lines by counting -/

section Lines

variable {text : List UInt8} {p q : Nat}

/-- The lines up to the end of a part: those up to its first byte, and those of the part. -/
theorem countLines_append_cons (before : List UInt8) (byte : UInt8) (rest : List UInt8) :
    countLines (before ++ byte :: rest) + 1 =
      countLines (before ++ [byte]) + countLines (byte :: rest) := by
  have hone : countLines [byte] = 1 := rfl
  have hends : endsLine (before ++ [byte]) = endsLine ([] ++ [byte]) := by
    rw [endsLine_append_of_ne_nil _ (by simp), endsLine_append_of_ne_nil _ (by simp)]
  have hparts : partLineStarts (before ++ [byte]) rest = partLineStarts [byte] rest := by
    rw [partLineStarts, partLineStarts, hends, List.nil_append]
  have hwhole : before ++ byte :: rest = (before ++ [byte]) ++ rest := by simp
  have hpart : byte :: rest = [byte] ++ rest := rfl
  rw [hwhole, countLines_append (before ++ [byte]), hparts, hpart, countLines_append [byte], hone]
  omega

theorem take_eq_append_slice (hp : p ≤ q) :
    text.take q = text.take p ++ slice text p (q - p) := by
  have hq : q = p + (q - p) := by omega
  conv_lhs => rw [hq, List.take_add]
  rfl

theorem countLines_take_le (text : List UInt8) (hp : p ≤ q) :
    countLines (text.take p) ≤ countLines (text.take q) := by
  rw [take_eq_append_slice hp, countLines_append]
  exact Nat.le_add_right _ _

/-- The lines of a range, from the counts up to its first byte and up to its end. -/
theorem countLines_slice (hp : p < q) (hq : q ≤ text.length) :
    countLines (text.take q) + 1 =
      countLines (text.take (p + 1)) + countLines (slice text p (q - p)) := by
  have hlt : p < text.length := by omega
  obtain ⟨n, rfl⟩ : ∃ n, q = p + (n + 1) := ⟨q - p - 1, by omega⟩
  have hslice : slice text p (p + (n + 1) - p) = text[p] :: slice text (p + 1) n := by
    rw [Nat.add_sub_cancel_left, slice, List.drop_eq_getElem_cons hlt, List.take_succ_cons]
    rfl
  rw [take_eq_append_slice (Nat.le_of_lt hp), hslice, countLines_append_cons, List.take_succ_eq_append_getElem hlt]

end Lines

/-! ## Segments -/

section Segments

/-- Line `index` of `text`, as a range. -/
structure Segment (text : List UInt8) (index : Nat) (segment : Nat × Nat) : Prop where
  lt : segment.1 < segment.2
  le : segment.2 ≤ text.length
  counts : ∀ p, segment.1 ≤ p → p < segment.2 → countLines (text.take (p + 1)) = index + 1
  starts : segment.1 = 0 ∨ text[segment.1 - 1]? = some lf
  ends : segment.2 = text.length ∨ text[segment.2 - 1]? = some lf

/-- The state of the scan after `before`: line `index` has begun at `start`. -/
structure Scanning (before : List UInt8) (start index : Nat) : Prop where
  le : start ≤ before.length
  counts : ∀ p, start ≤ p → p < before.length → countLines (before.take (p + 1)) = index + 1
  starts : start = 0 ∨ before[start - 1]? = some lf
  fresh : endsLine before = decide (start = before.length)
  count : start = before.length → countLines before = index

variable {before : List UInt8} {start index : Nat}

/-- The next byte belongs to the line that has begun. -/
theorem Scanning.countLines_concat (h : Scanning before start index) (byte : UInt8) :
    countLines (before ++ [byte]) = index + 1 := by
  rw [countLines_append, partLineStarts, h.fresh]
  by_cases hstart : start = before.length
  · rw [h.count hstart]
    simp [hstart, segmentStarts]
  · have hle := h.le
    have hlast := h.counts (before.length - 1) (by omega) (by omega)
    rw [show before.length - 1 + 1 = before.length by omega, List.take_length] at hlast
    simp [hstart, segmentStarts, hlast]

theorem Scanning.counts_concat (h : Scanning before start index) (byte : UInt8) {p : Nat}
    (hp : start ≤ p) (hlt : p < (before ++ [byte]).length) :
    countLines ((before ++ [byte]).take (p + 1)) = index + 1 := by
  have hle : p ≤ before.length := by simpa [Nat.lt_succ_iff] using hlt
  rcases Nat.lt_or_ge p before.length with hbefore | hbyte
  · rw [List.take_append_of_le_length (by omega)]
    exact h.counts p hp hbefore
  · rw [List.take_of_length_le (by simp; omega)]
    exact h.countLines_concat byte

theorem Scanning.lf (h : Scanning before start index) :
    Scanning (before ++ [lf]) (before ++ [lf]).length (index + 1) where
  le := Nat.le_refl _
  counts := fun _ hp hlt => absurd hp (Nat.not_le.mpr hlt)
  starts := .inr (by simp)
  fresh := by
    rw [endsLine_append_of_ne_nil _ (by simp)]
    simp
  count := fun _ => h.countLines_concat Qzt.lf

theorem Scanning.other (h : Scanning before start index) {byte : UInt8} (hbyte : byte ≠ Qzt.lf) :
    Scanning (before ++ [byte]) start index where
  le := by
    have := h.le
    simp
    omega
  counts := fun _ hp hlt => h.counts_concat byte hp hlt
  starts := by
    rcases h.starts with hzero | hlf
    · exact .inl hzero
    · have hlt := (List.getElem?_eq_some_iff.mp hlf).1
      rw [List.getElem?_append_left hlt]
      exact .inr hlf
  fresh := by
    have hle := h.le
    rw [endsLine_append_of_ne_nil _ (by simp)]
    have hne : start ≠ (before ++ [byte]).length := by
      rw [List.length_append, List.length_singleton]
      omega
    rw [decide_eq_false hne]
    simp [hbyte]
  count := fun heq => by
    have hle := h.le
    simp at heq
    omega

/-- The scan lists the lines in order. -/
theorem segmentsLoop_spec (rest : List UInt8) :
    ∀ {before : List UInt8} {start index : Nat}, Scanning before start index →
      ∀ {i : Nat} {segment : Nat × Nat},
        (segmentsLoop rest before.length start)[i]? = some segment →
          Segment (before ++ rest) (index + i) segment := by
  induction rest with
  | nil =>
    intro before start index h i segment hget
    rw [segmentsLoop] at hget
    split at hget
    case isTrue hlt =>
      cases i with
      | zero =>
        cases hget
        rw [List.append_nil]
        exact ⟨hlt, Nat.le_refl _, h.counts, h.starts, .inl rfl⟩
      | succ i => cases hget
    case isFalse => cases hget
  | cons byte rest ih =>
    intro before start index h i segment hget
    have hassoc : before ++ byte :: rest = (before ++ [byte]) ++ rest := by simp
    have hlength : before.length + 1 = (before ++ [byte]).length := by simp
    rw [segmentsLoop, hlength] at hget
    rw [hassoc]
    split at hget
    case isTrue hbyte =>
      subst hbyte
      cases i with
      | succ i =>
        have hnext := ih h.lf hget
        rw [show index + 1 + i = index + (i + 1) by omega] at hnext
        exact hnext
      | zero =>
        cases hget
        -- this byte ends the line
        have hle := h.le
        refine ⟨?_, ?_, ?_, ?_, .inr ?_⟩
        · simp
          omega
        · simp
        · intro p hp hlt
          rw [List.take_append_of_le_length (by exact hlt)]
          exact h.counts_concat Qzt.lf hp hlt
        · rcases h.starts with hzero | hlf
          · exact .inl hzero
          · have hlt := (List.getElem?_eq_some_iff.mp hlf).1
            rw [List.append_assoc, List.getElem?_append_left hlt]
            exact .inr hlf
        · simp
    case isFalse hbyte => exact ih (h.other hbyte) hget

/-- Every segment of the window is one of its lines. -/
theorem segments_getElem? {text : List UInt8} {i : Nat} {segment : Nat × Nat}
    (h : (segments text)[i]? = some segment) : Segment text i segment := by
  have hstart : Scanning [] 0 0 :=
    ⟨Nat.le_refl _, fun p _ hlt => absurd hlt (Nat.not_lt_zero p), .inl rfl, rfl, fun _ => rfl⟩
  have hspec := segmentsLoop_spec text hstart h
  rw [List.nil_append, Nat.zero_add] at hspec
  exact hspec

variable {text : List UInt8} {i j : Nat} {segment segment' : Nat × Nat}

/-- Later lines begin where earlier ones have ended. -/
theorem Segment.end_le_start (h : Segment text i segment) (h' : Segment text j segment')
    (hlt : i < j) : segment.2 ≤ segment'.1 := by
  by_contra hover
  have hi := h.counts (segment.2 - 1) (by have := h.lt; omega) (by have := h.lt; omega)
  have hj := h'.counts segment'.1 (Nat.le_refl _) h'.lt
  have hmono := countLines_take_le text (show segment'.1 + 1 ≤ segment.2 - 1 + 1 by omega)
  omega

theorem Segment.start_le_start (h : (segments text)[i]? = some segment)
    (h' : (segments text)[j]? = some segment') (hle : i ≤ j) : segment.1 ≤ segment'.1 := by
  rcases Nat.lt_or_eq_of_le hle with hlt | rfl
  · have hends := (segments_getElem? h).end_le_start (segments_getElem? h') hlt
    have := (segments_getElem? h).lt
    omega
  · rw [h, Option.some.injEq] at h'
    rw [h']

theorem Segment.end_le_end (h : (segments text)[i]? = some segment)
    (h' : (segments text)[j]? = some segment') (hle : i ≤ j) : segment.2 ≤ segment'.2 := by
  rcases Nat.lt_or_eq_of_le hle with hlt | rfl
  · have hends := (segments_getElem? h).end_le_start (segments_getElem? h') hlt
    have := (segments_getElem? h').lt
    omega
  · rw [h, Option.some.injEq] at h'
    rw [h']

end Segments

/-! ## The excerpt -/

section Excerpts

variable {options : Options} {scanned : List UInt8}
  {hitStart hitEnd scopeStart scopeEnd scanStart : Nat}

/-- The clip keeps the hit, stays inside what is desired, and fits the budget. -/
theorem limitExcerpt_safe {desiredStart desiredEnd max : Nat} (hstart : desiredStart ≤ hitStart)
    (hhit : hitStart ≤ hitEnd) (hend : hitEnd ≤ desiredEnd) (hmax : hitEnd - hitStart ≤ max) :
    Safe (limitExcerpt desiredStart desiredEnd hitStart hitEnd max) (fun excerpt =>
      (desiredStart ≤ excerpt.1 ∧ excerpt.1 ≤ hitStart) ∧
        (hitEnd ≤ excerpt.2 ∧ excerpt.2 ≤ desiredEnd) ∧ excerpt.2 - excerpt.1 ≤ max) := by
  rw [limitExcerpt]
  refine safe_bind (safe_sub hhit) fun hitLength hlength => ?_
  subst hlength
  refine safe_bind (safe_sub hmax) fun available havailable => ?_
  refine safe_bind (safe_sub hstart) fun beforeWanted hbefore => ?_
  refine safe_bind (safe_sub hend) fun afterWanted hafter => ?_
  dsimp only
  -- of each share only its two bounds matter
  have hbeforeWanted := Nat.min_le_left beforeWanted (available / 2)
  have hbeforeHalf := Nat.min_le_right beforeWanted (available / 2)
  generalize min beforeWanted (available / 2) = before at hbeforeWanted hbeforeHalf ⊢
  refine safe_bind (safe_sub (by omega)) fun room hroom => ?_
  have hafterWanted := Nat.min_le_left afterWanted room
  have hafterRoom := Nat.min_le_right afterWanted room
  generalize min afterWanted room = after at hafterWanted hafterRoom ⊢
  refine safe_bind (safe_sub (by omega)) fun room' hroom' => ?_
  refine safe_bind (safe_sub (by omega)) fun spare hspare => ?_
  have hmoreWanted := Nat.min_le_left (beforeWanted - before) spare
  have hmoreSpare := Nat.min_le_right (beforeWanted - before) spare
  generalize min (beforeWanted - before) spare = more at hmoreWanted hmoreSpare ⊢
  refine safe_bind (safe_sub (by omega)) fun room'' hroom'' => ?_
  refine safe_bind (safe_sub (by omega)) fun spare' hspare' => ?_
  have hrestWanted := Nat.min_le_left (afterWanted - after) spare'
  have hrestSpare := Nat.min_le_right (afterWanted - after) spare'
  generalize min (afterWanted - after) spare' = rest at hrestWanted hrestSpare ⊢
  refine safe_bind (safe_sub (by omega)) fun excerptStart hexcerpt => ?_
  refine safe_ok ⟨⟨?_, ?_⟩, ⟨?_, ?_⟩, ?_⟩
  · dsimp only
    omega
  · dsimp only
    omega
  · exact Nat.le_add_right _ _
  · dsimp only
    omega
  · dsimp only
    omega

theorem segmentOf_safe {position : Nat} :
    Safe (segmentOf (segments scanned) position) (fun index => ∃ segment,
      (segments scanned)[index]? = some segment ∧ segment.1 ≤ position ∧ position < segment.2) := by
  refine safe_okOr.mono fun index hindex => ?_
  obtain ⟨hlt, hholds, -⟩ := List.findIdx?_eq_some_iff_getElem.mp hindex
  refine ⟨_, List.getElem?_eq_getElem hlt, ?_⟩
  simpa using hholds

theorem isLeadingFragment_safe {excerptStart : Nat} (hscope : scopeStart ≤ excerptStart)
    (hscan : scanStart ≤ excerptStart) (hle : excerptStart ≤ scanStart + scanned.length) :
    Safe (isLeadingFragment scanned scanStart scopeStart excerptStart (excerptStart - scanStart))
      (fun fragment => fragment = false → excerptStart = scopeStart ∨
        (scanStart < excerptStart ∧ scanned[excerptStart - scanStart - 1]? = some lf)) := by
  rw [isLeadingFragment]
  apply safe_ite
  · intro hinside
    apply safe_ite
    · intro _ hfalse
      cases hfalse
    · intro hne
      refine safe_bind (safe_sub (by omega)) fun previous hprevious => ?_
      subst hprevious
      refine safe_bind (safe_item (by omega)) fun byte hbyte => ?_
      refine safe_ok fun hlf => .inr ⟨by omega, ?_⟩
      simp only [ne_eq, decide_not, Bool.not_eq_eq_eq_not, Bool.not_false, decide_eq_true_eq] at hlf
      rw [hbyte, hlf]
  · intro houtside
    exact safe_ok fun _ => .inl (by omega)

theorem isTrailingFragment_safe {excerptEnd : Nat} (hscope : excerptEnd ≤ scopeEnd)
    (hscan : scanStart < excerptEnd) (hle : excerptEnd ≤ scanStart + scanned.length) :
    Safe (isTrailingFragment scanned scopeEnd excerptEnd (excerptEnd - scanStart))
      (fun fragment => fragment = false →
        excerptEnd = scopeEnd ∨ scanned[excerptEnd - scanStart - 1]? = some lf) := by
  rw [isTrailingFragment]
  apply safe_ite
  · intro hinside
    refine safe_bind (safe_sub (by omega)) fun previous hprevious => ?_
    subst hprevious
    refine safe_bind (safe_item (by omega)) fun byte hbyte => ?_
    refine safe_ok fun hlf => .inr ?_
    simp only [ne_eq, decide_not, Bool.not_eq_eq_eq_not, Bool.not_false, decide_eq_true_eq] at hlf
    rw [hbyte, hlf]
  · intro houtside
    exact safe_ok fun _ => .inl (by omega)

theorem stopReason_eq_complete {requested returned : Nat} {clipped reached fragment : Bool}
    (h : stopReason requested returned clipped reached fragment = .complete) :
    clipped = false ∧ fragment = false ∧ requested ≤ returned := by
  unfold stopReason at h
  split at h
  · cases h
  · split at h
    · simp_all
    · split at h <;> cases h

theorem stopReason_eq_scopeBoundary {requested returned : Nat} {clipped reached fragment : Bool}
    (h : stopReason requested returned clipped reached fragment = .scopeBoundary) :
    reached = true := by
  unfold stopReason at h
  split at h
  · cases h
  · split at h
    · cases h
    · split at h
      · assumption
      · cases h

theorem countP_le_sub {α : Type} {l : List α} {test : α → Bool} {k : Nat}
    (h : ∀ a ∈ l.take k, test a = false) : l.countP test ≤ l.length - k := by
  have hzero : (l.take k).countP test = 0 := by
    rw [List.countP_eq_zero]
    intro a ha
    rw [h a ha]
    exact Bool.false_ne_true
  rw [← List.take_append_drop k l, List.countP_append, hzero, Nat.zero_add, List.take_append_drop,
    ← List.length_drop]
  exact List.countP_le_length

theorem countP_le_of_drop {α : Type} {l : List α} {test : α → Bool} {k : Nat}
    (h : ∀ a ∈ l.drop k, test a = false) : l.countP test ≤ k := by
  have hzero : (l.drop k).countP test = 0 := by
    rw [List.countP_eq_zero]
    intro a ha
    rw [h a ha]
    exact Bool.false_ne_true
  rw [← List.take_append_drop k l, List.countP_append, hzero, Nat.add_zero]
  exact Nat.le_trans List.countP_le_length (List.length_take_le k l)

/-- The lines counted before the hit are those from the first selected one on. -/
theorem beforeReturned_le {first selected excerptStart : Nat} {segment : Nat × Nat}
    (hfirst : first ≤ (segments scanned).length)
    (hselected : (segments scanned)[selected]? = some segment)
    (hstart : excerptStart = scanStart + segment.1) :
    (slice (segments scanned) 0 (first - 0)).countP
      (fun segment => decide (scanStart + segment.2 > excerptStart)) ≤ first - selected := by
  have hlength : (slice (segments scanned) 0 (first - 0)).length = first := by
    rw [length_slice_of_le (by omega), Nat.sub_zero]
  refine Nat.le_trans (countP_le_sub (k := selected) fun other hother => ?_) (by rw [hlength])
  obtain ⟨i, hi, rfl⟩ := List.mem_take_iff_getElem.mp hother
  rw [hlength] at hi
  have hget : (segments scanned)[i]? = some (slice (segments scanned) 0 (first - 0))[i] := by
    rw [← List.getElem?_eq_getElem (by omega), getElem?_slice (by omega), Nat.zero_add]
  have hends := (segments_getElem? hget).end_le_start (segments_getElem? hselected) (by omega)
  simp only [gt_iff_lt, decide_eq_false_iff_not, not_lt]
  omega

/-- The lines counted after the hit are those up to the last selected one. -/
theorem afterReturned_le {last selected excerptEnd : Nat} {segment : Nat × Nat}
    (hlast : last < (segments scanned).length) (hle : last ≤ selected)
    (hselected : (segments scanned)[selected]? = some segment)
    (hend : excerptEnd = scanStart + segment.2) :
    (slice (segments scanned) (last + 1) ((segments scanned).length - (last + 1))).countP
      (fun segment => decide (scanStart + segment.1 < excerptEnd)) ≤ selected - last := by
  refine countP_le_of_drop fun other hother => ?_
  obtain ⟨i, hi⟩ := List.mem_iff_getElem?.mp hother
  have hlt := (List.getElem?_eq_some_iff.mp hi).1
  rw [List.length_drop, length_slice_of_le (by omega)] at hlt
  rw [List.getElem?_drop, getElem?_slice (by omega)] at hi
  have hends := (segments_getElem? hselected).end_le_start (segments_getElem? hi) (by omega)
  simp only [decide_eq_false_iff_not, not_lt]
  omega

/-- What the selection guarantees, in terms of the window. -/
structure Selected (scanned : List UInt8) (options : Options)
    (hitStart hitEnd scopeStart scopeEnd scanStart : Nat) (excerpt : Excerpt) : Prop where
  scan_start : scanStart ≤ excerpt.excerptStart
  scan_end : excerpt.excerptStart + excerpt.bytes.length ≤ scanStart + scanned.length
  hit_start : excerpt.excerptStart ≤ hitStart
  hit_end : hitEnd ≤ excerpt.excerptStart + excerpt.bytes.length
  budget : excerpt.bytes.length ≤ options.excerpt
  bytes : excerpt.bytes = slice scanned (excerpt.excerptStart - scanStart) excerpt.bytes.length
  before_edge : excerpt.beforeStop = .complete → excerpt.excerptStart = scopeStart ∨
    (scanStart < excerpt.excerptStart ∧
      scanned[excerpt.excerptStart - scanStart - 1]? = some lf)
  before_lines : excerpt.beforeStop = .complete →
    countLines (slice scanned (excerpt.excerptStart - scanStart)
      (hitStart + 1 - excerpt.excerptStart)) = options.before + 1
  after_edge : excerpt.afterStop = .complete →
    excerpt.excerptStart + excerpt.bytes.length = scopeEnd ∨
      scanned[excerpt.excerptStart + excerpt.bytes.length - scanStart - 1]? = some lf
  after_lines : excerpt.afterStop = .complete →
    countLines (slice scanned (hitEnd - 1 - scanStart)
      (excerpt.excerptStart + excerpt.bytes.length - (hitEnd - 1))) = options.after + 1
  before_scope : excerpt.beforeStop = .scopeBoundary → excerpt.excerptStart = scopeStart
  after_scope : excerpt.afterStop = .scopeBoundary →
    excerpt.excerptStart + excerpt.bytes.length = scopeEnd

/-- The selection succeeds without a panic on every window that covers the hit. -/
theorem selectExcerpt_safe (hit : Hit options hitStart hitEnd scopeStart scopeEnd)
    (hscope : scopeStart ≤ scanStart) (hscopeEnd : scanStart + scanned.length ≤ scopeEnd)
    (hstart : scanStart ≤ hitStart) (hend : hitEnd ≤ scanStart + scanned.length) :
    Safe (selectExcerpt scanned options hitStart hitEnd scopeStart scopeEnd scanStart)
      (Selected scanned options hitStart hitEnd scopeStart scopeEnd scanStart) := by
  obtain ⟨hnonempty, -, -, hlt, -, hexcerpt⟩ := hit
  rw [selectExcerpt]
  refine safe_bind (safe_sub hstart) fun hitLocalStart hlocalStart => ?_
  refine safe_bind (safe_sub (by omega)) fun hitLastByte hlastByte => ?_
  refine safe_bind (safe_sub (by omega)) fun hitLocalLast hlocalLast => ?_
  refine safe_bind segmentOf_safe fun first hfirst => ?_
  refine safe_bind segmentOf_safe fun last hlast => ?_
  obtain ⟨firstSegment, hfirstGet, hfirstStart, hfirstEnd⟩ := hfirst
  obtain ⟨lastSegment, hlastGet, hlastStart, hlastEnd⟩ := hlast
  have hfirstLt := (List.getElem?_eq_some_iff.mp hfirstGet).1
  have hlastLt := (List.getElem?_eq_some_iff.mp hlastGet).1
  have hlines := (segments_getElem? hlastGet).counts _ hlastStart hlastEnd
  have hbound := countLines_le (scanned.take (hitLocalLast + 1))
  have htake := List.length_take_le (hitLocalLast + 1) scanned
  refine safe_bind (safe_sub (by omega)) fun lastIndex hlastIndex => ?_
  dsimp only
  -- the selected lines enclose those of the hit
  have hselectedLast : last ≤ min (saturatingAdd last options.after) lastIndex := by
    rw [saturatingAdd]
    omega
  have hselectedAfter : min (saturatingAdd last options.after) lastIndex ≤ last + options.after := by
    rw [saturatingAdd]
    omega
  have hselectedLt : min (saturatingAdd last options.after) lastIndex < (segments scanned).length := by
    omega
  generalize min (saturatingAdd last options.after) lastIndex = selectedLast at *
  refine safe_bind (safe_item (by omega)) fun startSegment hstartGet => ?_
  refine safe_bind (safe_item hselectedLt) fun endSegment hendGet => ?_
  have hdesiredStart := Segment.start_le_start hstartGet hfirstGet (Nat.sub_le _ _)
  have hdesiredEnd := Segment.end_le_end hlastGet hendGet hselectedLast
  have hendLe := (segments_getElem? hendGet).le
  refine safe_bind (limitExcerpt_safe (by omega) (Nat.le_of_lt hnonempty) (by omega) hexcerpt)
    fun excerpt hlimits => ?_
  obtain ⟨excerptStart, excerptEnd⟩ := excerpt
  obtain ⟨⟨hclipStart, hhitStart⟩, ⟨hhitEnd, hclipEnd⟩, hbudget⟩ := hlimits
  dsimp only at hclipStart hhitStart hhitEnd hclipEnd hbudget ⊢
  refine safe_bind (safe_range (Nat.zero_le _) (Nat.le_of_lt hfirstLt)) fun linesBefore hlinesBefore => ?_
  refine safe_bind (safe_range hlastLt (Nat.le_refl _)) fun linesAfter hlinesAfter => ?_
  refine safe_bind (safe_sub (by omega)) fun localStart hexcerptStart => ?_
  refine safe_bind (safe_sub (by omega)) fun localEnd hexcerptEnd => ?_
  subst hexcerptStart hexcerptEnd hlinesBefore hlinesAfter
  refine safe_bind (isLeadingFragment_safe (by omega) (by omega) (by omega))
    fun leadingFragment hleading => ?_
  refine safe_bind (isTrailingFragment_safe (by omega) (by omega) (by omega))
    fun trailingFragment htrailing => ?_
  refine safe_bind (safe_range (by omega) (by omega)) fun bytes hbytes => ?_
  have hlength : bytes.length = excerptEnd - excerptStart := by
    rw [hbytes, length_slice_of_le (by omega)]
    omega
  have hstop : excerptStart + bytes.length = excerptEnd := by omega
  refine safe_ok {
    scan_start := by dsimp only; omega
    scan_end := by dsimp only; omega
    hit_start := hhitStart
    hit_end := by dsimp only; omega
    budget := by dsimp only; omega
    bytes := by
      dsimp only
      rw [hlength, hbytes]
      congr 1
      omega
    before_edge := fun hcomplete => hleading (stopReason_eq_complete hcomplete).2.1
    before_lines := ?_
    after_edge := ?_
    after_lines := ?_
    before_scope := fun hboundary => by simpa using stopReason_eq_scopeBoundary hboundary
    after_scope := fun hboundary => by
      dsimp only
      rw [hstop]
      simpa using stopReason_eq_scopeBoundary hboundary }
  · intro hcomplete
    obtain ⟨hclipped, -, hreturned⟩ := stopReason_eq_complete hcomplete
    have hexact : excerptStart = scanStart + startSegment.1 := by
      simp only [gt_iff_lt, decide_eq_false_iff_not, not_lt] at hclipped
      omega
    -- nothing is clipped, so the lines counted are the selected ones
    have hcount := beforeReturned_le (Nat.le_of_lt hfirstLt) hstartGet hexact
    have hrequested : options.before ≤ first := by omega
    have hfirstLine := (segments_getElem? hfirstGet).counts _ hfirstStart hfirstEnd
    have hstartLine := (segments_getElem? hstartGet).counts _ (Nat.le_refl _)
      (segments_getElem? hstartGet).lt
    have hslice := @countLines_slice scanned startSegment.1 (hitLocalStart + 1)
      (by omega) (by omega)
    dsimp only
    rw [show excerptStart - scanStart = startSegment.1 by omega,
      show hitStart + 1 - excerptStart = hitLocalStart + 1 - startSegment.1 by omega]
    omega
  · intro hcomplete
    dsimp only
    rw [hstop]
    exact htrailing (stopReason_eq_complete hcomplete).2.1
  · intro hcomplete
    obtain ⟨hclipped, -, hreturned⟩ := stopReason_eq_complete hcomplete
    have hexact : excerptEnd = scanStart + endSegment.2 := by
      simp only [decide_eq_false_iff_not, not_lt] at hclipped
      omega
    have hcount := afterReturned_le hlastLt hselectedLast hendGet hexact
    have hrequested : selectedLast = last + options.after := by omega
    have hendLt := (segments_getElem? hendGet).lt
    have hendLine := (segments_getElem? hendGet).counts (endSegment.2 - 1) (by omega) (by omega)
    rw [show endSegment.2 - 1 + 1 = endSegment.2 by omega] at hendLine
    have hslice := @countLines_slice scanned hitLocalLast endSegment.2 (by omega) (by omega)
    dsimp only
    rw [show hitEnd - 1 - scanStart = hitLocalLast by omega,
      show excerptStart + bytes.length - (hitEnd - 1) = endSegment.2 - hitLocalLast by omega]
    omega

end Excerpts

end Qzt.Context
