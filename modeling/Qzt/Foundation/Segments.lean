import Mathlib.Data.List.Basic
import Mathlib.Data.List.Sort
import Mathlib.Tactic.Common
import Qzt.Foundation.Slices

/-!
# Terminated segments

A list is cut after every occurrence of a separator; the last segment may lack its
separator.  `segments` are the pieces, `segmentStarts` the positions where they begin.
The start positions of a concatenation are those of the parts: whether a part begins a
segment depends only on the last element before it (`EndsSegment`).
-/

namespace Foundation

variable {α : Type} [DecidableEq α] (sep : α)

/-- The pieces of a list, each ending with its separator except possibly the last. -/
def segments : List α → List (List α)
  | [] => []
  | x :: xs =>
    if x = sep then [x] :: segments xs
    else
      match segments xs with
      | [] => [[x]]
      | s :: ss => (x :: s) :: ss

/-- The positions where segments begin, the list standing at position `o`; `fresh` tells whether a
segment begins there. -/
def segmentStarts : Bool → Nat → List α → List Nat
  | _, _, [] => []
  | fresh, o, x :: xs =>
    (if fresh then [o] else []) ++ segmentStarts (decide (x = sep)) (o + 1) xs

/-- A segment begins after the list. -/
def endsSegment (fresh : Bool) (l : List α) : Bool :=
  match l.getLast? with
  | none => fresh
  | some x => decide (x = sep)

/-- The elements up to and including the first separator. -/
def firstSegment : List α → List α
  | [] => []
  | x :: xs => if x = sep then [x] else x :: firstSegment xs

variable {sep}

/-! ## The state after a list -/

@[simp] theorem endsSegment_nil (fresh : Bool) : endsSegment sep fresh [] = fresh := rfl

theorem endsSegment_cons (fresh : Bool) (x : α) (xs : List α) :
    endsSegment sep fresh (x :: xs) = endsSegment sep (decide (x = sep)) xs := by
  cases xs with
  | nil => rfl
  | cons y ys =>
    have hlast : (y :: ys).getLast? = some ((y :: ys).getLast (by simp)) :=
      List.getLast?_eq_some_getLast (by simp)
    rw [endsSegment, endsSegment, List.getLast?_cons_cons, hlast]

theorem endsSegment_append (fresh : Bool) (l m : List α) :
    endsSegment sep fresh (l ++ m) = endsSegment sep (endsSegment sep fresh l) m := by
  induction l generalizing fresh with
  | nil => rfl
  | cons x xs ih => simp only [List.cons_append, endsSegment_cons, ih]

/-! ## Start positions -/

theorem segmentStarts_cons (fresh : Bool) (o : Nat) (x : α) (xs : List α) :
    segmentStarts sep fresh o (x :: xs) =
      (if fresh then [o] else []) ++ segmentStarts sep (decide (x = sep)) (o + 1) xs := rfl

theorem segmentStarts_append (fresh : Bool) (o : Nat) (l m : List α) :
    segmentStarts sep fresh o (l ++ m) =
      segmentStarts sep fresh o l ++
        segmentStarts sep (endsSegment sep fresh l) (o + l.length) m := by
  induction l generalizing fresh o with
  | nil => rfl
  | cons x xs ih =>
    simp only [List.cons_append, segmentStarts_cons, ih, endsSegment_cons, List.length_cons,
      List.append_assoc]
    congr 3
    omega

/-- A fresh list begins one more segment than the same list in the middle of one. -/
theorem segmentStarts_fresh (fresh : Bool) (o : Nat) (l : List α) :
    segmentStarts sep fresh o l =
      (if fresh ∧ l ≠ [] then [o] else []) ++ segmentStarts sep false o l := by
  cases l with
  | nil => simp [segmentStarts]
  | cons x xs => cases fresh <;> simp [segmentStarts]

theorem segmentStarts_shift (fresh : Bool) (o p : Nat) (l : List α) :
    segmentStarts sep fresh (o + p) l = (segmentStarts sep fresh o l).map (· + p) := by
  induction l generalizing fresh o with
  | nil => rfl
  | cons x xs ih =>
    have hnext : o + p + 1 = o + 1 + p := by omega
    simp only [segmentStarts_cons, hnext, ih, List.map_append]
    cases fresh <;> rfl

theorem length_segmentStarts_eq (fresh : Bool) (o p : Nat) (l : List α) :
    (segmentStarts sep fresh o l).length = (segmentStarts sep fresh p l).length := by
  have h : ∀ p, segmentStarts sep fresh (0 + p) l = (segmentStarts sep fresh 0 l).map (· + p) :=
    fun p => segmentStarts_shift fresh 0 p l
  rw [← Nat.zero_add o, ← Nat.zero_add p, h, h, List.length_map, List.length_map]

theorem segmentStarts_bounds {fresh : Bool} {o : Nat} {l : List α} {s : Nat}
    (h : s ∈ segmentStarts sep fresh o l) : o ≤ s ∧ s < o + l.length := by
  induction l generalizing fresh o with
  | nil => simp [segmentStarts] at h
  | cons x xs ih =>
    rw [segmentStarts_cons, List.mem_append] at h
    rw [List.length_cons]
    rcases h with h | h
    · cases fresh <;> simp at h
      omega
    · have := ih h
      omega

theorem segmentStarts_sorted (fresh : Bool) (o : Nat) (l : List α) :
    (segmentStarts sep fresh o l).Pairwise (· < ·) := by
  induction l generalizing fresh o with
  | nil => simp [segmentStarts]
  | cons x xs ih =>
    rw [segmentStarts_cons, List.pairwise_append]
    refine ⟨by cases fresh <;> simp, ih _ _, ?_⟩
    intro a ha b hb
    have hb := segmentStarts_bounds hb
    cases fresh <;> simp at ha
    omega

theorem length_segmentStarts_le (fresh : Bool) (o : Nat) (l : List α) :
    (segmentStarts sep fresh o l).length ≤ l.length := by
  induction l generalizing fresh o with
  | nil => simp [segmentStarts]
  | cons x xs ih =>
    have := ih (decide (x = sep)) (o + 1)
    rw [segmentStarts_cons, List.length_append, List.length_cons]
    cases fresh <;> simp <;> omega

/-- The number of starts below a position inside the list is the number of starts of the part
before it. -/
theorem length_takeWhile_segmentStarts (fresh : Bool) (l m : List α) :
    ((segmentStarts sep fresh 0 (l ++ m)).takeWhile (· < l.length)).length =
      (segmentStarts sep fresh 0 l).length := by
  rw [segmentStarts_append, List.takeWhile_append_of_pos]
  · have hnone : (segmentStarts sep (endsSegment sep fresh l) (0 + l.length) m).takeWhile
        (· < l.length) = [] := by
      cases hstarts : segmentStarts sep (endsSegment sep fresh l) (0 + l.length) m with
      | nil => rfl
      | cons s ss =>
        have hs : s ∈ segmentStarts sep (endsSegment sep fresh l) (0 + l.length) m := by
          rw [hstarts]
          exact List.mem_cons_self
        have := segmentStarts_bounds hs
        exact List.takeWhile_cons_of_neg (by simp; omega)
    rw [hnone, List.append_nil]
  · intro s hs
    have := segmentStarts_bounds hs
    simp
    omega

/-! ## Segments -/

theorem segments_cons_of_eq {x : α} (h : x = sep) (xs : List α) :
    segments sep (x :: xs) = [x] :: segments sep xs := by
  simp [segments, h]

theorem segments_eq_nil_iff {l : List α} : segments sep l = [] ↔ l = [] := by
  cases l with
  | nil => simp [segments]
  | cons x xs =>
    simp only [segments, reduceCtorEq, iff_false]
    split
    · simp
    · split <;> simp

theorem flatten_segments (l : List α) : (segments sep l).flatten = l := by
  induction l with
  | nil => rfl
  | cons x xs ih =>
    rw [segments]
    split
    · simp [ih]
    · split
      · rename_i hnil
        simp [segments_eq_nil_iff.mp hnil]
      · rename_i s ss hcons
        rw [hcons] at ih
        simpa using ih

@[simp] theorem firstSegment_nil : firstSegment sep [] = [] := rfl

/-- The first segment, and the segments of the rest. -/
theorem segments_eq_cons {l : List α} (h : l ≠ []) :
    segments sep l = firstSegment sep l :: segments sep (l.drop (firstSegment sep l).length) := by
  induction l with
  | nil => exact absurd rfl h
  | cons x xs ih =>
    by_cases hx : x = sep
    · simp [segments, firstSegment, hx]
    · rw [segments, if_neg hx, firstSegment, if_neg hx]
      cases xs with
      | nil => simp [segments]
      | cons y ys =>
        have htail := ih (by simp)
        rw [htail]
        simp

theorem firstSegment_ne_nil {l : List α} (h : l ≠ []) : firstSegment sep l ≠ [] := by
  cases l with
  | nil => exact absurd rfl h
  | cons x xs =>
    rw [firstSegment]
    split <;> simp

theorem firstSegment_append_drop (l : List α) :
    firstSegment sep l ++ l.drop (firstSegment sep l).length = l := by
  induction l with
  | nil => rfl
  | cons x xs ih =>
    rw [firstSegment]
    split
    · simp
    · simpa using ih

/-- Inside a segment no further one begins. -/
theorem segmentStarts_false_firstSegment (o : Nat) (l : List α) :
    segmentStarts sep false o (firstSegment sep l) = [] := by
  induction l generalizing o with
  | nil => rfl
  | cons x xs ih =>
    rw [firstSegment]
    split
    · simp [segmentStarts]
    · rename_i hx
      simp [segmentStarts, hx, ih]

/-- The list goes on after its first segment only behind a separator. -/
theorem endsSegment_firstSegment {l : List α} (fresh : Bool)
    (h : l.drop (firstSegment sep l).length ≠ []) :
    endsSegment sep fresh (firstSegment sep l) = true := by
  induction l generalizing fresh with
  | nil => simp at h
  | cons x xs ih =>
    rw [firstSegment] at h ⊢
    by_cases hx : x = sep
    · simp [hx, endsSegment]
    · rw [if_neg hx] at h ⊢
      rw [endsSegment_cons]
      exact ih _ (by simpa using h)

theorem segmentStarts_true_eq_cons {l : List α} (h : l ≠ []) (o : Nat) :
    segmentStarts sep true o l = o :: segmentStarts sep true (o + (firstSegment sep l).length)
      (l.drop (firstSegment sep l).length) := by
  have hsplit : firstSegment sep l ++ l.drop (firstSegment sep l).length = l :=
    firstSegment_append_drop l
  conv_lhs => rw [← hsplit]
  rw [segmentStarts_append, segmentStarts_fresh, segmentStarts_false_firstSegment,
    if_pos ⟨rfl, firstSegment_ne_nil h⟩]
  by_cases hrest : l.drop (firstSegment sep l).length = []
  · simp [hrest, segmentStarts]
  · rw [endsSegment_firstSegment true hrest]
    rfl

/-- The segments are the first segments at the start positions. -/
theorem segments_eq_map (l : List α) :
    segments sep l =
      (segmentStarts sep true 0 l).map fun s => firstSegment sep (l.drop s) := by
  -- Induction on a bound for the length: the tail behind the first segment is shorter.
  have hgen : ∀ n (m : List α) (o : Nat), (m.length ≤ n) → m = l.drop o →
      segments sep m = (segmentStarts sep true o m).map fun s => firstSegment sep (l.drop s) := by
    intro n
    induction n with
    | zero =>
      intro m o hm _
      obtain rfl := List.eq_nil_of_length_eq_zero (Nat.le_zero.mp hm)
      rfl
    | succ n ih =>
      intro m o hm hdrop
      by_cases hnil : m = []
      · simp [hnil, segments, segmentStarts]
      · have hpos : 0 < (firstSegment sep m).length :=
          List.length_pos_of_ne_nil (firstSegment_ne_nil hnil)
        rw [segments_eq_cons hnil, segmentStarts_true_eq_cons hnil, List.map_cons, ← hdrop]
        congr 1
        refine ih _ _ ?_ ?_
        · rw [List.length_drop]
          have := List.length_pos_of_ne_nil hnil
          omega
        · rw [hdrop, List.drop_drop]
  exact hgen l.length l 0 (Nat.le_refl _) (by simp)

theorem length_segments (l : List α) :
    (segments sep l).length = (segmentStarts sep true 0 l).length := by
  rw [segments_eq_map, List.length_map]

/-! ## Reading a segment across parts -/

/-- A part that holds the separator decides the first segment. -/
theorem firstSegment_append_of_mem {l : List α} (h : sep ∈ l) (m : List α) :
    firstSegment sep (l ++ m) = firstSegment sep l := by
  induction l with
  | nil => simp at h
  | cons x xs ih =>
    rw [List.cons_append, firstSegment, firstSegment]
    split
    · rfl
    · rename_i hx
      rw [ih ((List.mem_cons.mp h).resolve_left (Ne.symm hx))]

/-- A part without the separator belongs to the first segment as a whole. -/
theorem firstSegment_append_of_not_mem {l : List α} (h : sep ∉ l) (m : List α) :
    firstSegment sep (l ++ m) = l ++ firstSegment sep m := by
  induction l with
  | nil => rfl
  | cons x xs ih =>
    rw [List.mem_cons, not_or] at h
    rw [List.cons_append, firstSegment, if_neg (Ne.symm h.1), ih h.2, List.cons_append]

/-! ## Terminated segments -/

/-- The separator is the last element of `s`, and no other. -/
def Terminated (sep : α) (s : List α) : Prop :=
  ∃ body, sep ∉ body ∧ s = body ++ [sep]

omit [DecidableEq α] in
theorem Terminated.ne_nil {s : List α} (h : Terminated sep s) : s ≠ [] := by
  obtain ⟨body, -, rfl⟩ := h
  exact List.append_ne_nil_of_right_ne_nil _ (List.cons_ne_nil _ _)

omit [DecidableEq α] in
theorem Terminated.getLast? {s : List α} (h : Terminated sep s) : s.getLast? = some sep := by
  obtain ⟨body, -, rfl⟩ := h
  exact List.getLast?_concat

omit [DecidableEq α] in
/-- A part without the separator in front of a terminated segment makes it longer. -/
theorem Terminated.append_left {carry s : List α} (hcarry : sep ∉ carry) (h : Terminated sep s) :
    Terminated sep (carry ++ s) := by
  obtain ⟨body, hbody, rfl⟩ := h
  refine ⟨carry ++ body, ?_, (List.append_assoc ..).symm⟩
  rw [List.mem_append, not_or]
  exact ⟨hcarry, hbody⟩

/-- Every segment is terminated, except perhaps one without the separator. -/
theorem terminated_of_mem_segments {l s : List α} (h : s ∈ segments sep l) :
    Terminated sep s ∨ (s ≠ [] ∧ sep ∉ s) := by
  induction l generalizing s with
  | nil => cases h
  | cons x xs ih =>
    rw [segments] at h
    split at h
    case isTrue hx =>
      rcases List.mem_cons.mp h with rfl | h
      · exact .inl ⟨[], List.not_mem_nil, by rw [hx, List.nil_append]⟩
      · exact ih h
    case isFalse hx =>
      split at h
      case h_1 =>
        obtain rfl := List.mem_singleton.mp h
        refine .inr ⟨List.cons_ne_nil _ _, ?_⟩
        rw [List.mem_singleton]
        exact Ne.symm hx
      case h_2 t ts hsegments =>
        rw [hsegments] at ih
        rcases List.mem_cons.mp h with rfl | h
        · -- `x` is put in front of the first segment of the rest.
          rcases ih List.mem_cons_self with ⟨body, hbody, rfl⟩ | ⟨-, hnone⟩
          · refine .inl ⟨x :: body, ?_, rfl⟩
            rw [List.mem_cons, not_or]
            exact ⟨Ne.symm hx, hbody⟩
          · refine .inr ⟨List.cons_ne_nil _ _, ?_⟩
            rw [List.mem_cons, not_or]
            exact ⟨Ne.symm hx, hnone⟩
        · exact ih (List.mem_cons_of_mem _ h)

theorem segments_append_of_terminated {s : List α} (h : Terminated sep s) (l : List α) :
    segments sep (s ++ l) = s :: segments sep l := by
  obtain ⟨body, hbody, rfl⟩ := h
  have hfirst : firstSegment sep (body ++ [sep] ++ l) = body ++ [sep] := by
    rw [List.append_assoc, firstSegment_append_of_not_mem hbody, List.singleton_append,
      firstSegment, if_pos rfl]
  rw [segments_eq_cons (by simp), hfirst, List.drop_left]

theorem segments_of_not_mem {l : List α} (hne : l ≠ []) (h : sep ∉ l) : segments sep l = [l] := by
  have hfirst : firstSegment sep l = l := by
    have happend := firstSegment_append_of_not_mem h []
    rwa [List.append_nil, firstSegment_nil, List.append_nil] at happend
  rw [segments_eq_cons hne, hfirst, List.drop_length, segments]

/-- Terminated pieces at the front are segments. -/
theorem segments_append_of_forall_terminated {ss : List (List α)}
    (hss : ∀ s ∈ ss, Terminated sep s) (rest : List α) :
    segments sep (ss.flatten ++ rest) = ss ++ segments sep rest := by
  induction ss with
  | nil => rfl
  | cons s ss ih =>
    rw [List.forall_mem_cons] at hss
    rw [List.flatten_cons, List.append_assoc, segments_append_of_terminated hss.1, ih hss.2,
      List.cons_append]

/-- The segments of a list are known from any way to cut it into terminated pieces and a rest. -/
theorem segments_flatten_append {ss : List (List α)} (hss : ∀ s ∈ ss, Terminated sep s)
    {rest : List α} (hrest : sep ∉ rest) :
    segments sep (ss.flatten ++ rest) = ss ++ if rest = [] then [] else [rest] := by
  rw [segments_append_of_forall_terminated hss]
  split
  case isTrue hnil => rw [hnil]; rfl
  case isFalse hne => rw [segments_of_not_mem hne hrest]

/-- A piece without separator lies in one segment. -/
theorem exists_segment_of_not_mem {piece : List α} (hne : piece ≠ []) (h : sep ∉ piece)
    (rest : List α) : ∃ s ∈ segments sep (piece ++ rest), piece <+: s := by
  rw [segments_eq_cons (List.append_ne_nil_of_left_ne_nil hne _),
    firstSegment_append_of_not_mem h]
  exact ⟨_, List.mem_cons_self, List.prefix_append _ _⟩

/-- Every list is cut into terminated pieces and a rest without the separator. -/
theorem exists_terminated_append (l : List α) :
    ∃ (ss : List (List α)) (rest : List α), (∀ s ∈ ss, Terminated sep s) ∧ sep ∉ rest ∧
      l = ss.flatten ++ rest := by
  induction l using List.reverseRecOn with
  | nil => exact ⟨[], [], fun s hs => absurd hs List.not_mem_nil, List.not_mem_nil, rfl⟩
  | append_singleton l x ih =>
    obtain ⟨ss, rest, hss, hrest, rfl⟩ := ih
    by_cases hx : x = sep
    · -- The separator ends the rest, which becomes the last piece.
      refine ⟨ss ++ [rest ++ [x]], [], ?_, List.not_mem_nil, ?_⟩
      · intro s hs
        rcases List.mem_append.mp hs with hold | hlast
        · exact hss s hold
        · rw [List.mem_singleton.mp hlast, hx]
          exact ⟨rest, hrest, rfl⟩
      · rw [List.flatten_append, List.flatten_singleton, List.append_nil, List.append_assoc]
    · refine ⟨ss, rest ++ [x], hss, ?_, List.append_assoc ..⟩
      rw [List.mem_append, List.mem_singleton, not_or]
      exact ⟨hrest, Ne.symm hx⟩

/-- Only the last segment may be without the separator. -/
theorem terminated_of_getElem?_segments {l s : List α} {index : Nat}
    (h : (segments sep l)[index]? = some s) :
    Terminated sep s ∨ index + 1 = (segments sep l).length := by
  obtain ⟨ss, rest, hss, hrest, rfl⟩ := @exists_terminated_append α _ sep l
  rw [segments_flatten_append hss hrest] at h ⊢
  rcases Nat.lt_or_ge index ss.length with hlt | hge
  · rw [List.getElem?_append_left hlt] at h
    exact .inl (hss s (List.mem_of_getElem? h))
  · have hbound := (List.getElem?_eq_some_iff.mp h).1
    have hone : (if rest = [] then [] else [rest]).length ≤ 1 := by
      split
      · exact Nat.zero_le _
      · exact Nat.le_refl _
    rw [List.length_append] at hbound ⊢
    exact .inr (by omega)

omit [DecidableEq α] in
/-- Every position of a flattened list lies in one of its parts. -/
theorem exists_part_of_lt {parts : List (List α)} {position : Nat}
    (h : position < parts.flatten.length) :
    ∃ index part, parts[index]? = some part ∧ (parts.take index).flatten.length ≤ position ∧
      position < (parts.take index).flatten.length + part.length := by
  induction parts generalizing position with
  | nil => exact absurd h (Nat.not_lt_zero _)
  | cons part parts ih =>
    rcases Nat.lt_or_ge position part.length with hlt | hge
    · refine ⟨0, part, rfl, Nat.zero_le _, ?_⟩
      rwa [List.take_zero, List.flatten_nil, List.length_nil, Nat.zero_add]
    · rw [List.flatten_cons, List.length_append] at h
      obtain ⟨index, found, hfound, hle, hlt⟩ := @ih (position - part.length) (by omega)
      refine ⟨index + 1, found, hfound, ?_, ?_⟩
      · rw [List.take_succ_cons, List.flatten_cons, List.length_append]
        omega
      · rw [List.take_succ_cons, List.flatten_cons, List.length_append]
        omega

end Foundation
