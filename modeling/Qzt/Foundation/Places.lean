import Qzt.Foundation.Slices

/-!
# Parts in place

`StandsAt l o part` says that `part` stands in `l` at the offset `o`.  What is written as one
part after another is found part by part, each where the one before it ends.
-/

namespace Foundation

variable {α : Type} {l part first second : List α} {offset : Nat}

/-- The part stands in the list at the offset. -/
def StandsAt (l : List α) (offset : Nat) (part : List α) : Prop :=
  ∃ before behind, l = before ++ (part ++ behind) ∧ before.length = offset

theorem standsAt_self (l : List α) : StandsAt l 0 l :=
  ⟨[], [], by rw [List.append_nil, List.nil_append], rfl⟩

/-- A list behind another one. -/
theorem standsAt_append (before part : List α) :
    StandsAt (before ++ part) before.length part :=
  ⟨before, [], by rw [List.append_nil], rfl⟩

theorem StandsAt.inside (h : StandsAt l offset part) : offset + part.length ≤ l.length := by
  obtain ⟨before, behind, rfl, rfl⟩ := h
  simp only [List.length_append]
  omega

theorem StandsAt.slice (h : StandsAt l offset part) :
    Foundation.slice l offset part.length = part := by
  obtain ⟨before, behind, rfl, rfl⟩ := h
  exact slice_append_left before part behind

theorem StandsAt.getRange (h : StandsAt l offset part) :
    getRange? l offset (offset + part.length) = some part := by
  obtain ⟨before, behind, rfl, rfl⟩ := h
  exact getRange?_append_left before part behind

/-- The first of two parts. -/
theorem StandsAt.left (h : StandsAt l offset (first ++ second)) : StandsAt l offset first := by
  obtain ⟨before, behind, rfl, hlength⟩ := h
  exact ⟨before, second ++ behind, by rw [List.append_assoc], hlength⟩

/-- The second one stands where the first ends. -/
theorem StandsAt.right (h : StandsAt l offset (first ++ second)) :
    StandsAt l (offset + first.length) second := by
  obtain ⟨before, behind, rfl, rfl⟩ := h
  refine ⟨before ++ first, behind, ?_, List.length_append⟩
  simp only [List.append_assoc]

/-- A part of a part. -/
theorem StandsAt.trans {inner : List α} {start : Nat} (h : StandsAt l offset part)
    (hinner : StandsAt part start inner) : StandsAt l (offset + start) inner := by
  obtain ⟨before, behind, rfl, rfl⟩ := h
  obtain ⟨front, back, rfl, rfl⟩ := hinner
  refine ⟨before ++ front, back ++ behind, ?_, List.length_append⟩
  simp only [List.append_assoc]

/-- Two parts that meet are one part. -/
theorem StandsAt.append (hfirst : StandsAt l offset first)
    (hsecond : StandsAt l (offset + first.length) second) :
    StandsAt l offset (first ++ second) := by
  obtain ⟨before, behind, rfl, rfl⟩ := hfirst
  obtain ⟨front, back, hsame, hlength⟩ := hsecond
  have hfront : front = before ++ first := by
    rw [← List.append_assoc] at hsame
    exact (List.append_inj_left hsame (by rw [List.length_append, hlength])).symm
  rw [hfront, List.append_assoc, List.append_cancel_left_eq, List.append_cancel_left_eq] at hsame
  exact ⟨before, back, by rw [hsame, List.append_assoc], rfl⟩

theorem standsAt_append_iff : StandsAt l offset (first ++ second) ↔
    StandsAt l offset first ∧ StandsAt l (offset + first.length) second :=
  ⟨fun h => ⟨h.left, h.right⟩, fun h => h.1.append h.2⟩

/-- Nothing stands everywhere in the list. -/
theorem standsAt_nil (h : offset ≤ l.length) : StandsAt l offset [] :=
  ⟨l.take offset, l.drop offset, (List.take_append_drop offset l).symm, List.length_take_of_le h⟩

/-- A part as long as the list is the list. -/
theorem StandsAt.eq_of_length (h : StandsAt l offset part) (hlength : part.length = l.length) :
    part = l := by
  obtain ⟨before, behind, rfl, rfl⟩ := h
  simp only [List.length_append] at hlength
  have hbefore : before = [] := List.eq_nil_of_length_eq_zero (by omega)
  have hbehind : behind = [] := List.eq_nil_of_length_eq_zero (by omega)
  rw [hbefore, hbehind, List.append_nil, List.nil_append]

/-- What stands at an offset is the front of the rest from there on. -/
theorem standsAt_iff_drop (hpart : part ≠ []) :
    StandsAt l offset part ↔ ∃ behind, l.drop offset = part ++ behind := by
  constructor
  · rintro ⟨before, behind, rfl, rfl⟩
    exact ⟨behind, List.drop_left⟩
  · rintro ⟨behind, hdrop⟩
    refine ⟨l.take offset, behind, by rw [← hdrop, List.take_append_drop], ?_⟩
    have hlength := congrArg List.length hdrop
    have hpos := List.length_pos_of_ne_nil hpart
    rw [List.length_drop, List.length_append] at hlength
    rw [List.length_take]
    omega

/-- A slice stands where it was cut. -/
theorem standsAt_slice {count : Nat} (h : offset + count ≤ l.length) :
    StandsAt l offset (slice l offset count) := by
  refine ⟨l.take offset, l.drop (offset + count), ?_, by rw [List.length_take]; omega⟩
  rw [slice, ← List.drop_drop, List.take_append_drop, List.take_append_drop]

/-- A part of a sequence of parts stands where the ones before it end. -/
theorem standsAt_flatten {parts : List (List α)} {index : Nat} (h : parts[index]? = some part) :
    StandsAt parts.flatten (parts.take index).flatten.length part := by
  obtain ⟨hlt, rfl⟩ := List.getElem?_eq_some_iff.mp h
  refine ⟨(parts.take index).flatten, (parts.drop (index + 1)).flatten, ?_, rfl⟩
  rw [← List.flatten_cons, ← List.drop_eq_getElem_cons hlt, ← List.flatten_append,
    List.take_append_drop]

theorem standsAt_of_getRange {stop : Nat} (h : getRange? l offset stop = some part) :
    StandsAt l offset part ∧ stop = offset + part.length := by
  obtain ⟨⟨hle, hstop⟩, hslice⟩ := getRange?_eq_some_iff.mp h
  have hinside : offset + (stop - offset) ≤ l.length := by omega
  have hlength : part.length = stop - offset := by
    rw [← hslice, length_slice_of_le hinside]
  refine ⟨?_, by omega⟩
  rw [← hslice]
  exact standsAt_slice hinside

end Foundation
