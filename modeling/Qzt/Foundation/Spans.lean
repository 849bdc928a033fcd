import Mathlib.Algebra.Order.Group.Nat
import Mathlib.Data.Finset.Union
import Mathlib.Order.Interval.Finset.Nat

/-!
# Unions of half-open spans

The numbers that a list of spans `[start, stop)` covers.  A sweep over the spans in the order
of their starts keeps one number, the end of what it has covered: a span adds the part of it
behind that end, and everything the later spans cover in front of it is inside this span.
-/

namespace Foundation

variable {spans others : List (Nat × Nat)} {span : Nat × Nat} {covered number : Nat}

/-- The numbers inside one of the spans. -/
def spanUnion (spans : List (Nat × Nat)) : Finset Nat :=
  spans.toFinset.biUnion fun span => Finset.Ico span.1 span.2

theorem mem_spanUnion :
    number ∈ spanUnion spans ↔ ∃ span ∈ spans, span.1 ≤ number ∧ number < span.2 := by
  simp only [spanUnion, Finset.mem_biUnion, List.mem_toFinset, Finset.mem_Ico]

/-- The order of the spans and their repetitions do not matter. -/
theorem spanUnion_congr (h : ∀ span, span ∈ spans ↔ span ∈ others) :
    spanUnion spans = spanUnion others := by
  ext number
  simp only [mem_spanUnion, h]

/-- What the spans cover from a number on. -/
def uncovered (spans : List (Nat × Nat)) (covered : Nat) : Finset Nat :=
  (spanUnion spans).filter (covered ≤ ·)

theorem mem_uncovered :
    number ∈ uncovered spans covered ↔
      (∃ span ∈ spans, span.1 ≤ number ∧ number < span.2) ∧ covered ≤ number := by
  rw [uncovered, Finset.mem_filter, mem_spanUnion]

@[simp] theorem uncovered_nil (covered : Nat) : uncovered [] covered = ∅ := rfl

theorem uncovered_zero (spans : List (Nat × Nat)) : uncovered spans 0 = spanUnion spans :=
  Finset.filter_true_of_mem fun _ _ => Nat.zero_le _

/-- A span that ends beyond what is covered adds its part behind that, and moves the end. -/
theorem card_uncovered_cons_of_lt (hstarts : ∀ later ∈ spans, span.1 ≤ later.1)
    (h : max span.1 covered < span.2) :
    (uncovered (span :: spans) covered).card =
      (span.2 - max span.1 covered) + (uncovered spans span.2).card := by
  have hsplit : uncovered (span :: spans) covered =
      Finset.Ico (max span.1 covered) span.2 ∪ uncovered spans span.2 := by
    ext number
    rw [Finset.mem_union, Finset.mem_Ico, mem_uncovered, mem_uncovered]
    constructor
    · rintro ⟨⟨other, hother, hstart, hstop⟩, hcovered⟩
      rcases Nat.lt_or_ge number span.2 with hinside | hbehind
      · -- Every later span starts behind the start of this one.
        have hfirst : span.1 ≤ number := by
          rcases List.mem_cons.mp hother with rfl | hlater
          · exact hstart
          · exact Nat.le_trans (hstarts other hlater) hstart
        exact Or.inl ⟨Nat.max_le.mpr ⟨hfirst, hcovered⟩, hinside⟩
      · rcases List.mem_cons.mp hother with rfl | hlater
        · exact absurd hstop (Nat.not_lt.mpr hbehind)
        · exact Or.inr ⟨⟨other, hlater, hstart, hstop⟩, hbehind⟩
    · rintro (⟨hstart, hstop⟩ | ⟨⟨other, hlater, hinside⟩, hbehind⟩)
      · obtain ⟨hfirst, hcovered⟩ := Nat.max_le.mp hstart
        exact ⟨⟨span, List.mem_cons_self, hfirst, hstop⟩, hcovered⟩
      · exact ⟨⟨other, List.mem_cons_of_mem _ hlater, hinside⟩, by omega⟩
  have hdisjoint : Disjoint (Finset.Ico (max span.1 covered) span.2) (uncovered spans span.2) := by
    rw [Finset.disjoint_left]
    intro number hinside hbehind
    exact absurd (Finset.mem_Ico.mp hinside).2 (Nat.not_lt.mpr (mem_uncovered.mp hbehind).2)
  rw [hsplit, Finset.card_union_of_disjoint hdisjoint, Nat.card_Ico]

/-- A span inside what is covered adds nothing. -/
theorem uncovered_cons_of_le (h : span.2 ≤ max span.1 covered) :
    uncovered (span :: spans) covered = uncovered spans covered := by
  ext number
  rw [mem_uncovered, mem_uncovered]
  constructor
  · rintro ⟨⟨other, hother, hstart, hstop⟩, hcovered⟩
    rcases List.mem_cons.mp hother with rfl | hlater
    · exact absurd (Nat.max_le.mpr ⟨hstart, hcovered⟩) (by omega)
    · exact ⟨⟨other, hlater, hstart, hstop⟩, hcovered⟩
  · rintro ⟨⟨other, hlater, hinside⟩, hcovered⟩
    exact ⟨⟨other, List.mem_cons_of_mem _ hlater, hinside⟩, hcovered⟩

/-- Spans below a bound cover fewer numbers than it. -/
theorem card_spanUnion_le {bound : Nat} (h : ∀ span ∈ spans, span.2 ≤ bound) :
    (spanUnion spans).card ≤ bound := by
  have hsubset : spanUnion spans ⊆ Finset.range bound := by
    intro number hnumber
    obtain ⟨span, hspan, -, hstop⟩ := mem_spanUnion.mp hnumber
    exact Finset.mem_range.mpr (Nat.lt_of_lt_of_le hstop (h span hspan))
  have hcard := Finset.card_le_card hsubset
  rwa [Finset.card_range] at hcard

end Foundation
