import Mathlib.Data.List.Basic
import Mathlib.Data.List.Forall2
import Mathlib.Data.List.Induction
import Mathlib.Tactic.Common

/-!
# Texts from templates

A text is assembled from the template's own words and from fields.  It can be taken apart
again when each field ends, recognizably, where the template goes on: `DelimitedBy` says this of
the words a field may hold, and `fill_injective` of a whole template.

In a quoted text the second question is which quotes are the template's.  `escaped` follows the
backslashes, and a field is `Closed` when it has no quote of its own outside an escape.
-/

namespace Foundation

variable {α : Type}

/-! ## Fields that end recognizably -/

theorem append_cons_inj_of_not_mem {stop : α} {x y r s : List α} (hx : stop ∉ x) (hy : stop ∉ y)
    (h : x ++ stop :: r = y ++ stop :: s) : x = y ∧ r = s := by
  induction x generalizing y with
  | nil =>
    cases y with
    | nil => exact ⟨rfl, (List.cons.inj h).2⟩
    | cons b y =>
      obtain ⟨rfl, -⟩ := List.cons.inj h
      exact absurd List.mem_cons_self hy
  | cons a x ih =>
    cases y with
    | nil =>
      obtain ⟨rfl, -⟩ := List.cons.inj h
      exact absurd List.mem_cons_self hx
    | cons b y =>
      obtain ⟨rfl, hrest⟩ := List.cons.inj h
      obtain ⟨rfl, hbehind⟩ := ih (fun hmem => hx (List.mem_cons_of_mem _ hmem))
        (fun hmem => hy (List.mem_cons_of_mem _ hmem)) hrest
      exact ⟨rfl, hbehind⟩

/-- In every text at most one of the words ends in front of `stop`. -/
def DelimitedBy (stop : α) (words : List α → Prop) : Prop :=
  ∀ x y r s, words x → words y → x ++ stop :: r = y ++ stop :: s → x = y ∧ r = s

/-- Words without the stop. -/
theorem delimitedBy_of_not_mem {stop : α} {words : List α → Prop}
    (h : ∀ word, words word → stop ∉ word) : DelimitedBy stop words :=
  fun x y _ _ hx hy hsame => append_cons_inj_of_not_mem (h x hx) (h y hy) hsame

/-- A field, and what the template puts behind it. -/
structure Slot (α : Type) where
  words : List α → Prop
  stop : α
  behind : List α
  delimited : DelimitedBy stop words

/-- The words in their fields, each with the template's text behind it. -/
def fill : List (Slot α) → List (List α) → List α
  | slot :: slots, word :: words => word ++ slot.stop :: (slot.behind ++ fill slots words)
  | _, _ => []

/-- The words may stand in the fields. -/
def Fits (slots : List (Slot α)) (words : List (List α)) : Prop :=
  List.Forall₂ (fun slot word => slot.words word) slots words

/-- A filled template is taken apart in one way, whatever follows it. -/
theorem fill_append_inj {slots : List (Slot α)} {x y : List (List α)} {r s : List α}
    (hx : Fits slots x) (hy : Fits slots y) (h : fill slots x ++ r = fill slots y ++ s) :
    x = y ∧ r = s := by
  induction hx generalizing y with
  | nil =>
    cases hy
    exact ⟨rfl, h⟩
  | @cons slot word slots words hword hwords ih =>
    cases hy with
    | @cons _ other _ others hother hothers =>
      rw [fill, fill, List.append_assoc, List.append_assoc, List.cons_append, List.cons_append,
        List.append_assoc, List.append_assoc] at h
      obtain ⟨rfl, hrest⟩ := slot.delimited _ _ _ _ hword hother h
      obtain ⟨rfl, hbehind⟩ := ih hothers (List.append_cancel_left hrest)
      exact ⟨rfl, hbehind⟩

/-! ## Quotes and escapes -/

/-- Whether the character behind the text is escaped, if the first one is not. -/
def escaped (text : List Char) : Bool :=
  text.foldl (fun after c => !after && c == '\\') false

theorem escaped_concat (text : List Char) (c : Char) :
    escaped (text ++ [c]) = (!escaped text && c == '\\') := by
  rw [escaped, List.foldl_concat]
  rfl

/-- Behind a text that ends outside an escape, nothing is different. -/
theorem escaped_append {front : List Char} (h : escaped front = false) (text : List Char) :
    escaped (front ++ text) = escaped text := by
  rw [escaped, List.foldl_append]
  exact congrArg (fun start => text.foldl _ start) h

theorem escaped_of_not_mem {text : List Char} (h : '\\' ∉ text) : escaped text = false := by
  induction text using List.reverseRecOn with
  | nil => rfl
  | append_singleton text c ih =>
    rw [List.mem_append, List.mem_singleton, not_or] at h
    rw [escaped_concat, beq_eq_false_iff_ne.mpr (Ne.symm h.2), Bool.and_false]

/-- A text that ends outside an escape and has no quote outside one. -/
structure Closed (text : List Char) : Prop where
  escaped_eq : escaped text = false
  quote : ∀ before behind, text = before ++ '"' :: behind → escaped before = true

theorem closed_nil : Closed [] := by
  refine ⟨rfl, fun before behind h => ?_⟩
  exact absurd h (by simp)

/-- Plain text. -/
theorem closed_of_not_mem {text : List Char} (hescape : '\\' ∉ text) (hquote : '"' ∉ text) :
    Closed text := by
  refine ⟨escaped_of_not_mem hescape, ?_⟩
  rintro before behind rfl
  exact absurd (List.mem_append_right _ List.mem_cons_self) hquote

theorem Closed.append {first second : List Char} (hfirst : Closed first) (hsecond : Closed second) :
    Closed (first ++ second) := by
  refine ⟨by rw [escaped_append hfirst.escaped_eq, hsecond.escaped_eq], ?_⟩
  intro before behind h
  -- The quote is in the first text or in the second.
  rcases List.append_eq_append_iff.mp h with ⟨middle, rfl, hsecondEq⟩ | ⟨middle, rfl, hbehind⟩
  · rw [escaped_append hfirst.escaped_eq]
    exact hsecond.quote _ _ hsecondEq
  · cases middle with
    | nil =>
      rw [List.nil_append] at hbehind
      have hstart := hsecond.quote [] behind hbehind.symm
      cases hstart
    | cons c middle =>
      obtain ⟨rfl, -⟩ := List.cons.inj hbehind
      exact hfirst.quote before middle rfl

theorem closed_flatMap {β : Type} {f : β → List Char} (h : ∀ b, Closed (f b)) (items : List β) :
    Closed (items.flatMap f) := by
  induction items with
  | nil => exact closed_nil
  | cons b items ih =>
    rw [List.flatMap_cons]
    exact (h b).append ih

/-! ## The parts of a text -/

/-- The template's own text, or what stands in a field. -/
inductive Part where
  | own (text : String)
  | field (text : List Char)

def Part.text : Part → List Char
  | .own text => text.toList
  | .field text => text

/-- The whole text. -/
def textOf (parts : List Part) : List Char :=
  parts.flatMap Part.text

/-- The fields are closed, and the template has no escapes of its own. -/
def Part.Sound : Part → Prop
  | .own text => '\\' ∉ text.toList
  | .field text => Closed text

/-- A quote at this place of the text is one of the template's own. -/
def OwnQuote (parts : List Part) (before : List Char) : Prop :=
  ∃ front own later start rest, parts = front ++ .own own :: later ∧
    own.toList = start ++ '"' :: rest ∧ before = textOf front ++ start

theorem OwnQuote.cons {parts : List Part} {before : List Char} (part : Part)
    (h : OwnQuote parts before) : OwnQuote (part :: parts) (part.text ++ before) := by
  obtain ⟨front, own, later, start, rest, rfl, hown, rfl⟩ := h
  refine ⟨part :: front, own, later, start, rest, rfl, hown, ?_⟩
  rw [textOf, textOf, List.flatMap_cons, List.append_assoc]

/-- Every quote outside an escape is one of the template's own. -/
theorem ownQuote_of_sound {parts : List Part} (hsound : ∀ part ∈ parts, part.Sound)
    {before behind : List Char} (h : textOf parts = before ++ '"' :: behind)
    (houtside : escaped before = false) : OwnQuote parts before := by
  induction parts generalizing before with
  | nil => exact absurd h (by simp [textOf])
  | cons part parts ih =>
    obtain ⟨hpart, hparts⟩ := List.forall_mem_cons.mp hsound
    have hend : escaped part.text = false := by
      cases part with
      | own text => exact escaped_of_not_mem hpart
      | field text => exact Closed.escaped_eq hpart
    rw [textOf, List.flatMap_cons] at h
    rcases List.append_eq_append_iff.mp h with ⟨middle, rfl, hlater⟩ | ⟨middle, hmiddle, hbehind⟩
    · -- The quote stands behind this part.
      rw [escaped_append hend] at houtside
      exact (ih hparts hlater houtside).cons part
    · cases middle with
      | nil =>
        rw [List.append_nil] at hmiddle
        rw [List.nil_append] at hbehind
        have hquote : OwnQuote parts [] := ih hparts hbehind.symm rfl
        have hnext := hquote.cons part
        rwa [List.append_nil, hmiddle] at hnext
      | cons c middle =>
        obtain ⟨rfl, -⟩ := List.cons.inj hbehind
        cases part with
        | own text => exact ⟨[], text, parts, before, middle, rfl, hmiddle, rfl⟩
        | field text =>
          -- A quote inside a field is escaped.
          have hinside := Closed.quote hpart before middle hmiddle
          rw [houtside] at hinside
          cases hinside

end Foundation
