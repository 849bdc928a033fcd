import Qzt.Text.Lines

/-!
# Chunk tables that describe a text

A text cut into parts determines the logical half of its chunk table: where each part
begins, how many lines begin in it, and whether it continues a line.  `Describes` is
that relation between a table and the parts; the writers establish it, deep
verification checks it, and the reads rely on it.
-/

namespace Qzt

open Foundation

/-! ## Functions of the parts so far -/

/-- Apply `f` to every element together with the elements before it. -/
def mapWithHistory {β γ : Type} (f : List β → β → γ) : List β → List β → List γ
  | _, [] => []
  | done, x :: xs => f done x :: mapWithHistory f (done ++ [x]) xs

section MapWithHistory

variable {β γ : Type} {f : List β → β → γ}

theorem mapWithHistory_append (done xs ys : List β) :
    mapWithHistory f done (xs ++ ys) =
      mapWithHistory f done xs ++ mapWithHistory f (done ++ xs) ys := by
  induction xs generalizing done with
  | nil => simp [mapWithHistory]
  | cons x xs ih => simp [mapWithHistory, ih]

@[simp] theorem length_mapWithHistory (done xs : List β) :
    (mapWithHistory f done xs).length = xs.length := by
  induction xs generalizing done with
  | nil => rfl
  | cons x xs ih => simp [mapWithHistory, ih]

theorem mapWithHistory_concat (done : List β) (x : β) :
    mapWithHistory f [] (done ++ [x]) = mapWithHistory f [] done ++ [f done x] := by
  rw [mapWithHistory_append, List.nil_append]
  rfl

theorem getElem?_mapWithHistory (done xs : List β) (index : Nat) :
    (mapWithHistory f done xs)[index]? = xs[index]?.map (f (done ++ xs.take index)) := by
  induction xs generalizing done index with
  | nil => rfl
  | cons x xs ih =>
    cases index with
    | zero => simp [mapWithHistory]
    | succ index => simp [mapWithHistory, ih]

theorem take_mapWithHistory (done xs : List β) (index : Nat) :
    (mapWithHistory f done xs).take index = mapWithHistory f done (xs.take index) := by
  induction xs generalizing done index with
  | nil => simp [mapWithHistory]
  | cons x xs ih =>
    cases index with
    | zero => rfl
    | succ index => simp [mapWithHistory, ih]

end MapWithHistory

/-! ## Tables and parts -/

/-- An entry describes a part that follows the parts `done`. -/
structure DescribesPart (done : List (List UInt8)) (entry : ChunkEntry) (part : List UInt8) :
    Prop where
  chunkId : entry.chunkId = done.length
  logicalOffset : entry.logicalOffset = done.flatten.length
  uncompressedSize : entry.uncompressedSize = part.length
  firstLine : entry.firstLine = countLines done.flatten
  lineCount : entry.lineCount = (partLineStarts done.flatten part).length
  flags : entry.flags = continuationFlag done.flatten
  part_ne_nil : part ≠ []

/-- A table describes the parts that follow `done`. -/
inductive Describes : List (List UInt8) → List ChunkEntry → List (List UInt8) → Prop where
  | nil {done : List (List UInt8)} : Describes done [] []
  | cons {done : List (List UInt8)} {entry : ChunkEntry} {entries : List ChunkEntry}
      {part : List UInt8} {parts : List (List UInt8)} (hpart : DescribesPart done entry part)
      (hparts : Describes (done ++ [part]) entries parts) :
      Describes done (entry :: entries) (part :: parts)

namespace Describes

variable {done : List (List UInt8)} {entries : List ChunkEntry} {parts : List (List UInt8)}

theorem length_eq (h : Describes done entries parts) : entries.length = parts.length := by
  induction h with
  | nil => rfl
  | cons _ _ ih => simp [ih]

/-- The entry at a position describes the part there. -/
theorem getElem? (h : Describes done entries parts) {index : Nat} {entry : ChunkEntry}
    (hentry : entries[index]? = some entry) :
    ∃ part, parts[index]? = some part ∧ DescribesPart (done ++ parts.take index) entry part := by
  induction h generalizing index with
  | nil => simp at hentry
  | cons hpart _ ih =>
    cases index with
    | zero =>
      simp only [List.getElem?_cons_zero, Option.some.injEq] at hentry
      subst hentry
      exact ⟨_, rfl, by simpa using hpart⟩
    | succ index =>
      rw [List.getElem?_cons_succ] at hentry
      obtain ⟨part, hget, hdescribes⟩ := ih hentry
      exact ⟨part, hget, by simpa using hdescribes⟩

/-- Every position below the number of parts has an entry and a part. -/
theorem exists_at (h : Describes done entries parts) {index : Nat} (hindex : index < parts.length) :
    ∃ entry part, entries[index]? = some entry ∧ parts[index]? = some part ∧
      DescribesPart (done ++ parts.take index) entry part := by
  have hlen : index < entries.length := by rw [h.length_eq]; exact hindex
  obtain ⟨part, hpart, hdescribes⟩ := h.getElem? (List.getElem?_eq_getElem hlen)
  exact ⟨_, part, List.getElem?_eq_getElem hlen, hpart, hdescribes⟩

/-- The entries from a position on describe the parts from there on. -/
theorem drop (h : Describes done entries parts) (index : Nat) :
    Describes (done ++ parts.take index) (entries.drop index) (parts.drop index) := by
  induction h generalizing index with
  | nil => simpa using Describes.nil
  | cons hpart hparts ih =>
    cases index with
    | zero => simpa using Describes.cons hpart hparts
    | succ index => simpa using ih index

theorem append {entries' : List ChunkEntry} {parts' : List (List UInt8)}
    (h : Describes done entries parts) (h' : Describes (done ++ parts) entries' parts') :
    Describes done (entries ++ entries') (parts ++ parts') := by
  induction h with
  | nil => simpa using h'
  | cons hpart _ ih => exact .cons hpart (ih (by simpa using h'))

theorem parts_ne_nil (h : Describes done entries parts) : ∀ part ∈ parts, part ≠ [] := by
  induction h with
  | nil => simp
  | cons hpart _ ih =>
    intro part hmem
    rcases List.mem_cons.mp hmem with rfl | hmem
    · exact hpart.part_ne_nil
    · exact ih part hmem

end Describes

end Qzt
