import Mathlib.Data.List.Basic
import Mathlib.Tactic.Common

/-!
# Maps as sorted lists

A finite map over ordered keys is the list of its pairs, keys strictly increasing.
`upsert` inserts a key or changes its value, and keeps the order.
-/

namespace Foundation

variable {κ β : Type} [DecidableEq κ] [LT κ] [DecidableRel fun a b : κ => a < b]

/-- Insert the value `f none` at a new key, or replace the value `v` of a key by `f (some v)`. -/
def upsert (key : κ) (f : Option β → β) : List (κ × β) → List (κ × β)
  | [] => [(key, f none)]
  | (k, v) :: rest =>
    if key = k then (k, f (some v)) :: rest
    else if key < k then (key, f none) :: (k, v) :: rest
    else (k, v) :: upsert key f rest

/-- The keys are strictly increasing. -/
def SortedKeys {κ : Type} [LT κ] (map : List (κ × β)) : Prop :=
  map.Pairwise fun a b => a.1 < b.1

theorem mem_keys_upsert {key k : κ} {f : Option β → β} {map : List (κ × β)} :
    k ∈ (upsert key f map).map Prod.fst ↔ k = key ∨ k ∈ map.map Prod.fst := by
  induction map with
  | nil => simp [upsert]
  | cons pair rest ih =>
    obtain ⟨k', v⟩ := pair
    rw [upsert]
    split
    · rename_i heq
      simp [heq]
    · split
      · simp
      · simp only [List.map_cons, List.mem_cons, ih]
        exact or_left_comm

theorem lookup_cons_eq {κ : Type} [DecidableEq κ] [BEq κ] [LawfulBEq κ] (key k : κ) (v : β)
    (rest : List (κ × β)) :
    List.lookup key ((k, v) :: rest) = if key = k then some v else rest.lookup key := by
  rw [List.lookup_cons]
  by_cases h : key = k
  · rw [beq_iff_eq.mpr h, if_pos h]
  · rw [beq_eq_false_iff_ne.mpr h, if_neg h]

/-- A key below all keys of the map is not in it. -/
theorem lookup_eq_none_of_lt {κ : Type} [DecidableEq κ] [BEq κ] [LawfulBEq κ] [LT κ]
    [Std.Irrefl fun a b : κ => a < b]
    {key : κ} {map : List (κ × β)} (h : ∀ pair ∈ map, key < pair.1) :
    map.lookup key = none := by
  induction map with
  | nil => rfl
  | cons pair rest ih =>
    obtain ⟨k, v⟩ := pair
    rw [List.forall_mem_cons] at h
    rw [lookup_cons_eq, if_neg, ih h.2]
    rintro rfl
    exact Std.Irrefl.irrefl _ h.1

/-- The pairs of a sorted map are what it looks up. -/
theorem mem_iff_lookup {κ : Type} [DecidableEq κ] [BEq κ] [LawfulBEq κ] [LT κ]
    [Std.Irrefl fun a b : κ => a < b]
    {map : List (κ × β)} (h : SortedKeys map) {k : κ} {v : β} :
    (k, v) ∈ map ↔ map.lookup k = some v := by
  induction map with
  | nil => simp
  | cons pair rest ih =>
    obtain ⟨k', v'⟩ := pair
    rw [SortedKeys, List.pairwise_cons] at h
    obtain ⟨hhead, hrest⟩ := h
    rw [List.mem_cons, lookup_cons_eq, ih hrest]
    by_cases hk : k = k'
    · subst hk
      rw [lookup_eq_none_of_lt hhead]
      simp [eq_comm]
    · simp [hk]

/-- A new key adds one pair. -/
theorem upsert_perm_of_lookup_eq_none [BEq κ] [LawfulBEq κ] {key : κ} {f : Option β → β}
    {map : List (κ × β)} (h : map.lookup key = none) :
    (upsert key f map).Perm ((key, f none) :: map) := by
  induction map with
  | nil => exact List.Perm.refl _
  | cons pair rest ih =>
    obtain ⟨k, v⟩ := pair
    rw [lookup_cons_eq] at h
    rw [upsert]
    split at h
    · cases h
    · rename_i hne
      rw [if_neg hne]
      split
      · exact List.Perm.refl _
      · exact ((ih h).cons _).trans (List.Perm.swap _ _ _)

/-- An old key keeps its place. -/
theorem upsert_of_lookup_eq_some [BEq κ] [LawfulBEq κ] [Std.Irrefl fun a b : κ => a < b]
    [Trans (fun a b : κ => a < b) (fun a b : κ => a < b) (fun a b : κ => a < b)]
    {key : κ} {f : Option β → β} {map : List (κ × β)} {v : β} (hsorted : SortedKeys map)
    (h : map.lookup key = some v) :
    ∃ before behind, map = before ++ (key, v) :: behind ∧
      upsert key f map = before ++ (key, f (some v)) :: behind := by
  induction map with
  | nil => cases h
  | cons pair rest ih =>
    obtain ⟨k, w⟩ := pair
    rw [lookup_cons_eq] at h
    rw [SortedKeys, List.pairwise_cons] at hsorted
    obtain ⟨hhead, hrest⟩ := hsorted
    rw [upsert]
    split at h
    · rename_i heq
      cases h
      rw [if_pos heq, heq]
      exact ⟨[], rest, rfl, rfl⟩
    · rename_i hne
      have hlt : ¬ key < k := by
        intro hless
        rw [lookup_eq_none_of_lt fun pair hpair => Trans.trans hless (hhead pair hpair)] at h
        cases h
      obtain ⟨before, behind, hrest', hupsert⟩ := ih hrest h
      rw [if_neg hne, if_neg hlt, hupsert, hrest']
      exact ⟨(k, w) :: before, behind, rfl, rfl⟩

section Order

variable [Trans (fun a b : κ => a < b) (fun a b : κ => a < b) (fun a b : κ => a < b)]

theorem SortedKeys.upsert [Std.Trichotomous fun a b : κ => a < b] {key : κ} {f : Option β → β}
    {map : List (κ × β)} (h : SortedKeys map) : SortedKeys (upsert key f map) := by
  induction map with
  | nil => simp [SortedKeys, Foundation.upsert]
  | cons pair rest ih =>
    obtain ⟨k, v⟩ := pair
    rw [SortedKeys, List.pairwise_cons] at h
    obtain ⟨hhead, hrest⟩ := h
    rw [Foundation.upsert]
    split
    · exact List.pairwise_cons.mpr ⟨hhead, hrest⟩
    · rename_i hne
      split
      · rename_i hlt
        refine List.pairwise_cons.mpr ⟨?_, List.pairwise_cons.mpr ⟨hhead, hrest⟩⟩
        intro pair hpair
        rcases List.mem_cons.mp hpair with rfl | hpair
        · exact hlt
        · exact Trans.trans hlt (hhead pair hpair)
      · rename_i hnot
        refine List.pairwise_cons.mpr ⟨?_, ih hrest⟩
        intro pair hpair
        have hkey : pair.1 ∈ (Foundation.upsert key f rest).map Prod.fst :=
          List.mem_map_of_mem hpair
        rcases mem_keys_upsert.mp hkey with heq | hold
        · -- The key is neither equal to the head nor below it.
          rw [heq]
          by_contra hkk
          exact hne (Std.Trichotomous.trichotomous key k hnot hkk)
        · obtain ⟨other, hother, heq⟩ := List.mem_map.mp hold
          rw [← heq]
          exact hhead other hother

theorem lookup_upsert [BEq κ] [LawfulBEq κ] [Std.Irrefl fun a b : κ => a < b] {key k : κ}
    {f : Option β → β} {map : List (κ × β)} (h : SortedKeys map) :
    (upsert key f map).lookup k =
      if k = key then some (f (map.lookup key)) else map.lookup k := by
  induction map with
  | nil => rw [upsert, lookup_cons_eq, List.lookup_nil, List.lookup_nil]
  | cons pair rest ih =>
    obtain ⟨k', v⟩ := pair
    rw [SortedKeys, List.pairwise_cons] at h
    obtain ⟨hhead, hrest⟩ := h
    rw [upsert]
    split
    · rename_i heq
      subst heq
      simp only [lookup_cons_eq, if_true]
      split <;> rfl
    · rename_i hne
      split
      · rename_i hlt
        have hnone : ((k', v) :: rest).lookup key = none := by
          refine lookup_eq_none_of_lt ?_
          intro pair hpair
          rcases List.mem_cons.mp hpair with rfl | hpair
          · exact hlt
          · exact Trans.trans hlt (hhead pair hpair)
        rw [hnone, lookup_cons_eq]
      · rw [lookup_cons_eq, ih hrest, lookup_cons_eq, if_neg hne, lookup_cons_eq]
        by_cases hk : k = k'
        · rw [if_pos hk, if_pos hk, if_neg]
          rintro rfl
          exact hne hk
        · rw [if_neg hk, if_neg hk]

end Order

end Foundation
