import Qzt.Search.Postings

/-!
# Posting lists, read back

The decoder adds the differences up again.  It takes what the encoder writes for an
increasing list and nothing else, as long as the list is within the reader's limit.  A skip
point is a place to start from: what is written from there on decodes to the rest of the list,
given the entry in front.
-/

namespace Qzt

open Foundation

section Decoding

variable {previous : Option Nat} {value : Nat} {list values : List Nat} {bytes : List UInt8}

/-! ## Increasing lists -/

theorem increasesFrom_nil (previous : Option Nat) : IncreasesFrom previous [] := by
  refine ⟨?_, fun _ hvalue => absurd hvalue List.not_mem_nil⟩
  rw [List.append_nil]
  cases previous with
  | none => exact List.Pairwise.nil
  | some p => exact List.pairwise_singleton _ _

theorem increasesFrom_cons (hword : value < 2 ^ 64) (hlt : ∀ p, previous = some p → p < value)
    (h : IncreasesFrom (some value) values) : IncreasesFrom previous (value :: values) := by
  obtain ⟨hsorted, hbound⟩ := h
  refine ⟨?_, List.forall_mem_cons.mpr ⟨hword, hbound⟩⟩
  cases previous with
  | none => exact hsorted
  | some p =>
    have hp := hlt p rfl
    change List.Pairwise (· < ·) (p :: value :: values)
    change List.Pairwise (· < ·) (value :: values) at hsorted
    refine List.pairwise_cons.mpr ⟨List.forall_mem_cons.mpr ⟨hp, ?_⟩, hsorted⟩
    intro later hlater
    exact Nat.lt_trans hp ((List.pairwise_cons.mp hsorted).1 later hlater)

/-- A list that increases from the start. -/
theorem increasesFrom_none_iff :
    IncreasesFrom none list ↔ list.Pairwise (· < ·) ∧ ∀ value ∈ list, value < 2 ^ 64 :=
  Iff.rfl

/-- What is left of an increasing list increases from the entry in front. -/
theorem IncreasesFrom.behind {front : List Nat} {last : Nat} {behind : List Nat}
    (h : IncreasesFrom none (front ++ last :: behind)) : IncreasesFrom (some last) behind := by
  obtain ⟨hsorted, hbound⟩ := increasesFrom_none_iff.mp h
  refine ⟨(List.pairwise_append.mp hsorted).2.1, fun value hvalue => hbound value ?_⟩
  exact List.mem_append_right _ (List.mem_cons_of_mem _ hvalue)

/-! ## What is written, and how long it is -/

theorem lt_of_postingDelta {delta : Nat} (h : postingDelta previous value = .ok delta) :
    ∀ p, previous = some p → p < value := by
  rintro p rfl
  simp only [postingDelta, bind_eq_ok_iff, rejectIf_eq_ok_iff] at h
  obtain ⟨_, hlt, -⟩ := h
  exact Nat.lt_of_not_le hlt

/-- Only an increasing list is encoded. -/
theorem increasesFrom_of_encodeDeltas (hwords : ∀ value ∈ list, value < 2 ^ 64)
    (h : encodeDeltas previous list = .ok bytes) : IncreasesFrom previous list := by
  induction list generalizing previous bytes with
  | nil => exact increasesFrom_nil previous
  | cons value values ih =>
    obtain ⟨hword, hwords⟩ := List.forall_mem_cons.mp hwords
    simp only [encodeDeltas, bind_eq_ok_iff] at h
    obtain ⟨delta, hdelta, rest, hrest, -⟩ := h
    exact increasesFrom_cons hword (lt_of_postingDelta hdelta) (ih hwords hrest)

/-- Only an increasing list has a size. -/
theorem increasesFrom_of_deltasSize {size result : Nat} (hwords : ∀ value ∈ list, value < 2 ^ 64)
    (h : deltasSize previous list size = .ok result) : IncreasesFrom previous list := by
  induction list generalizing previous size with
  | nil => exact increasesFrom_nil previous
  | cons value values ih =>
    obtain ⟨hword, hwords⟩ := List.forall_mem_cons.mp hwords
    simp only [deltasSize, bind_eq_ok_iff] at h
    obtain ⟨delta, hdelta, width, -, size, -, hrest⟩ := h
    exact increasesFrom_cons hword (lt_of_postingDelta hdelta) (ih hwords hrest)

theorem length_writeVaruint_lt {delta : Nat} (h : 1 < delta) :
    (writeVaruint delta).length < delta := by
  rw [writeVaruint]
  rcases Nat.lt_or_ge delta 128 with hsmall | hlarge
  · rw [leb128_of_lt hsmall]
    exact h
  · have hrest := length_leb128_le (show 0 < delta / 128 by omega)
    rw [leb128_of_le hlarge, List.length_cons]
    omega

/-- The differences take no more bytes than there are numbers to pass. -/
theorem length_deltaBytes_add_lt {p bound : Nat} (h : IncreasesFrom (some p) list) (hp : p < bound)
    (hbound : ∀ value ∈ list, value < bound) :
    (deltaBytes (some p) list).length + p < bound := by
  induction list generalizing p with
  | nil =>
    rw [deltaBytes, deltas, List.flatMap_nil, List.length_nil, Nat.zero_add]
    exact hp
  | cons value values ih =>
    obtain ⟨hnext, -, hlt⟩ := h.cons
    obtain ⟨hvalue, hvalues⟩ := List.forall_mem_cons.mp hbound
    have hless := hlt p rfl
    have hrest := ih hnext hvalue hvalues
    have hfirst : (writeVaruint (value - p)).length ≤ value - p := length_leb128_le (by omega)
    rw [deltaBytes_cons, List.length_append, Option.getD_some]
    omega

/-- Either every difference is one, and takes one byte, or a number is saved. -/
theorem length_deltaBytes_cases {p bound : Nat} (h : IncreasesFrom (some p) list) (hp : p < bound)
    (hbound : ∀ value ∈ list, value < bound) :
    (deltaBytes (some p) list).length ≤ list.length ∨
      (deltaBytes (some p) list).length + p + 1 < bound := by
  induction list generalizing p with
  | nil => exact Or.inl (Nat.le_refl _)
  | cons value values ih =>
    obtain ⟨hnext, -, hlt⟩ := h.cons
    obtain ⟨hvalue, hvalues⟩ := List.forall_mem_cons.mp hbound
    have hless := hlt p rfl
    rw [deltaBytes_cons, List.length_append, Option.getD_some, List.length_cons]
    rcases Nat.lt_or_ge 1 (value - p) with hwide | hone
    · have hfirst := length_writeVaruint_lt hwide
      have hrest := length_deltaBytes_add_lt hnext hvalue hvalues
      exact Or.inr (by omega)
    · have hstep : value - p = 1 := by omega
      have hfirst : (writeVaruint (value - p)).length = 1 := by
        rw [hstep]
        rfl
      rcases ih hnext hvalue hvalues with hshort | hsaved
      · exact Or.inl (by omega)
      · exact Or.inr (by omega)

/-- A list that fits the memory is written within a machine word. -/
theorem length_postingBytes_lt (h : IncreasesFrom none list) (hlength : list.length < 2 ^ 64) :
    (postingBytes list).length < 2 ^ 64 := by
  cases list with
  | nil => decide
  | cons value values =>
    obtain ⟨hnext, hvalue, -⟩ := h.cons
    have hbound : ∀ later ∈ values, later < 2 ^ 64 := hnext.2
    rw [List.length_cons] at hlength
    rw [postingBytes, deltaBytes_cons, List.length_append, Option.getD_none, Nat.sub_zero]
    rcases Nat.eq_zero_or_pos value with hzero | hpos
    · -- A first entry of zero takes a byte and passes no number.
      subst hzero
      have hfirst : (writeVaruint 0).length = 1 := rfl
      rcases length_deltaBytes_cases hnext hvalue hbound with hshort | hsaved
      · omega
      · omega
    · have hfirst : (writeVaruint value).length ≤ value := length_leb128_le hpos
      have hrest := length_deltaBytes_add_lt hnext hvalue hbound
      omega

/-! ## The decoder -/

theorem postingValue_eq_ok_iff {delta : Nat} (hprevious : ∀ p, previous = some p → p < 2 ^ 64)
    (hdelta : delta < 2 ^ 64) : postingValue previous delta = .ok value ↔
      value < 2 ^ 64 ∧ (∀ p, previous = some p → p < value) ∧ delta = value - previous.getD 0 := by
  cases previous with
  | none =>
    rw [postingValue, Except.ok.injEq, Option.getD_none, Nat.sub_zero]
    constructor
    · rintro rfl
      exact ⟨hdelta, by rintro p ⟨⟩, rfl⟩
    · rintro ⟨-, -, hsame⟩
      exact hsame
  | some p =>
    simp only [postingValue, bind_eq_ok_iff, okOr_eq_ok_iff, checkedAdd_eq_some_iff,
      rejectIf_eq_ok_iff, pure_eq_ok, Except.ok.injEq, Option.getD_some]
    constructor
    · rintro ⟨_, ⟨hsum, rfl⟩, _, hlt, rfl⟩
      refine ⟨hsum, ?_, (Nat.add_sub_cancel_left p delta).symm⟩
      rintro _ hp
      obtain rfl := Option.some.inj hp
      exact Nat.lt_of_not_le hlt
    · rintro ⟨hword, hlt, rfl⟩
      have hless := hlt p rfl
      have hsum : p + (value - p) = value := by omega
      exact ⟨value, ⟨by rw [hsum]; exact hword, hsum⟩, ⟨⟩, by omega, rfl⟩

/-- The differences of a list are added up again, until the limit is reached. -/
theorem decodeDeltas_deltaBytes (h : IncreasesFrom previous list)
    (hprevious : ∀ p, previous = some p → p < 2 ^ 64) {maxValues fuel count : Nat}
    (hfuel : (deltaBytes previous list).length ≤ fuel) (hcount : count ≤ maxValues)
    (hword : count + list.length < 2 ^ 64) :
    decodeDeltas maxValues fuel count previous (deltaBytes previous list) =
      if count + list.length ≤ maxValues then .ok list else .error .resourceLimitExceeded := by
  induction list generalizing previous fuel count with
  | nil =>
    rw [List.length_nil, Nat.add_zero, if_pos hcount]
    cases fuel with
    | zero => rfl
    | succ fuel =>
      rw [decodeDeltas]
      exact if_pos rfl
  | cons value values ih =>
    obtain ⟨hnext, hvalue, hlt⟩ := h.cons
    have hpos : 0 < (writeVaruint (value - previous.getD 0)).length := length_leb128_pos _
    have hne : deltaBytes previous (value :: values) ≠ [] := by
      apply List.ne_nil_of_length_pos
      rw [deltaBytes_cons, List.length_append]
      omega
    rw [deltaBytes_cons, List.length_append] at hfuel
    rw [List.length_cons] at hword ⊢
    obtain ⟨fuel, rfl⟩ : ∃ more, fuel = more + 1 := ⟨fuel - 1, by omega⟩
    rw [decodeDeltas, if_neg hne, usizeToU64_of_lt (by omega), ok_bind]
    by_cases hroom : count < maxValues
    · have hdelta : value - previous.getD 0 < 2 ^ 64 := by omega
      have hread := readVaruint_writeVaruint hdelta (deltaBytes (some value) values)
      have hstep := (postingValue_eq_ok_iff hprevious hdelta).mpr ⟨hvalue, hlt, rfl⟩
      have hrest := @ih (some value) hnext (by rintro p ⟨⟩; exact hvalue) fuel (count + 1)
        (by omega) hroom (by omega)
      rw [rejectIf_of_not (by omega), ok_bind, deltaBytes_cons, hread, ok_bind]
      dsimp only
      rw [hstep, ok_bind, hrest, Nat.add_right_comm, Nat.add_assoc]
      split
      · rfl
      · rfl
    · rw [rejectIf_of (by omega), if_neg (by omega)]
      rfl

theorem decodeDeltaVarintU64WithLimit_postingBytes (h : IncreasesFrom none list)
    (hlength : list.length < 2 ^ 64) (maxValues : Nat) :
    decodeDeltaVarintU64WithLimit (postingBytes list) maxValues =
      if list.length ≤ maxValues then .ok list else .error .resourceLimitExceeded := by
  have hdecode := @decodeDeltas_deltaBytes _ _ h (by rintro p ⟨⟩) maxValues
    (postingBytes list).length 0 (Nat.le_refl _) (Nat.zero_le _) (by omega)
  rwa [Nat.zero_add] at hdecode

/-- What was decoded is increasing, and was written as the decoder found it. -/
theorem deltaBytes_of_decodeDeltas (hprevious : ∀ p, previous = some p → p < 2 ^ 64)
    {maxValues fuel count : Nat} (hfuel : bytes.length ≤ fuel)
    (h : decodeDeltas maxValues fuel count previous bytes = .ok list) :
    IncreasesFrom previous list ∧ bytes = deltaBytes previous list := by
  induction fuel generalizing previous count bytes list with
  | zero =>
    obtain rfl := List.eq_nil_of_length_eq_zero (Nat.le_zero.mp hfuel)
    cases h
    exact ⟨increasesFrom_nil previous, rfl⟩
  | succ fuel ih =>
    rw [decodeDeltas] at h
    split at h
    · rename_i hempty
      cases h
      exact ⟨increasesFrom_nil previous, hempty⟩
    · simp only [bind_eq_ok_iff, rejectIf_eq_ok_iff, pure_eq_ok, Except.ok.injEq,
        Prod.exists] at h
      obtain ⟨_, -, _, -, delta, rest, hread, value, hstep, values, hrest, rfl⟩ := h
      obtain ⟨hdelta, rfl⟩ := (readVaruint_eq_ok_iff _ _ _).mp hread
      obtain ⟨hvalue, hlt, rfl⟩ := (postingValue_eq_ok_iff hprevious hdelta).mp hstep
      have hpos := length_leb128_pos (value - previous.getD 0)
      rw [List.length_append] at hfuel
      obtain ⟨hnext, rfl⟩ := ih (by rintro p ⟨⟩; exact hvalue) (by omega) hrest
      exact ⟨increasesFrom_cons hvalue hlt hnext, (deltaBytes_cons previous value values).symm⟩

/-! ## One form for each list -/

end Decoding

/-! ## Skip points -/

section Skips

variable {list : List Nat}

/-- What is written from an entry on depends on the entry in front alone. -/
theorem deltaBytes_append (previous : Option Nat) (front : List Nat) (last : Nat)
    (behind : List Nat) : deltaBytes previous (front ++ last :: behind) =
      deltaBytes previous (front ++ [last]) ++ deltaBytes (some last) behind := by
  induction front generalizing previous with
  | nil =>
    rw [List.nil_append, List.nil_append, deltaBytes_cons, deltaBytes_cons]
    change _ = (_ ++ []) ++ _
    rw [List.append_nil]
  | cons value front ih =>
    rw [List.cons_append, List.cons_append, deltaBytes_cons, deltaBytes_cons, ih,
      List.append_assoc]

/-- Decoding deltas from the offset of a point, with the entry in front of it as the one
before, gives the list from the point on. -/
def ReentersAt (list : List Nat) (encoded : List UInt8) (position : Nat) (point : SkipPoint) :
    Prop :=
  ∃ before, list[position - 1]? = some before ∧
    decodeDeltas (2 ^ 64 - 1) (encoded.drop point.postingByteOffset).length position (some before)
      (encoded.drop point.postingByteOffset) = .ok (list.drop position)

theorem reentersAt_of_pointsInto (h : IncreasesFrom none list) (hlength : list.length < 2 ^ 64)
    {point : SkipPoint} (hinto : PointsInto 0 0 none list point) (hpos : 0 < point.entryIndex) :
    list[point.entryIndex]? = some point.granuleId ∧
      ReentersAt list (postingBytes list) point.entryIndex point := by
  obtain ⟨before, behind, rfl, hindex, hoffset⟩ := hinto
  rw [Nat.zero_add] at hindex hoffset
  rw [hindex] at hpos ⊢
  refine ⟨by rw [List.getElem?_append_right (Nat.le_refl _), Nat.sub_self, List.getElem?_cons_zero], ?_⟩
  -- The entry in front of the point.
  obtain ⟨front, last, rfl⟩ :=
    (List.eq_nil_or_concat before).resolve_left (List.ne_nil_of_length_pos hpos)
  rw [List.concat_eq_append] at *
  have hlist : front ++ [last] ++ point.granuleId :: behind =
      front ++ last :: point.granuleId :: behind := by
    rw [List.append_assoc, List.singleton_append]
  have hposition : (front ++ [last]).length = front.length + 1 := by
    rw [List.length_append, List.length_singleton]
  have hincreases := h
  rw [hlist] at hincreases
  refine ⟨last, ?_, ?_⟩
  · rw [hlist, hposition, Nat.add_sub_cancel, List.getElem?_append_right (Nat.le_refl _),
      Nat.sub_self, List.getElem?_cons_zero]
  · have hrest : (postingBytes (front ++ [last] ++ point.granuleId :: behind)).drop
        point.postingByteOffset = deltaBytes (some last) (point.granuleId :: behind) := by
      rw [hoffset, postingBytes, hlist,
        deltaBytes_append none front last (point.granuleId :: behind)]
      exact List.drop_left
    rw [List.length_append] at hlength
    rw [hrest, decodeDeltas_deltaBytes hincreases.behind _ (Nat.le_refl _) (by omega) (by omega),
      if_pos (by omega), List.drop_left]
    rintro p ⟨⟩
    exact h.2 last (List.mem_append_left _ (List.mem_append_right _ List.mem_cons_self))

end Skips

/-! ## What the lists and their points are charged -/

section Charges

variable {withSkips : Bool} {maxEncodedBytes : Nat} {terms : List TermDictionaryEntry}
  {lists : List (List Nat)}

/-- Only increasing lists are charged. -/
theorem increases_of_chargePostingLists {size result : Nat}
    (hwords : ∀ list ∈ lists, ∀ value ∈ list, value < 2 ^ 64)
    (h : chargePostingLists withSkips maxEncodedBytes lists size = .ok result) :
    ∀ list ∈ lists, IncreasesFrom none list := by
  induction lists generalizing size with
  | nil => exact fun _ hlist => absurd hlist List.not_mem_nil
  | cons list lists ih =>
    obtain ⟨hwords, hlater⟩ := List.forall_mem_cons.mp hwords
    simp only [chargePostingLists, chargePostingList, bind_eq_ok_iff] at h
    obtain ⟨_, ⟨width, hwidth, -⟩, hrest⟩ := h
    exact List.forall_mem_cons.mpr ⟨increasesFrom_of_deltasSize hwords hwidth, ih hlater hrest⟩

/-- The points that come with the lists are as many as were charged. -/
theorem skips_of_encodePostingLoop {postingOffset skipOffset : Nat} {encoded : EncodedPostingLists}
    (hlength : terms.length = lists.length) (hlists : ∀ list ∈ lists, IncreasesFrom none list)
    (h : encodePostingLoop withSkips terms lists postingOffset skipOffset = .ok encoded) :
    encoded.postings = lists.map postingBytes ∧
      24 * (encoded.skips.map List.length).sum = (lists.map (skipBytes withSkips)).sum := by
  induction terms generalizing lists postingOffset skipOffset encoded with
  | nil =>
    obtain rfl := List.length_eq_zero_iff.mp hlength.symm
    have hnone : encodePostingLoop withSkips [] [] postingOffset skipOffset = .ok ⟨[], [], []⟩ := rfl
    obtain rfl := Except.ok.inj (hnone.symm.trans h)
    exact ⟨rfl, rfl⟩
  | cons term terms ih =>
    cases lists with
    | nil => cases hlength
    | cons list lists =>
      obtain ⟨hlist, hlater⟩ := List.forall_mem_cons.mp hlists
      have hencode : encodeDeltaVarintU64 list = .ok (postingBytes list) := encodeDeltas_eq hlist
      rw [encodePostingLoop, hencode, ok_bind] at h
      rw [List.map_cons, List.map_cons, List.sum_cons]
      cases withSkips with
      | false =>
        simp only [Bool.false_eq_true, if_false, bind_eq_ok_iff, pure_eq_ok, Except.ok.injEq] at h
        obtain ⟨_, -, _, -, _, -, _, -, _, -, _, -, _, -, rest, hrest, rfl⟩ := h
        obtain ⟨hbytes, hskips⟩ := ih (Nat.succ.inj hlength) hlater hrest
        refine ⟨congrArg (postingBytes list :: ·) hbytes, ?_⟩
        rw [hskips, skipBytes, if_neg Bool.false_ne_true, Nat.zero_add]
      | true =>
        simp only [if_true, bind_eq_ok_iff, pure_eq_ok, Except.ok.injEq, usizeToU64_eq_ok_iff] at h
        obtain ⟨points, hpoints, _, ⟨hcount, -⟩, _, ⟨hbytes, -⟩, h⟩ := h
        obtain ⟨_, -, _, -, _, -, _, -, rest, hrest, rfl⟩ := h
        obtain ⟨hrestBytes, hskips⟩ := ih (Nat.succ.inj hlength) hlater hrest
        refine ⟨congrArg (postingBytes list :: ·) hrestBytes, ?_⟩
        obtain ⟨found, hfound, hnumber, -⟩ := buildSkipPoints_eq hlist hcount hbytes
        obtain rfl := Except.ok.inj (hfound.symm.trans hpoints)
        rw [List.map_cons, List.sum_cons, Nat.mul_add, hskips, hnumber, skipBytes, if_pos rfl,
          Nat.mul_comm]

/-- What is charged before encoding is the bytes of the lists, and 24 for each of the points. -/
theorem charge_of_encodePostingLists (hlength : terms.length = lists.length)
    (hwords : ∀ list ∈ lists, ∀ value ∈ list, value < 2 ^ 64) (hmax : maxEncodedBytes < 2 ^ 64)
    {encoded : EncodedPostingLists}
    (h : encodePostingLists terms lists withSkips maxEncodedBytes = .ok encoded) :
    chargePostingLists withSkips maxEncodedBytes lists 0 =
      .ok ((encoded.postings.map List.length).sum + 24 * (encoded.skips.map List.length).sum) := by
  obtain ⟨size, hcharge, hloop⟩ := bind_eq_ok_iff.mp h
  have hlists := increases_of_chargePostingLists hwords hcharge
  obtain ⟨-, hsize⟩ := (chargePostingLists_eq_ok_iff hlists hmax (Nat.zero_le _)).mp hcharge
  obtain ⟨hpostings, hskips⟩ := skips_of_encodePostingLoop hlength hlists hloop
  rw [hcharge, hsize, Nat.zero_add, sum_postingCost, hpostings, hskips, List.map_map]
  rfl

end Charges

end Qzt
