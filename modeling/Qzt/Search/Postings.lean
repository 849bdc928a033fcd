import Qzt.Search.Index

/-!
# Posting lists, written

An increasing list of line numbers is written as the varints of its differences.  The size
that is charged for a list is the length of what is written for it, and the skip points
are read off the written bytes, one for every 128 entries of a long list.
-/

namespace Qzt

open Foundation

/-! ## Varints -/

/-- Reading from the middle of a varint: `total` is its value and `consumed` its front. -/
theorem readVaruintLoop_writeVaruint (v : Nat) : ∀ {total value shift : Nat}
    {consumed rest : List UInt8}, total = value + v * 2 ^ shift → total < 2 ^ 64 →
    writeVaruint total = consumed ++ writeVaruint v →
    readVaruintLoop (writeVaruint v ++ rest) value shift consumed = .ok (total, rest) := by
  induction v using Nat.strongRecOn with
  | _ v ih =>
    intro total value shift consumed rest htotal hlt hwritten
    unfold writeVaruint at hwritten ⊢
    rcases Nat.lt_or_ge v 128 with hsmall | hlarge
    · -- The last group.
      rw [leb128_of_lt hsmall] at hwritten ⊢
      have hpayload : value + v % 128 * 2 ^ shift % 2 ^ 64 = total := by
        rw [Nat.mod_eq_of_lt hsmall, Nat.mod_eq_of_lt (by omega), htotal]
      rw [List.singleton_append, readVaruintLoop, toNat_ofNat_last hsmall, if_pos hsmall, hpayload, writeVaruint, hwritten, rejectIf_of_not (not_not_intro rfl),
        ok_bind]
      rfl
    · -- A group with the continuation bit: enough shift is left for the rest.
      have hroom : shift + 7 < 64 := by
        have hpow : 2 ^ (shift + 7) < 2 ^ 64 := by
          calc 2 ^ (shift + 7) = 128 * 2 ^ shift := by rw [Nat.pow_add, Nat.mul_comm]
            _ ≤ v * 2 ^ shift := Nat.mul_le_mul_right _ hlarge
            _ < 2 ^ 64 := by omega
        exact (Nat.pow_lt_pow_iff_right (by decide)).mp hpow
      have hsplit : v * 2 ^ shift = v % 128 * 2 ^ shift + v / 128 * 2 ^ (shift + 7) := by
        conv_lhs => rw [← Nat.mod_add_div v 128]
        rw [Nat.pow_add]
        ring
      have hgroup : (v % 128 + 128) % 128 = v % 128 := by omega
      have hpayload : (v % 128 + 128) % 128 * 2 ^ shift % 2 ^ 64 = v % 128 * 2 ^ shift := by
        rw [hgroup, Nat.mod_eq_of_lt (by omega)]
      rw [leb128_of_le hlarge] at hwritten ⊢
      rw [List.cons_append, readVaruintLoop, toNat_ofNat_group, if_neg (by omega), if_neg (by omega), hpayload]
      apply ih (v / 128) (by omega) (by omega) hlt
      rw [writeVaruint, hwritten, List.append_assoc, List.singleton_append]
      rfl

/-- A written varint is read back. -/
theorem readVaruint_writeVaruint {v : Nat} (h : v < 2 ^ 64) (rest : List UInt8) :
    readVaruint (writeVaruint v ++ rest) = .ok (v, rest) :=
  readVaruintLoop_writeVaruint v (by omega) h rfl

/-- What was read is what would be written: the reader compares them. -/
theorem canonical_of_readVaruintLoop {bytes rest consumed : List UInt8} {value shift result : Nat}
    (hvalue : value < 2 ^ shift) (hshift : shift ≤ 63) (hseven : shift % 7 = 0)
    (h : readVaruintLoop bytes value shift consumed = .ok (result, rest)) :
    consumed ++ bytes = leb128 result ++ rest ∧ result < 2 ^ 64 := by
  induction bytes generalizing value shift consumed with
  | nil => cases h
  | cons byte bytes ih =>
    have hpayload : byte.toNat % 128 < 128 := Nat.mod_lt _ (by decide)
    simp only [readVaruintLoop] at h
    split at h
    · simp only [bind_eq_ok_iff, rejectIf_eq_ok_iff, pure_eq_ok, Except.ok.injEq,
        Prod.mk.injEq] at h
      obtain ⟨_, hwritten, rfl, rfl⟩ := h
      rw [not_ne_iff, writeVaruint] at hwritten
      refine ⟨by rw [hwritten, List.append_assoc, List.singleton_append], ?_⟩
      -- The tenth group loses its high bits; the value stays within the word.
      rcases Nat.lt_or_ge shift 63 with hlow | hhigh
      · have hsum := add_group_lt hvalue hpayload
        have hpow : 2 ^ (shift + 7) ≤ 2 ^ 64 := Nat.pow_le_pow_right (by decide) (by omega)
        have hmod := Nat.mod_le (byte.toNat % 128 * 2 ^ shift) (2 ^ 64)
        omega
      · obtain rfl : shift = 63 := Nat.le_antisymm hshift hhigh
        omega
    · split at h
      · cases h
      · have hsum := add_group_lt hvalue hpayload
        have hmod := Nat.mod_le (byte.toNat % 128 * 2 ^ shift) (2 ^ 64)
        have hnext := @ih (consumed ++ [byte]) _ (shift + 7)
          (show value + byte.toNat % 128 * 2 ^ shift % 2 ^ 64 < 2 ^ (shift + 7) by omega)
          (by omega) (by omega) h
        rwa [List.append_assoc, List.singleton_append] at hnext

/-- A varint is read exactly where the canonical form of a machine word stands. -/
theorem readVaruint_eq_ok_iff (rest : List UInt8) (v : Nat) (after : List UInt8) :
    readVaruint rest = .ok (v, after) ↔ v < 2 ^ 64 ∧ rest = leb128 v ++ after := by
  constructor
  · intro h
    obtain ⟨hbytes, hlt⟩ :=
      @canonical_of_readVaruintLoop rest after [] 0 0 v (by decide) (by decide) (by decide) h
    exact ⟨hlt, hbytes⟩
  · rintro ⟨hlt, rfl⟩
    exact readVaruint_writeVaruint hlt after

/-! ## Differences -/

/-- The differences of a list after `previous`. -/
def deltas : Option Nat → List Nat → List Nat
  | _, [] => []
  | previous, value :: values => (value - previous.getD 0) :: deltas (some value) values

/-- What is written for a list after `previous`. -/
def deltaBytes (previous : Option Nat) (list : List Nat) : List UInt8 :=
  (deltas previous list).flatMap writeVaruint

/-- What is written for a posting list. -/
def postingBytes (list : List Nat) : List UInt8 :=
  deltaBytes none list

theorem deltaBytes_cons (previous : Option Nat) (value : Nat) (values : List Nat) :
    deltaBytes previous (value :: values) =
      writeVaruint (value - previous.getD 0) ++ deltaBytes (some value) values := by
  rw [deltaBytes, deltas, List.flatMap_cons]
  rfl

/-- The list increases from `previous` on, within a machine word. -/
def IncreasesFrom (previous : Option Nat) (list : List Nat) : Prop :=
  (previous.toList ++ list).Pairwise (· < ·) ∧ ∀ value ∈ list, value < 2 ^ 64

section Deltas

variable {previous : Option Nat} {value : Nat} {list values : List Nat}

theorem IncreasesFrom.cons (h : IncreasesFrom previous (value :: values)) :
    IncreasesFrom (some value) values ∧ value < 2 ^ 64 ∧ ∀ p, previous = some p → p < value := by
  obtain ⟨hsorted, hbound⟩ := h
  rw [List.forall_mem_cons] at hbound
  rw [List.pairwise_append] at hsorted
  refine ⟨⟨hsorted.2.1, hbound.2⟩, hbound.1, ?_⟩
  intro p hp
  exact hsorted.2.2 p (by simp [hp]) value List.mem_cons_self

theorem IncreasesFrom.postingDelta (h : IncreasesFrom previous (value :: values)) :
    postingDelta previous value = .ok (value - previous.getD 0) := by
  obtain ⟨-, -, hprevious⟩ := h.cons
  cases previous with
  | none => rfl
  | some p =>
    have hlt := hprevious p rfl
    rw [Qzt.postingDelta, rejectIf_of_not (by omega), ok_bind, checkedSub_of_le (by omega)]
    rfl

theorem encodeDeltas_eq (h : IncreasesFrom previous list) :
    encodeDeltas previous list = .ok (deltaBytes previous list) := by
  induction list generalizing previous with
  | nil => rfl
  | cons value values ih =>
    rw [encodeDeltas, h.postingDelta, ok_bind, ih h.cons.1, ok_bind, deltaBytes_cons]
    rfl

/-- The size that is counted is the length of what is written. -/
theorem deltasSize_eq_ok_iff (h : IncreasesFrom previous list) {size result : Nat}
    (hsize : size < 2 ^ 64) : deltasSize previous list size = .ok result ↔
      size + (deltaBytes previous list).length < 2 ^ 64 ∧
        result = size + (deltaBytes previous list).length := by
  induction list generalizing previous size with
  | nil =>
    rw [deltasSize, Except.ok.injEq, deltaBytes, deltas, List.flatMap_nil, List.length_nil,
      Nat.add_zero, eq_comm]
    exact (and_iff_right hsize).symm
  | cons value values ih =>
    obtain ⟨hnext, -, -⟩ := h.cons
    rw [deltasSize, h.postingDelta, ok_bind, deltaBytes_cons, List.length_append, ← Nat.add_assoc]
    change (do
      let size ← okOr .resourceLimitExceeded
        (checkedAdd size (← usizeToU64 (writeVaruint (value - previous.getD 0)).length))
      deltasSize (some value) values size) = .ok result ↔ _
    simp only [bind_eq_ok_iff, usizeToU64_eq_ok_iff, okOr_eq_ok_iff, checkedAdd_eq_some_iff]
    constructor
    · rintro ⟨_, ⟨-, rfl⟩, _, ⟨hsum, rfl⟩, hrest⟩
      exact (ih hnext hsum).mp hrest
    · rintro ⟨hsum, hresult⟩
      refine ⟨_, ⟨by omega, rfl⟩, _, ⟨by omega, rfl⟩, ?_⟩
      exact (ih hnext (by omega)).mpr ⟨hsum, hresult⟩

theorem failsOnlyWith_deltasSize (h : IncreasesFrom previous list) (size : Nat) :
    FailsOnlyWith .resourceLimitExceeded (deltasSize previous list size) := by
  induction list generalizing previous size with
  | nil => exact failsOnlyWith_ok _
  | cons value values ih =>
    rw [deltasSize, h.postingDelta, ok_bind]
    refine failsOnlyWith_bind (failsOnlyWith_usizeToU64 _) fun width _ => ?_
    exact failsOnlyWith_bind (failsOnlyWith_okOr _ _) fun size _ => ih h.cons.1 size

/-! ## Skip points -/

/-- One round of the loop over a written list. -/
theorem skipPointLoop_cons (h : IncreasesFrom previous (value :: values)) {index cursor : Nat}
    (hindex : index < 2 ^ 64) (hcursor : cursor < 2 ^ 64) (rest : List UInt8) :
    skipPointLoop index cursor previous (value :: values)
        (writeVaruint (value - previous.getD 0) ++ rest) = (do
      let points ← skipPointLoop (index + 1)
        (cursor + (writeVaruint (value - previous.getD 0)).length) (some value) values rest
      return if index > 0 ∧ index % 128 = 0 then
        { entryIndex := index, granuleId := value, postingByteOffset := cursor } :: points
      else points) := by
  obtain ⟨-, hword, hprevious⟩ := h.cons
  have hread := readVaruint_writeVaruint (show value - previous.getD 0 < 2 ^ 64 by omega) rest
  have hmoved : (writeVaruint (value - previous.getD 0) ++ rest).length - rest.length =
      (writeVaruint (value - previous.getD 0)).length := by
    rw [List.length_append, Nat.add_sub_cancel]
  rw [skipPointLoop, usizeToU64_of_lt hcursor, ok_bind, hread]
  cases previous with
  | none =>
    rw [Option.getD_none, Nat.sub_zero] at hmoved ⊢
    simp only [pure_eq_ok, ok_bind, hmoved, usizeToU64_of_lt hindex, ne_eq, not_true_eq_false,
      rejectIf_of_not not_false]
    split <;> rfl
  | some p =>
    have hlt := hprevious p rfl
    have hsum : p + (value - p) = value := by omega
    have hadd : checkedAdd p (value - p) = some value := by
      rw [checkedAdd_of_lt (by omega), hsum]
    rw [Option.getD_some] at hmoved ⊢
    simp only [pure_eq_ok, ok_bind, hmoved, usizeToU64_of_lt hindex, hadd, okOr_some, ne_eq,
      not_true_eq_false, rejectIf_of_not not_false]
    split <;> rfl

/-- The positions, out of `length` from `index` on, that have a skip point. -/
def skipIndices (index length : Nat) : List Nat :=
  (List.range' index length).filter fun position => 0 < position ∧ position % 128 = 0

theorem skipIndices_succ (index length : Nat) :
    skipIndices index (length + 1) =
      if index > 0 ∧ index % 128 = 0 then index :: skipIndices (index + 1) length
      else skipIndices (index + 1) length := by
  rw [skipIndices, List.range'_succ, List.filter_cons]
  simp only [decide_eq_true_eq]
  rfl

/-- From the start of a list, these are the positive multiples of 128. -/
theorem skipIndices_zero (length : Nat) :
    skipIndices 0 length = (List.range ((length - 1) / 128)).map fun k => 128 * (k + 1) := by
  rw [skipIndices, ← List.range_eq_range']
  induction length with
  | zero => rfl
  | succ length ih =>
    rw [List.range_succ, List.filter_append, ih, Nat.add_sub_cancel]
    by_cases hpoint : 0 < length ∧ length % 128 = 0
    · have hcount : length / 128 = (length - 1) / 128 + 1 := by omega
      have hlast : length = 128 * ((length - 1) / 128 + 1) := by omega
      rw [List.filter_cons_of_pos (by simpa using hpoint), List.filter_nil, hcount,
        List.range_succ, List.map_append, List.map_singleton, ← hlast]
    · have hcount : length / 128 = (length - 1) / 128 := by omega
      rw [List.filter_cons_of_neg (by simpa using hpoint), List.filter_nil, List.append_nil, hcount]

/-- A skip point stands before an entry of the list: it counts the entries in front, and the bytes
that are written for them. -/
def PointsInto (index cursor : Nat) (previous : Option Nat) (list : List Nat) (point : SkipPoint) :
    Prop :=
  ∃ before behind, list = before ++ point.granuleId :: behind ∧
    point.entryIndex = index + before.length ∧
    point.postingByteOffset = cursor + (deltaBytes previous before).length

theorem PointsInto.cons {index cursor : Nat} {point : SkipPoint} (value : Nat)
    (h : PointsInto (index + 1) (cursor + (writeVaruint (value - previous.getD 0)).length)
      (some value) list point) : PointsInto index cursor previous (value :: list) point := by
  obtain ⟨before, behind, rfl, hindex, hoffset⟩ := h
  refine ⟨value :: before, behind, rfl, ?_, ?_⟩
  · rw [hindex, List.length_cons]
    omega
  · rw [hoffset, deltaBytes_cons, List.length_append]
    omega

/-- Skip points are found for every written list, at every 128th of its entries. -/
theorem skipPointLoop_eq (h : IncreasesFrom previous list) {index cursor : Nat}
    (hindex : index + list.length < 2 ^ 64)
    (hcursor : cursor + (deltaBytes previous list).length < 2 ^ 64) :
    ∃ points, skipPointLoop index cursor previous list (deltaBytes previous list) = .ok points ∧
      points.map SkipPoint.entryIndex = skipIndices index list.length ∧
      ∀ point ∈ points, PointsInto index cursor previous list point := by
  induction list generalizing previous index cursor with
  | nil => exact ⟨[], rfl, rfl, fun _ hpoint => absurd hpoint List.not_mem_nil⟩
  | cons value values ih =>
    obtain ⟨hnext, -, -⟩ := h.cons
    rw [deltaBytes_cons, List.length_append] at hcursor
    rw [List.length_cons] at hindex
    obtain ⟨points, hpoints, hindices, hinto⟩ := ih hnext
      (show index + 1 + values.length < 2 ^ 64 by omega)
      (show cursor + (writeVaruint (value - previous.getD 0)).length +
        (deltaBytes (some value) values).length < 2 ^ 64 by omega)
    have hlater : ∀ point ∈ points, PointsInto index cursor previous (value :: values) point :=
      fun point hpoint => (hinto point hpoint).cons value
    rw [deltaBytes_cons, skipPointLoop_cons h (by omega) (by omega), hpoints, ok_bind,
      List.length_cons, skipIndices_succ]
    refine ⟨_, rfl, ?_⟩
    split
    · refine ⟨congrArg (index :: ·) hindices, List.forall_mem_cons.mpr ⟨?_, hlater⟩⟩
      exact ⟨[], values, rfl, rfl, rfl⟩
    · exact ⟨hindices, hlater⟩

end Deltas

/-- How many skip points a list has. -/
def skipPointCount (list : List Nat) : Nat :=
  if list.length < 1024 then 0 else (list.length - 1) / 128

theorem buildSkipPoints_eq {list : List Nat} (h : IncreasesFrom none list)
    (hlength : list.length < 2 ^ 64) (hbytes : (postingBytes list).length < 2 ^ 64) :
    ∃ points, buildSkipPoints list (postingBytes list) = .ok points ∧
      points.length = skipPointCount list ∧
      (1024 ≤ list.length →
        points.map SkipPoint.entryIndex = skipIndices 0 list.length) ∧
      ∀ point ∈ points, PointsInto 0 0 none list point := by
  unfold buildSkipPoints skipPointCount
  split
  · rename_i hshort
    exact ⟨[], rfl, rfl, fun hlong => absurd hshort (Nat.not_lt.mpr hlong),
      fun _ hpoint => absurd hpoint List.not_mem_nil⟩
  · have hpositions : 0 + list.length < 2 ^ 64 := by
      rw [Nat.zero_add]
      exact hlength
    have hcursor : 0 + (deltaBytes none list).length < 2 ^ 64 := by
      rw [Nat.zero_add]
      exact hbytes
    obtain ⟨points, hpoints, hindices, hinto⟩ := skipPointLoop_eq h hpositions hcursor
    refine ⟨points, hpoints, ?_, fun _ => hindices, hinto⟩
    have hcount := congrArg List.length hindices
    rwa [skipIndices_zero, List.length_map, List.length_map, List.length_range] at hcount

theorem length_le_length_deltaBytes (previous : Option Nat) (list : List Nat) :
    list.length ≤ (deltaBytes previous list).length := by
  induction list generalizing previous with
  | nil => exact Nat.zero_le _
  | cons value values ih =>
    have hpos : 0 < (writeVaruint (value - previous.getD 0)).length := length_leb128_pos _
    have hrest := ih (some value)
    rw [deltaBytes_cons, List.length_append, List.length_cons]
    omega

/-! ## Charges -/

theorem chargeBuild_eq_ok_iff {value amount limit result : Nat} (hlimit : limit < 2 ^ 64) :
    chargeBuild value amount limit = .ok result ↔
      value + amount ≤ limit ∧ result = value + amount := by
  simp only [chargeBuild, bind_eq_ok_iff, okOr_eq_ok_iff, checkedAdd_eq_some_iff,
    rejectIf_eq_ok_iff, pure_eq_ok, Except.ok.injEq]
  constructor
  · rintro ⟨_, ⟨-, rfl⟩, -, hle, hresult⟩
    exact ⟨by omega, hresult.symm⟩
  · rintro ⟨hle, hresult⟩
    exact ⟨_, ⟨by omega, rfl⟩, ⟨⟩, by omega, hresult.symm⟩

theorem chargeBuild_of_le {value amount limit : Nat} (hlimit : limit < 2 ^ 64)
    (h : value + amount ≤ limit) : chargeBuild value amount limit = .ok (value + amount) :=
  (chargeBuild_eq_ok_iff hlimit).mpr ⟨h, rfl⟩

theorem failsOnlyWith_chargeBuild (value amount limit : Nat) :
    FailsOnlyWith .resourceLimitExceeded (chargeBuild value amount limit) := by
  refine failsOnlyWith_bind (failsOnlyWith_okOr _ _) fun next _ => ?_
  exact failsOnlyWith_bind (failsOnlyWith_rejectIf _) fun _ _ => failsOnlyWith_ok _

/-- The bytes of the skip points of a list. -/
def skipBytes (withSkips : Bool) (list : List Nat) : Nat :=
  if withSkips then skipPointCount list * 24 else 0

/-- The bytes that are charged for a list. -/
def postingCost (withSkips : Bool) (list : List Nat) : Nat :=
  (postingBytes list).length + skipBytes withSkips list

section Charges

variable {withSkips : Bool} {maxEncodedBytes : Nat} {list : List Nat} {lists : List (List Nat)}

theorem encodedDeltaVarintSize_eq_ok_iff (h : IncreasesFrom none list) {size : Nat} :
    encodedDeltaVarintSize list = .ok size ↔
      (postingBytes list).length < 2 ^ 64 ∧ size = (postingBytes list).length := by
  rw [encodedDeltaVarintSize, deltasSize_eq_ok_iff h (by omega), Nat.zero_add]
  rfl

theorem chargePostingList_eq_ok_iff (h : IncreasesFrom none list) (hmax : maxEncodedBytes < 2 ^ 64)
    {size result : Nat} : chargePostingList withSkips maxEncodedBytes size list = .ok result ↔
      size + postingCost withSkips list ≤ maxEncodedBytes ∧
        result = size + postingCost withSkips list := by
  unfold chargePostingList postingCost skipBytes skipPointCount
  simp only [bind_eq_ok_iff, encodedDeltaVarintSize_eq_ok_iff h, chargeBuild_eq_ok_iff hmax]
  by_cases hskips : withSkips = true ∧ list.length ≥ 1024
  · simp only [hskips, and_self, if_true, if_neg (Nat.not_lt.mpr hskips.2),
      bind_eq_ok_iff, usizeToU64_eq_ok_iff, okOr_eq_ok_iff, checkedMul_eq_some_iff,
      chargeBuild_eq_ok_iff hmax]
    constructor
    · rintro ⟨_, ⟨-, rfl⟩, _, ⟨hle, rfl⟩, _, ⟨-, rfl⟩, _, ⟨-, rfl⟩, hsum, rfl⟩
      exact ⟨by omega, by omega⟩
    · rintro ⟨hle, rfl⟩
      exact ⟨_, ⟨by omega, rfl⟩, _, ⟨by omega, rfl⟩, _, ⟨by omega, rfl⟩, _, ⟨by omega, rfl⟩,
        by omega, by omega⟩
  · have hnone : (if withSkips = true then
        (if list.length < 1024 then 0 else (list.length - 1) / 128) * 24 else 0) = 0 := by
      split
      · rename_i hwith
        rw [if_pos (by by_contra hlt; exact hskips ⟨hwith, by omega⟩), Nat.zero_mul]
      · rfl
    simp only [if_neg hskips, hnone, Nat.add_zero, pure_eq_ok, Except.ok.injEq]
    constructor
    · rintro ⟨_, ⟨-, rfl⟩, _, ⟨hle, rfl⟩, rfl⟩
      exact ⟨hle, rfl⟩
    · rintro ⟨hle, rfl⟩
      exact ⟨_, ⟨by omega, rfl⟩, _, ⟨hle, rfl⟩, rfl⟩

theorem failsOnlyWith_chargePostingList (h : IncreasesFrom none list) (size : Nat) :
    FailsOnlyWith .resourceLimitExceeded
      (chargePostingList withSkips maxEncodedBytes size list) := by
  refine failsOnlyWith_bind (failsOnlyWith_deltasSize h 0) fun width _ => ?_
  refine failsOnlyWith_bind (failsOnlyWith_chargeBuild _ _ _) fun size _ => ?_
  split
  · refine failsOnlyWith_bind (failsOnlyWith_usizeToU64 _) fun count _ => ?_
    refine failsOnlyWith_bind (failsOnlyWith_okOr _ _) fun skips _ => ?_
    exact failsOnlyWith_chargeBuild _ _ _
  · exact failsOnlyWith_ok _

/-- The lists are charged exactly when together they are within the limit. -/
theorem chargePostingLists_eq_ok_iff (hlists : ∀ list ∈ lists, IncreasesFrom none list)
    (hmax : maxEncodedBytes < 2 ^ 64) {size result : Nat} (hsize : size ≤ maxEncodedBytes) :
    chargePostingLists withSkips maxEncodedBytes lists size = .ok result ↔
      size + (lists.map (postingCost withSkips)).sum ≤ maxEncodedBytes ∧
        result = size + (lists.map (postingCost withSkips)).sum := by
  induction lists generalizing size with
  | nil =>
    rw [chargePostingLists, Except.ok.injEq, List.map_nil, List.sum_nil, Nat.add_zero, eq_comm]
    exact (and_iff_right hsize).symm
  | cons list lists ih =>
    rw [List.forall_mem_cons] at hlists
    rw [chargePostingLists, bind_eq_ok_iff, List.map_cons, List.sum_cons, ← Nat.add_assoc]
    constructor
    · rintro ⟨next, hlist, hrest⟩
      obtain ⟨hle, rfl⟩ := (chargePostingList_eq_ok_iff hlists.1 hmax).mp hlist
      exact (ih hlists.2 hle).mp hrest
    · rintro ⟨hle, hresult⟩
      refine ⟨_, (chargePostingList_eq_ok_iff hlists.1 hmax).mpr ⟨by omega, rfl⟩, ?_⟩
      exact (ih hlists.2 (by omega)).mpr ⟨hle, hresult⟩

theorem failsOnlyWith_chargePostingLists (hlists : ∀ list ∈ lists, IncreasesFrom none list)
    (size : Nat) : FailsOnlyWith .resourceLimitExceeded
      (chargePostingLists withSkips maxEncodedBytes lists size) := by
  induction lists generalizing size with
  | nil => exact failsOnlyWith_ok _
  | cons list lists ih =>
    rw [List.forall_mem_cons] at hlists
    exact failsOnlyWith_bind (failsOnlyWith_chargePostingList hlists.1 _) fun size _ =>
      ih hlists.2 size

end Charges

/-! ## Terms and their lists -/

/-- What encoding keeps of the terms, and what it writes about their lists. -/
structure WrittenTerms (terms : List TermDictionaryEntry) (lists : List (List Nat))
    (written : List TermDictionaryEntry) : Prop where
  keys : written.map TermDictionaryEntry.key = terms.map TermDictionaryEntry.key
  granuleFrequency : written.map TermDictionaryEntry.granuleFrequency = lists.map List.length
  postingSize : written.map TermDictionaryEntry.postingSize =
    lists.map fun list => (postingBytes list).length

/-- The second loop succeeds on every charge the first one admits. -/
theorem encodePostingLoop_eq {withSkips : Bool} {terms : List TermDictionaryEntry}
    {lists : List (List Nat)} (hlength : terms.length = lists.length)
    (hlists : ∀ list ∈ lists, IncreasesFrom none list) {postingOffset skipOffset : Nat}
    (hpostings : postingOffset + (lists.map fun list => (postingBytes list).length).sum < 2 ^ 64)
    (hskips : skipOffset + (lists.map (skipBytes withSkips)).sum < 2 ^ 64) :
    ∃ encoded, encodePostingLoop withSkips terms lists postingOffset skipOffset = .ok encoded ∧
      WrittenTerms terms lists encoded.terms ∧ encoded.postings = lists.map postingBytes := by
  induction terms generalizing lists postingOffset skipOffset with
  | nil =>
    obtain rfl := List.length_eq_zero_iff.mp hlength.symm
    exact ⟨⟨[], [], []⟩, rfl, ⟨rfl, rfl, rfl⟩, rfl⟩
  | cons term terms ih =>
    cases lists with
    | nil => cases hlength
    | cons list lists =>
      rw [List.forall_mem_cons] at hlists
      rw [List.map_cons, List.sum_cons] at hpostings hskips
      have hcount := length_le_length_deltaBytes none list
      change list.length ≤ (postingBytes list).length at hcount
      have hfound : ∃ points, (if withSkips then buildSkipPoints list (postingBytes list)
          else pure [] : Result (List SkipPoint)) = .ok points ∧
          points.length * 24 = skipBytes withSkips list := by
        cases withSkips with
        | false => exact ⟨[], rfl, rfl⟩
        | true =>
          obtain ⟨points, hpoints, hnumber, -⟩ :=
            buildSkipPoints_eq hlists.1 (by omega) (by omega)
          exact ⟨points, hpoints, by rw [hnumber]; rfl⟩
      obtain ⟨points, hpoints, hnumber⟩ := hfound
      obtain ⟨rest, hrest, hwritten, hbytes⟩ := ih (Nat.succ.inj hlength) hlists.2
        (show postingOffset + (postingBytes list).length +
          (lists.map fun list => (postingBytes list).length).sum < 2 ^ 64 by omega)
        (show skipOffset + skipBytes withSkips list +
          (lists.map (skipBytes withSkips)).sum < 2 ^ 64 by omega)
      have hencode : encodeDeltaVarintU64 list = .ok (postingBytes list) := encodeDeltas_eq hlists.1
      refine ⟨{ terms := { term with
                  documentFrequency := 0, granuleFrequency := list.length, postingOffset,
                  postingSize := (postingBytes list).length, skipOffset,
                  skipSize := skipBytes withSkips list } :: rest.terms
                postings := postingBytes list :: rest.postings
                skips := if withSkips then points :: rest.skips else rest.skips }, ?_, ?_, ?_⟩
      · have hjoin : ∀ f : List SkipPoint → Result EncodedPostingLists,
            (if withSkips then (do
                let skips ← buildSkipPoints list (postingBytes list)
                f skips)
              else (do
                let skips ← pure []
                f skips)) = f points := by
          intro f
          cases withSkips with
          | false => exact congrArg f (Except.ok.inj hpoints)
          | true =>
            rw [if_pos rfl] at hpoints ⊢
            rw [hpoints, ok_bind]
        rw [encodePostingLoop, hencode, ok_bind]
        dsimp only
        rw [hjoin, usizeToU64_of_lt (by omega), ok_bind, usizeToU64_of_lt (by omega), ok_bind,
          usizeToU64_of_lt (by omega), ok_bind, checkedMul_of_lt (by omega), okOr_some, ok_bind,
          checkedAdd_of_lt (by omega), okOr_some, ok_bind, hnumber, checkedAdd_of_lt (by omega),
          okOr_some, ok_bind, hrest]
        rfl
      · exact ⟨congrArg (term.key :: ·) hwritten.keys,
          congrArg (list.length :: ·) hwritten.granuleFrequency,
          congrArg ((postingBytes list).length :: ·) hwritten.postingSize⟩
      · exact congrArg (postingBytes list :: ·) hbytes

section Lists

variable {withSkips : Bool} {maxEncodedBytes : Nat} {terms : List TermDictionaryEntry}
  {lists : List (List Nat)}

theorem sum_postingCost (withSkips : Bool) (lists : List (List Nat)) :
    (lists.map (postingCost withSkips)).sum =
      (lists.map fun list => (postingBytes list).length).sum +
        (lists.map (skipBytes withSkips)).sum := by
  induction lists with
  | nil => rfl
  | cons list lists ih =>
    simp only [List.map_cons, List.sum_cons, ih, postingCost]
    omega

/-- Lists within the limit are encoded. -/
theorem encodePostingLists_of_le (hlength : terms.length = lists.length)
    (hlists : ∀ list ∈ lists, IncreasesFrom none list) (hmax : maxEncodedBytes < 2 ^ 64)
    (hle : (lists.map (postingCost withSkips)).sum ≤ maxEncodedBytes) :
    ∃ encoded, encodePostingLists terms lists withSkips maxEncodedBytes = .ok encoded ∧
      WrittenTerms terms lists encoded.terms := by
  have hsum := sum_postingCost withSkips lists
  obtain ⟨encoded, hencoded, hwritten, -⟩ := @encodePostingLoop_eq withSkips terms lists hlength
    hlists 0 0 (by omega) (by omega)
  refine ⟨encoded, ?_, hwritten⟩
  rw [encodePostingLists, (chargePostingLists_eq_ok_iff hlists hmax (Nat.zero_le _)).mpr
    ⟨by omega, rfl⟩, ok_bind, hencoded]

theorem le_of_encodePostingLists (hlists : ∀ list ∈ lists, IncreasesFrom none list)
    (hmax : maxEncodedBytes < 2 ^ 64) {encoded : EncodedPostingLists}
    (h : encodePostingLists terms lists withSkips maxEncodedBytes = .ok encoded) :
    (lists.map (postingCost withSkips)).sum ≤ maxEncodedBytes := by
  obtain ⟨size, hcharge, -⟩ := bind_eq_ok_iff.mp h
  have hle := ((chargePostingLists_eq_ok_iff hlists hmax (Nat.zero_le _)).mp hcharge).1
  omega

/-- What the encoded lists are. -/
theorem encodePostingLists_writes (hlength : terms.length = lists.length)
    (hlists : ∀ list ∈ lists, IncreasesFrom none list) (hmax : maxEncodedBytes < 2 ^ 64)
    {encoded : EncodedPostingLists}
    (h : encodePostingLists terms lists withSkips maxEncodedBytes = .ok encoded) :
    WrittenTerms terms lists encoded.terms ∧ encoded.postings = lists.map postingBytes := by
  have hle := le_of_encodePostingLists hlists hmax h
  have hsum := sum_postingCost withSkips lists
  obtain ⟨encoded', hencoded, hwritten, hpostings⟩ :=
    @encodePostingLoop_eq withSkips terms lists hlength hlists 0 0 (by omega) (by omega)
  obtain ⟨_, -, hloop⟩ := bind_eq_ok_iff.mp h
  rw [hencoded, Except.ok.injEq] at hloop
  rw [← hloop]
  exact ⟨hwritten, hpostings⟩

theorem failsOnlyWith_encodePostingLists (hlength : terms.length = lists.length)
    (hlists : ∀ list ∈ lists, IncreasesFrom none list) (hmax : maxEncodedBytes < 2 ^ 64) :
    FailsOnlyWith .resourceLimitExceeded
      (encodePostingLists terms lists withSkips maxEncodedBytes) := by
  by_cases hle : (lists.map (postingCost withSkips)).sum ≤ maxEncodedBytes
  · obtain ⟨encoded, hencoded, -⟩ := @encodePostingLists_of_le withSkips _ _ _ hlength hlists hmax hle
    rw [hencoded]
    exact failsOnlyWith_ok _
  · -- What is charged is above the limit, so nothing comes after it.
    refine failsOnlyWith_bind (failsOnlyWith_chargePostingLists hlists 0) fun size hcharge => ?_
    have hcharged := ((chargePostingLists_eq_ok_iff hlists hmax (Nat.zero_le _)).mp hcharge).1
    omega

end Lists

end Qzt
