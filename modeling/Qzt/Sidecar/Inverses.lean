import Qzt.Sidecar.Admission
import Qzt.Sidecar.ManifestRoundTrip
import Qzt.Sidecar.Varuints

/-!
# The section codecs are inverses

For each record layout one statement says what its decoder takes: the record of a value that
the layout can represent, as its encoder writes it.  Both directions of every section codec
follow from it, that accepted bytes are written again and that written bytes are read back.
-/

namespace Qzt.Sidecar

open Foundation

/-! ## Cursors -/

section Cursors

variable {bytes part : List UInt8} {cursor len next value : Nat}

theorem readExact_iff (hword : bytes.length < 2 ^ 64) :
    readExact bytes cursor len = .ok (part, next) ↔
      StandsAt bytes cursor part ∧ part.length = len ∧ next = cursor + len := by
  constructor
  · exact standsAt_of_readExact
  · rintro ⟨hstands, hlength, rfl⟩
    exact readExact_of_standsAt hword hstands hlength

theorem leNat_lt_of_length {n : Nat} (hlength : bytes.length = n) : leNat bytes < 256 ^ n := by
  rw [← hlength]
  exact leNat_lt bytes

theorem readU64Cursor_iff (hword : bytes.length < 2 ^ 64) :
    readU64Cursor bytes cursor = .ok (value, next) ↔
      value < 2 ^ 64 ∧ StandsAt bytes cursor (leBytes 8 value) ∧ next = cursor + 8 := by
  constructor
  · intro h
    simp only [readU64Cursor, bind_eq_ok_iff, Prod.exists, pure_eq_ok, Except.ok.injEq,
      Prod.mk.injEq] at h
    obtain ⟨found, _, hread, _, hvalue, rfl, rfl⟩ := h
    obtain ⟨hstands, hlength, rfl⟩ := standsAt_of_readExact hread
    obtain ⟨-, rfl⟩ := readLe_eq_ok_iff.mp hvalue
    rw [← leBytes_of_readLe hvalue] at hstands
    exact ⟨leNat_lt_of_length hlength, hstands, rfl⟩
  · rintro ⟨hlt, hstands, rfl⟩
    exact readU64Cursor_of_standsAt hword hstands hlt

theorem readU32Cursor_iff (hword : bytes.length < 2 ^ 64) :
    readU32Cursor bytes cursor = .ok (value, next) ↔
      value < 2 ^ 32 ∧ StandsAt bytes cursor (leBytes 4 value) ∧ next = cursor + 4 := by
  constructor
  · intro h
    simp only [readU32Cursor, bind_eq_ok_iff, Prod.exists, pure_eq_ok, Except.ok.injEq,
      Prod.mk.injEq] at h
    obtain ⟨found, _, hread, _, hvalue, rfl, rfl⟩ := h
    obtain ⟨hstands, hlength, rfl⟩ := standsAt_of_readExact hread
    obtain ⟨-, rfl⟩ := readLe_eq_ok_iff.mp hvalue
    rw [← leBytes_of_readLe hvalue] at hstands
    exact ⟨leNat_lt_of_length hlength, hstands, rfl⟩
  · rintro ⟨hlt, hstands, rfl⟩
    exact readU32Cursor_of_standsAt hword hstands hlt

end Cursors

/-! ## Granules -/

/-- The granules that a layout can represent, at the place that their ids say.  A legacy record
has no room for the sentinel, and a compact one none for what follows from the place. -/
def GranuleEncoding.Represents (encoding : GranuleEncoding) (granule : SearchGranule)
    (index : Nat) : Prop :=
  granule.granuleId = index ∧ granule.logicalOffset < 2 ^ 64 ∧
    match encoding with
    | .legacyV1 =>
      granule.granuleId < 2 ^ 64 ∧ granule.byteLength < 2 ^ 64 ∧ granule.chunkStart < 2 ^ 64 ∧
        granule.chunkEnd < 2 ^ 64 ∧ (∀ line ∈ granule.firstLine, line < 2 ^ 64 - 1) ∧
        ∀ count ∈ granule.lineCount, count < 2 ^ 64 - 1
    | .lineImpliedV2 =>
      granule.firstLine = some index ∧ granule.lineCount = some 1 ∧ granule.byteLength < 2 ^ 32 ∧
        granule.chunkStart < 2 ^ 32 ∧ granule.chunkStart ≤ granule.chunkEnd ∧
        granule.chunkEnd - granule.chunkStart < 2 ^ 32

section Granules

variable {encoding : GranuleEncoding} {granule : SearchGranule} {granules : List SearchGranule}
  {bytes record : List UInt8} {index cursor next : Nat}

/-- A word is read as an optional number exactly when it is written for it. -/
theorem noneIfMax_iff {word : Nat} {value : Option Nat} (hword : word < 2 ^ 64) :
    noneIfMax word = value ↔ word = value.getD (2 ^ 64 - 1) ∧ ∀ n ∈ value, n < 2 ^ 64 - 1 := by
  unfold noneIfMax
  cases value with
  | none => simp
  | some n =>
    rw [Option.getD_some]
    split
    · simp only [Option.some.injEq, Option.mem_def, forall_eq']
      omega
    · simp only [reduceCtorEq, Option.mem_def, Option.some.injEq, forall_eq', false_iff]
      omega

theorem decodeLegacyGranule_iff (hword : record.length < 2 ^ 64) :
    decodeLegacyGranule record = .ok (granule, next) ↔
      GranuleEncoding.legacyV1.Represents granule granule.granuleId ∧
        (∃ written, encodeGranule .legacyV1 granule = .ok written ∧ StandsAt record 0 written) ∧
        next = 56 := by
  obtain ⟨granuleId, logicalOffset, byteLength, chunkStart, chunkEnd, firstLine, lineCount⟩ :=
    granule
  simp only [decodeLegacyGranule, bind_eq_ok_iff, Prod.exists, readU64Cursor_iff hword, pure_eq_ok,
    Except.ok.injEq, Prod.mk.injEq, SearchGranule.mk.injEq, GranuleEncoding.Represents,
    encodeGranule, exists_eq_left', standsAt_append_iff, List.length_append, length_leBytes]
  constructor
  · rintro ⟨id, _, ⟨hid, hidAt, rfl⟩, offset, _, ⟨hoffset, hoffsetAt, rfl⟩, size, _,
      ⟨hsize, hsizeAt, rfl⟩, first, _, ⟨hfirst, hfirstAt, rfl⟩, last, _, ⟨hlast, hlastAt, rfl⟩,
      line, _, ⟨hline, hlineAt, rfl⟩, count, _, ⟨hcount, hcountAt, rfl⟩,
      ⟨rfl, rfl, rfl, rfl, rfl, hfirstLine, hlineCount⟩, rfl⟩
    obtain ⟨rfl, hnotMax⟩ := (noneIfMax_iff hline).mp hfirstLine
    obtain ⟨rfl, hnotMax'⟩ := (noneIfMax_iff hcount).mp hlineCount
    exact ⟨⟨trivial, hoffset, hid, hsize, hfirst, hlast, hnotMax, hnotMax'⟩,
      ⟨⟨⟨⟨⟨⟨hidAt, hoffsetAt⟩, hsizeAt⟩, hfirstAt⟩, hlastAt⟩, hlineAt⟩, hcountAt⟩, rfl⟩
  · rintro ⟨⟨-, hoffset, hid, hsize, hfirst, hlast, hline, hcount⟩,
      ⟨⟨⟨⟨⟨⟨hidAt, hoffsetAt⟩, hsizeAt⟩, hfirstAt⟩, hlastAt⟩, hlineAt⟩, hcountAt⟩, rfl⟩
    have hword : ∀ {value : Option Nat}, (∀ n ∈ value, n < 2 ^ 64 - 1) →
        value.getD (2 ^ 64 - 1) < 2 ^ 64 := by
      intro value hvalue
      cases value with
      | none => decide
      | some n => exact Nat.lt_trans (hvalue n rfl) (by decide)
    exact ⟨_, _, ⟨hid, hidAt, rfl⟩, _, _, ⟨hoffset, hoffsetAt, rfl⟩, _, _, ⟨hsize, hsizeAt, rfl⟩,
      _, _, ⟨hfirst, hfirstAt, rfl⟩, _, _, ⟨hlast, hlastAt, rfl⟩, _, _,
      ⟨hword hline, hlineAt, rfl⟩, _, _, ⟨hword hcount, hcountAt, rfl⟩,
      ⟨rfl, rfl, rfl, rfl, rfl, (noneIfMax_iff (hword hline)).mpr ⟨rfl, hline⟩,
        (noneIfMax_iff (hword hcount)).mpr ⟨rfl, hcount⟩⟩, rfl⟩

theorem encodeCompactGranule_iff {written : List UInt8} :
    encodeGranule .lineImpliedV2 granule = .ok written ↔
      (granule.byteLength < 2 ^ 32 ∧ granule.chunkStart < 2 ^ 32 ∧
        granule.chunkStart ≤ granule.chunkEnd ∧ granule.chunkEnd - granule.chunkStart < 2 ^ 32) ∧
      written = leBytes 8 granule.logicalOffset ++ leBytes 4 granule.byteLength ++
        leBytes 4 granule.chunkStart ++ leBytes 4 (granule.chunkEnd - granule.chunkStart) := by
  simp only [encodeGranule, bind_eq_ok_iff, rejectIf_eq_ok_iff, okOr_eq_ok_iff,
    checkedSub_eq_some_iff, ge_iff_le, Nat.not_le, pure_eq_ok, Except.ok.injEq]
  constructor
  · rintro ⟨_, hlength, _, hstart, _, ⟨hle, rfl⟩, _, hspan, rfl⟩
    exact ⟨⟨hlength, hstart, hle, hspan⟩, rfl⟩
  · rintro ⟨⟨hlength, hstart, hle, hspan⟩, rfl⟩
    exact ⟨⟨⟩, hlength, ⟨⟩, hstart, _, ⟨hle, rfl⟩, ⟨⟩, hspan, rfl⟩

theorem decodeCompactGranule_iff (hword : record.length < 2 ^ 64) :
    decodeCompactGranule record index = .ok (granule, next) ↔
      GranuleEncoding.lineImpliedV2.Represents granule index ∧
        (∃ written, encodeGranule .lineImpliedV2 granule = .ok written ∧
          StandsAt record 0 written) ∧
        next = 20 := by
  obtain ⟨granuleId, logicalOffset, byteLength, chunkStart, chunkEnd, firstLine, lineCount⟩ :=
    granule
  simp only [decodeCompactGranule, bind_eq_ok_iff, Prod.exists, readU64Cursor_iff hword,
    readU32Cursor_iff hword, okOr_eq_ok_iff, checkedAdd_eq_some_iff, pure_eq_ok, Except.ok.injEq,
    Prod.mk.injEq, SearchGranule.mk.injEq, GranuleEncoding.Represents, encodeCompactGranule_iff]
  constructor
  · rintro ⟨offset, _, ⟨hoffset, hoffsetAt, rfl⟩, size, _, ⟨hsize, hsizeAt, rfl⟩, start, _,
      ⟨hstart, hstartAt, rfl⟩, span, _, ⟨hspan, hspanAt, rfl⟩, _, ⟨-, rfl⟩,
      ⟨rfl, rfl, rfl, rfl, rfl, rfl, rfl⟩, rfl⟩
    refine ⟨⟨rfl, hoffset, rfl, rfl, hsize, hstart, Nat.le_add_right .., ?_⟩,
      ⟨_, ⟨⟨hsize, hstart, Nat.le_add_right .., ?_⟩, rfl⟩, ?_⟩, rfl⟩
    · rwa [Nat.add_sub_cancel_left]
    · rwa [Nat.add_sub_cancel_left]
    · rw [Nat.add_sub_cancel_left]
      simp only [standsAt_append_iff, List.length_append, length_leBytes]
      exact ⟨⟨⟨hoffsetAt, hsizeAt⟩, hstartAt⟩, hspanAt⟩
  · rintro ⟨⟨rfl, hoffset, rfl, rfl, hsize, hstart, hle, hspan⟩, ⟨_, ⟨-, rfl⟩, hwritten⟩, rfl⟩
    simp only [standsAt_append_iff, List.length_append, length_leBytes] at hwritten
    obtain ⟨⟨⟨hoffsetAt, hsizeAt⟩, hstartAt⟩, hspanAt⟩ := hwritten
    exact ⟨_, _, ⟨hoffset, hoffsetAt, rfl⟩, _, _, ⟨hsize, hsizeAt, rfl⟩, _, _,
      ⟨hstart, hstartAt, rfl⟩, _, _, ⟨hspan, hspanAt, rfl⟩, _, ⟨by omega, rfl⟩,
      ⟨rfl, rfl, rfl, rfl, Nat.add_sub_of_le hle, rfl, rfl⟩, rfl⟩

/-- A record is taken exactly when it is the record of a granule that it can represent. -/
theorem decodeGranuleRecord_iff (hword : record.length < 2 ^ 64) :
    decodeGranuleRecord record index encoding = .ok granule ↔
      encoding.Represents granule index ∧ encodeGranule encoding granule = .ok record := by
  have hall : ∀ {written : List UInt8}, encodeGranule encoding granule = .ok written →
      (StandsAt record 0 written ∧ encoding.recordLen = record.length ↔ written = record) := by
    intro written hwritten
    have hlength := length_encodeGranule hwritten
    constructor
    · rintro ⟨hstands, hrecord⟩
      exact hstands.eq_of_length (hlength.trans hrecord)
    · rintro rfl
      exact ⟨standsAt_self written, hlength.symm⟩
  cases encoding with
  | legacyV1 =>
    simp only [decodeGranuleRecord, bind_eq_ok_iff, Prod.exists, decodeLegacyGranule_iff hword,
      rejectIf_eq_ok_iff, pure_eq_ok, Except.ok.injEq, not_or, not_not]
    constructor
    · rintro ⟨_, _, ⟨hrepresents, ⟨written, hwritten, hstands⟩, rfl⟩, _, ⟨hlength, hid⟩, rfl⟩
      obtain rfl := (hall hwritten).mp ⟨hstands, hlength⟩
      rw [hid] at hrepresents
      exact ⟨hrepresents, hwritten⟩
    · rintro ⟨hrepresents, hwritten⟩
      obtain ⟨hstands, hlength⟩ := (hall hwritten).mpr rfl
      have hid : granule.granuleId = index := hrepresents.1
      rw [← hid] at hrepresents
      exact ⟨_, _, ⟨hrepresents, ⟨record, hwritten, hstands⟩, rfl⟩, ⟨⟩, ⟨hlength, hid⟩, rfl⟩
  | lineImpliedV2 =>
    simp only [decodeGranuleRecord, bind_eq_ok_iff, Prod.exists, decodeCompactGranule_iff hword,
      rejectIf_eq_ok_iff, pure_eq_ok, Except.ok.injEq, not_or, not_not]
    constructor
    · rintro ⟨_, _, ⟨hrepresents, ⟨written, hwritten, hstands⟩, rfl⟩, _, ⟨hlength, -⟩, rfl⟩
      obtain rfl := (hall hwritten).mp ⟨hstands, hlength⟩
      exact ⟨hrepresents, hwritten⟩
    · rintro ⟨hrepresents, hwritten⟩
      obtain ⟨hstands, hlength⟩ := (hall hwritten).mpr rfl
      exact ⟨_, _, ⟨hrepresents, ⟨record, hwritten, hstands⟩, rfl⟩, ⟨⟩,
        ⟨hlength, hrepresents.1⟩, rfl⟩

/-- The granules have the ids from `index` on, and the layout can represent them. -/
def RepresentsFrom (encoding : GranuleEncoding) (index : Nat) (granules : List SearchGranule) :
    Prop :=
  ∀ position granule, granules[position]? = some granule →
    encoding.Represents granule (index + position)

theorem representsFrom_cons_iff : RepresentsFrom encoding index (granule :: granules) ↔
    encoding.Represents granule index ∧ RepresentsFrom encoding (index + 1) granules := by
  constructor
  · intro h
    refine ⟨h 0 granule rfl, fun position other hother => ?_⟩
    have hplace := h (position + 1) other hother
    rwa [Nat.add_assoc, Nat.add_comm 1]
  · rintro ⟨hfirst, hrest⟩ position other hother
    cases position with
    | zero =>
      obtain rfl := Option.some.inj hother
      exact hfirst
    | succ position =>
      have hplace := hrest position other hother
      rwa [Nat.add_assoc, Nat.add_comm 1] at hplace

/-- The loop takes the records of granules with consecutive ids. -/
theorem decodeGranulesLoop_iff (hword : bytes.length < 2 ^ 64) {count : Nat}
    (hcursor : cursor ≤ bytes.length) :
    decodeGranulesLoop bytes encoding count index cursor = .ok (granules, next) ↔
      granules.length = count ∧ RepresentsFrom encoding index granules ∧
        ∃ records, collect (encodeGranule encoding) granules = .ok records ∧
          StandsAt bytes cursor records.flatten ∧ next = cursor + records.flatten.length := by
  induction count generalizing index cursor granules next with
  | zero =>
    simp only [decodeGranulesLoop, Except.ok.injEq, Prod.mk.injEq, List.length_eq_zero_iff]
    constructor
    · rintro ⟨rfl, rfl⟩
      refine ⟨rfl, fun position granule h => ?_, [], rfl, standsAt_nil hcursor, rfl⟩
      rw [List.getElem?_nil] at h
      cases h
    · rintro ⟨rfl, -, records, hrecords, -, rfl⟩
      obtain rfl := Except.ok.inj hrecords
      exact ⟨rfl, rfl⟩
  | succ count ih =>
    simp only [decodeGranulesLoop, bind_eq_ok_iff, Prod.exists, readExact_iff hword, pure_eq_ok,
      Except.ok.injEq, Prod.mk.injEq]
    constructor
    · rintro ⟨record, _, ⟨hrecordAt, hlength, rfl⟩, granule, hrecord, rest, _, hrest, rfl, rfl⟩
      have hinside := hrecordAt.inside
      obtain ⟨hrepresents, hwritten⟩ := (decodeGranuleRecord_iff (by omega)).mp hrecord
      rw [← hlength] at hrest
      obtain ⟨rfl, hlater, records, hrecords, hrecordsAt, rfl⟩ := (ih hinside).mp hrest
      refine ⟨rfl, representsFrom_cons_iff.mpr ⟨hrepresents, hlater⟩, record :: records, ?_,
        hrecordAt.append hrecordsAt, ?_⟩
      · rw [collect, hwritten, ok_bind, hrecords]
        rfl
      · rw [List.flatten_cons, List.length_append, Nat.add_assoc]
    · rintro ⟨hcount, hrepresents, records, hrecords, hrecordsAt, rfl⟩
      cases granules with
      | nil => cases hcount
      | cons granule granules =>
        obtain ⟨hrepresents, hlater⟩ := representsFrom_cons_iff.mp hrepresents
        simp only [collect, bind_eq_ok_iff, pure_eq_ok, Except.ok.injEq] at hrecords
        obtain ⟨record, hwritten, records, hrecords, rfl⟩ := hrecords
        obtain ⟨hrecordAt, hrestAt⟩ := standsAt_append_iff.mp hrecordsAt
        have hlength := length_encodeGranule hwritten
        have hinside := hrecordAt.inside
        refine ⟨record, _, ⟨hrecordAt, hlength, rfl⟩, granule,
          (decodeGranuleRecord_iff (by omega)).mpr ⟨hrepresents, hwritten⟩, granules, _, ?_, rfl,
          rfl⟩
        rw [← hlength]
        refine (ih hinside).mpr ⟨Nat.succ.inj hcount, hlater, records, hrecords, hrestAt, ?_⟩
        rw [List.flatten_cons, List.length_append, Nat.add_assoc]

theorem length_flatten_of_collect {records : List (List UInt8)}
    (h : collect (encodeGranule encoding) granules = .ok records) :
    records.flatten.length = granules.length * encoding.recordLen := by
  induction granules generalizing records with
  | nil =>
    obtain rfl := Except.ok.inj h
    rw [List.length_nil, Nat.zero_mul]
    rfl
  | cons granule granules ih =>
    simp only [collect, bind_eq_ok_iff, pure_eq_ok, Except.ok.injEq] at h
    obtain ⟨record, hrecord, rest, hrest, rfl⟩ := h
    rw [List.flatten_cons, List.length_append, length_encodeGranule hrecord, ih hrest,
      List.length_cons, Nat.succ_mul, Nat.add_comm]

theorem length_of_encodeGranules {bytes : List UInt8}
    (h : encodeGranules granules encoding = .ok bytes) :
    bytes.length = granules.length * encoding.recordLen + 8 := by
  simp only [encodeGranules, bind_eq_ok_iff, usizeToU64_eq_ok_iff, pure_eq_ok,
    Except.ok.injEq] at h
  obtain ⟨_, ⟨-, rfl⟩, records, hrecords, rfl⟩ := h
  rw [List.length_append, length_leBytes, length_flatten_of_collect hrecords, Nat.add_comm]

/-- The granule section: what is taken is what is written. -/
theorem decodeGranules_iff {limits : SidecarLimits} :
    decodeGranules bytes encoding limits = .ok granules ↔
      (RepresentsFrom encoding 0 granules ∧ encodeGranules granules encoding = .ok bytes) ∧
        bytes.length < 2 ^ 64 ∧ granules.length ≤ limits.maxGranuleCount := by
  by_cases hword : bytes.length < 2 ^ 64
  · simp only [decodeGranules, bind_eq_ok_iff, Prod.exists, readU64Cursor_iff hword,
      rejectIf_eq_ok_iff, okOr_eq_ok_iff, checkedMul_eq_some_iff, checkedAdd_eq_some_iff,
      usizeToU64_eq_ok_iff, u64ToUsize_eq_ok_iff, pure_eq_ok, Except.ok.injEq, Nat.not_lt,
      not_not]
    constructor
    · rintro ⟨count, _, ⟨-, hcountAt, rfl⟩, _, hlimit, _, ⟨-, rfl⟩, _, ⟨-, rfl⟩, _, ⟨-, rfl⟩, _,
        hlength, _, ⟨hcount, rfl⟩, found, stop, hloop, _, rfl, rfl⟩
      rw [Nat.zero_add] at hloop
      obtain ⟨rfl, hrepresents, records, hrecords, hrecordsAt, -⟩ :=
        (decodeGranulesLoop_iff hword (by omega)).mp hloop
      refine ⟨⟨hrepresents, ?_⟩, hword, hlimit⟩
      have hall : StandsAt bytes 0 (leBytes 8 found.length ++ records.flatten) :=
        hcountAt.append (by rwa [length_leBytes, Nat.zero_add])
      rw [encodeGranules, usizeToU64_of_lt hcount, ok_bind, hrecords, ok_bind, pure_eq_ok,
        hall.eq_of_length ?_]
      rw [List.length_append, length_leBytes, length_flatten_of_collect hrecords, ← hlength,
        Nat.add_comm]
    · rintro ⟨⟨hrepresents, hwritten⟩, -, hlimit⟩
      simp only [encodeGranules, bind_eq_ok_iff, usizeToU64_eq_ok_iff, pure_eq_ok,
        Except.ok.injEq] at hwritten
      obtain ⟨_, ⟨hcount, rfl⟩, records, hrecords, rfl⟩ := hwritten
      obtain ⟨hcountAt, hrecordsAt⟩ :=
        standsAt_append_iff.mp (standsAt_self (leBytes 8 granules.length ++ records.flatten))
      have hlength := length_flatten_of_collect hrecords
      rw [List.length_append, length_leBytes] at hword
      rw [length_leBytes, Nat.zero_add] at hrecordsAt
      have hloop := (@decodeGranulesLoop_iff encoding granules
        (leBytes 8 granules.length ++ records.flatten) 0 8 _
        (by rwa [List.length_append, length_leBytes]) granules.length
        (by rw [List.length_append, length_leBytes]; omega)).mpr
        ⟨rfl, hrepresents, records, hrecords, hrecordsAt, rfl⟩
      exact ⟨_, _, ⟨hcount, hcountAt, rfl⟩, ⟨⟩, hlimit, _, ⟨by omega, rfl⟩, _, ⟨by omega, rfl⟩, _,
        ⟨by rwa [List.length_append, length_leBytes], rfl⟩, ⟨⟩,
        by rw [List.length_append, length_leBytes]; omega, _, ⟨hcount, rfl⟩, granules, _, hloop,
        ⟨⟩, by rw [List.length_append, length_leBytes], rfl⟩
  · -- A section that is no word long is refused, after its header.
    refine iff_of_false (fun h => ?_) fun h => hword h.2.1
    simp only [decodeGranules, bind_eq_ok_iff, Prod.exists, usizeToU64_eq_ok_iff] at h
    obtain ⟨_, _, -, _, -, _, -, _, -, _, ⟨hlt, -⟩, -⟩ := h
    exact hword hlt

end Granules

/-! ## Terms -/

/-- The terms that a layout can represent behind postings of `postingOffset` bytes.  A compact
record leaves out what a reader derives. -/
def TermEncoding.Represents (env : Env) (encoding : TermEncoding) (postingOffset : Nat)
    (term : TermDictionaryEntry) : Prop :=
  term.key.length < 2 ^ 64 ∧ term.granuleFrequency < 2 ^ 64 ∧ term.postingSize < 2 ^ 64 ∧
    match encoding with
    | .legacyV1 =>
      term.documentFrequency < 2 ^ 64 ∧ term.postingOffset < 2 ^ 64 ∧ term.skipOffset < 2 ^ 64 ∧
        term.skipSize < 2 ^ 64 ∧ term.flags < 2 ^ 64
    | .compactV2 =>
      term.keyHash = keyHash env term.key ∧ term.documentFrequency = 0 ∧
        term.postingOffset = postingOffset ∧ term.skipOffset = 0 ∧ term.skipSize = 0 ∧
        term.flags = 0

/-- The derived offset behind a term. -/
def TermEncoding.nextOffset (encoding : TermEncoding) (postingOffset : Nat)
    (term : TermDictionaryEntry) : Nat :=
  match encoding with
  | .legacyV1 => postingOffset
  | .compactV2 => postingOffset + term.postingSize

section Terms

variable {env : Env} {encoding : TermEncoding} {term : TermDictionaryEntry}
  {terms : List TermDictionaryEntry} {bytes : List UInt8} {postingOffset cursor next : Nat}

theorem decodeLegacyTerm_iff (hword : bytes.length < 2 ^ 64) :
    decodeLegacyTerm bytes cursor = .ok (term, next) ↔
      TermEncoding.legacyV1.Represents env postingOffset term ∧ term.key ≠ [] ∧
        StandsAt bytes cursor (encodeTerm .legacyV1 term) ∧
        next = cursor + (encodeTerm .legacyV1 term).length := by
  obtain ⟨key, hash, documentFrequency, granuleFrequency, offset, size, skipOffset, skipSize,
    flags⟩ := term
  simp only [decodeLegacyTerm, bind_eq_ok_iff, Prod.exists, readU64Cursor_iff hword,
    readExact_iff hword, u64ToUsize_eq_ok_iff, rejectIf_eq_ok_iff, okOr_eq_ok_iff,
    tryIntoArray_eq_some_iff, pure_eq_ok, Except.ok.injEq, Prod.mk.injEq,
    TermDictionaryEntry.mk.injEq, TermEncoding.Represents, encodeTerm, standsAt_append_iff,
    List.length_append, length_leBytes, List.Vector.toList_length, ← Nat.add_assoc, ne_eq,
    ← List.length_eq_zero_iff]
  constructor
  · rintro ⟨_, _, ⟨-, hlengthAt, rfl⟩, _, ⟨hkey, rfl⟩, _, hpos, _, _, ⟨hkeyAt, rfl, rfl⟩, _, _,
      ⟨hhashAt, -, rfl⟩, _, hhash, _, _, ⟨hdocument, hdocumentAt, rfl⟩, _, _,
      ⟨hfrequency, hfrequencyAt, rfl⟩, _, _, ⟨hoffset, hoffsetAt, rfl⟩, _, _,
      ⟨hsize, hsizeAt, rfl⟩, _, _, ⟨hskip, hskipAt, rfl⟩, _, _, ⟨hskipSize, hskipSizeAt, rfl⟩, _, _,
      ⟨hflags, hflagsAt, rfl⟩, ⟨rfl, rfl, rfl, rfl, rfl, rfl, rfl, rfl, rfl⟩, rfl⟩
    subst hhash
    exact ⟨⟨hkey, hfrequency, hsize, hdocument, hoffset, hskip, hskipSize, hflags⟩, hpos,
      ⟨⟨⟨⟨⟨⟨⟨⟨⟨hlengthAt, hkeyAt⟩, hhashAt⟩, hdocumentAt⟩, hfrequencyAt⟩, hoffsetAt⟩, hsizeAt⟩,
        hskipAt⟩, hskipSizeAt⟩, hflagsAt⟩, rfl⟩
  · rintro ⟨⟨hkey, hfrequency, hsize, hdocument, hoffset, hskip, hskipSize, hflags⟩, hpos,
      ⟨⟨⟨⟨⟨⟨⟨⟨⟨hlengthAt, hkeyAt⟩, hhashAt⟩, hdocumentAt⟩, hfrequencyAt⟩, hoffsetAt⟩, hsizeAt⟩,
        hskipAt⟩, hskipSizeAt⟩, hflagsAt⟩, rfl⟩
    exact ⟨_, _, ⟨hkey, hlengthAt, rfl⟩, _, ⟨hkey, rfl⟩, ⟨⟩, hpos, _, _, ⟨hkeyAt, rfl, rfl⟩, _, _,
      ⟨hhashAt, List.Vector.toList_length _, rfl⟩, hash, rfl, _, _,
      ⟨hdocument, hdocumentAt, rfl⟩, _, _, ⟨hfrequency, hfrequencyAt, rfl⟩, _, _,
      ⟨hoffset, hoffsetAt, rfl⟩, _, _, ⟨hsize, hsizeAt, rfl⟩, _, _, ⟨hskip, hskipAt, rfl⟩, _, _,
      ⟨hskipSize, hskipSizeAt, rfl⟩, _, _, ⟨hflags, hflagsAt, rfl⟩,
      ⟨rfl, rfl, rfl, rfl, rfl, rfl, rfl, rfl, rfl⟩, rfl⟩

theorem decodeCompactTerm_iff (hword : bytes.length < 2 ^ 64) :
    decodeCompactTerm env bytes cursor postingOffset = .ok (term, next) ↔
      TermEncoding.compactV2.Represents env postingOffset term ∧ term.key ≠ [] ∧
        StandsAt bytes cursor (encodeTerm .compactV2 term) ∧
        next = cursor + (encodeTerm .compactV2 term).length := by
  obtain ⟨key, hash, documentFrequency, granuleFrequency, offset, size, skipOffset, skipSize,
    flags⟩ := term
  simp only [decodeCompactTerm, bind_eq_ok_iff, Prod.exists, Varuint.sidecar_readVaruint_iff hword,
    readExact_iff hword, u64ToUsize_eq_ok_iff, rejectIf_eq_ok_iff, pure_eq_ok, Except.ok.injEq,
    Prod.mk.injEq, blankTerm, TermDictionaryEntry.mk.injEq, TermEncoding.Represents, encodeTerm,
    writeVaruint, standsAt_append_iff, List.length_append, ← Nat.add_assoc, ne_eq,
    ← List.length_eq_zero_iff]
  constructor
  · rintro ⟨_, _, ⟨-, hlengthAt, rfl⟩, _, ⟨hkey, rfl⟩, _, hpos, _, _, ⟨hkeyAt, rfl, rfl⟩, _, _,
      ⟨hfrequency, hfrequencyAt, rfl⟩, _, _, ⟨hsize, hsizeAt, rfl⟩,
      ⟨rfl, rfl, rfl, rfl, rfl, rfl, rfl, rfl, rfl⟩, rfl⟩
    exact ⟨⟨hkey, hfrequency, hsize, rfl, rfl, rfl, rfl, rfl, rfl⟩, hpos,
      ⟨⟨⟨hlengthAt, hkeyAt⟩, hfrequencyAt⟩, hsizeAt⟩, rfl⟩
  · rintro ⟨⟨hkey, hfrequency, hsize, rfl, rfl, rfl, rfl, rfl, rfl⟩, hpos,
      ⟨⟨⟨hlengthAt, hkeyAt⟩, hfrequencyAt⟩, hsizeAt⟩, rfl⟩
    exact ⟨_, _, ⟨hkey, hlengthAt, rfl⟩, _, ⟨hkey, rfl⟩, ⟨⟩, hpos, _, _, ⟨hkeyAt, rfl, rfl⟩, _, _,
      ⟨hfrequency, hfrequencyAt, rfl⟩, _, _, ⟨hsize, hsizeAt, rfl⟩,
      ⟨rfl, rfl, rfl, rfl, rfl, rfl, rfl, rfl, rfl⟩, rfl⟩

/-- One round of the loop: a record, the offset behind it, and the checks. -/
theorem decodeTermsLoop_succ_iff (hword : bytes.length < 2 ^ 64) (hoffset : postingOffset < 2 ^ 64)
    {count : Nat} {previous : Option (List UInt8)} :
    decodeTermsLoop env bytes encoding (count + 1) cursor postingOffset previous =
        .ok (terms, next) ↔
      ∃ term rest, terms = term :: rest ∧
        (encoding.Represents env postingOffset term ∧ term.key ≠ []) ∧
        encoding.nextOffset postingOffset term < 2 ^ 64 ∧
        checkDecodedTerm env encoding previous term = .ok ⟨⟩ ∧
        StandsAt bytes cursor (encodeTerm encoding term) ∧
        decodeTermsLoop env bytes encoding count (cursor + (encodeTerm encoding term).length)
          (encoding.nextOffset postingOffset term) (some term.key) = .ok (rest, next) := by
  cases encoding with
  | legacyV1 =>
    simp only [decodeTermsLoop, bind_eq_ok_iff, Prod.exists, Except.ok.injEq, exists_eq_left',
      @decodeLegacyTerm_iff env _ _ postingOffset _ _ hword, pure_eq_ok, Prod.mk.injEq,
      TermEncoding.nextOffset]
    constructor
    · rintro ⟨term, _, ⟨hrepresents, hkey, hstands, rfl⟩, _, hcheck, rest, _, hrest, rfl, rfl⟩
      exact ⟨term, rest, rfl, ⟨hrepresents, hkey⟩, hoffset, hcheck, hstands, hrest⟩
    · rintro ⟨term, rest, rfl, ⟨hrepresents, hkey⟩, -, hcheck, hstands, hrest⟩
      exact ⟨term, _, ⟨hrepresents, hkey, hstands, rfl⟩, ⟨⟩, hcheck, rest, _, hrest, rfl, rfl⟩
  | compactV2 =>
    simp only [decodeTermsLoop, bind_eq_ok_iff, Prod.exists, Except.ok.injEq,
      decodeCompactTerm_iff hword, okOr_eq_ok_iff, checkedAdd_eq_some_iff, pure_eq_ok,
      Prod.mk.injEq, TermEncoding.nextOffset]
    constructor
    · rintro ⟨term, _, ⟨hrepresents, hkey, hstands, rfl⟩, _, ⟨hnext, rfl⟩, _, hcheck, rest, _,
        hrest, rfl, rfl⟩
      exact ⟨term, rest, rfl, ⟨hrepresents, hkey⟩, hnext, hcheck, hstands, hrest⟩
    · rintro ⟨term, rest, rfl, ⟨hrepresents, hkey⟩, hnext, hcheck, hstands, hrest⟩
      exact ⟨term, _, ⟨hrepresents, hkey, hstands, rfl⟩, _, ⟨hnext, rfl⟩, ⟨⟩, hcheck, rest, _,
        hrest, rfl, rfl⟩

/-- The terms of a section behind postings of `postingOffset` bytes and behind the key
`previous`. -/
def TermsFrom (env : Env) (encoding : TermEncoding) :
    Nat → Option (List UInt8) → List TermDictionaryEntry → Prop
  | _, _, [] => True
  | postingOffset, previous, term :: terms =>
    (encoding.Represents env postingOffset term ∧ term.key ≠ []) ∧
      encoding.nextOffset postingOffset term < 2 ^ 64 ∧
      checkDecodedTerm env encoding previous term = .ok ⟨⟩ ∧
      TermsFrom env encoding (encoding.nextOffset postingOffset term) (some term.key) terms

theorem TermsFrom.keys {previous : Option (List UInt8)}
    (h : TermsFrom env encoding postingOffset previous terms) :
    ∀ term ∈ terms, term.key.length < 2 ^ 64 := by
  induction terms generalizing postingOffset previous with
  | nil => exact fun term hterm => absurd hterm List.not_mem_nil
  | cons term terms ih =>
    obtain ⟨⟨hrepresents, -⟩, -, -, hrest⟩ := h
    exact List.forall_mem_cons.mpr ⟨hrepresents.1, ih hrest⟩

/-- The loop takes the records of such terms. -/
theorem decodeTermsLoop_iff (hword : bytes.length < 2 ^ 64) {count : Nat}
    {previous : Option (List UInt8)} (hcursor : cursor ≤ bytes.length)
    (hoffset : postingOffset < 2 ^ 64) :
    decodeTermsLoop env bytes encoding count cursor postingOffset previous = .ok (terms, next) ↔
      terms.length = count ∧ TermsFrom env encoding postingOffset previous terms ∧
        StandsAt bytes cursor (terms.map (encodeTerm encoding)).flatten ∧
        next = cursor + (terms.map (encodeTerm encoding)).flatten.length := by
  induction count generalizing cursor postingOffset previous terms next with
  | zero =>
    simp only [decodeTermsLoop, Except.ok.injEq, Prod.mk.injEq, List.length_eq_zero_iff]
    constructor
    · rintro ⟨rfl, rfl⟩
      exact ⟨rfl, trivial, standsAt_nil hcursor, rfl⟩
    · rintro ⟨rfl, -, -, rfl⟩
      exact ⟨rfl, rfl⟩
  | succ count ih =>
    rw [decodeTermsLoop_succ_iff hword hoffset]
    constructor
    · rintro ⟨term, rest, rfl, hterm, hnext, hcheck, htermAt, hrest⟩
      obtain ⟨rfl, hfrom, hrestAt, rfl⟩ := (ih htermAt.inside hnext).mp hrest
      refine ⟨rfl, ⟨hterm, hnext, hcheck, hfrom⟩, htermAt.append hrestAt, ?_⟩
      rw [List.map_cons, List.flatten_cons, List.length_append, Nat.add_assoc]
    · rintro ⟨hcount, hfrom, hrecordsAt, rfl⟩
      cases terms with
      | nil => cases hcount
      | cons term terms =>
        obtain ⟨hterm, hnext, hcheck, hfrom⟩ := hfrom
        obtain ⟨htermAt, hrestAt⟩ := standsAt_append_iff.mp hrecordsAt
        refine ⟨term, terms, rfl, hterm, hnext, hcheck, htermAt, ?_⟩
        refine (ih htermAt.inside hnext).mpr ⟨Nat.succ.inj hcount, hfrom, hrestAt, ?_⟩
        rw [List.map_cons, List.flatten_cons, List.length_append, Nat.add_assoc]

/-- No record is shorter than the least size. -/
theorem minimumRecordLen_le (hkey : term.key ≠ []) :
    encoding.minimumRecordLen ≤ (encodeTerm encoding term).length := by
  have hpos := List.length_pos_of_ne_nil hkey
  cases encoding with
  | legacyV1 =>
    simp only [encodeTerm, TermEncoding.minimumRecordLen, List.length_append, length_leBytes,
      List.Vector.toList_length]
    omega
  | compactV2 =>
    have hlength : 0 < (writeVaruint term.key.length).length := length_leb128_pos _
    have hfrequency : 0 < (writeVaruint term.granuleFrequency).length := length_leb128_pos _
    have hsize : 0 < (writeVaruint term.postingSize).length := length_leb128_pos _
    simp only [encodeTerm, TermEncoding.minimumRecordLen, List.length_append]
    omega

theorem length_mul_minimumRecordLen_le {previous : Option (List UInt8)}
    (h : TermsFrom env encoding postingOffset previous terms) :
    terms.length * encoding.minimumRecordLen ≤
      (terms.map (encodeTerm encoding)).flatten.length := by
  induction terms generalizing postingOffset previous with
  | nil => simp
  | cons term terms ih =>
    obtain ⟨⟨-, hkey⟩, -, -, hrest⟩ := h
    have hrecord := @minimumRecordLen_le encoding term hkey
    have hrecords := ih hrest
    rw [List.map_cons, List.flatten_cons, List.length_append, List.length_cons, Nat.succ_mul]
    omega

theorem encodeTerms_iff : encodeTerms terms encoding = .ok bytes ↔
    terms.length < 2 ^ 64 ∧ (∀ term ∈ terms, term.key.length < 2 ^ 64) ∧
      leBytes 8 terms.length ++ (terms.map (encodeTerm encoding)).flatten = bytes := by
  simp only [encodeTerms, bind_eq_ok_iff, usizeToU64_eq_ok_iff, checkAll_eq_ok_iff, pure_eq_ok,
    Except.ok.injEq]
  constructor
  · rintro ⟨_, ⟨hcount, rfl⟩, _, hkeys, rfl⟩
    refine ⟨hcount, fun term hterm => ?_, rfl⟩
    obtain ⟨_, ⟨hlt, -⟩, -⟩ := hkeys term hterm
    exact hlt
  · rintro ⟨hcount, hkeys, rfl⟩
    exact ⟨_, ⟨hcount, rfl⟩, ⟨⟩, fun term hterm => ⟨_, ⟨hkeys term hterm, rfl⟩, trivial⟩, rfl⟩

/-- The term section: what is taken is what is written. -/
theorem decodeTerms_iff {limits : SidecarLimits} :
    decodeTerms env bytes encoding limits = .ok terms ↔
      (TermsFrom env encoding 0 none terms ∧ encodeTerms terms encoding = .ok bytes) ∧
        bytes.length < 2 ^ 64 ∧ bytes.length ≤ limits.maxTermsSize ∧
        terms.length ≤ limits.maxTermCount := by
  by_cases hword : bytes.length < 2 ^ 64
  · rw [encodeTerms_iff]
    simp only [decodeTerms, bind_eq_ok_iff, Prod.exists, readU64Cursor_iff hword,
      rejectIf_eq_ok_iff, usizeToU64_eq_ok_iff, u64ToUsize_eq_ok_iff, pure_eq_ok, Except.ok.injEq,
      Nat.not_lt, not_not]
    constructor
    · rintro ⟨_, ⟨-, rfl⟩, _, hsize, count, _, ⟨-, hcountAt, rfl⟩, _, hlimit, _, ⟨-, rfl⟩, _, -, _,
        ⟨hcount, rfl⟩, found, stop, hloop, _, rfl, rfl⟩
      have hinside := hcountAt.inside
      rw [length_leBytes] at hinside
      rw [Nat.zero_add] at hloop
      obtain ⟨rfl, hfrom, hrecordsAt, hstop⟩ :=
        (decodeTermsLoop_iff hword (by omega) (by decide)).mp hloop
      refine ⟨⟨hfrom, hcount, hfrom.keys, ?_⟩, hword, hsize, hlimit⟩
      have hall : StandsAt bytes 0 (leBytes 8 found.length ++
          (found.map (encodeTerm encoding)).flatten) :=
        hcountAt.append (by rwa [length_leBytes, Nat.zero_add])
      apply hall.eq_of_length
      rw [List.length_append, length_leBytes, ← hstop]
    · rintro ⟨⟨hfrom, hcount, -, rfl⟩, -, hsize, hlimit⟩
      obtain ⟨hcountAt, hrecordsAt⟩ := standsAt_append_iff.mp
        (standsAt_self (leBytes 8 terms.length ++ (terms.map (encodeTerm encoding)).flatten))
      have hrecords := length_mul_minimumRecordLen_le hfrom
      have hpos : 0 < encoding.minimumRecordLen := by cases encoding <;> decide
      have hlength : (leBytes 8 terms.length ++ (terms.map (encodeTerm encoding)).flatten).length =
          8 + (terms.map (encodeTerm encoding)).flatten.length := by
        rw [List.length_append, length_leBytes]
      rw [length_leBytes, Nat.zero_add] at hrecordsAt
      have hloop := (@decodeTermsLoop_iff env encoding terms _ 0 8 _ hword terms.length none
        (by omega) (by decide)).mpr ⟨rfl, hfrom, hrecordsAt, rfl⟩
      have hcountLe : terms.length ≤
          (8 + (terms.map (encodeTerm encoding)).flatten.length - (0 + 8)) /
            encoding.minimumRecordLen := by
        rw [Nat.le_div_iff_mul_le hpos]
        omega
      rw [hlength] at hword hsize ⊢
      exact ⟨_, ⟨hword, rfl⟩, ⟨⟩, hsize, _, _, ⟨hcount, hcountAt, rfl⟩, ⟨⟩, hlimit, _,
        ⟨by omega, rfl⟩, ⟨⟩, hcountLe, _, ⟨hcount, rfl⟩, terms, _, hloop, ⟨⟩, rfl, rfl⟩
  · -- A section that is no word long is refused at once.
    refine iff_of_false (fun h => ?_) fun h => hword h.2.1
    simp only [decodeTerms, bind_eq_ok_iff, usizeToU64_eq_ok_iff] at h
    obtain ⟨_, ⟨hlt, -⟩, -⟩ := h
    exact hword hlt

end Terms

/-! ## Well-formed values -/

/-- The numbers of a granule as its types hold them. -/
structure GranuleInWords (granule : SearchGranule) : Prop where
  granuleId : granule.granuleId < 2 ^ 64
  logicalOffset : granule.logicalOffset < 2 ^ 64
  byteLength : granule.byteLength < 2 ^ 64
  chunkStart : granule.chunkStart < 2 ^ 64
  chunkEnd : granule.chunkEnd < 2 ^ 64
  firstLine : ∀ line ∈ granule.firstLine, line < 2 ^ 64
  lineCount : ∀ count ∈ granule.lineCount, count < 2 ^ 64

/-- The lists of granules with consecutive ids that a layout can represent. -/
def GranuleEncoding.CanRepresent (encoding : GranuleEncoding) (granules : List SearchGranule) :
    Prop :=
  match encoding with
  | .legacyV1 =>
    (∀ (position : Nat) (granule : SearchGranule), granules[position]? = some granule →
      granule.granuleId = position) ∧
      ∀ granule ∈ granules, granule.firstLine ≠ some (2 ^ 64 - 1) ∧
        granule.lineCount ≠ some (2 ^ 64 - 1)
  | .lineImpliedV2 =>
    compactLineGranulesSupported 0 granules = true ∧
      ∀ granule ∈ granules, granule.chunkStart ≤ granule.chunkEnd

/-- The numbers of a term as its types hold them. -/
structure TermInWords (term : TermDictionaryEntry) : Prop where
  key : term.key.length < 2 ^ 64
  documentFrequency : term.documentFrequency < 2 ^ 64
  granuleFrequency : term.granuleFrequency < 2 ^ 64
  postingOffset : term.postingOffset < 2 ^ 64
  postingSize : term.postingSize < 2 ^ 64
  skipOffset : term.skipOffset < 2 ^ 64
  skipSize : term.skipSize < 2 ^ 64
  flags : term.flags < 2 ^ 64

/-- The bytes of the postings of some terms. -/
def postingExtent (terms : List TermDictionaryEntry) : Nat :=
  (terms.map TermDictionaryEntry.postingSize).sum

/-- A sorted dictionary with contiguous postings, without the fields that a compact record
leaves out. -/
structure WellFormedTerms (env : Env) (encoding : TermEncoding)
    (terms : List TermDictionaryEntry) : Prop where
  sorted : terms.Pairwise fun a b => a.key < b.key
  keys : ∀ term ∈ terms, term.key ≠ []
  positive : ∀ term ∈ terms, 0 < term.granuleFrequency ∧ 0 < term.postingSize
  flags : ∀ term ∈ terms, term.flags = 0
  hashes : ∀ term ∈ terms, term.keyHash = keyHash env term.key
  contiguous : ∀ position term, terms[position]? = some term →
    term.postingOffset = postingExtent (terms.take position)
  compact : encoding = .compactV2 → ∀ term ∈ terms,
    term.documentFrequency = 0 ∧ term.skipOffset = 0 ∧ term.skipSize = 0

/-- What a layout can represent has a record in it. -/
theorem GranuleEncoding.Represents.encodes {encoding : GranuleEncoding} {granule : SearchGranule}
    {index : Nat} (h : encoding.Represents granule index) :
    ∃ record, encodeGranule encoding granule = .ok record := by
  cases encoding with
  | legacyV1 => exact ⟨_, rfl⟩
  | lineImpliedV2 =>
    obtain ⟨-, -, -, -, hfits⟩ := h
    exact ⟨_, encodeCompactGranule_iff.mpr ⟨hfits, rfl⟩⟩

theorem RepresentsFrom.encodes {encoding : GranuleEncoding} {granules : List SearchGranule}
    {index : Nat} (h : RepresentsFrom encoding index granules) :
    ∃ records, collect (encodeGranule encoding) granules = .ok records := by
  induction granules generalizing index with
  | nil => exact ⟨[], rfl⟩
  | cons granule granules ih =>
    obtain ⟨hfirst, hrest⟩ := representsFrom_cons_iff.mp h
    obtain ⟨record, hrecord⟩ := hfirst.encodes
    obtain ⟨records, hrecords⟩ := ih hrest
    refine ⟨record :: records, ?_⟩
    rw [collect, hrecord, ok_bind, hrecords]
    rfl

theorem representsFrom_of_supported {granules : List SearchGranule} {index : Nat}
    (hwords : ∀ granule ∈ granules, GranuleInWords granule)
    (h : compactLineGranulesSupported index granules = true)
    (hspans : ∀ granule ∈ granules, granule.chunkStart ≤ granule.chunkEnd) :
    RepresentsFrom .lineImpliedV2 index granules := by
  induction granules generalizing index with
  | nil =>
    intro position granule hgranule
    rw [List.getElem?_nil] at hgranule
    cases hgranule
  | cons granule granules ih =>
    rw [compactLineGranulesSupported, Bool.and_eq_true, decide_eq_true_eq] at h
    rw [List.forall_mem_cons] at hwords hspans
    obtain ⟨⟨hid, hline, hcount, hlength, hstart, hspan⟩, hrest⟩ := h
    exact representsFrom_cons_iff.mpr
      ⟨⟨hid, hwords.1.logicalOffset, hline, hcount, hlength, hstart, hspans.1, hspan⟩,
        ih hwords.2 hrest hspans.2⟩

theorem representsFrom_of_canRepresent {encoding : GranuleEncoding} {granules : List SearchGranule}
    (hwords : ∀ granule ∈ granules, GranuleInWords granule) (h : encoding.CanRepresent granules) :
    RepresentsFrom encoding 0 granules := by
  cases encoding with
  | lineImpliedV2 => exact representsFrom_of_supported hwords h.1 h.2
  | legacyV1 =>
    obtain ⟨hids, hnotMax⟩ := h
    intro position granule hgranule
    have hmem := List.mem_of_getElem? hgranule
    have hword := hwords granule hmem
    obtain ⟨hline, hcount⟩ := hnotMax granule hmem
    -- A word that is not the sentinel is below it.
    have hbelow : ∀ {value : Option Nat}, (∀ n ∈ value, n < 2 ^ 64) → value ≠ some (2 ^ 64 - 1) →
        ∀ n ∈ value, n < 2 ^ 64 - 1 := by
      intro value hvalue hne n hn
      have hlt := hvalue n hn
      have hother : n ≠ 2 ^ 64 - 1 := fun heq => hne (heq ▸ hn)
      omega
    refine ⟨?_, hword.logicalOffset, hword.granuleId, hword.byteLength, hword.chunkStart,
      hword.chunkEnd, hbelow hword.firstLine hline, hbelow hword.lineCount hcount⟩
    rw [Nat.zero_add]
    exact hids position granule hgranule

section Terms

variable {env : Env} {encoding : TermEncoding} {terms : List TermDictionaryEntry}

theorem TermEncoding.represents_of_words {term : TermDictionaryEntry} {postingOffset : Nat}
    (hwords : TermInWords term) (hflags : term.flags = 0) (hhash : term.keyHash = keyHash env term.key)
    (hcompact : encoding = .compactV2 → term.documentFrequency = 0 ∧
      term.postingOffset = postingOffset ∧ term.skipOffset = 0 ∧ term.skipSize = 0) :
    encoding.Represents env postingOffset term := by
  refine ⟨hwords.key, hwords.granuleFrequency, hwords.postingSize, ?_⟩
  cases encoding with
  | legacyV1 =>
    exact ⟨hwords.documentFrequency, hwords.postingOffset, hwords.skipOffset, hwords.skipSize,
      hwords.flags⟩
  | compactV2 =>
    obtain ⟨hdocument, hoffset, hskip, hsize⟩ := hcompact rfl
    exact ⟨hhash, hdocument, hoffset, hskip, hsize, hflags⟩

theorem termsFrom_of_wellFormed {postingOffset : Nat} {previous : Option (List UInt8)}
    (hwords : ∀ term ∈ terms, TermInWords term)
    (hsorted : terms.Pairwise fun a b => a.key < b.key)
    (hprevious : ∀ key ∈ previous, ∀ term ∈ terms, key < term.key)
    (hkeys : ∀ term ∈ terms, term.key ≠ [])
    (hpositive : ∀ term ∈ terms, 0 < term.granuleFrequency ∧ 0 < term.postingSize)
    (hflags : ∀ term ∈ terms, term.flags = 0)
    (hhashes : ∀ term ∈ terms, term.keyHash = keyHash env term.key)
    (hcompact : encoding = .compactV2 → ∀ term ∈ terms,
      term.documentFrequency = 0 ∧ term.skipOffset = 0 ∧ term.skipSize = 0)
    (hoffset : postingOffset < 2 ^ 64)
    (hextents : encoding = .compactV2 → postingOffset + postingExtent terms < 2 ^ 64 ∧
      ∀ (position : Nat) (term : TermDictionaryEntry), terms[position]? = some term →
        term.postingOffset = postingOffset + postingExtent (terms.take position)) :
    TermsFrom env encoding postingOffset previous terms := by
  induction terms generalizing postingOffset previous with
  | nil => trivial
  | cons term terms ih =>
    rw [List.forall_mem_cons] at hwords hkeys hpositive hflags hhashes
    obtain ⟨hlater, hsorted⟩ := List.pairwise_cons.mp hsorted
    have hnextLt : encoding.nextOffset postingOffset term < 2 ^ 64 := by
      cases encoding with
      | legacyV1 => exact hoffset
      | compactV2 =>
        have hend := (hextents rfl).1
        rw [postingExtent, List.map_cons, List.sum_cons] at hend
        rw [TermEncoding.nextOffset]
        omega
    have hcheck : checkDecodedTerm env encoding previous term = .ok ⟨⟩ := by
      apply rejectIf_of_not
      rintro (hzero | hzero | hflag | ⟨-, hhash⟩ | ⟨key, hkey, hge⟩)
      · exact Nat.ne_of_gt hpositive.1.1 hzero
      · exact Nat.ne_of_gt hpositive.1.2 hzero
      · exact hflag hflags.1
      · exact hhash hhashes.1
      · exact hge (hprevious key hkey term List.mem_cons_self)
    have hnone : encoding = .compactV2 → term.documentFrequency = 0 ∧
        term.postingOffset = postingOffset ∧ term.skipOffset = 0 ∧ term.skipSize = 0 := by
      intro hencoding
      obtain ⟨hdocument, hskip, hsize⟩ := hcompact hencoding term List.mem_cons_self
      exact ⟨hdocument, (hextents hencoding).2 0 term rfl, hskip, hsize⟩
    refine ⟨⟨TermEncoding.represents_of_words hwords.1 hflags.1 hhashes.1 hnone, hkeys.1⟩, hnextLt,
      hcheck, ih hwords.2 hsorted ?_ hkeys.2 hpositive.2 hflags.2 hhashes.2 ?_ hnextLt ?_⟩
    · intro key hkey
      obtain rfl := Option.some.inj hkey
      exact hlater
    · exact fun hencoding => (List.forall_mem_cons.mp (hcompact hencoding)).2
    · -- The extents of the rest start behind this one.
      intro hencoding
      obtain ⟨hend, hplaces⟩ := hextents hencoding
      subst hencoding
      rw [TermEncoding.nextOffset]
      refine ⟨?_, fun position other hother => ?_⟩
      · rw [postingExtent, List.map_cons, List.sum_cons, ← Nat.add_assoc] at hend
        exact hend
      · have hplace := hplaces (position + 1) other hother
        rwa [List.take_succ_cons, postingExtent, List.map_cons, List.sum_cons, ← Nat.add_assoc]
          at hplace

end Terms

/-! ## The codecs -/

/-- The codecs of the sections and of the manifest are inverses. -/
theorem codecs_inverse (env : Env) :
    (∀ encoding limits bytes granules, decodeGranules bytes encoding limits = .ok granules →
      encodeGranules granules encoding = .ok bytes) ∧
    (∀ encoding limits bytes terms, decodeTerms env bytes encoding limits = .ok terms →
      encodeTerms terms encoding = .ok bytes) ∧
    (∀ (encoding : GranuleEncoding) (granules : List SearchGranule),
      granules.length < 2 ^ 64 → (∀ granule ∈ granules, GranuleInWords granule) →
      encoding.CanRepresent granules →
        ∃ bytes, encodeGranules granules encoding = .ok bytes ∧
          (bytes.length < 2 ^ 64 → ∀ limits : SidecarLimits,
            granules.length ≤ limits.maxGranuleCount →
            decodeGranules bytes encoding limits = .ok granules)) ∧
    (∀ (encoding : TermEncoding) (terms : List TermDictionaryEntry),
      terms.length < 2 ^ 64 → (∀ term ∈ terms, TermInWords term) →
      WellFormedTerms env encoding terms →
      (encoding = .compactV2 → postingExtent terms < 2 ^ 64) →
        ∃ bytes, encodeTerms terms encoding = .ok bytes ∧
          (bytes.length < 2 ^ 64 → ∀ limits : SidecarLimits, bytes.length ≤ limits.maxTermsSize →
            terms.length ≤ limits.maxTermCount →
            decodeTerms env bytes encoding limits = .ok terms)) ∧
    (∀ manifest : SidecarManifest, manifest.InWords → manifest.formatVersion = .v2 →
      manifest.termEncoding = .compactV2 → manifest.Blake3 →
      (CborValue.map (manifestEntries manifest)).WithinDefaults →
        ∃ bytes, encodeManifest manifest = .ok bytes ∧ decodeManifest bytes = .ok manifest) := by
  refine ⟨?_, ?_, ?_, ?_, ?_⟩
  · intro encoding limits bytes granules h
    exact (decodeGranules_iff.mp h).1.2
  · intro encoding limits bytes terms h
    exact (decodeTerms_iff.mp h).1.2
  · intro encoding granules hcount hwords h
    have hrepresents := representsFrom_of_canRepresent hwords h
    obtain ⟨records, hrecords⟩ := hrepresents.encodes
    have hwritten : encodeGranules granules encoding =
        .ok (leBytes 8 granules.length ++ records.flatten) := by
      rw [encodeGranules, usizeToU64_of_lt hcount, ok_bind, hrecords]
      rfl
    exact ⟨_, hwritten, fun hword limits hlimit =>
      decodeGranules_iff.mpr ⟨⟨hrepresents, hwritten⟩, hword, hlimit⟩⟩
  · intro encoding terms hcount hwords h hextent
    have hfrom : TermsFrom env encoding 0 none terms := by
      refine termsFrom_of_wellFormed hwords h.sorted (fun key hkey => by cases hkey) h.keys h.positive
        h.flags h.hashes h.compact (by decide) fun hencoding => ?_
      simp only [Nat.zero_add]
      exact ⟨hextent hencoding, h.contiguous⟩
    have hwritten := encodeTerms_iff.mpr
      ⟨hcount, fun term hterm => (hwords term hterm).key, @rfl _ (_ ++ (terms.map
        (encodeTerm encoding)).flatten)⟩
    exact ⟨_, hwritten, fun hword limits hsize hlimit =>
      decodeTerms_iff.mpr ⟨⟨hfrom, hwritten⟩, hword, hsize, hlimit⟩⟩
  · intro manifest hwords hversion hterms hblake3 hlimits
    exact decodeManifest_of_withinDefaults hwords hblake3 hversion hterms hlimits

/-- A line over two chunks. -/
def lineGranule : SearchGranule where
  granuleId := 0
  logicalOffset := 7
  byteLength := 5
  chunkStart := 1
  chunkEnd := 2
  firstLine := some 0
  lineCount := some 1

/-- A key of one line. -/
def lineTerm : TermDictionaryEntry :=
  { blankTerm Reference.env [7] with granuleFrequency := 1, postingSize := 1 }

theorem codecs_inverse_of_line :
    (∃ bytes, encodeGranules [lineGranule] .lineImpliedV2 = .ok bytes ∧
      decodeGranules bytes .lineImpliedV2 .default = .ok [lineGranule]) ∧
    ∃ bytes, encodeTerms [lineTerm] .compactV2 = .ok bytes ∧
      decodeTerms Reference.env bytes .compactV2 .default = .ok [lineTerm] := by
  obtain ⟨-, -, hgranules, hterms, -⟩ := codecs_inverse Reference.env
  constructor
  · obtain ⟨bytes, hencode, hdecode⟩ := hgranules .lineImpliedV2 [lineGranule] (by decide)
      (List.forall_mem_singleton.mpr ⟨by decide, by decide, by decide, by decide, by decide,
        by decide, by decide⟩)
      ⟨by decide, by decide⟩
    refine ⟨bytes, hencode, hdecode ?_ .default (by decide)⟩
    obtain rfl := Except.ok.inj hencode
    decide
  · have hcontiguous : ∀ (position : Nat) (term : TermDictionaryEntry),
        [lineTerm][position]? = some term →
          term.postingOffset = postingExtent ([lineTerm].take position) := by
      intro position term hterm
      cases position with
      | zero =>
        obtain rfl := Option.some.inj hterm
        rfl
      | succ position => cases hterm
    obtain ⟨bytes, hencode, hdecode⟩ := hterms .compactV2 [lineTerm] (by decide)
      (List.forall_mem_singleton.mpr ⟨by decide, by decide, by decide, by decide, by decide,
        by decide, by decide, by decide⟩)
      ⟨List.pairwise_singleton _ _, by decide, by decide, by decide, by simp [lineTerm, blankTerm],
        hcontiguous, fun _ => by decide⟩ (fun _ => by decide)
    have hbytes : encodeTerms [lineTerm] .compactV2 = .ok [1, 0, 0, 0, 0, 0, 0, 0, 1, 7, 1, 1] := by
      decide +kernel
    obtain rfl := Except.ok.inj (hbytes.symm.trans hencode)
    exact ⟨_, hencode, hdecode (by decide) .default (by decide) (by decide)⟩

/-! ### Where they are not -/

/-- A manifest of an empty sidecar, but for its index type and the algorithm of one checksum. -/
def plainManifest (indexType algorithm : String) : SidecarManifest :=
  let digest : Digest := List.Vector.replicate 32 0
  let sectionRef : SectionRef := { offset := 0, size := 0, checksum := .fromRawBytes digest }
  { sourceContainerId := List.Vector.replicate 16 0
    sourceOriginalChecksum := { algorithm, value := digest }
    sourceQztFooterChecksum := .fromRawBytes digest
    indexType
    ngramN := none
    complete := true
    highDfPerMillion := 200000
    indexSizeBytes := 0
    sourceSizeBytes := 0
    formatVersion := .v2
    granuleEncoding := .lineImpliedV2
    termEncoding := .compactV2
    granules := sectionRef
    terms := sectionRef
    postings := sectionRef }

theorem plainManifest_inWords {indexType : String} (algorithm : String)
    (h : (textBytes indexType).length < 2 ^ 64) : (plainManifest indexType algorithm).InWords := by
  have hzero : 0 < 2 ^ 64 := Nat.two_pow_pos 64
  have hhigh : 200000 < 2 ^ 32 := by decide
  refine ⟨h, fun n hn => ?_, hhigh, hzero, hzero, ?_⟩
  · cases hn
  · simp only [List.forall_mem_cons, List.not_mem_nil, false_implies, implies_true, and_true]
    exact ⟨⟨hzero, hzero⟩, ⟨hzero, hzero⟩, hzero, hzero⟩

/-- Two terms whose postings end behind the last word. -/
def endlessTerms (env : Env) : List TermDictionaryEntry :=
  [{ blankTerm env [0] with granuleFrequency := 1, postingSize := 2 ^ 63 },
    { blankTerm env [1] with granuleFrequency := 1, postingOffset := 2 ^ 63, postingSize := 2 ^ 63 }]

theorem endlessTerms_inWords (env : Env) : ∀ term ∈ endlessTerms env, TermInWords term := by
  have hzero : 0 < 2 ^ 64 := Nat.two_pow_pos 64
  have hone : 1 < 2 ^ 64 := by decide
  have hhalf : 2 ^ 63 < 2 ^ 64 := by decide
  simp only [endlessTerms, List.forall_mem_cons, List.not_mem_nil, false_implies, implies_true,
    and_true]
  exact ⟨⟨hone, hzero, hone, hzero, hhalf, hzero, hzero, hzero⟩,
    ⟨hone, hzero, hone, hhalf, hhalf, hzero, hzero, hzero⟩⟩

theorem endlessTerms_wellFormed (env : Env) : WellFormedTerms env .compactV2 (endlessTerms env) where
  sorted := by
    rw [endlessTerms, List.pairwise_pair]
    change ([0] : List UInt8) < [1]
    decide
  keys := by simp [endlessTerms, blankTerm]
  positive := by simp [endlessTerms]
  flags := by simp [endlessTerms, blankTerm]
  hashes := by simp [endlessTerms, blankTerm]
  contiguous := by
    intro position term hterm
    match position with
    | 0 =>
      obtain rfl := Option.some.inj hterm
      rfl
    | 1 =>
      obtain rfl := Option.some.inj hterm
      simp [endlessTerms, postingExtent]
    | position + 2 => cases hterm
  compact := by simp [endlessTerms, blankTerm]

theorem encodeTerms_endlessTerms (env : Env) {bytes : List UInt8}
    (h : encodeTerms (endlessTerms env) .compactV2 = .ok bytes) : bytes.length < 2 ^ 64 := by
  obtain ⟨-, -, rfl⟩ := encodeTerms_iff.mp h
  have hhalf : (leb128 (2 ^ 63)).length ≤ 10 := length_leb128_le_of_lt (by decide)
  have hone : (leb128 1).length ≤ 1 := length_leb128_le_of_lt (by decide)
  simp only [endlessTerms, Nat.zero_add, blankTerm, encodeTerm, writeVaruint, List.map_cons, List.map_nil,
    List.flatten_cons, List.flatten_nil, List.length_append, List.length_cons, List.length_nil,
    length_leBytes]
  omega

/-- Not every dictionary and not every manifest is read back: postings may end behind the last
word, a checksum may name another algorithm, and an index type may be too long for the limits of
the CBOR parser. -/
theorem codecs_not_inverse :
    (¬ ∀ (env : Env) (terms : List TermDictionaryEntry),
      terms.length < 2 ^ 64 → (∀ term ∈ terms, TermInWords term) →
      WellFormedTerms env .compactV2 terms →
        ∃ bytes, encodeTerms terms .compactV2 = .ok bytes ∧
          (bytes.length < 2 ^ 64 → ∀ limits : SidecarLimits, bytes.length ≤ limits.maxTermsSize →
            terms.length ≤ limits.maxTermCount →
            decodeTerms env bytes .compactV2 limits = .ok terms)) ∧
    (¬ ∀ manifest : SidecarManifest, manifest.InWords → manifest.formatVersion = .v2 →
      manifest.termEncoding = .compactV2 →
        ∃ bytes, encodeManifest manifest = .ok bytes ∧ decodeManifest bytes = .ok manifest) ∧
    (¬ ∀ manifest : SidecarManifest, manifest.InWords → manifest.formatVersion = .v2 →
      manifest.termEncoding = .compactV2 → manifest.Blake3 →
        ∃ bytes, encodeManifest manifest = .ok bytes ∧ decodeManifest bytes = .ok manifest) := by
  refine ⟨?_, ?_, ?_⟩
  · intro h
    obtain ⟨bytes, hencode, hdecode⟩ := h Reference.env (endlessTerms _) (show 2 < 2 ^ 64 by decide)
      (endlessTerms_inWords _) (endlessTerms_wellFormed _)
    have hword := encodeTerms_endlessTerms _ hencode
    have hread := hdecode hword ⟨0, bytes.length, 2, 0, 0, 0, 0, 0⟩ (Nat.le_refl _) (Nat.le_refl 2)
    -- The offset behind the second term is no word.
    obtain ⟨⟨⟨-, -, -, -, hover, -⟩, -⟩, -⟩ := decodeTerms_iff.mp hread
    exact absurd hover (by decide)
  · intro h
    obtain ⟨bytes, -, hdecode⟩ := h (plainManifest "token" "sha256")
      (plainManifest_inWords _ (by decide)) rfl rfl
    have halgorithm := blake3_of_decodeManifest hdecode _ List.mem_cons_self
    exact absurd halgorithm (show ¬ "sha256" = checksumAlgorithmBlake3 by decide)
  · intro h
    have hlength := length_textBytes_replicate (2 ^ 25)
    have hwords := plainManifest_inWords checksumAlgorithmBlake3
      (show (textBytes (String.ofList (List.replicate (2 ^ 25) 'a'))).length < 2 ^ 64 by
        rw [hlength]; decide)
    have hblake3 : (plainManifest (String.ofList (List.replicate (2 ^ 25) 'a'))
        checksumAlgorithmBlake3).Blake3 := by
      simp only [SidecarManifest.Blake3, SidecarManifest.checksums, List.forall_mem_cons,
        List.not_mem_nil, false_implies, implies_true, and_true]
      exact ⟨rfl, rfl, rfl, rfl, rfl⟩
    obtain ⟨bytes, hencode, hdecode⟩ := h _ hwords rfl rfl hblake3
    have hbytes := length_of_encodeManifest (SidecarManifest.sizedBy hwords hblake3 hlength.le)
      (by decide) (by decide) hencode
    have hlimits := withinDefaults_of_decodeManifest hwords hblake3 hencode
      (Nat.lt_of_le_of_lt hbytes (by decide)) hdecode
    have htype := indexType_le_of_withinDefaults hlimits
    change (textBytes (String.ofList (List.replicate (2 ^ 25) 'a'))).length ≤ _ at htype
    rw [hlength] at htype
    exact absurd htype (by decide)

end Qzt.Sidecar
