import Qzt.Container.FixedLaws
import Qzt.Foundation.Places
import Qzt.Search.PostingCodec
import Qzt.Sidecar.Sections

/-!
# The sections are read back

Each decoder, at the place where its encoder has written, returns what was encoded and the
cursor behind it.  The compact encodings drop what follows from the position of a record:
ids and line numbers of granules, and the hashes and offsets of terms.
-/

namespace Qzt.Sidecar

open Foundation

/-! ## Cursors -/

section Cursors

variable {bytes part : List UInt8} {cursor value : Nat}

theorem readExact_of_standsAt (hword : bytes.length < 2 ^ 64) (h : StandsAt bytes cursor part)
    {len : Nat} (hlen : part.length = len) :
    readExact bytes cursor len = .ok (part, cursor + len) := by
  subst hlen
  have hinside := h.inside
  rw [readExact, checkedAdd_of_lt (by omega), okOr_some, ok_bind, h.getRange, okOr_some, ok_bind]
  rfl

/-- What was read stands at the cursor. -/
theorem standsAt_of_readExact {len next : Nat} (h : readExact bytes cursor len = .ok (part, next)) :
    StandsAt bytes cursor part ∧ part.length = len ∧ next = cursor + len := by
  simp only [readExact, bind_eq_ok_iff, okOr_eq_ok_iff, checkedAdd_eq_some_iff, pure_eq_ok,
    Except.ok.injEq, Prod.mk.injEq] at h
  obtain ⟨_, ⟨-, rfl⟩, _, hrange, rfl, rfl⟩ := h
  obtain ⟨hstands, hstop⟩ := standsAt_of_getRange hrange
  exact ⟨hstands, (Nat.add_left_cancel hstop).symm, rfl⟩

theorem readU64Cursor_of_standsAt (hword : bytes.length < 2 ^ 64)
    (h : StandsAt bytes cursor (leBytes 8 value)) (hvalue : value < 2 ^ 64) :
    readU64Cursor bytes cursor = .ok (value, cursor + 8) := by
  rw [readU64Cursor, readExact_of_standsAt hword h (length_leBytes 8 value), ok_bind]
  dsimp only
  rw [readLe_leBytes (show value < 256 ^ 8 by omega), ok_bind]
  rfl

theorem readU32Cursor_of_standsAt (hword : bytes.length < 2 ^ 64)
    (h : StandsAt bytes cursor (leBytes 4 value)) (hvalue : value < 2 ^ 32) :
    readU32Cursor bytes cursor = .ok (value, cursor + 4) := by
  rw [readU32Cursor, readExact_of_standsAt hword h (length_leBytes 4 value), ok_bind]
  dsimp only
  rw [readLe_leBytes (show value < 256 ^ 4 by omega), ok_bind]
  rfl

/-- Reading on from the middle of a varint: `total` is its value, and `v` what is left of it. -/
theorem readVaruintLoop_of_standsAt (hword : bytes.length < 2 ^ 64) (v : Nat) :
    ∀ {total value shift rounds start cursor : Nat}, total = value + v * 2 ^ shift →
    total < 2 ^ 64 → shift + 7 * rounds = 70 → (v = 0 → shift = 0) →
    start + (writeVaruint total).length = cursor + (writeVaruint v).length →
    StandsAt bytes cursor (writeVaruint v) →
    readVaruintLoop bytes start rounds shift value cursor =
      .ok (total, cursor + (writeVaruint v).length) := by
  induction v using Nat.strongRecOn with
  | _ v ih =>
    intro total value shift rounds start cursor htotal hlt hrounds hzero hlength h
    -- A round is left, because the shift is not beyond the word.
    have hshift : shift < 64 := by
      rcases Nat.eq_zero_or_pos v with hv | hpos
      · have hstart := hzero hv
        omega
      · have hpow : 2 ^ shift < 2 ^ 64 := by
          calc 2 ^ shift ≤ v * 2 ^ shift := Nat.le_mul_of_pos_left _ hpos
            _ < 2 ^ 64 := by omega
        exact (Nat.pow_lt_pow_iff_right (by decide)).mp hpow
    obtain ⟨rounds, rfl⟩ : ∃ more, rounds = more + 1 := ⟨rounds - 1, by omega⟩
    -- The largest shift leaves one bit.
    have htop : ¬ (shift = 63 ∧ v > 1) := by
      rintro ⟨rfl, hv⟩
      omega
    unfold writeVaruint at h hlength ⊢
    rcases Nat.lt_or_ge v 128 with hsmall | hlarge
    · -- The last group.
      rw [leb128_of_lt hsmall] at h hlength ⊢
      rw [readVaruintLoop, @readExact_of_standsAt bytes _ cursor hword h 1 rfl, ok_bind]
      dsimp only
      rw [List.head?_cons, okOr_some, ok_bind, toNat_ofNat_last hsmall, Nat.mod_eq_of_lt hsmall,
        rejectIf_of_not htop, ok_bind, if_pos hsmall, ← htotal]
      have hwritten : ¬ (writeVaruint total).length ≠ cursor + 1 - start := by
        unfold writeVaruint
        rw [List.length_singleton] at hlength
        omega
      rw [rejectIf_of_not hwritten, ok_bind]
      rfl
    · -- A group with the continuation bit, and what is left behind it.
      have hgroup : (v % 128 + 128) % 128 = v % 128 := by omega
      have hsplit : v * 2 ^ shift = v % 128 * 2 ^ shift + v / 128 * 2 ^ (shift + 7) := by
        conv_lhs => rw [← Nat.mod_add_div v 128]
        rw [Nat.pow_add]
        ring
      rw [leb128_of_le hlarge] at h hlength ⊢
      have hfirst : StandsAt bytes cursor [UInt8.ofNat (v % 128 + 128)] :=
        @StandsAt.left _ _ _ (leb128 (v / 128)) _ h
      have hrest : StandsAt bytes (cursor + 1) (leb128 (v / 128)) :=
        @StandsAt.right _ _ [UInt8.ofNat (v % 128 + 128)] _ _ h
      rw [readVaruintLoop, @readExact_of_standsAt bytes _ cursor hword hfirst 1 rfl, ok_bind]
      dsimp only
      rw [List.head?_cons, okOr_some, ok_bind, toNat_ofNat_group, hgroup,
        rejectIf_of_not (by omega), ok_bind, if_neg (by omega)]
      rw [List.length_cons] at hlength ⊢
      have hnext := @ih (v / 128) (by omega) total (value + v % 128 * 2 ^ shift) (shift + 7) rounds
        start (cursor + 1) (by omega) hlt (by omega) (by omega)
        (by unfold writeVaruint; omega) hrest
      rw [hnext]
      unfold writeVaruint
      rw [Nat.add_right_comm, Nat.add_assoc]

/-- A written varint is read at its place. -/
theorem readVaruint_of_standsAt (hword : bytes.length < 2 ^ 64)
    (h : StandsAt bytes cursor (writeVaruint value)) (hvalue : value < 2 ^ 64) :
    readVaruint bytes cursor = .ok (value, cursor + (writeVaruint value).length) :=
  readVaruintLoop_of_standsAt hword value (by omega) hvalue rfl (fun _ => rfl) rfl h

end Cursors

/-! ## Granules -/

/-- The numbers of a granule are words, and its line is the one that its id says. -/
structure GranuleInLine (granule : SearchGranule) (index : Nat) : Prop where
  granuleId : granule.granuleId = index
  firstLine : granule.firstLine = some index
  lineCount : granule.lineCount = some 1
  index_lt : index < 2 ^ 64 - 1
  logicalOffset : granule.logicalOffset < 2 ^ 64
  byteLength : granule.byteLength < 2 ^ 64
  chunkStart : granule.chunkStart ≤ granule.chunkEnd
  chunkEnd : granule.chunkEnd < 2 ^ 64

section Granules

variable {encoding : GranuleEncoding} {granule : SearchGranule} {granules : List SearchGranule}
  {bytes record : List UInt8} {records : List (List UInt8)} {index cursor : Nat}

theorem decodeLegacyGranule_encodeGranule (h : GranuleInLine granule index)
    (hencode : encodeGranule .legacyV1 granule = .ok record) :
    decodeLegacyGranule record = .ok (granule, record.length) := by
  have hrecord := Except.ok.inj hencode
  have hword : record.length < 2 ^ 64 := by
    rw [← hrecord]
    simp only [List.length_append, length_leBytes]
    omega
  have hindex := h.index_lt
  have hstart := h.chunkStart
  have hend := h.chunkEnd
  have hall := standsAt_self record
  nth_rewrite 2 [← hrecord] at hall
  -- The fields, from the last one to the first.
  have hcount := hall.right
  have hline := hall.left.right
  have hchunkEnd := hall.left.left.right
  have hchunkStart := hall.left.left.left.right
  have hbyteLength := hall.left.left.left.left.right
  have hoffset := hall.left.left.left.left.left.right
  have hid := hall.left.left.left.left.left.left
  simp only [List.length_append, length_leBytes, h.firstLine, h.lineCount, Option.getD_some,
    h.granuleId] at hcount hline hchunkEnd hchunkStart hbyteLength hoffset hid
  rw [decodeLegacyGranule, readU64Cursor_of_standsAt hword hid (by omega), ok_bind]
  dsimp only
  rw [readU64Cursor_of_standsAt hword hoffset h.logicalOffset, ok_bind]
  dsimp only
  rw [readU64Cursor_of_standsAt hword hbyteLength h.byteLength, ok_bind]
  dsimp only
  rw [readU64Cursor_of_standsAt hword hchunkStart (by omega), ok_bind]
  dsimp only
  rw [readU64Cursor_of_standsAt hword hchunkEnd (by omega), ok_bind]
  dsimp only
  rw [readU64Cursor_of_standsAt hword hline (by omega), ok_bind]
  dsimp only
  rw [readU64Cursor_of_standsAt hword hcount (by omega), ok_bind]
  dsimp only
  rw [noneIfMax, if_pos (by omega), noneIfMax, if_pos (by omega), ← h.firstLine, ← h.lineCount,
    ← h.granuleId, pure_eq_ok, ← hrecord]
  simp only [List.length_append, length_leBytes]

theorem decodeCompactGranule_encodeGranule (h : GranuleInLine granule index)
    (hencode : encodeGranule .lineImpliedV2 granule = .ok record) :
    decodeCompactGranule record index = .ok (granule, record.length) := by
  rw [encodeGranule] at hencode
  obtain ⟨_, hlength, hencode⟩ := bind_eq_ok_iff.mp hencode
  obtain ⟨_, hstart, hencode⟩ := bind_eq_ok_iff.mp hencode
  obtain ⟨span, hspan, hencode⟩ := bind_eq_ok_iff.mp hencode
  obtain ⟨_, hwidth, hencode⟩ := bind_eq_ok_iff.mp hencode
  rw [okOr_eq_ok_iff, checkedSub_eq_some_iff] at hspan
  obtain ⟨hle, rfl⟩ := hspan
  rw [rejectIf_eq_ok_iff, ge_iff_le, Nat.not_le] at hlength hstart hwidth
  have hrecord := Except.ok.inj hencode
  have hword : record.length < 2 ^ 64 := by
    rw [← hrecord]
    simp only [List.length_append, length_leBytes]
    omega
  have hend := h.chunkEnd
  have hall := standsAt_self record
  nth_rewrite 2 [← hrecord] at hall
  have hspan := hall.right
  have hchunkStart := hall.left.right
  have hbyteLength := hall.left.left.right
  have hoffset := hall.left.left.left
  simp only [List.length_append, length_leBytes] at hspan hchunkStart hbyteLength hoffset
  rw [decodeCompactGranule, readU64Cursor_of_standsAt hword hoffset h.logicalOffset, ok_bind]
  dsimp only
  rw [readU32Cursor_of_standsAt hword hbyteLength hlength, ok_bind]
  dsimp only
  rw [readU32Cursor_of_standsAt hword hchunkStart hstart, ok_bind]
  dsimp only
  rw [readU32Cursor_of_standsAt hword hspan hwidth, ok_bind]
  dsimp only
  rw [checkedAdd_of_lt (by omega), okOr_some, ok_bind, Nat.add_sub_of_le hle, ← h.firstLine,
    ← h.lineCount, ← h.granuleId, pure_eq_ok, ← hrecord]
  simp only [List.length_append, length_leBytes]

/-- A record is decoded for the line it was encoded for. -/
theorem decodeGranuleRecord_encodeGranule (h : GranuleInLine granule index)
    (hencode : encodeGranule encoding granule = .ok record) :
    decodeGranuleRecord record index encoding = .ok granule := by
  have hchecks : ¬ (record.length ≠ record.length ∨ granule.granuleId ≠ index) := by
    simp [h.granuleId]
  unfold decodeGranuleRecord
  cases encoding with
  | legacyV1 =>
    simp only [decodeLegacyGranule_encodeGranule h hencode, ok_bind, rejectIf_of_not hchecks]
    rfl
  | lineImpliedV2 =>
    simp only [decodeCompactGranule_encodeGranule h hencode, ok_bind, rejectIf_of_not hchecks]
    rfl

theorem length_encodeGranule (hencode : encodeGranule encoding granule = .ok record) :
    record.length = encoding.recordLen := by
  cases encoding with
  | legacyV1 =>
    rw [← Except.ok.inj hencode]
    simp only [List.length_append, length_leBytes]
    rfl
  | lineImpliedV2 =>
    rw [encodeGranule] at hencode
    iterate 4 obtain ⟨_, -, hencode⟩ := bind_eq_ok_iff.mp hencode
    rw [← Except.ok.inj hencode]
    simp only [List.length_append, length_leBytes]
    rfl

/-- The records of lines that follow each other. -/
theorem decodeGranulesLoop_of_standsAt (hword : bytes.length < 2 ^ 64)
    (hlines : ∀ position granule, granules[position]? = some granule →
      GranuleInLine granule (index + position))
    (hencode : collect (encodeGranule encoding) granules = .ok records)
    (h : StandsAt bytes cursor records.flatten) :
    decodeGranulesLoop bytes encoding granules.length index cursor =
      .ok (granules, cursor + records.flatten.length) := by
  induction granules generalizing records index cursor with
  | nil =>
    obtain rfl := Except.ok.inj hencode
    rfl
  | cons granule granules ih =>
    rw [collect] at hencode
    obtain ⟨record, hrecord, hencode⟩ := bind_eq_ok_iff.mp hencode
    obtain ⟨rest, hrest, hencode⟩ := bind_eq_ok_iff.mp hencode
    obtain rfl := Except.ok.inj hencode
    have hlength := length_encodeGranule hrecord
    rw [List.flatten_cons] at h
    have hline : GranuleInLine granule index := hlines 0 granule rfl
    have hlater : ∀ position other, granules[position]? = some other →
        GranuleInLine other (index + 1 + position) := by
      intro position other hother
      have hplace := hlines (position + 1) other hother
      rwa [Nat.add_assoc, Nat.add_comm 1]
    have hnext := ih hlater hrest h.right
    rw [List.length_cons, decodeGranulesLoop, readExact_of_standsAt hword h.left hlength, ok_bind]
    dsimp only
    rw [decodeGranuleRecord_encodeGranule hline hrecord, ok_bind, ← hlength, hnext, ok_bind,
      List.flatten_cons, List.length_append, Nat.add_assoc]
    rfl

/-- The granule section is read back. -/
theorem decodeGranules_encodeGranules {limits : SidecarLimits}
    (hlines : ∀ position granule, granules[position]? = some granule →
      GranuleInLine granule position)
    (hencode : encodeGranules granules encoding = .ok bytes)
    (hlength : bytes.length = granules.length * encoding.recordLen + 8)
    (hcount : granules.length ≤ limits.maxGranuleCount) (hword : bytes.length < 2 ^ 64) :
    decodeGranules bytes encoding limits = .ok granules := by
  obtain ⟨_, hcountWord, hencode⟩ := bind_eq_ok_iff.mp hencode
  obtain ⟨hcountLt, rfl⟩ := usizeToU64_eq_ok_iff.mp hcountWord
  obtain ⟨records, hrecords, hbytes⟩ := bind_eq_ok_iff.mp hencode
  have hbytes : leBytes 8 granules.length ++ records.flatten = bytes := Except.ok.inj hbytes
  have hall := standsAt_self bytes
  nth_rewrite 2 [← hbytes] at hall
  have hrecordsAt := hall.right
  rw [length_leBytes, Nat.zero_add] at hrecordsAt
  have hinside := hrecordsAt.inside
  have htotal : 8 + records.flatten.length = bytes.length := by
    rw [← hbytes, List.length_append, length_leBytes]
  have hplaces : ∀ position granule, granules[position]? = some granule →
      GranuleInLine granule (0 + position) := by
    intro position granule hgranule
    rw [Nat.zero_add]
    exact hlines position granule hgranule
  rw [decodeGranules, readU64Cursor_of_standsAt hword hall.left hcountLt, ok_bind]
  dsimp only
  rw [rejectIf_of_not (by omega), ok_bind, checkedMul_of_lt (by omega), okOr_some, ok_bind,
    checkedAdd_of_lt (by omega), okOr_some, ok_bind, usizeToU64_of_lt hword, ok_bind,
    rejectIf_of_not (by omega), ok_bind, u64ToUsize_of_lt hcountLt, ok_bind, Nat.zero_add,
    decodeGranulesLoop_of_standsAt hword hplaces hrecords hrecordsAt, ok_bind]
  dsimp only
  rw [rejectIf_of_not (by omega), ok_bind]
  rfl

end Granules

/-! ## Terms -/

/-- The dictionary that the compact records of a posting map stand for: hashes come from the keys,
and offsets from the sizes of the lists before. -/
def restoredTerms (env : Env) : Nat → PostingMap → List TermDictionaryEntry
  | _, [] => []
  | postingOffset, (key, list) :: map =>
    { blankTerm env key with
        granuleFrequency := list.length
        postingOffset
        postingSize := (postingBytes list).length } ::
      restoredTerms env (postingOffset + (postingBytes list).length) map

/-- The compact record of a key and its list. -/
def termRecord (pair : List UInt8 × List Nat) : List UInt8 :=
  writeVaruint pair.1.length ++ pair.1 ++ writeVaruint pair.2.length ++
    writeVaruint (postingBytes pair.2).length

/-- A posting map that a dictionary can be written for. -/
structure Writable (map : PostingMap) : Prop where
  sorted : map.Pairwise fun a b => a.1 < b.1
  keys : ∀ pair ∈ map, pair.1 ≠ [] ∧ pair.1.length < 2 ^ 64
  lists : ∀ pair ∈ map, pair.2 ≠ [] ∧ IncreasesFrom none pair.2 ∧ pair.2.length < 2 ^ 64
  size : (map.map fun pair => (postingBytes pair.2).length).sum < 2 ^ 64

section Terms

variable {env : Env} {map : PostingMap} {bytes : List UInt8} {cursor postingOffset : Nat}

theorem Writable.tail {pair : List UInt8 × List Nat} (h : Writable (pair :: map)) :
    Writable map where
  sorted := (List.pairwise_cons.mp h.sorted).2
  keys := fun other hother => h.keys other (List.mem_cons_of_mem _ hother)
  lists := fun other hother => h.lists other (List.mem_cons_of_mem _ hother)
  size := by
    have hsize := h.size
    rw [List.map_cons, List.sum_cons] at hsize
    omega

theorem decodeCompactTerm_of_standsAt {key : List UInt8} {list : List Nat} (hkey : key ≠ [])
    (hkeyLen : key.length < 2 ^ 64) (hlist : list.length < 2 ^ 64)
    (hsize : (postingBytes list).length < 2 ^ 64) (hword : bytes.length < 2 ^ 64)
    (h : StandsAt bytes cursor (termRecord (key, list))) :
    decodeCompactTerm env bytes cursor postingOffset =
      .ok ({ blankTerm env key with
              granuleFrequency := list.length
              postingOffset
              postingSize := (postingBytes list).length },
        cursor + (termRecord (key, list)).length) := by
  have hsizeAt := h.right
  have hcountAt := h.left.right
  have hkeyAt := h.left.left.right
  have hlengthAt := h.left.left.left
  have hlength : key.length ≠ 0 := Nat.ne_of_gt (List.length_pos_of_ne_nil hkey)
  simp only [List.length_append] at hsizeAt hcountAt
  rw [← Nat.add_assoc] at hcountAt hsizeAt
  rw [← Nat.add_assoc] at hsizeAt
  rw [decodeCompactTerm, readVaruint_of_standsAt hword hlengthAt hkeyLen, ok_bind]
  dsimp only
  rw [u64ToUsize_of_lt hkeyLen, ok_bind, rejectIf_of_not hlength, ok_bind,
    readExact_of_standsAt hword hkeyAt rfl, ok_bind]
  dsimp only
  rw [readVaruint_of_standsAt hword hcountAt hlist, ok_bind]
  dsimp only
  rw [readVaruint_of_standsAt hword hsizeAt hsize, ok_bind, pure_eq_ok]
  simp only [termRecord, List.length_append, Nat.add_assoc]

theorem postingBytes_ne_nil {list : List Nat} (h : list ≠ []) : (postingBytes list).length ≠ 0 := by
  have hle := length_le_length_deltaBytes none list
  have hpos := List.length_pos_of_ne_nil h
  unfold postingBytes
  omega

/-- The records of a posting map are decoded to the dictionary that they stand for. -/
theorem decodeTermsLoop_of_standsAt (hmap : Writable map)
    (hsum : postingOffset + (map.map fun pair => (postingBytes pair.2).length).sum < 2 ^ 64)
    {previous : Option (List UInt8)} (hprevious : ∀ key ∈ previous, ∀ pair ∈ map, key < pair.1)
    (hword : bytes.length < 2 ^ 64) (h : StandsAt bytes cursor (map.map termRecord).flatten) :
    decodeTermsLoop env bytes .compactV2 map.length cursor postingOffset previous =
      .ok (restoredTerms env postingOffset map, cursor + (map.map termRecord).flatten.length) := by
  induction map generalizing cursor postingOffset previous with
  | nil => rfl
  | cons pair map ih =>
    obtain ⟨key, list⟩ := pair
    obtain ⟨hkey, hkeyLen⟩ := hmap.keys _ List.mem_cons_self
    obtain ⟨hlist, -, hcount⟩ := hmap.lists _ List.mem_cons_self
    rw [List.map_cons, List.sum_cons] at hsum
    rw [List.map_cons, List.flatten_cons] at h
    dsimp only at hkey hkeyLen hlist hcount hsum
    have hsize := postingBytes_ne_nil hlist
    have hpos := List.length_pos_of_ne_nil hlist
    -- The keys that follow are behind this one.
    have hlater : ∀ other ∈ some key, ∀ pair ∈ map, other < pair.1 := by
      intro other hother pair hpair
      obtain rfl := Option.some.inj hother
      exact (List.pairwise_cons.mp hmap.sorted).1 pair hpair
    have hcheck : checkDecodedTerm env .compactV2 previous { blankTerm env key with
        granuleFrequency := list.length
        postingOffset
        postingSize := (postingBytes list).length } = .ok ⟨⟩ := by
      apply rejectIf_of_not
      rintro (hzero | hzero | hflags | ⟨hencoding, -⟩ | ⟨other, hother, hge⟩)
      · exact Nat.ne_of_gt hpos hzero
      · exact hsize hzero
      · exact hflags rfl
      · cases hencoding
      · exact hge (hprevious other hother _ List.mem_cons_self)
    have hterm := @decodeCompactTerm_of_standsAt env bytes cursor postingOffset key list hkey
      hkeyLen hcount (by omega) hword h.left
    have hrest := ih hmap.tail (show postingOffset + (postingBytes list).length +
      (map.map fun pair => (postingBytes pair.2).length).sum < 2 ^ 64 by omega) hlater h.right
    rw [List.length_cons, decodeTermsLoop]
    dsimp only
    rw [hterm, ok_bind]
    dsimp only
    rw [checkedAdd_of_lt (by omega), okOr_some, ok_bind, hcheck, ok_bind]
    change (decodeTermsLoop env bytes .compactV2 map.length (cursor + (termRecord (key, list)).length)
      (postingOffset + (postingBytes list).length) (some key) >>= fun _ => _) = _
    rw [hrest, ok_bind, List.map_cons, List.flatten_cons, List.length_append, Nat.add_assoc]
    rfl

theorem three_le_termRecord (pair : List UInt8 × List Nat) : 3 ≤ (termRecord pair).length := by
  have hkey : 0 < (writeVaruint pair.1.length).length := length_leb128_pos _
  have hcount : 0 < (writeVaruint pair.2.length).length := length_leb128_pos _
  have hsize : 0 < (writeVaruint (postingBytes pair.2).length).length := length_leb128_pos _
  simp only [termRecord, List.length_append]
  omega

/-- The term section is read back. -/
theorem decodeTerms_of_records (env : Env) {limits : SidecarLimits} (hmap : Writable map)
    (hbytes : leBytes 8 map.length ++ (map.map termRecord).flatten = bytes)
    (hsize : bytes.length ≤ limits.maxTermsSize) (hcount : map.length ≤ limits.maxTermCount)
    (hword : bytes.length < 2 ^ 64) :
    decodeTerms env bytes .compactV2 limits = .ok (restoredTerms env 0 map) := by
  have hall := standsAt_self bytes
  nth_rewrite 2 [← hbytes] at hall
  have hrecordsAt := hall.right
  rw [length_leBytes, Nat.zero_add] at hrecordsAt
  have hlength : 8 + (map.map termRecord).flatten.length = bytes.length := by
    rw [← hbytes, List.length_append, length_leBytes]
  -- No record has less than three bytes.
  have hrecords : map.length * 3 ≤ (map.map termRecord).flatten.length := by
    clear hall hrecordsAt hlength hbytes hcount
    induction map with
    | nil => exact Nat.zero_le _
    | cons pair map ih =>
      have hpair := three_le_termRecord pair
      have hrest := ih hmap.tail
      rw [List.map_cons, List.flatten_cons, List.length_append, List.length_cons]
      omega
  have hloop := @decodeTermsLoop_of_standsAt env map bytes 8 0 hmap
    (by rw [Nat.zero_add]; exact hmap.size) none (fun key hkey => by cases hkey) hword hrecordsAt
  have havailable : ¬ map.length > (bytes.length - 8) / TermEncoding.compactV2.minimumRecordLen := by
    change ¬ map.length > (bytes.length - 8) / 3
    omega
  rw [decodeTerms, usizeToU64_of_lt hword, ok_bind, rejectIf_of_not (by omega), ok_bind,
    readU64Cursor_of_standsAt hword hall.left (by omega), ok_bind]
  dsimp only
  rw [rejectIf_of_not (by omega), ok_bind, Nat.zero_add, usizeToU64_of_lt (by omega), ok_bind,
    rejectIf_of_not havailable, ok_bind, u64ToUsize_of_lt (by omega), ok_bind, hloop, ok_bind]
  dsimp only
  rw [rejectIf_of_not (by omega), ok_bind]
  rfl

/-- The term section of a dictionary consists of the records of its posting map. -/
theorem encodeTerms_written {written : List TermDictionaryEntry}
    (h : WrittenTerms (map.map fun pair => blankTerm env pair.1) (map.map Prod.snd) written)
    (hencode : encodeTerms written .compactV2 = .ok bytes) :
    leBytes 8 map.length ++ (map.map termRecord).flatten = bytes := by
  have hrecords : written.length = map.length ∧
      written.map (encodeTerm .compactV2) = map.map termRecord := by
    clear hencode
    obtain ⟨hkeys, hfrequency, hsize⟩ := h
    induction map generalizing written with
    | nil =>
      rw [List.map_nil, List.map_nil, List.map_eq_nil_iff] at hkeys
      rw [hkeys]
      exact ⟨rfl, rfl⟩
    | cons pair map ih =>
      cases written with
      | nil => cases hkeys
      | cons term written =>
        simp only [List.map_cons, List.cons.injEq] at hkeys hfrequency hsize
        obtain ⟨hlength, hrest⟩ := ih hkeys.2 hfrequency.2 hsize.2
        have hkey : term.key = pair.1 := hkeys.1
        refine ⟨congrArg Nat.succ hlength, ?_⟩
        rw [List.map_cons, List.map_cons, hrest, encodeTerm, hkey, hfrequency.1, hsize.1]
        rfl
  obtain ⟨_, hcount, hencode⟩ := bind_eq_ok_iff.mp hencode
  obtain ⟨-, rfl⟩ := usizeToU64_eq_ok_iff.mp hcount
  obtain ⟨_, -, hencode⟩ := bind_eq_ok_iff.mp hencode
  rw [← Except.ok.inj hencode, hrecords.1, hrecords.2]

end Terms

end Qzt.Sidecar
