import Qzt.Cbor.Canonical
import Qzt.Container.SchemaLaws
import Qzt.Container.SchemaSpec

/-!
# What the decoders accept

The checks of a decoder, put together, are the specified schema, up to the fields that it never
reads: `created_at_unix_ms` and `writer` of a footer payload, and `name`, `created_by` and
`created_at_unix_ms` of the identity.  Accepted bytes conform to the specification exactly when
these fields do.
-/

namespace Qzt.Spec

open Foundation

/-! ## Values with an encoding -/

/-- The value has an encoding, so its maps have no key twice. -/
def HasForm (value : CborValue) : Prop :=
  ∃ form, encodeValue value = .ok form

theorem hasForm_of_validates {bytes : List UInt8} {value : CborValue}
    (h : validateDeterministic bytes = .ok value) : HasForm value :=
  ⟨bytes, (encodeDeterministic_of_validates h).1⟩

theorem encodeValues_hasForm {values : List CborValue} {form : List UInt8}
    (h : encodeValues values = .ok form) : ∀ value ∈ values, HasForm value := by
  induction values generalizing form with
  | nil => exact fun _ hvalue => absurd hvalue List.not_mem_nil
  | cons value values ih =>
    simp only [encodeValues, bind_eq_ok_iff] at h
    obtain ⟨head, hhead, rest, hrest, -⟩ := h
    exact List.forall_mem_cons.mpr ⟨⟨head, hhead⟩, ih hrest⟩

theorem HasForm.items {values : List CborValue} (h : HasForm (.array values)) :
    ∀ value ∈ values, HasForm value := by
  obtain ⟨form, h⟩ := h
  simp only [encodeValue, bind_eq_ok_iff] at h
  obtain ⟨_, -, rest, hrest, -⟩ := h
  exact encodeValues_hasForm hrest

theorem encodeEntries_eq_ok {entries : CborMap} {encoded : List (List UInt8 × List UInt8)}
    (h : encodeEntries entries = .ok encoded) :
    (entries.map Prod.fst).map encodeValue = (encoded.map Prod.fst).map .ok ∧
      ∀ entry ∈ entries, HasForm entry.2 := by
  induction entries generalizing encoded with
  | nil =>
    cases h
    exact ⟨rfl, fun _ hentry => absurd hentry List.not_mem_nil⟩
  | cons entry entries ih =>
    obtain ⟨key, value⟩ := entry
    simp only [encodeEntries, bind_eq_ok_iff, pure_eq_ok, Except.ok.injEq] at h
    obtain ⟨keyBytes, hkey, valueBytes, hvalue, rest, hrest, rfl⟩ := h
    obtain ⟨hkeys, hforms⟩ := ih hrest
    refine ⟨?_, List.forall_mem_cons.mpr ⟨⟨valueBytes, hvalue⟩, hforms⟩⟩
    rw [List.map_cons, List.map_cons, List.map_cons, List.map_cons, hkeys, hkey]

instance : Std.Total keyLe :=
  ⟨fun a b => List.le_total a.1 b.1⟩

instance : IsTrans (List UInt8 × List UInt8) keyLe :=
  ⟨fun _ _ _ hab hbc => List.le_trans hab hbc⟩

/-- Sorted keys without adjacent duplicates are distinct. -/
theorem nodup_of_sorted {sorted : List (List UInt8 × List UInt8)} (hsorted : sorted.Pairwise keyLe)
    (h : ¬ hasAdjacentDuplicate sorted = true) : (sorted.map Prod.fst).Nodup := by
  induction sorted with
  | nil => exact List.nodup_nil
  | cons a rest ih =>
    obtain ⟨hfirst, hrest⟩ := List.pairwise_cons.mp hsorted
    cases rest with
    | nil => exact List.nodup_singleton _
    | cons b rest =>
      rw [hasAdjacentDuplicate, Bool.or_eq_true, not_or, beq_iff_eq] at h
      refine List.nodup_cons.mpr ⟨?_, ih hrest h.2⟩
      intro hmem
      obtain ⟨c, hc, heq⟩ := List.mem_map.mp hmem
      -- A key equal to the first one would stand behind a greater one.
      have hab : a.1 ≠ b.1 := h.1
      have hle : keyLe a b := hfirst b List.mem_cons_self
      have hbc : ¬ c.1 < b.1 := by
        rcases List.mem_cons.mp hc with rfl | hc
        · exact List.lt_irrefl _
        · exact (List.pairwise_cons.mp hrest).1 c hc
      rw [heq] at hbc
      exact hab (List.le_antisymm hle hbc)

theorem HasForm.entries {map : CborMap} (h : HasForm (.map map)) :
    (map.map Prod.fst).Nodup ∧ ∀ entry ∈ map, HasForm entry.2 := by
  obtain ⟨form, h⟩ := h
  simp only [encodeValue, bind_eq_ok_iff] at h
  obtain ⟨_, -, encoded, hencoded, rest, hrest, -⟩ := h
  obtain ⟨hkeys, hforms⟩ := encodeEntries_eq_ok hencoded
  refine ⟨?_, hforms⟩
  simp only [encodeSortedEntries, bind_eq_ok_iff, rejectIf_eq_ok_iff] at hrest
  obtain ⟨_, hdistinct, -⟩ := hrest
  have hsorted : (encoded.insertionSort keyLe).Pairwise keyLe := List.pairwise_insertionSort _ _
  have hnodup := nodup_of_sorted hsorted hdistinct
  have hencodedNodup : (encoded.map Prod.fst).Nodup :=
    ((List.perm_insertionSort keyLe encoded).map Prod.fst).nodup_iff.mp hnodup
  have hmapped : ((map.map Prod.fst).map encodeValue).Nodup := by
    rw [hkeys]
    exact hencodedNodup.map (fun _ _ hsame => Except.ok.inj hsame)
  exact List.Nodup.of_map _ hmapped

/-- With distinct keys, a lookup is membership. -/
theorem field_eq_ok_iff {map : CborMap} (h : HasForm (.map map)) {key : String} {error : QztError}
    {value : CborValue} : field map key error = .ok value ↔ (.text key, value) ∈ map := by
  rw [field, okOr_eq_ok_iff]
  constructor
  · intro hfound
    obtain ⟨⟨first, second⟩, hentry, hnamed⟩ := List.exists_of_findSome?_eq_some hfound
    unfold entryNamed at hnamed
    split at hnamed
    · rename_i text other heq
      split at hnamed
      · rename_i hkey
        obtain ⟨rfl, rfl⟩ := Prod.mk.inj heq
        obtain rfl := Option.some.inj hnamed
        rw [← hkey]
        exact hentry
      · cases hnamed
    · cases hnamed
  · exact fun hmem => findSome?_entryNamed h.entries.1 hmem

section Accessors

variable {map : CborMap} {key : String} {error : QztError}

theorem HasForm.unique (h : HasForm (.map map)) {a b : CborValue} (ha : (.text key, a) ∈ map)
    (hb : (.text key, b) ∈ map) : a = b := by
  have hfirst := findSome?_entryNamed h.entries.1 ha
  have hsecond := findSome?_entryNamed h.entries.1 hb
  exact Option.some.inj (hfirst.symm.trans hsecond)

theorem HasField.typed (h : HasForm (.map map)) {type : FieldType} (hfield : HasField map key type) :
    FieldTyped map key type := by
  obtain ⟨value, hmem, htype⟩ := hfield
  intro other hother
  rw [h.unique hother hmem]
  exact htype

theorem hasField_of_requiredMap (h : HasForm (.map map)) {entries : CborMap}
    (hread : requiredMap map key error = .ok entries) :
    (.text key, .map entries) ∈ map ∧ HasForm (.map entries) := by
  simp only [requiredMap, bind_eq_ok_iff, field_eq_ok_iff h] at hread
  obtain ⟨value, hmem, hmap⟩ := hread
  cases value with
  | map found =>
    obtain rfl := Except.ok.inj hmap
    exact ⟨hmem, h.entries.2 _ hmem⟩
  | _ => cases hmap

theorem hasField_of_requiredText (h : HasForm (.map map)) {text : String}
    (hread : requiredText map key error = .ok text) : HasField map key (isConst (.text text)) := by
  simp only [requiredText, bind_eq_ok_iff, field_eq_ok_iff h] at hread
  obtain ⟨value, hmem, htext⟩ := hread
  cases value with
  | text found =>
    obtain rfl := Except.ok.inj htext
    exact ⟨_, hmem, rfl⟩
  | _ => cases htext

theorem hasField_of_requiredBool (h : HasForm (.map map)) {bool : Bool}
    (hread : requiredBool map key error = .ok bool) : HasField map key (isConst (.bool bool)) := by
  simp only [requiredBool, bind_eq_ok_iff, field_eq_ok_iff h] at hread
  obtain ⟨value, hmem, hbool⟩ := hread
  cases value with
  | bool found =>
    obtain rfl := Except.ok.inj hbool
    exact ⟨_, hmem, rfl⟩
  | _ => cases hbool

theorem hasField_of_requiredU64 (h : HasForm (.map map)) {n : Nat}
    (hread : requiredU64 map key error = .ok n) : HasField map key isU64 := by
  simp only [requiredU64, requiredU64WithOverflow, bind_eq_ok_iff, field_eq_ok_iff h] at hread
  obtain ⟨value, hmem, hnumber⟩ := hread
  cases value with
  | integer found =>
    dsimp only at hnumber
    split at hnumber
    · cases hnumber
    · split at hnumber
      · exact ⟨_, hmem, found.toNat, ‹_›, by rw [Int.toNat_of_nonneg (by omega)]⟩
      · cases hnumber
  | _ => cases hnumber

theorem hasField_of_requiredI32 (h : HasForm (.map map)) {i : Int32}
    (hread : requiredI32 map key error = .ok i) : HasField map key isI32 := by
  simp only [requiredI32, bind_eq_ok_iff, field_eq_ok_iff h] at hread
  obtain ⟨value, hmem, hnumber⟩ := hread
  cases value with
  | integer found =>
    dsimp only at hnumber
    split at hnumber
    · rename_i hbounds
      exact ⟨_, hmem, found, by omega, rfl⟩
    · cases hnumber
  | _ => cases hnumber

theorem hasField_of_requiredBstr (h : HasForm (.map map)) {n : Nat} {bytes : List.Vector UInt8 n}
    (hread : requiredBstr n map key error = .ok bytes) : HasField map key (isBstr n) := by
  simp only [requiredBstr, bind_eq_ok_iff, field_eq_ok_iff h] at hread
  obtain ⟨value, hmem, hbytes⟩ := hread
  cases value with
  | bytes found =>
    dsimp only at hbytes
    rw [okOr_eq_ok_iff, tryIntoArray_eq_some_iff] at hbytes
    exact ⟨_, hmem, found, by rw [hbytes, List.Vector.toList_length], rfl⟩
  | _ => cases hbytes

theorem hasField_of_requiredArray (h : HasForm (.map map)) {values : List CborValue}
    (hread : requiredArray map key error = .ok values) :
    (.text key, .array values) ∈ map ∧ ∀ value ∈ values, HasForm value := by
  simp only [requiredArray, bind_eq_ok_iff, field_eq_ok_iff h] at hread
  obtain ⟨value, hmem, harray⟩ := hread
  cases value with
  | array found =>
    obtain rfl := Except.ok.inj harray
    exact ⟨hmem, (h.entries.2 _ hmem).items⟩
  | _ => cases harray

theorem hasField_of_expectTextField (h : HasForm (.map map)) {expected : String}
    (hread : expectTextField map key expected error = .ok ⟨⟩) :
    HasField map key (isConst (.text expected)) := by
  simp only [expectTextField, bind_eq_ok_iff, rejectIf_eq_ok_iff, not_ne_iff] at hread
  obtain ⟨text, htext, rfl⟩ := hread
  exact hasField_of_requiredText h htext

theorem hasField_of_expectBoolField (h : HasForm (.map map)) {expected : Bool}
    (hread : expectBoolField map key expected error = .ok ⟨⟩) :
    HasField map key (isConst (.bool expected)) := by
  simp only [expectBoolField, bind_eq_ok_iff, rejectIf_eq_ok_iff, not_ne_iff] at hread
  obtain ⟨bool, hbool, rfl⟩ := hread
  exact hasField_of_requiredBool h hbool

theorem HasField.imp {type other : FieldType} (hfield : HasField map key type)
    (himp : ∀ value, type value → other value) : HasField map key other := by
  obtain ⟨value, hmem, htype⟩ := hfield
  exact ⟨value, hmem, himp value htype⟩

theorem isText_of_isConst {text : String} (value : CborValue) (h : isConst (.text text) value) :
    isText value :=
  ⟨text, h⟩

theorem isBool_of_isConst {bool : Bool} (value : CborValue) (h : isConst (.bool bool) value) :
    isBool value :=
  ⟨bool, h⟩

theorem isOneOf_of_isConst {text : String} {texts : List String} (hmem : text ∈ texts)
    (value : CborValue) (h : isConst (.text text) value) : isOneOf texts value :=
  ⟨text, hmem, h⟩

end Accessors

/-! ## Records -/

section Records

variable {map : CborMap} {key : String} {error : QztError}

/-- A checked map is a record: its keys are the known ones, and every field has its type. -/
theorem isRecord_of {required optional : List (String × FieldType)} {allowed : List String}
    (h : HasForm (.map map)) (hkeys : rejectUnknownKeys map allowed error = .ok ⟨⟩)
    (hallowed : ∀ key ∈ allowed, key ∈ (required ++ optional).map Prod.fst)
    (hrequired : ∀ field ∈ required, HasField map field.1 field.2)
    (hoptional : ∀ field ∈ optional, FieldTyped map field.1 field.2) :
    IsRecord required optional map := by
  refine ⟨?_, ?_, ?_⟩
  · intro field hfield
    obtain ⟨value, hmem, -⟩ := hrequired field hfield
    exact ⟨value, hmem⟩
  · intro field hfield
    rcases List.mem_append.mp hfield with hfield | hfield
    · exact (hrequired field hfield).typed h
    · exact hoptional field hfield
  · intro entry hentry
    have hentryKey := checkAll_eq_ok_iff.mp hkeys entry hentry
    unfold rejectUnknownKey at hentryKey
    split at hentryKey
    · rename_i text htext
      rw [rejectIf_eq_ok_iff, not_not] at hentryKey
      obtain ⟨field, hfield, rfl⟩ := List.mem_map.mp (hallowed text hentryKey)
      exact ⟨field, hfield, htext⟩
    · cases hentryKey

/-- The same without optional keys. -/
theorem record_of {required : List (String × FieldType)} {allowed : List String}
    (h : HasForm (.map map)) (hkeys : rejectUnknownKeys map allowed error = .ok ⟨⟩)
    (hallowed : ∀ key ∈ allowed, key ∈ required.map Prod.fst)
    (hrequired : ∀ field ∈ required, HasField map field.1 field.2) :
    record required [] (.map map) :=
  ⟨map, rfl, isRecord_of h hkeys (by rwa [List.append_nil]) hrequired
    fun _ hfield => absurd hfield List.not_mem_nil⟩

theorem hasField_of_requiredChecksum (h : HasForm (.map map)) {found : Checksum}
    (hread : requiredChecksum map key error = .ok found) : HasField map key checksum := by
  simp only [requiredChecksum, bind_eq_ok_iff, rejectIf_eq_ok_iff, not_ne_iff] at hread
  obtain ⟨entries, hmap, _, hkeys, algorithm, halgorithm, _, rfl, value, hvalue, -⟩ := hread
  obtain ⟨hmem, hform⟩ := hasField_of_requiredMap h hmap
  refine ⟨_, hmem, record_of hform hkeys (by decide) ?_⟩
  simp only [List.forall_mem_cons, List.not_mem_nil, false_implies, implies_true, and_true]
  exact ⟨hasField_of_requiredText hform halgorithm, hasField_of_requiredBstr hform hvalue⟩

theorem fieldTyped_of_optionalChecksum (h : HasForm (.map map)) {found : Option Checksum}
    (hread : optionalChecksum map key error = .ok found) : FieldTyped map key checksum := by
  unfold optionalChecksum at hread
  split at hread
  · obtain ⟨checksum, hchecksum, -⟩ := bind_eq_ok_iff.mp hread
    exact (hasField_of_requiredChecksum h hchecksum).typed h
  · rename_i habsent
    intro value hmem
    rw [findSome?_entryNamed h.entries.1 hmem] at habsent
    exact absurd rfl habsent

theorem hasField_of_requiredBlockRef (h : HasForm (.map map)) {found : BlockRef}
    (hread : requiredBlockRef map key error = .ok found) : HasField map key blockRef := by
  simp only [requiredBlockRef, bind_eq_ok_iff] at hread
  obtain ⟨entries, hmap, _, hkeys, offset, hoffset, size, hsize, checksum, hchecksum, -⟩ := hread
  obtain ⟨hmem, hform⟩ := hasField_of_requiredMap h hmap
  refine ⟨_, hmem, record_of hform hkeys (by decide) ?_⟩
  simp only [List.forall_mem_cons, List.not_mem_nil, false_implies, implies_true, and_true]
  exact ⟨hasField_of_requiredU64 hform hoffset, hasField_of_requiredU64 hform hsize,
    hasField_of_requiredChecksum hform hchecksum⟩

/-- What the prologue of a decoder has checked. -/
structure Prologue (value : CborValue) (allowed : List String) (schema : String) (map : CborMap)
    (error : QztError) : Prop where
  value_eq : value = .map map
  keys : rejectUnknownKeys map allowed error = .ok ⟨⟩
  schema : HasField map "schema" (isConst (.text schema))
  version : HasField map "format_version" version
  form : HasForm (.map map)

theorem prologue_of_decodePrologue {bytes : List UInt8} {allowed : List String} {schema : String}
    {value : CborValue} (h : decodePrologue bytes allowed schema error = .ok value) :
    validateDeterministic bytes = .ok value ∧ ∃ map, Prologue value allowed schema map error := by
  simp only [decodePrologue, checkPrologue, bind_eq_ok_iff, pure_eq_ok, Except.ok.injEq] at h
  obtain ⟨found, hvalid, _, ⟨map, hmap, _, hkeys, _, hschema, hversion⟩, hsame⟩ := h
  subst hsame
  refine ⟨hvalid, map, ?_⟩
  obtain rfl : found = .map map := by
    unfold asMap at hmap
    split at hmap
    · rw [Except.ok.inj hmap]
    · cases hmap
  have hform := hasForm_of_validates hvalid
  refine ⟨rfl, hkeys, hasField_of_expectTextField hform hschema, ?_, hform⟩
  simp only [expectVersionField, bind_eq_ok_iff, field_eq_ok_iff hform] at hversion
  obtain ⟨found, hmem, hfound⟩ := hversion
  split at hfound
  · exact ⟨_, hmem, rfl⟩
  · cases hfound

end Records

/-! ## Footer payload -/

/-- An accepted footer payload is as specified when the fields that are not read are. -/
theorem footerPayload_iff {value : CborValue} {map : CborMap} {payload : FooterPayload}
    (hprologue : Prologue value footerKeys schemaFooter map .invalidFooterPayload)
    (hread : FooterPayload.read value = .ok payload) :
    footerPayload value ↔ UnreadFooterFields value := by
  obtain ⟨rfl, hkeys, hschema, hversion, hform⟩ := hprologue
  constructor
  · rintro ⟨entries, hsame, hrecord⟩ other hother
    cases hsame
    cases hother
    exact ⟨hrecord.typed ("created_at_unix_ms", isU64) (by simp),
      hrecord.typed ("writer", isText) (by simp)⟩
  · intro hunread
    obtain ⟨hcreated, hwriter⟩ := hunread map rfl
    simp only [FooterPayload.read, asMap, bind_eq_ok_iff, Except.ok.injEq] at hread
    obtain ⟨_, rfl, flags, hflags, _, -, id, hid, root, hroot, block, hblock, size, hsize, sum, hsum,
      -⟩ := hread
    refine ⟨_, rfl, isRecord_of hform hkeys (by decide) ?_ ?_⟩
    · simp only [List.forall_mem_cons, List.not_mem_nil, false_implies, implies_true, and_true]
      exact ⟨hschema, hversion, hasField_of_requiredBstr hform hid,
        hasField_of_requiredBlockRef hform hroot, hasField_of_requiredBlockRef hform hblock,
        hasField_of_requiredU64 hform hsize, hasField_of_requiredU64 hform hflags⟩
    · simp only [List.forall_mem_cons, List.not_mem_nil, false_implies, implies_true, and_true]
      exact ⟨hcreated, hwriter, fieldTyped_of_optionalChecksum hform hsum⟩

/-! ## Metadata -/

/-- The keys of the metadata. -/
def metadataKeyList : List String :=
  ["schema", "format", "format_version", "container_id", "identity", "source", "compression",
    "chunking", "indexes", "integrity", "compatibility"]

/-- The identity is as specified when its fields that are not read are. -/
theorem identity_iff {map : CborMap} {profile : String} (hform : HasForm (.map map))
    (hkeys : Metadata.checkIdentity map = .ok ⟨⟩)
    (hprofile : requiredText map "profile" .metadataInvalid = .ok profile)
    (hknown : profile ∈ ["minimal", "core", "log", "archive", "memory"]) :
    identity (.map map) ↔ HasField map "name" (orNull isText) ∧ HasField map "created_by" isText ∧
      HasField map "created_at_unix_ms" (orNull isU64) := by
  constructor
  · rintro ⟨entries, hsame, hrecord⟩
    cases hsame
    have hfield : ∀ field ∈ ([("name", orNull isText),
        ("profile", isOneOf ["minimal", "core", "log", "archive", "memory"]),
        ("created_by", isText), ("created_at_unix_ms", orNull isU64)] : List (String × FieldType)),
        HasField map field.1 field.2 := by
      intro field hmem
      obtain ⟨value, hvalue⟩ := hrecord.present field hmem
      exact ⟨value, hvalue, hrecord.typed field (List.mem_append_left _ hmem) value hvalue⟩
    exact ⟨hfield ("name", orNull isText) (by simp), hfield ("created_by", isText) (by simp),
      hfield ("created_at_unix_ms", orNull isU64) (by simp)⟩
  · rintro ⟨hname, hcreatedBy, hcreatedAt⟩
    refine record_of hform hkeys (by decide) ?_
    simp only [List.forall_mem_cons, List.not_mem_nil, false_implies, implies_true, and_true]
    exact ⟨hname, (hasField_of_requiredText hform hprofile).imp (isOneOf_of_isConst hknown),
      hcreatedBy, hcreatedAt⟩

/-- The other maps of the metadata are checked in every field. -/
theorem source_of_checks {map : CborMap} {mode : String} {size lines : Nat} {sum : Checksum}
    (hform : HasForm (.map map)) (hcheck : Metadata.checkSource map = .ok ⟨⟩)
    (hmode : requiredText map "newline_mode" .metadataInvalid = .ok mode)
    (hknown : mode ∈ ["none", "lf", "crlf", "mixed"])
    (hsize : requiredU64 map "original_size" .metadataInvalid = .ok size)
    (hsum : requiredChecksum map "original_checksum" .metadataInvalid = .ok sum)
    (hlines : requiredU64 map "line_count" .metadataInvalid = .ok lines) :
    source (.map map) := by
  simp only [Metadata.checkSource, bind_eq_ok_iff] at hcheck
  obtain ⟨_, hkeys, _, hmedia, hencoding⟩ := hcheck
  refine record_of hform hkeys (by decide) ?_
  have hmodes : mode ∈ ["lf", "crlf", "mixed", "none"] := by
    simp only [List.mem_cons, List.not_mem_nil, or_false] at hknown ⊢
    tauto
  simp only [List.forall_mem_cons, List.not_mem_nil, false_implies, implies_true, and_true]
  exact ⟨hasField_of_expectTextField hform hmedia, hasField_of_expectTextField hform hencoding,
    hasField_of_requiredU64 hform hsize, hasField_of_requiredChecksum hform hsum,
    (hasField_of_requiredText hform hmode).imp (isOneOf_of_isConst hmodes),
    hasField_of_requiredU64 hform hlines⟩

theorem compression_of_checks {map : CborMap} {mode : String} {level : Int32}
    (hform : HasForm (.map map)) (hcheck : Metadata.checkCompression map = .ok ⟨⟩)
    (hmode : requiredText map "dictionary_mode" .metadataInvalid = .ok mode)
    (hknown : mode ∈ ["none", "embedded"])
    (hlevel : requiredI32 map "zstd_level" .metadataInvalid = .ok level) :
    compression (.map map) := by
  simp only [Metadata.checkCompression, bind_eq_ok_iff] at hcheck
  obtain ⟨_, hkeys, _, hcodec, _, hframes, hsum⟩ := hcheck
  refine record_of hform hkeys (by decide) ?_
  simp only [List.forall_mem_cons, List.not_mem_nil, false_implies, implies_true, and_true]
  exact ⟨hasField_of_expectTextField hform hcodec, hasField_of_requiredI32 hform hlevel,
    hasField_of_expectBoolField hform hframes,
    (hasField_of_expectBoolField hform hsum).imp isBool_of_isConst,
    (hasField_of_requiredText hform hmode).imp (isOneOf_of_isConst hknown)⟩

theorem chunking_of_checks {map : CborMap} {target max : Nat} (hform : HasForm (.map map))
    (hcheck : Metadata.checkChunking map = .ok ⟨⟩)
    (htarget : requiredU64 map "target_chunk_size" .metadataInvalid = .ok target)
    (hmax : requiredU64 map "max_chunk_size" .metadataInvalid = .ok max) :
    chunking (.map map) := by
  simp only [Metadata.checkChunking, bind_eq_ok_iff] at hcheck
  obtain ⟨_, hkeys, _, hutf8, hboundary⟩ := hcheck
  refine record_of hform hkeys (by decide) ?_
  simp only [List.forall_mem_cons, List.not_mem_nil, false_implies, implies_true, and_true]
  exact ⟨hasField_of_requiredU64 hform htarget, hasField_of_requiredU64 hform hmax,
    (hasField_of_expectTextField hform hboundary).imp (isOneOf_of_isConst (by decide)),
    hasField_of_expectBoolField hform hutf8⟩

theorem indexes_of_checks {map : CborMap} {dense document : Bool} (hform : HasForm (.map map))
    (hcheck : Metadata.checkIndexes map = .ok ⟨⟩)
    (hdense : requiredBool map "dense_line_index" .metadataInvalid = .ok dense)
    (hdocument : requiredBool map "document_index" .metadataInvalid = .ok document) :
    indexes (.map map) := by
  simp only [Metadata.checkIndexes, bind_eq_ok_iff] at hcheck
  obtain ⟨_, hkeys, _, htable, _, hsparse, _, htoken, _, hngram, hvector⟩ := hcheck
  refine record_of hform hkeys (by decide) ?_
  simp only [List.forall_mem_cons, List.not_mem_nil, false_implies, implies_true, and_true]
  exact ⟨hasField_of_expectBoolField hform htable, hasField_of_expectBoolField hform hsparse,
    (hasField_of_requiredBool hform hdense).imp isBool_of_isConst,
    (hasField_of_requiredBool hform hdocument).imp isBool_of_isConst,
    (hasField_of_expectBoolField hform htoken).imp isBool_of_isConst,
    (hasField_of_expectBoolField hform hngram).imp isBool_of_isConst,
    hasField_of_expectBoolField hform hvector⟩

theorem integrity_of_checks {map : CborMap} (hform : HasForm (.map map))
    (hcheck : Metadata.checkIntegrity map = .ok ⟨⟩) : integrity (.map map) := by
  simp only [Metadata.checkIntegrity, bind_eq_ok_iff] at hcheck
  obtain ⟨_, hkeys, _, hcompressed, _, huncompressed, hindex⟩ := hcheck
  refine record_of hform hkeys (by decide) ?_
  simp only [List.forall_mem_cons, List.not_mem_nil, false_implies, implies_true, and_true]
  exact ⟨hasField_of_expectTextField hform hcompressed,
    hasField_of_expectTextField hform huncompressed, hasField_of_expectTextField hform hindex⟩

theorem compatibility_of_checks {map : CborMap} (hform : HasForm (.map map))
    (hcheck : Metadata.checkCompatibility map = .ok ⟨⟩) : compatibility (.map map) := by
  simp only [Metadata.checkCompatibility, bind_eq_ok_iff] at hcheck
  obtain ⟨_, hkeys, _, hstream, hframes⟩ := hcheck
  refine record_of hform hkeys (by decide) ?_
  simp only [List.forall_mem_cons, List.not_mem_nil, false_implies, implies_true, and_true]
  exact ⟨hasField_of_expectBoolField hform hstream, hasField_of_expectBoolField hform hframes⟩

/-- Accepted metadata is as specified when the fields of the identity that are not read are. -/
theorem metadata_iff {value : CborValue} {map : CborMap} {found : Metadata}
    (hprologue : Prologue value metadataKeyList schemaMetadata map .metadataInvalid)
    (hread : Metadata.read value = .ok found) :
    metadata value ↔ UnreadIdentityFields value := by
  obtain ⟨rfl, hkeys, hschema, hversion, hform⟩ := hprologue
  simp only [Metadata.read, asMap, bind_eq_ok_iff, Except.ok.injEq, rejectIf_eq_ok_iff, not_not]
    at hread
  obtain ⟨_, rfl, _, hformat, identityMap, hidentity, _, hidentityKeys, sourceMap, hsource, _,
    hsourceCheck, compressionMap, hcompression, _, hcompressionCheck, hread⟩ := hread
  obtain ⟨chunkingMap, hchunking, _, hchunkingCheck, indexesMap, hindexes, _, hindexesCheck,
    integrityMap, hintegrity, _, hintegrityCheck, compatibilityMap, hcompatibility, _,
    hcompatibilityCheck, hread⟩ := hread
  obtain ⟨newline, hnewline, _, hnewlineKnown, dictionary, hdictionary, _, hdictionaryKnown, profile,
    hprofile, _, hprofileKnown, level, hlevel, target, htarget, max, hmax, _, -, hread⟩ := hread
  obtain ⟨id, hid, size, hsize, sum, hsum, lines, hlines, dense, hdense, document, hdocument, -⟩ :=
    hread
  obtain ⟨hidentityMem, hidentityForm⟩ := hasField_of_requiredMap hform hidentity
  have hwhole := identity_iff hidentityForm hidentityKeys hprofile hprofileKnown
  constructor
  · rintro ⟨entries, hsame, hrecord⟩ other otherIdentity hother hmem
    cases hsame
    cases hother
    obtain rfl := CborValue.map.inj (hform.unique hidentityMem hmem)
    exact hwhole.mp (hrecord.typed ("identity", identity) (by simp) _ hmem)
  · intro hunread
    have hidentityType := hwhole.mpr (hunread _ _ rfl hidentityMem)
    obtain ⟨hsourceMem, hsourceForm⟩ := hasField_of_requiredMap hform hsource
    obtain ⟨hcompressionMem, hcompressionForm⟩ := hasField_of_requiredMap hform hcompression
    obtain ⟨hchunkingMem, hchunkingForm⟩ := hasField_of_requiredMap hform hchunking
    obtain ⟨hindexesMem, hindexesForm⟩ := hasField_of_requiredMap hform hindexes
    obtain ⟨hintegrityMem, hintegrityForm⟩ := hasField_of_requiredMap hform hintegrity
    obtain ⟨hcompatibilityMem, hcompatibilityForm⟩ := hasField_of_requiredMap hform hcompatibility
    refine record_of hform hkeys (by decide) ?_
    simp only [List.forall_mem_cons, List.not_mem_nil, false_implies, implies_true, and_true]
    exact ⟨hschema, hasField_of_expectTextField hform hformat, hversion,
      hasField_of_requiredBstr hform hid, ⟨_, hidentityMem, hidentityType⟩,
      ⟨_, hsourceMem, source_of_checks hsourceForm hsourceCheck hnewline hnewlineKnown hsize hsum
        hlines⟩,
      ⟨_, hcompressionMem, compression_of_checks hcompressionForm hcompressionCheck hdictionary
        hdictionaryKnown hlevel⟩,
      ⟨_, hchunkingMem, chunking_of_checks hchunkingForm hchunkingCheck htarget hmax⟩,
      ⟨_, hindexesMem, indexes_of_checks hindexesForm hindexesCheck hdense hdocument⟩,
      ⟨_, hintegrityMem, integrity_of_checks hintegrityForm hintegrityCheck⟩,
      ⟨_, hcompatibilityMem, compatibility_of_checks hcompatibilityForm hcompatibilityCheck⟩⟩

/-! ## Index root and document index -/

theorem blockDescriptor_of_decode {value : CborValue} {block : BlockDescriptor}
    (hform : HasForm value) (h : BlockDescriptor.decode value = .ok block) :
    blockDescriptor value := by
  cases value with
  | map map =>
    simp only [BlockDescriptor.decode, asMap, bind_eq_ok_iff, Except.ok.injEq] at h
    obtain ⟨_, rfl, _, hkeys, type, htype, required, hrequired, flags, hflags, _, -, _, -, offset,
      hoffset, size, hsize, codec, hcodec, sum, hsum, -⟩ := h
    refine record_of hform hkeys (by decide) ?_
    simp only [List.forall_mem_cons, List.not_mem_nil, false_implies, implies_true, and_true]
    exact ⟨(hasField_of_requiredText hform htype).imp isText_of_isConst,
      (hasField_of_requiredBool hform hrequired).imp isBool_of_isConst,
      hasField_of_requiredU64 hform hoffset, hasField_of_requiredU64 hform hsize,
      (hasField_of_requiredText hform hcodec).imp isText_of_isConst,
      hasField_of_requiredChecksum hform hsum, hasField_of_requiredU64 hform hflags⟩
  | _ => cases h

theorem documentEntry_of_decode {value : CborValue} {entry : DocumentEntry}
    (hform : HasForm value) (h : DocumentEntry.decode value = .ok entry) : documentEntry value := by
  cases value with
  | map map =>
    simp only [DocumentEntry.decode, asMap, bind_eq_ok_iff, Except.ok.injEq] at h
    obtain ⟨_, rfl, _, hkeys, metadata, hmetadata, id, hid, hash, hhash, offset, hoffset, length,
      hlength, first, hfirst, lines, hlines, start, hstart, stop, hstop, sum, hsum, -⟩ := h
    refine record_of hform hkeys (by decide) ?_
    simp only [List.forall_mem_cons, List.not_mem_nil, false_implies, implies_true, and_true]
    exact ⟨(hasField_of_requiredText hform hid).imp isText_of_isConst,
      hasField_of_requiredBstr hform hhash, hasField_of_requiredU64 hform hoffset,
      hasField_of_requiredU64 hform hlength, hasField_of_requiredU64 hform hfirst,
      hasField_of_requiredU64 hform hlines, hasField_of_requiredU64 hform hstart,
      hasField_of_requiredU64 hform hstop, hasField_of_requiredChecksum hform hsum,
      ⟨_, (hasField_of_requiredMap hform hmetadata).1, metadata, rfl⟩⟩
  | _ => cases h

/-- Decoded items are as specified, one by one. -/
theorem arrayOf_of_collect {α : Type} {decode : CborValue → Result α} {type : FieldType}
    {values : List CborValue} {items : List α} (h : collect decode values = .ok items)
    (hforms : ∀ value ∈ values, HasForm value)
    (htype : ∀ value item, HasForm value → decode value = .ok item → type value) :
    arrayOf type (.array values) := by
  refine ⟨values, rfl, ?_⟩
  induction values generalizing items with
  | nil => exact fun _ hvalue => absurd hvalue List.not_mem_nil
  | cons value values ih =>
    obtain ⟨hform, hforms⟩ := List.forall_mem_cons.mp hforms
    simp only [collect, bind_eq_ok_iff] at h
    obtain ⟨item, hitem, rest, hrest, -⟩ := h
    exact List.forall_mem_cons.mpr ⟨htype value item hform hitem, ih hrest hforms⟩

theorem indexRoot_of_read {value : CborValue} {map : CborMap} {found : IndexRoot}
    (hprologue : Prologue value ["schema", "format_version", "container_id", "blocks", "content"]
      schemaIndexRoot map .containerCorrupt)
    (hread : IndexRoot.read value = .ok found) : indexRoot value := by
  obtain ⟨rfl, hkeys, hschema, hversion, hform⟩ := hprologue
  simp only [IndexRoot.read, asMap, bind_eq_ok_iff, Except.ok.injEq] at hread
  obtain ⟨_, rfl, values, hvalues, blocks, hblocks, _, -, _, -, contentMap, hcontent, _,
    hcontentKeys, id, hid, size, hsize, sum, hsum, chunks, hchunks, lines, hlines, -⟩ := hread
  obtain ⟨hvaluesMem, hforms⟩ := hasField_of_requiredArray hform hvalues
  obtain ⟨hcontentMem, hcontentForm⟩ := hasField_of_requiredMap hform hcontent
  have hcontentType : content (.map contentMap) := by
    refine record_of hcontentForm hcontentKeys (by decide) ?_
    simp only [List.forall_mem_cons, List.not_mem_nil, false_implies, implies_true, and_true]
    exact ⟨hasField_of_requiredU64 hcontentForm hsize,
      hasField_of_requiredChecksum hcontentForm hsum, hasField_of_requiredU64 hcontentForm hchunks,
      hasField_of_requiredU64 hcontentForm hlines⟩
  refine record_of hform hkeys (by decide) ?_
  simp only [List.forall_mem_cons, List.not_mem_nil, false_implies, implies_true, and_true]
  exact ⟨hschema, hversion, hasField_of_requiredBstr hform hid,
    ⟨_, hvaluesMem, arrayOf_of_collect hblocks hforms fun _ _ => blockDescriptor_of_decode⟩,
    ⟨_, hcontentMem, hcontentType⟩⟩

theorem documentIndex_of_read {value : CborValue} {map : CborMap} {found : DocumentIndex}
    (hprologue : Prologue value ["schema", "format_version", "container_id", "documents"]
      schemaDocumentIndex map .containerCorrupt)
    (hread : DocumentIndex.read value = .ok found) : documentIndex value := by
  obtain ⟨rfl, hkeys, hschema, hversion, hform⟩ := hprologue
  simp only [DocumentIndex.read, asMap, bind_eq_ok_iff, Except.ok.injEq] at hread
  obtain ⟨_, rfl, values, hvalues, documents, hdocuments, id, hid, -⟩ := hread
  obtain ⟨hvaluesMem, hforms⟩ := hasField_of_requiredArray hform hvalues
  refine record_of hform hkeys (by decide) ?_
  simp only [List.forall_mem_cons, List.not_mem_nil, false_implies, implies_true, and_true]
  exact ⟨hschema, hversion, hasField_of_requiredBstr hform hid,
    ⟨_, hvaluesMem, arrayOf_of_collect hdocuments hforms fun _ _ => documentEntry_of_decode⟩⟩

/-! ## Every decoder -/

/-- Accepted bytes conform to the specification exactly when the fields that the decoder does not
read do. -/
theorem conforms_iff_unreadTyped {block : Block} {bytes : List UInt8} (h : block.Accepts bytes) :
    block.Conforms bytes ↔ block.UnreadTyped bytes := by
  have hdecide : ∀ value, validateDeterministic bytes = .ok value →
      (block.schema value ↔ block.unread value) → (block.Conforms bytes ↔ block.UnreadTyped bytes) := by
    intro value hvalid hiff
    constructor
    · rintro ⟨other, hother, hschema⟩ third hthird
      obtain rfl := Except.ok.inj (hvalid.symm.trans hother)
      obtain rfl := Except.ok.inj (hvalid.symm.trans hthird)
      exact hiff.mp hschema
    · intro hunread
      exact ⟨value, hvalid, hiff.mpr (hunread value hvalid)⟩
  cases block with
  | footerPayload =>
    obtain ⟨payload, hdecode⟩ := h
    obtain ⟨value, hvalue, hread⟩ := bind_eq_ok_iff.mp hdecode
    obtain ⟨hvalid, map, hprologue⟩ := prologue_of_decodePrologue hvalue
    exact hdecide value hvalid (footerPayload_iff hprologue hread)
  | metadata =>
    obtain ⟨metadata, hdecode⟩ := h
    obtain ⟨value, hvalue, hread⟩ := bind_eq_ok_iff.mp hdecode
    obtain ⟨hvalid, map, hprologue⟩ := prologue_of_decodePrologue hvalue
    exact hdecide value hvalid (metadata_iff hprologue hread)
  | indexRoot =>
    obtain ⟨root, hdecode⟩ := h
    obtain ⟨value, hvalue, hread⟩ := bind_eq_ok_iff.mp hdecode
    obtain ⟨hvalid, map, hprologue⟩ := prologue_of_decodePrologue hvalue
    exact hdecide value hvalid (iff_of_true (indexRoot_of_read hprologue hread) trivial)
  | documentIndex =>
    obtain ⟨index, hdecode⟩ := h
    obtain ⟨value, hvalue, hread⟩ := bind_eq_ok_iff.mp hdecode
    obtain ⟨hvalid, map, hprologue⟩ := prologue_of_decodePrologue hvalue
    exact hdecide value hvalid (iff_of_true (documentIndex_of_read hprologue hread) trivial)

/-! ### Metadata without a name -/

/-- The metadata of an empty source. -/
def unnamed : Metadata where
  containerId := List.Vector.replicate 16 0
  originalSize := 0
  originalChecksum := .fromRawBytes (List.Vector.replicate 32 0)
  newlineMode := "none"
  lineCount := 0
  zstdLevel := 0
  targetChunkSize := 1
  maxChunkSize := 1
  dictionaryMode := "none"
  profile := "core"
  denseLineIndex := false
  documentIndex := false

/-- Its entries in canonical order, with an identity that has a profile only. -/
def unnamedMap : CborMap :=
  [textPair "format" (.text "qzt"), textPair "schema" (.text "qzt.metadata.v1"),
    textPair "source" (.map [textPair "encoding" (.text "utf-8"), textPair "line_count" (.integer 0),
      textPair "media_type" (.text "text"), textPair "newline_mode" (.text "none"),
      textPair "original_size" (.integer 0),
      textPair "original_checksum" (.map [textPair "value" (.bytes (List.replicate 32 0)),
        textPair "algorithm" (.text "blake3")])]),
    textPair "indexes" (.map [textPair "chunk_table" (.bool true), textPair "ngram_index" (.bool false),
      textPair "token_index" (.bool false), textPair "vector_index" (.bool false),
      textPair "document_index" (.bool false), textPair "dense_line_index" (.bool false),
      textPair "sparse_line_index" (.bool true)]),
    textPair "chunking" (.map [textPair "boundary" (.text "line-preferred"),
      textPair "max_chunk_size" (.integer 1), textPair "target_chunk_size" (.integer 1),
      textPair "utf8_boundary_required" (.bool true)]),
    textPair "identity" (.map [textPair "profile" (.text "core")]),
    textPair "integrity" (.map [textPair "index_checksum" (.text "blake3"),
      textPair "compressed_chunk_checksum" (.text "blake3"),
      textPair "uncompressed_chunk_checksum" (.text "blake3")]),
    textPair "compression" (.map [textPair "codec" (.text "zstd"), textPair "zstd_level" (.integer 0),
      textPair "dictionary_mode" (.text "none"), textPair "independent_frames" (.bool true),
      textPair "zstd_frame_checksum" (.bool false)]),
    textPair "container_id" (.bytes (List.replicate 16 0)),
    textPair "compatibility" (.map [textPair "qzt_is_zst_stream" (.bool false),
      textPair "chunks_are_independent_zstd_frames" (.bool true)]),
    textPair "format_version" versionValue]

/-- The bytes of that map. -/
def unnamedBytes : List UInt8 :=
  (encodeDeterministic (.map unnamedMap)).toOption.getD []

set_option maxRecDepth 100000 in
theorem unnamedBytes_valid : validateDeterministic unnamedBytes = .ok (.map unnamedMap) := rfl

set_option maxRecDepth 100000 in
theorem unnamedBytes_accepted : Metadata.decode unnamedBytes = .ok unnamed := by
  decide +kernel

/-- Its identity has no name. -/
theorem unnamed_not_metadata : ¬ metadata (.map unnamedMap) := by
  rintro ⟨map, hmap, hrecord⟩
  cases hmap
  have hidentity : identity (.map [textPair "profile" (.text "core")]) :=
    hrecord.typed ("identity", identity) (by simp) _ (by simp [unnamedMap, textPair])
  obtain ⟨fields, hfields, hidentity⟩ := hidentity
  cases hfields
  obtain ⟨value, hvalue⟩ := hidentity.present ("name", orNull isText) (by simp)
  simp [textPair] at hvalue

/-- Metadata whose identity lacks required fields is accepted. -/
theorem not_conforms_of_accepts :
    ¬ ∀ (block : Block) (bytes : List UInt8), block.Accepts bytes → block.Conforms bytes := by
  intro h
  obtain ⟨value, hvalid, hschema⟩ := h .metadata unnamedBytes ⟨unnamed, unnamedBytes_accepted⟩
  obtain rfl := Except.ok.inj (unnamedBytes_valid.symm.trans hvalid)
  exact unnamed_not_metadata hschema

theorem conforms_iff_unreadTyped_of_unnamed :
    Block.metadata.Conforms unnamedBytes ↔ Block.metadata.UnreadTyped unnamedBytes :=
  conforms_iff_unreadTyped ⟨unnamed, unnamedBytes_accepted⟩

end Qzt.Spec
