import Qzt.Cbor.Prediction
import Qzt.Container.SchemaLaws
import Qzt.Format.Reference

/-!
# Admission of document indexes

The writer admits a document index by adding up one document at a time, from a template
with an empty array whose head is corrected for the number of documents.  The sums are the
usage of the whole value, so what the writer admits is what a reader under the same limits
accepts.  The earlier check on the identifiers alone multiplies the cost of a sample entry;
it is a lower bound for every index of BLAKE3 checksums.
-/

namespace Qzt

open Foundation

/-! ## Ranges of the fields -/

/-- The integers of an entry are `u64` values and its texts have the length of a `String`. -/
structure DocumentEntry.Sized (entry : DocumentEntry) : Prop where
  docId : (textBytes entry.docId).length < 2 ^ 64
  logicalOffset : entry.logicalOffset < 2 ^ 64
  byteLength : entry.byteLength < 2 ^ 64
  firstLine : entry.firstLine < 2 ^ 64
  lineCount : entry.lineCount < 2 ^ 64
  chunkStart : entry.chunkStart < 2 ^ 64
  chunkEnd : entry.chunkEnd < 2 ^ 64
  algorithm : (textBytes entry.checksum.algorithm).length < 2 ^ 64

/-- An index as the source's types hold it. -/
structure DocumentIndex.Sized (index : DocumentIndex) : Prop where
  count : index.documents.length < 2 ^ 64
  documents : ∀ document ∈ index.documents, document.Sized

/-- The limits that admission looks at are `u64` values. -/
structure ResourceLimits.Sized (limits : ResourceLimits) : Prop where
  maxIndexBlockSize : limits.maxIndexBlockSize < 2 ^ 64
  maxCborAllocation : limits.maxCborAllocation < 2 ^ 64
  maxCborItems : limits.maxCborItems < 2 ^ 64

/-- The usage is within the two CBOR budgets and the block size. -/
structure ResourceLimits.Covers (limits : ResourceLimits) (usage : CborUsage) : Prop where
  items : usage.items ≤ limits.maxCborItems
  allocation : usage.allocation ≤ limits.maxCborAllocation
  encodedBytes : usage.encodedBytes ≤ limits.maxIndexBlockSize

namespace ResourceLimits

variable {limits : ResourceLimits} {usage other : CborUsage}

theorem Covers.left (h : limits.Covers (usage + other)) : limits.Covers usage := by
  obtain ⟨hitems, hallocation, hbytes⟩ := h
  simp only [CborUsage.add_items, CborUsage.add_allocation, CborUsage.add_encodedBytes] at *
  exact ⟨by omega, by omega, by omega⟩

/-- Within `u64` limits no counter overflows. -/
theorem Covers.fits (h : limits.Covers usage) (hlimits : limits.Sized) : usage.Fits :=
  ⟨h.items.trans_lt hlimits.maxCborItems, h.allocation.trans_lt hlimits.maxCborAllocation,
    h.encodedBytes.trans_lt hlimits.maxIndexBlockSize⟩

theorem enforce_eq_ok_iff {u : Unit} :
    usage.enforce limits.cborLimits limits.maxIndexBlockSize = .ok u ↔ limits.Covers usage := by
  rw [CborUsage.enforce, rejectIf_eq_ok_iff]
  constructor
  · intro h
    simp only [cborLimits] at h
    exact ⟨by omega, by omega, by omega⟩
  · rintro ⟨hitems, hallocation, hbytes⟩
    simp only [cborLimits]
    omega

theorem enforce_of_covers (h : limits.Covers usage) :
    usage.enforce limits.cborLimits limits.maxIndexBlockSize = .ok ⟨⟩ :=
  enforce_eq_ok_iff.mpr h

end ResourceLimits

/-! ## Encodings -/

theorem DocumentEntry.Sized.encodable {entry : DocumentEntry} (h : entry.Sized) :
    Encodable entry.value := by
  refine @Encodable.textMap _ ["doc_id", "doc_id_hash", "logical_offset", "byte_length",
    "first_line", "line_count", "chunk_start", "chunk_end", "checksum", "metadata"] rfl (by decide)
    (by decide) (by decide) ?_
  have hmetadata : Encodable (.map []) :=
    @Encodable.textMap [] [] rfl List.nodup_nil (by decide) (fun _ hmem => nomatch hmem)
      (fun _ hmem => nomatch hmem)
  simp only [entries, List.forall_mem_cons, List.not_mem_nil, false_implies, implies_true,
    and_true, textPair]
  exact ⟨.text h.docId, encodable_vector (by decide) entry.docIdHash,
    encodable_u64Value h.logicalOffset, encodable_u64Value h.byteLength,
    encodable_u64Value h.firstLine, encodable_u64Value h.lineCount,
    encodable_u64Value h.chunkStart, encodable_u64Value h.chunkEnd,
    encodable_checksumValue h.algorithm, hmetadata⟩

theorem DocumentIndex.encodable_valueWithDocuments (index : DocumentIndex)
    {documents : List CborValue} (hcount : documents.length < 2 ^ 64)
    (hdocuments : ∀ document ∈ documents, Encodable document) :
    Encodable (index.valueWithDocuments documents) := by
  refine @Encodable.textMap _ ["schema", "format_version", "container_id", "documents"] rfl
    (by decide) (by decide) (by decide) ?_
  simp only [entriesWithDocuments, List.forall_mem_cons, List.not_mem_nil, false_implies,
    implies_true, and_true, textPair]
  exact ⟨.text (by decide), encodable_versionValue, encodable_vector (by decide) index.containerId,
    .array hcount hdocuments⟩

/-- The value that `encode` writes. -/
def DocumentIndex.value (index : DocumentIndex) : CborValue :=
  index.valueWithDocuments (index.documents.map DocumentEntry.value)

theorem DocumentIndex.Sized.encodable {index : DocumentIndex} (h : index.Sized) :
    Encodable index.value := by
  refine index.encodable_valueWithDocuments ?_ ?_
  · rw [List.length_map]
    exact h.count
  · intro document hmem
    obtain ⟨entry, hentry, rfl⟩ := List.mem_map.mp hmem
    exact (h.documents entry hentry).encodable

/-- Documents, their checksums, and nothing deeper. -/
theorem DocumentIndex.depth_value_le (index : DocumentIndex) :
    index.value.depth ≤ maxNestingDepth := by
  have hentry : ∀ entry : DocumentEntry, entry.value.depth = 2 := fun _ => rfl
  have hdocuments : ∀ documents : List DocumentEntry,
      depthValues (documents.map DocumentEntry.value) ≤ 3 := by
    intro documents
    induction documents with
    | nil => exact Nat.zero_le 3
    | cons document documents ih =>
      rw [List.map_cons, depthValues, hentry]
      omega
  have hdepth : index.value.depth =
      max (max 1 1) (max (max 1 2) (max (max 1 1)
        (max (max 1 (depthValues (index.documents.map DocumentEntry.value) + 1)) 0))) := rfl
  have := hdocuments index.documents
  rw [hdepth, maxNestingDepth]
  omega

/-! ## The sums of the writer -/

/-- The usage of the template: no documents, but the head of the array that holds them. -/
def DocumentIndex.templateUsage (index : DocumentIndex) : CborUsage :=
  (index.valueWithDocuments []).usage + { encodedBytes := headLen index.documents.length - 1 }

/-- The template and the documents, one after the other, make up the whole value. -/
theorem DocumentIndex.usage_value (index : DocumentIndex) :
    index.value.usage =
      index.templateUsage + usageValues (index.documents.map DocumentEntry.value) := by
  have hhead := headLen_pos index.documents.length
  simp only [value, templateUsage, valueWithDocuments, entriesWithDocuments, textPair,
    CborValue.usage, usageEntries, usageValues, List.length_map, List.length_cons, List.length_nil]
  generalize index.documents.length = count at *
  ext
  · simp only [CborUsage.add_items]
    omega
  · simp only [CborUsage.add_allocation]
    omega
  · have hzero : headLen 0 = 1 := rfl
    simp only [CborUsage.add_encodedBytes, hzero]
    omega

/-- The identifier is part of what a document allocates. -/
theorem DocumentEntry.docId_le_allocation (entry : DocumentEntry) :
    (textBytes entry.docId).length ≤ entry.value.usage.allocation := by
  simp only [value, entries, textPair, CborValue.usage, usageEntries, stringUsage,
    CborUsage.add_allocation]
  omega

/-- The document loop admits what the limits cover. -/
theorem DocumentIndex.validateDocuments_eq_ok_iff {limits : ResourceLimits}
    (hlimits : limits.Sized) {documents : List DocumentEntry}
    (hdocuments : ∀ document ∈ documents, document.Sized) {usage : CborUsage}
    (husage : limits.Covers usage) {u : Unit} :
    validateDocuments limits documents usage = .ok u ↔
      limits.Covers (usage + usageValues (documents.map DocumentEntry.value)) := by
  induction documents generalizing usage with
  | nil =>
    have hnone : usage + usageValues ([].map DocumentEntry.value) = usage := rfl
    rw [hnone]
    exact ⟨fun _ => husage, fun _ => rfl⟩
  | cons document documents ih =>
    have hsized := hdocuments document List.mem_cons_self
    have hrest := fun d hd => hdocuments d (List.mem_cons_of_mem _ hd)
    rw [validateDocuments, usizeToU64_of_lt hsized.docId, ok_bind,
      measureValue_eq hsized.encodable, List.map_cons, usageValues, ← CborUsage.add_assoc]
    constructor
    · intro h
      simp only [bind_eq_ok_iff] at h
      obtain ⟨_, -, measured, hmeasured, sum, hsum, _, hcovers, hloop⟩ := h
      rw [CborUsage.measured] at hmeasured
      split at hmeasured
      swap
      · cases hmeasured
      cases hmeasured
      rw [CborUsage.add_eq_ok hsum] at hcovers hloop
      exact (ih hrest (ResourceLimits.enforce_eq_ok_iff.mp hcovers)).mp hloop
    · intro h
      have hfirst := h.left
      have hfits := hfirst.fits hlimits
      have hid := document.docId_le_allocation
      have hallocation := hfirst.allocation
      rw [CborUsage.add_allocation] at hallocation
      rw [rejectIf_of_not (by omega), ok_bind, CborUsage.measured_of_fits hfits.right, ok_bind,
        CborUsage.add_eq, CborUsage.measured_of_fits hfits, ok_bind,
        ResourceLimits.enforce_of_covers hfirst, ok_bind]
      exact (ih hrest hfirst).mpr h

/-- The template costs the same for every index. -/
theorem DocumentIndex.usage_template_eq (index other : DocumentIndex) :
    (index.valueWithDocuments []).usage = (other.valueWithDocuments []).usage := by
  simp only [valueWithDocuments, entriesWithDocuments, textPair, CborValue.usage, usageEntries,
    List.Vector.toList_length, List.length_cons, List.length_nil]

/-- The index that the identifiers are checked against. -/
def DocumentIndex.empty : DocumentIndex where
  containerId := List.Vector.replicate 16 0
  documents := []

theorem DocumentIndex.template_fits (index : DocumentIndex) :
    (index.valueWithDocuments []).usage.Fits ∧ index.templateUsage.Fits := by
  have hhead := headLen_le index.documents.length
  have hempty : (empty.valueWithDocuments []).usage.items ≤ 1000 ∧
      (empty.valueWithDocuments []).usage.allocation ≤ 1000 ∧
      (empty.valueWithDocuments []).usage.encodedBytes ≤ 1000 := by decide
  obtain ⟨hitems, hallocation, hbytes⟩ := hempty
  rw [templateUsage, index.usage_template_eq empty]
  refine ⟨⟨by omega, by omega, by omega⟩, ⟨?_, ?_, ?_⟩⟩
  · simp only [CborUsage.add_items]
    omega
  · simp only [CborUsage.add_allocation]
    omega
  · simp only [CborUsage.add_encodedBytes]
    omega

/-- The writer admits an index exactly when the limits cover the usage of its value. -/
theorem DocumentIndex.validateForWriter_eq_ok_iff {index : DocumentIndex} (h : index.Sized)
    {limits : ResourceLimits} (hlimits : limits.Sized) {u : Unit} :
    index.validateForWriter limits = .ok u ↔ limits.Covers index.value.usage := by
  have hempty : Encodable (index.valueWithDocuments []) :=
    index.encodable_valueWithDocuments (by decide) fun _ hmem => nomatch hmem
  obtain ⟨hbase, htemplate⟩ := index.template_fits
  have hbytes : (index.valueWithDocuments []).usage.encodedBytes +
      (headLen index.documents.length - headLen 0) < 2 ^ 64 := htemplate.encodedBytes
  rw [usage_value, validateForWriter, usizeToU64_of_lt h.count, ok_bind, measureValue_eq hempty,
    CborUsage.measured_of_fits hbase, ok_bind, checkedAdd_of_lt hbytes, okOr_some, ok_bind]
  -- The corrected template.
  have hcorrected : ({ (index.valueWithDocuments []).usage with
      encodedBytes := (index.valueWithDocuments []).usage.encodedBytes +
        (headLen index.documents.length - headLen 0) } : CborUsage) = index.templateUsage := rfl
  simp only [hcorrected]
  constructor
  · intro hok
    simp only [bind_eq_ok_iff] at hok
    obtain ⟨_, -, _, hcovers, hloop⟩ := hok
    exact (validateDocuments_eq_ok_iff hlimits h.documents
      (ResourceLimits.enforce_eq_ok_iff.mp hcovers)).mp hloop
  · intro hcovers
    -- Every document is an item, so their number is within the items.
    have hcount := length_le_usageValues (index.documents.map DocumentEntry.value)
    have hitems := hcovers.items
    rw [List.length_map] at hcount
    rw [CborUsage.add_items] at hitems
    rw [rejectIf_of_not (by omega), ok_bind, ResourceLimits.enforce_of_covers hcovers.left, ok_bind]
    exact (validateDocuments_eq_ok_iff hlimits h.documents hcovers.left).mpr hcovers

/-! ## The check on the identifiers -/

/-- The bytes of a list of texts. -/
def textLengths (texts : List String) : Nat :=
  (texts.map fun text => (textBytes text).length).sum

theorem textLengths_cons (text : String) (texts : List String) :
    textLengths (text :: texts) = (textBytes text).length + textLengths texts := rfl

/-- An entry without content, with a BLAKE3 checksum. -/
def DocumentEntry.blank : DocumentEntry where
  docId := ""
  docIdHash := List.Vector.replicate 16 0
  logicalOffset := 0
  byteLength := 0
  firstLine := 0
  lineCount := 0
  chunkStart := 0
  chunkEnd := 0
  checksum := .fromRawBytes (List.Vector.replicate 32 0)

/-- Entries differ in their identifier and the name of their algorithm; the integers and the
digests cost no more than the blank entry. -/
theorem DocumentEntry.usage_eq_blank (entry : DocumentEntry) :
    entry.value.usage.items = blank.value.usage.items ∧
      entry.value.usage.allocation + (textBytes checksumAlgorithmBlake3).length =
        blank.value.usage.allocation + (textBytes entry.docId).length +
          (textBytes entry.checksum.algorithm).length := by
  have hempty : (textBytes "").length = 0 := rfl
  refine ⟨rfl, ?_⟩
  simp only [value, entries, blank, textPair, checksumValue, u64Value, Checksum.fromRawBytes,
    CborValue.usage, usageEntries, stringUsage, CborUsage.add_allocation,
    List.Vector.toList_length, hempty]
  omega

theorem DocumentEntry.usage_sample (env : Env) :
    (new env "" 0 0 0 0 0 0 (.blake3 env [])).value.usage = blank.value.usage := by
  simp only [value, entries, blank, new, textPair, checksumValue, u64Value, Checksum.fromRawBytes,
    Checksum.blake3, CborValue.usage, usageEntries, List.Vector.toList_length, List.length_cons,
    List.length_nil]

theorem DocumentEntry.sized_sample (env : Env) :
    (new env "" 0 0 0 0 0 0 (.blake3 env [])).Sized :=
  have hzero : 0 < 2 ^ 64 := by decide
  ⟨show (textBytes "").length < 2 ^ 64 by decide, hzero, hzero, hzero, hzero, hzero, hzero,
    show (textBytes checksumAlgorithmBlake3).length < 2 ^ 64 by decide⟩

/-- The documents of an index cost a blank entry each, and their texts. -/
theorem usageValues_documents (documents : List DocumentEntry) :
    (usageValues (documents.map DocumentEntry.value)).items =
        DocumentEntry.blank.value.usage.items * documents.length ∧
      (usageValues (documents.map DocumentEntry.value)).allocation +
          (textBytes checksumAlgorithmBlake3).length * documents.length =
        DocumentEntry.blank.value.usage.allocation * documents.length +
          textLengths (documents.map DocumentEntry.docId) +
          textLengths (documents.map fun document => document.checksum.algorithm) := by
  induction documents with
  | nil => exact ⟨rfl, rfl⟩
  | cons document documents ih =>
    obtain ⟨hitems, hallocation⟩ := document.usage_eq_blank
    obtain ⟨ihItems, ihAllocation⟩ := ih
    simp only [List.map_cons, usageValues, CborUsage.add_items, CborUsage.add_allocation,
      List.length_cons, Nat.mul_succ, textLengths_cons]
    omega

/-- The identifier loop admits every sum within the allocation. -/
theorem DocumentIndex.preflightAllocation_of_le {limits : ResourceLimits} (hlimits : limits.Sized)
    {ids : List String} {allocation : Nat}
    (h : allocation + textLengths ids ≤ limits.maxCborAllocation) :
    preflightAllocation limits ids allocation = .ok ⟨⟩ := by
  have hword := hlimits.maxCborAllocation
  induction ids generalizing allocation with
  | nil => rfl
  | cons id ids ih =>
    rw [textLengths_cons] at h
    rw [preflightAllocation, usizeToU64_of_lt (by omega), ok_bind, checkedAdd_of_lt (by omega),
      okOr_some, ok_bind, rejectIf_of_not (by omega), ok_bind]
    exact ih (by omega)

/-- What the writer admits passes the check on the identifiers, if the checksums of the index name
algorithms as long as the one that the sample names. -/
theorem DocumentIndex.preflightDocumentIds_of_covers {index : DocumentIndex} (h : index.Sized)
    {limits : ResourceLimits} (hlimits : limits.Sized) (env : Env)
    (halgorithms : (textBytes checksumAlgorithmBlake3).length * index.documents.length ≤
      textLengths (index.documents.map fun document => document.checksum.algorithm))
    (hcovers : limits.Covers index.value.usage) :
    preflightDocumentIds env (index.documents.map DocumentEntry.docId) limits = .ok ⟨⟩ := by
  have hempty : Encodable (empty.valueWithDocuments []) :=
    empty.encodable_valueWithDocuments (by decide) fun _ hmem => nomatch hmem
  have hblank : DocumentEntry.blank.value.usage.Fits := by decide
  obtain ⟨hitems, hallocation⟩ := usageValues_documents index.documents
  have hitemsLe := hcovers.items
  have hallocationLe := hcovers.allocation
  have hitemsWord := hlimits.maxCborItems
  have hallocationWord := hlimits.maxCborAllocation
  rw [usage_value, templateUsage, index.usage_template_eq empty] at hitemsLe hallocationLe
  simp only [CborUsage.add_items, CborUsage.add_allocation] at hitemsLe hallocationLe
  have htemplate : measureValue
      (valueWithDocuments { containerId := List.Vector.replicate 16 0, documents := [] } []) =
        .ok (empty.valueWithDocuments []).usage := by
    have hmeasure := measureValue_eq hempty
    rw [CborUsage.measured_of_fits empty.template_fits.1] at hmeasure
    exact hmeasure
  rw [preflightDocumentIds, List.length_map, usizeToU64_of_lt h.count, ok_bind]
  simp only [htemplate]
  rw [ok_bind, measureValue_eq (DocumentEntry.sized_sample env).encodable,
    DocumentEntry.usage_sample, CborUsage.measured_of_fits hblank, ok_bind,
    checkedMul_of_lt (by omega), Option.bind_some, checkedAdd_of_lt (by omega), okOr_some, ok_bind,
    rejectIf_of_not (by omega), ok_bind, checkedMul_of_lt (by omega), Option.bind_some,
    checkedAdd_of_lt (by omega), okOr_some, ok_bind]
  exact preflightAllocation_of_le hlimits (by omega)

/-! ## Admission is acceptance -/

/-- What the writer admits is what a reader under the same limits accepts: the encoded index is
within the block size and validates.  An identifier list that the earlier check rejects belongs to
no admitted index whose checksum algorithms are, taken together, as long as BLAKE3's. -/
theorem DocumentIndex.admission_matches_reader {index : DocumentIndex} (h : index.Sized)
    {limits : ResourceLimits} (hlimits : limits.Sized) :
    ((index.documents.map DocumentEntry.docId).Nodup → ∃ bytes, index.encode = .ok bytes ∧
      (bytes.length < 2 ^ 64 → (index.validateForWriter limits = .ok ⟨⟩ ↔
        bytes.length ≤ limits.maxIndexBlockSize ∧
          ∃ value, validateDeterministicWithLimits bytes limits.cborLimits = .ok value))) ∧
      ∀ env : Env, (textBytes checksumAlgorithmBlake3).length * index.documents.length ≤
          textLengths (index.documents.map fun document => document.checksum.algorithm) →
        preflightDocumentIds env (index.documents.map DocumentEntry.docId) limits ≠ .ok ⟨⟩ →
          index.validateForWriter limits ≠ .ok ⟨⟩ := by
  have htrips := h.encodable.roundTrips
  refine ⟨?_, ?_⟩
  · intro hunique
    refine ⟨encodedForm index.value, ?_, ?_⟩
    · rw [encode, validateUniqueDocIds, rejectIf_of_not (not_not.mpr hunique), ok_bind]
      exact htrips.encodes
    · intro hword
      rw [validateForWriter_eq_ok_iff h hlimits,
        htrips.validates_eq index.depth_value_le hword, htrips.length]
      constructor
      · intro hcovers
        refine ⟨hcovers.encodedBytes, index.value.sorted, ?_⟩
        exact if_pos ⟨hcovers.items, hcovers.allocation⟩
      · rintro ⟨hbytes, value, hvalue⟩
        -- The verdict is a refusal unless both budgets cover the value.
        by_cases hbudgets : index.value.usage.items ≤ limits.cborLimits.maxItems ∧
            index.value.usage.allocation ≤ limits.cborLimits.maxAllocation
        · exact ⟨hbudgets.1, hbudgets.2, hbytes⟩
        · rw [if_neg hbudgets] at hvalue
          cases hvalue
  · intro env halgorithms hpreflight hadmitted
    have hcovers := (validateForWriter_eq_ok_iff h hlimits).mp hadmitted
    exact hpreflight (preflightDocumentIds_of_covers h hlimits env halgorithms hcovers)

/-- One document without a checksum algorithm. -/
def unnamedIndex : DocumentIndex where
  containerId := List.Vector.replicate 16 0
  documents := [{ DocumentEntry.blank with
    docId := "a", checksum := { algorithm := "", value := List.Vector.replicate 32 0 } }]

/-- One document with a BLAKE3 checksum. -/
def namedIndex : DocumentIndex where
  containerId := List.Vector.replicate 16 0
  documents := [{ DocumentEntry.blank with docId := "a" }]

/-- The default limits, with the allocation of `unnamedIndex`. -/
def unnamedLimits : ResourceLimits :=
  { ResourceLimits.default with maxCborAllocation := unnamedIndex.value.usage.allocation }

theorem DocumentIndex.admission_matches_reader_named :
    namedIndex.validateForWriter unnamedLimits = .error .resourceLimitExceeded ∧
      ∃ bytes, namedIndex.encode = .ok bytes ∧ bytes.length ≤ unnamedLimits.maxIndexBlockSize ∧
        (bytes.length < 2 ^ 64 →
          ¬ ∃ value, validateDeterministicWithLimits bytes unnamedLimits.cborLimits = .ok value) := by
  have hzero : 0 < 2 ^ 64 := by decide
  have hsized : namedIndex.Sized := by
    refine ⟨by decide, ?_⟩
    intro document hmem
    rw [List.mem_singleton.mp hmem]
    exact ⟨by decide, hzero, hzero, hzero, hzero, hzero, hzero, by decide⟩
  have hlimits : unnamedLimits.Sized := ⟨by decide, by decide, by decide⟩
  have hrejected : namedIndex.validateForWriter unnamedLimits = .error .resourceLimitExceeded := by
    decide +kernel
  obtain ⟨bytes, hencode, hiff⟩ := (admission_matches_reader hsized hlimits).1 (by decide)
  have hlength : bytes.length ≤ unnamedLimits.maxIndexBlockSize := by
    have hsmall : (encodedForm namedIndex.value).length ≤ unnamedLimits.maxIndexBlockSize := by
      decide +kernel
    have hform : namedIndex.encode = .ok (encodedForm namedIndex.value) := by decide +kernel
    rw [hform, Except.ok.injEq] at hencode
    rw [← hencode]
    exact hsmall
  refine ⟨hrejected, bytes, hencode, hlength, ?_⟩
  intro hword haccepted
  have hadmitted := (hiff hword).mpr ⟨hlength, haccepted⟩
  rw [hrejected] at hadmitted
  cases hadmitted

/-- The identifiers of `unnamedIndex` are rejected and the index itself is admitted. -/
theorem DocumentIndex.preflight_unnamedIndex :
    preflightDocumentIds Reference.env (unnamedIndex.documents.map DocumentEntry.docId)
        unnamedLimits = .error .resourceLimitExceeded ∧
      (unnamedIndex.documents.map DocumentEntry.docId).Nodup ∧
      unnamedIndex.validateForWriter unnamedLimits = .ok ⟨⟩ := by
  refine ⟨?_, by decide, ?_⟩
  · decide +kernel
  · decide +kernel

end Qzt
