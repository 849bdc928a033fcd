import Qzt.Cli.AtomicOutput
import Qzt.Cli.Attestation
import Qzt.Foundation.Json
import Qzt.Search.Query
import Qzt.Sidecar.Open

/-!
# JSON output (`main.rs`, `cli_json.rs`)

The commands put their JSON together from format strings, without a serializer: identifiers,
queries and error texts go through `escape`, numbers and names stand as they are.  Whatever the
texts hold, what a command prints is one JSON value, with every text character for character.
-/

namespace Qzt

open Foundation Foundation.Json

/-! ## Texts and values -/

/-- A signed number in decimal. -/
def signedDecimal (n : Int) : List Char :=
  if n < 0 then '-' :: decimal n.natAbs else decimal n.natAbs

/-- The text of a finite floating-point number. -/
structure FloatText where
  text : List Char
  number : IsNumber text

/-- An optional text, quoted and escaped, or `null`. -/
def optionalText : Option String → List Char
  | none => "null".toList
  | some text => '"' :: (escape text ++ ['"'])

/-- An optional number, or `null`. -/
def optionalDecimal : Option Nat → List Char
  | none => "null".toList
  | some n => decimal n

def jsonNumber (n : Nat) : Json := .num (decimal n)

def jsonText (text : String) : Json := .str text.toList

def jsonHex (bytes : List UInt8) : Json := .str (hex bytes)

def jsonOption {α : Type} (value : α → Json) : Option α → Json
  | none => .null
  | some a => value a

/-- An object with its members in order. -/
def jsonObject (members : List (String × Json)) : Json :=
  .obj (members.map fun member => (member.1.toList, member.2))

def jsonChecksum (checksum : Checksum) : Json :=
  jsonObject [("algorithm", jsonText checksum.algorithm),
    ("value", jsonHex checksum.value.toList)]

/-! ## The reports -/

/-- What `qzt info` reports. -/
structure InfoReport where
  info : QztInfo
  metadata : Metadata
  compressedSize : Nat
  documentCount : Nat

/-- The JSON output of `run_info`. -/
def InfoReport.parts (self : InfoReport) : List Part :=
  [.own "\x7b\n",
    .own "  \"format\": \"qzt-0.1\",\n",
    .own "  \"container_id\": \"", .field (hex self.info.containerId.toList), .own "\",\n",
    .own "  \"profile\": \"", .field (escape self.metadata.profile), .own "\",\n",
    .own "  \"original_size\": ", .field (decimal self.info.originalSize), .own ",\n",
    .own "  \"compressed_size\": ", .field (decimal self.compressedSize), .own ",\n",
    .own "  \"original_checksum\": \x7b\"algorithm\": \"",
    .field (escape self.metadata.originalChecksum.algorithm), .own "\", \"value\": \"",
    .field (hex self.metadata.originalChecksum.value.toList), .own "\"\x7d,\n",
    .own "  \"newline_mode\": \"", .field (escape self.metadata.newlineMode), .own "\",\n",
    .own "  \"chunk_count\": ", .field (decimal self.info.chunkCount), .own ",\n",
    .own "  \"line_count\": ", .field (decimal self.info.lineCount), .own ",\n",
    .own "  \"zstd_level\": ", .field (signedDecimal self.metadata.zstdLevel.toInt), .own ",\n",
    .own "  \"target_chunk_size\": ", .field (decimal self.metadata.targetChunkSize), .own ",\n",
    .own "  \"max_chunk_size\": ", .field (decimal self.metadata.maxChunkSize), .own ",\n",
    .own "  \"dense_line_index\": ", .field (boolText self.metadata.denseLineIndex), .own ",\n",
    .own "  \"document_index\": ", .field (boolText self.metadata.documentIndex), .own ",\n",
    .own "  \"document_count\": ", .field (decimal self.documentCount), .own "\n",
    .own "\x7d\n"]

/-- A document of `run_docs`. -/
def docParts (doc : DocumentEntry) : List Part :=
  [.own "\x7b",
    .own "\"doc_id\":\"", .field (escape doc.docId), .own "\",",
    .own "\"logical_offset\":", .field (decimal doc.logicalOffset), .own ",",
    .own "\"byte_length\":", .field (decimal doc.byteLength), .own ",",
    .own "\"first_line\":", .field (decimal (saturatingAdd doc.firstLine 1)), .own ",",
    .own "\"line_count\":", .field (decimal doc.lineCount), .own ",",
    .own "\"checksum\":\x7b\"algorithm\":\"", .field (escape doc.checksum.algorithm),
    .own "\",\"value\":\"", .field (hex doc.checksum.value.toList), .own "\"\x7d",
    .own "\x7d"]

/-- The JSON output of `run_docs`. -/
def docsParts (documents : List DocumentEntry) : List Part :=
  [.own "\x7b\"documents\":[",
    .field (separated (documents.map fun doc => textOf (docParts doc))),
    .own "]\x7d\n"]

/-- The JSON output of a passed `run_verify`. -/
def verifyParts (level : VerifyLevel) (report : VerifyReport) : List Part :=
  [.own "\x7b\"ok\":true,\"level\":\"", .field (verifyLevelAsStr level).toList, .own "\",",
    .own "\"checked_chunks\":", .field (decimal report.checkedChunks), .own ",",
    .own "\"compressed_checksum_chunks\":", .field (decimal report.compressedChecksumChunks),
    .own ",",
    .own "\"decoded_chunks\":", .field (decimal report.decodedChunks), .own ",",
    .own "\"decoded_bytes\":", .field (decimal report.decodedBytes), .own ",",
    .own "\"original_checksum_verified\":", .field (boolText report.originalChecksumVerified),
    .own ",",
    .own "\"container_checksum_status\":\"", .field report.containerChecksumStatus.asStr.toList,
    .own "\",",
    .own "\"dense_line_index_status\":\"", .field report.denseLineIndexStatus.asStr.toList,
    .own "\",",
    .own "\"document_index_status\":\"", .field report.documentIndexStatus.asStr.toList,
    .own "\"\x7d", .own "\n"]

/-- The JSON output of a failed `run_verify`. -/
def verifyErrorParts (kindText : IoErrorKind → String) (level : VerifyLevel) (error : CliError) :
    List Part :=
  [.own "\x7b\"ok\":false,\"level\":\"", .field (verifyLevelAsStr level).toList,
    .own "\",\"error\":\"", .field (escape (error.display kindText)), .own "\"\x7d\n"]

/-- A hit of `write_search_report_json`. -/
def hitParts (hit : SearchHit) : List Part :=
  [.own "\x7b",
    .own "\"logical_offset\":", .field (decimal hit.logicalOffset), .own ",",
    .own "\"byte_length\":", .field (decimal hit.byteLength), .own ",",
    .own "\"chunk_start\":", .field (decimal hit.chunkStart), .own ",",
    .own "\"chunk_end\":", .field (decimal hit.chunkEnd), .own ",",
    .own "\"source\":\"", .field (escape hit.source), .own "\"",
    .own "\x7d"]

/-- `write_search_report_json`. -/
def searchReportParts (report : SearchReport) (indexSizeRatio queryTimeMs : FloatText) :
    List Part :=
  [.own "\x7b\"hits\":[",
    .field (separated (report.hits.map fun hit => textOf (hitParts hit))),
    .own "],",
    .own "\"metrics\":\x7b",
    .own "\"query\":\"", .field (escape report.metrics.query), .own "\",",
    .own "\"index_kind\":\"", .field (escape report.metrics.indexKind), .own "\",",
    .own "\"posting_granularity\":\"", .field (escape report.metrics.postingGranularity),
    .own "\",",
    .own "\"index_size_bytes\":", .field (decimal report.metrics.indexSizeBytes), .own ",",
    .own "\"source_size_bytes\":", .field (decimal report.metrics.sourceSizeBytes), .own ",",
    .own "\"index_size_ratio\":", .field indexSizeRatio.text, .own ",",
    .own "\"term_lookups\":", .field (decimal report.metrics.termLookups), .own ",",
    .own "\"posting_bytes_read\":", .field (decimal report.metrics.postingBytesRead), .own ",",
    .own "\"candidate_granules\":", .field (decimal report.metrics.candidateGranules), .own ",",
    .own "\"candidate_chunks\":", .field (decimal report.metrics.candidateChunks), .own ",",
    .own "\"decoded_bytes\":", .field (decimal report.metrics.decodedBytes), .own ",",
    .own "\"physical_decoded_bytes\":", .field (decimal report.metrics.physicalDecodedBytes),
    .own ",",
    .own "\"physical_decoded_chunks\":", .field (decimal report.metrics.physicalDecodedChunks),
    .own ",",
    .own "\"verified_matches\":", .field (decimal report.metrics.verifiedMatches), .own ",",
    .own "\"query_time_ms\":", .field queryTimeMs.text,
    .own "\x7d,",
    .own "\"capped\":", .field (boolText report.capped), .own ",",
    .own "\"stop_reason\":", .field (optionalText report.stopReason), .own ",",
    .own "\"index_complete_declared\":", .field (boolText report.indexCompleteDeclared), .own ",",
    .own "\"index_coverage_verified\":", .field (boolText report.indexCoverageVerified), .own ",",
    .own "\"incomplete_reason\":", .field (optionalText report.incompleteReason),
    .own "\x7d", .own "\n"]

/-- The JSON output of `run_inspect_sidecar`. -/
def inspectSidecarParts (sidecar : Sidecar.QziFileSidecar) : List Part :=
  [.own "\x7b\"index_type\":\"", .field (escape sidecar.manifest.indexType), .own "\",",
    .own "\"ngram_n\":", .field (optionalDecimal sidecar.manifest.ngramN), .own ",",
    .own "\"complete\":", .field (boolText sidecar.manifest.complete), .own ",",
    .own "\"high_df_per_million\":", .field (decimal sidecar.manifest.highDfPerMillion), .own ",",
    .own "\"source_size_bytes\":", .field (decimal sidecar.manifest.sourceSizeBytes), .own ",",
    .own "\"index_size_bytes\":", .field (decimal sidecar.manifest.indexSizeBytes), .own ",",
    .own "\"granule_count\":", .field (decimal sidecar.granuleCount), .own ",",
    .own "\"term_count\":", .field (decimal sidecar.terms.length), .own ",",
    .own "\"postings_size_bytes\":", .field (decimal sidecar.manifest.postings.size), .own "\x7d",
    .own "\n"]

/-! ## What is read -/

/-- No leading zero is written. -/
theorem decimal_head {n : Nat} (h : n ≠ 0) : ∃ c, (decimal n).head? = some c ∧ c ≠ '0' := by
  induction n using Nat.strongRecOn with
  | ind n ih =>
    by_cases hdigit : n < 10
    · have hall : ∀ n : Fin 10, n.val ≠ 0 → Nat.digitChar n.val ≠ '0' := by decide
      rw [decimal, Nat.toDigits_of_lt_base hdigit]
      exact ⟨_, rfl, hall ⟨n, hdigit⟩ h⟩
    · obtain ⟨c, hhead, hzero⟩ := ih (n / 10) (by omega) (by omega)
      rw [decimal, Nat.toDigits_of_base_le (by decide) (by omega)]
      refine ⟨c, ?_, hzero⟩
      rw [List.head?_append]
      change ((decimal (n / 10)).head?.or _) = some c
      rw [hhead]
      rfl

theorem isDigits_decimal (n : Nat) : IsDigits (decimal n) where
  digits := fun _ hc => isDigit_of_mem_decimal hc
  head := by
    by_cases h : n = 0
    · exact .inl (by rw [h]; rfl)
    · exact .inr (decimal_head h)

theorem isNumber_signedDecimal (n : Int) : IsNumber (signedDecimal n) := by
  unfold signedDecimal
  split
  · exact (isDigits_decimal _).negated
  · exact (isDigits_decimal _).number

theorem reads_jsonNumber (n : Nat) : Json.Reads (decimal n) (jsonNumber n) :=
  (isDigits_decimal n).number.reads

theorem reads_boolText (value : Bool) : Json.Reads (boolText value) (.bool value) :=
  reads_bool value

theorem hexDigit_digitChar {n : Nat} (h : n < 16) : hexDigit (Nat.digitChar n) = some n := by
  have hall : ∀ n : Fin 16, hexDigit (Nat.digitChar n.val) = some n.val := by decide
  exact hall ⟨n, h⟩

/-- Every character is read back from its escape. -/
theorem readsChar_escapeChar (c : Char) : ReadsChar (escapeChar c) c := by
  unfold escapeChar
  split
  · rename_i h
    subst h
    exact readsChar_letter rfl
  split
  · rename_i h
    subst h
    exact readsChar_letter rfl
  split
  · rename_i h
    subst h
    exact readsChar_letter rfl
  split
  · rename_i h
    subst h
    exact readsChar_letter rfl
  split
  · rename_i h
    subst h
    exact readsChar_letter rfl
  split
  · -- A control character is written by its code unit.
    rename_i hcontrol
    have hunit : codeUnit '0' '0' (Nat.digitChar (c.toNat / 16)) (Nat.digitChar (c.toNat % 16)) =
        some c.toNat := by
      have hhigh := @hexDigit_digitChar (c.toNat / 16) (by omega)
      have hlow := @hexDigit_digitChar (c.toNat % 16) (by omega)
      have hzero : hexDigit '0' = some 0 := rfl
      rw [codeUnit, hzero, hhigh, hlow]
      refine congrArg some ?_
      omega
    have hread := readsChar_unit hunit (.inl (by omega))
    rw [Char.ofNat_toNat] at hread
    exact hread
  · rename_i hquote hbackslash _ _ _ hcontrol
    exact readsChar_plain hquote hbackslash (Nat.le_of_not_lt hcontrol)

theorem readsString_escape (text : String) : ReadsString (escape text) text.toList :=
  readsString_flatMap readsChar_escapeChar text.toList

theorem isPlain_hex (bytes : List UInt8) : isPlain (hex bytes) = true := by
  have hdigit : ∀ n : Fin 16, isPlain [Nat.digitChar n.val] = true := by decide
  apply List.all_eq_true.mpr
  intro c hc
  obtain ⟨byte, -, hc⟩ := List.mem_flatMap.mp hc
  have hbyte := UInt8.toNat_lt byte
  have hplain : ∀ n, n < 16 → c = Nat.digitChar n → isPlain [c] = true := by
    rintro n hn rfl
    exact hdigit ⟨n, hn⟩
  have hone : isPlain [c] = true := by
    obtain rfl | hc := List.mem_cons.mp hc
    · exact hplain (byte.toNat / 16) (by omega) rfl
    · exact hplain (byte.toNat % 16) (by omega) (List.mem_singleton.mp hc)
  rw [isPlain, List.all_cons, List.all_nil, Bool.and_true] at hone
  exact hone

theorem reads_jsonText (text : String) : Json.Reads ('"' :: (escape text ++ ['"'])) (jsonText text) :=
  (readsString_escape text).reads

theorem reads_jsonHex (bytes : List UInt8) : Json.Reads ('"' :: (hex bytes ++ ['"'])) (jsonHex bytes) :=
  (readsString_plain (isPlain_hex bytes)).reads

/-- A name stands as it is. -/
theorem reads_name {name : String} (h : isPlain name.toList = true) :
    Json.Reads ('"' :: (name.toList ++ ['"'])) (jsonText name) :=
  (readsString_plain h).reads

theorem reads_optionalText (text : Option String) :
    Json.Reads (optionalText text) (jsonOption jsonText text) := by
  cases text with
  | none => exact reads_null
  | some text => exact reads_jsonText text

theorem reads_optionalDecimal (n : Option Nat) :
    Json.Reads (optionalDecimal n) (jsonOption jsonNumber n) := by
  cases n with
  | none => exact reads_null
  | some n => exact reads_jsonNumber n

theorem isPlain_levelName (level : VerifyLevel) :
    isPlain (verifyLevelAsStr level).toList = true := by
  cases level <;> rfl

theorem isPlain_prefixStatus (status : PrefixChecksumStatus) :
    isPlain status.asStr.toList = true := by
  cases status <;> rfl

theorem isPlain_indexStatus (status : IndexVerificationStatus) :
    isPlain status.asStr.toList = true := by
  cases status <;> rfl

theorem Reads.of_eq {text text' : List Char} {value value' : Json} (h : Json.Reads text value)
    (htext : text' = text) (hvalue : value' = value) : Json.Reads text' value' := by
  rw [htext, hvalue]
  exact h

theorem blank_nil : Blank [] :=
  fun _ hc => absurd hc List.not_mem_nil

theorem blank_space : Blank [' '] :=
  List.all_eq_true.mp rfl

theorem blank_newline : Blank ['\n'] :=
  List.all_eq_true.mp rfl

/-- The space of a member on a line of its own. -/
theorem blank_line : Blank ['\n', ' ', ' '] :=
  List.all_eq_true.mp rfl

/-- A member without white space. -/
def member (key : String) (hkey : isPlain key.toList = true) {text : List Char} {value : Json}
    (h : Json.Reads text value) : Member where
  blank := []
  key := key.toList
  text := text
  value := value
  isBlank := blank_nil
  plainKey := hkey
  reads := h

/-- A member behind white space, with a blank in front of its value. -/
def spacedMember (blank : List Char) (hblank : Blank blank) (key : String)
    (hkey : isPlain key.toList = true) {text : List Char} {value : Json}
    (h : Json.Reads text value) : Member where
  blank := blank
  key := key.toList
  text := ' ' :: text
  value := value
  isBlank := hblank
  plainKey := hkey
  reads := h.blank blank_space

/-- An object without white space. -/
theorem reads_jsonObject (first : Member) (more : List Member) :
    Json.Reads ('\x7b' :: (first.write ++ writeMoreMembers more []))
      (.obj ((first :: more).map Member.pair)) :=
  reads_object first more blank_nil

/-! ### The values -/

section Values

set_option maxRecDepth 4000

def InfoReport.value (self : InfoReport) : Json :=
  jsonObject [("format", jsonText "qzt-0.1"),
    ("container_id", jsonHex self.info.containerId.toList),
    ("profile", jsonText self.metadata.profile),
    ("original_size", jsonNumber self.info.originalSize),
    ("compressed_size", jsonNumber self.compressedSize),
    ("original_checksum", jsonChecksum self.metadata.originalChecksum),
    ("newline_mode", jsonText self.metadata.newlineMode),
    ("chunk_count", jsonNumber self.info.chunkCount),
    ("line_count", jsonNumber self.info.lineCount),
    ("zstd_level", .num (signedDecimal self.metadata.zstdLevel.toInt)),
    ("target_chunk_size", jsonNumber self.metadata.targetChunkSize),
    ("max_chunk_size", jsonNumber self.metadata.maxChunkSize),
    ("dense_line_index", .bool self.metadata.denseLineIndex),
    ("document_index", .bool self.metadata.documentIndex),
    ("document_count", jsonNumber self.documentCount)]

theorem InfoReport.parse_parts (self : InfoReport) :
    parse (textOf self.parts) = some self.value := by
  have hchecksum := reads_jsonObject
    (spacedMember _ blank_nil "algorithm" rfl
      (reads_jsonText self.metadata.originalChecksum.algorithm))
    [spacedMember _ blank_space "value" rfl
      (reads_jsonHex self.metadata.originalChecksum.value.toList)]
  have hreads := reads_object
    (spacedMember _ blank_line "format" rfl (@reads_name "qzt-0.1" rfl))
    [spacedMember _ blank_line "container_id" rfl (reads_jsonHex self.info.containerId.toList),
      spacedMember _ blank_line "profile" rfl (reads_jsonText self.metadata.profile),
      spacedMember _ blank_line "original_size" rfl (reads_jsonNumber self.info.originalSize),
      spacedMember _ blank_line "compressed_size" rfl (reads_jsonNumber self.compressedSize),
      spacedMember _ blank_line "original_checksum" rfl hchecksum,
      spacedMember _ blank_line "newline_mode" rfl (reads_jsonText self.metadata.newlineMode),
      spacedMember _ blank_line "chunk_count" rfl (reads_jsonNumber self.info.chunkCount),
      spacedMember _ blank_line "line_count" rfl (reads_jsonNumber self.info.lineCount),
      spacedMember _ blank_line "zstd_level" rfl
        (isNumber_signedDecimal self.metadata.zstdLevel.toInt).reads,
      spacedMember _ blank_line "target_chunk_size" rfl
        (reads_jsonNumber self.metadata.targetChunkSize),
      spacedMember _ blank_line "max_chunk_size" rfl (reads_jsonNumber self.metadata.maxChunkSize),
      spacedMember _ blank_line "dense_line_index" rfl (reads_boolText self.metadata.denseLineIndex),
      spacedMember _ blank_line "document_index" rfl (reads_boolText self.metadata.documentIndex),
      spacedMember _ blank_line "document_count" rfl (reads_jsonNumber self.documentCount)]
    blank_newline
  have hparse := hreads.parse blank_newline
  refine Eq.trans (congrArg parse ?_) hparse
  simp [InfoReport.parts, textOf, Part.text, Member.write, writeMoreMembers, spacedMember]

def docValue (doc : DocumentEntry) : Json :=
  jsonObject [("doc_id", jsonText doc.docId),
    ("logical_offset", jsonNumber doc.logicalOffset),
    ("byte_length", jsonNumber doc.byteLength),
    ("first_line", jsonNumber (saturatingAdd doc.firstLine 1)),
    ("line_count", jsonNumber doc.lineCount),
    ("checksum", jsonChecksum doc.checksum)]

theorem reads_doc (doc : DocumentEntry) : Json.Reads (textOf (docParts doc)) (docValue doc) := by
  refine Reads.of_eq (reads_jsonObject (member "doc_id" rfl (reads_jsonText doc.docId))
    [member "logical_offset" rfl (reads_jsonNumber doc.logicalOffset),
      member "byte_length" rfl (reads_jsonNumber doc.byteLength),
      member "first_line" rfl (reads_jsonNumber (saturatingAdd doc.firstLine 1)),
      member "line_count" rfl (reads_jsonNumber doc.lineCount),
      member "checksum" rfl (reads_jsonObject
        (member "algorithm" rfl (reads_jsonText doc.checksum.algorithm))
        [member "value" rfl (reads_jsonHex doc.checksum.value.toList)])]) ?_ rfl
  simp [docParts, textOf, Part.text, Member.write, writeMoreMembers, member]

def docsValue (documents : List DocumentEntry) : Json :=
  jsonObject [("documents", .arr (documents.map docValue))]

theorem parse_docsParts (documents : List DocumentEntry) :
    parse (textOf (docsParts documents)) = some (docsValue documents) := by
  have hreads := reads_jsonObject (member "documents" rfl (reads_map reads_doc documents)) []
  refine Eq.trans (congrArg parse ?_) (hreads.parse blank_newline)
  simp [docsParts, textOf, Part.text, Member.write, writeMoreMembers, member]

def verifyValue (level : VerifyLevel) (report : VerifyReport) : Json :=
  jsonObject [("ok", .bool true),
    ("level", jsonText (verifyLevelAsStr level)),
    ("checked_chunks", jsonNumber report.checkedChunks),
    ("compressed_checksum_chunks", jsonNumber report.compressedChecksumChunks),
    ("decoded_chunks", jsonNumber report.decodedChunks),
    ("decoded_bytes", jsonNumber report.decodedBytes),
    ("original_checksum_verified", .bool report.originalChecksumVerified),
    ("container_checksum_status", jsonText report.containerChecksumStatus.asStr),
    ("dense_line_index_status", jsonText report.denseLineIndexStatus.asStr),
    ("document_index_status", jsonText report.documentIndexStatus.asStr)]

theorem parse_verifyParts (level : VerifyLevel) (report : VerifyReport) :
    parse (textOf (verifyParts level report)) = some (verifyValue level report) := by
  have hreads := reads_jsonObject (member "ok" rfl (reads_bool true))
    [member "level" rfl (reads_name (isPlain_levelName level)),
      member "checked_chunks" rfl (reads_jsonNumber report.checkedChunks),
      member "compressed_checksum_chunks" rfl (reads_jsonNumber report.compressedChecksumChunks),
      member "decoded_chunks" rfl (reads_jsonNumber report.decodedChunks),
      member "decoded_bytes" rfl (reads_jsonNumber report.decodedBytes),
      member "original_checksum_verified" rfl (reads_boolText report.originalChecksumVerified),
      member "container_checksum_status" rfl
        (reads_name (isPlain_prefixStatus report.containerChecksumStatus)),
      member "dense_line_index_status" rfl
        (reads_name (isPlain_indexStatus report.denseLineIndexStatus)),
      member "document_index_status" rfl
        (reads_name (isPlain_indexStatus report.documentIndexStatus))]
  refine Eq.trans (congrArg parse ?_) (hreads.parse blank_newline)
  simp [verifyParts, textOf, Part.text, Member.write, writeMoreMembers, member]

def verifyErrorValue (kindText : IoErrorKind → String) (level : VerifyLevel) (error : CliError) :
    Json :=
  jsonObject [("ok", .bool false), ("level", jsonText (verifyLevelAsStr level)),
    ("error", jsonText (error.display kindText))]

theorem parse_verifyErrorParts (kindText : IoErrorKind → String) (level : VerifyLevel)
    (error : CliError) :
    parse (textOf (verifyErrorParts kindText level error)) =
      some (verifyErrorValue kindText level error) := by
  have hreads := reads_jsonObject (member "ok" rfl (reads_bool false))
    [member "level" rfl (reads_name (isPlain_levelName level)),
      member "error" rfl (reads_jsonText (error.display kindText))]
  refine Eq.trans (congrArg parse ?_) (hreads.parse blank_newline)
  simp [verifyErrorParts, textOf, Part.text, Member.write, writeMoreMembers, member]

def hitValue (hit : SearchHit) : Json :=
  jsonObject [("logical_offset", jsonNumber hit.logicalOffset),
    ("byte_length", jsonNumber hit.byteLength),
    ("chunk_start", jsonNumber hit.chunkStart),
    ("chunk_end", jsonNumber hit.chunkEnd),
    ("source", jsonText hit.source)]

theorem reads_hit (hit : SearchHit) : Json.Reads (textOf (hitParts hit)) (hitValue hit) := by
  refine Reads.of_eq (reads_jsonObject
    (member "logical_offset" rfl (reads_jsonNumber hit.logicalOffset))
    [member "byte_length" rfl (reads_jsonNumber hit.byteLength),
      member "chunk_start" rfl (reads_jsonNumber hit.chunkStart),
      member "chunk_end" rfl (reads_jsonNumber hit.chunkEnd),
      member "source" rfl (reads_jsonText hit.source)]) ?_ rfl
  simp [hitParts, textOf, Part.text, Member.write, writeMoreMembers, member]

def searchMetricsValue (metrics : SearchMetrics) (indexSizeRatio queryTimeMs : FloatText) : Json :=
  jsonObject [("query", jsonText metrics.query),
    ("index_kind", jsonText metrics.indexKind),
    ("posting_granularity", jsonText metrics.postingGranularity),
    ("index_size_bytes", jsonNumber metrics.indexSizeBytes),
    ("source_size_bytes", jsonNumber metrics.sourceSizeBytes),
    ("index_size_ratio", .num indexSizeRatio.text),
    ("term_lookups", jsonNumber metrics.termLookups),
    ("posting_bytes_read", jsonNumber metrics.postingBytesRead),
    ("candidate_granules", jsonNumber metrics.candidateGranules),
    ("candidate_chunks", jsonNumber metrics.candidateChunks),
    ("decoded_bytes", jsonNumber metrics.decodedBytes),
    ("physical_decoded_bytes", jsonNumber metrics.physicalDecodedBytes),
    ("physical_decoded_chunks", jsonNumber metrics.physicalDecodedChunks),
    ("verified_matches", jsonNumber metrics.verifiedMatches),
    ("query_time_ms", .num queryTimeMs.text)]

def searchReportValue (report : SearchReport) (indexSizeRatio queryTimeMs : FloatText) : Json :=
  jsonObject [("hits", .arr (report.hits.map hitValue)),
    ("metrics", searchMetricsValue report.metrics indexSizeRatio queryTimeMs),
    ("capped", .bool report.capped),
    ("stop_reason", jsonOption jsonText report.stopReason),
    ("index_complete_declared", .bool report.indexCompleteDeclared),
    ("index_coverage_verified", .bool report.indexCoverageVerified),
    ("incomplete_reason", jsonOption jsonText report.incompleteReason)]

theorem parse_searchReportParts (report : SearchReport) (indexSizeRatio queryTimeMs : FloatText) :
    parse (textOf (searchReportParts report indexSizeRatio queryTimeMs)) =
      some (searchReportValue report indexSizeRatio queryTimeMs) := by
  have hmetrics := reads_jsonObject (member "query" rfl (reads_jsonText report.metrics.query))
    [member "index_kind" rfl (reads_jsonText report.metrics.indexKind),
      member "posting_granularity" rfl (reads_jsonText report.metrics.postingGranularity),
      member "index_size_bytes" rfl (reads_jsonNumber report.metrics.indexSizeBytes),
      member "source_size_bytes" rfl (reads_jsonNumber report.metrics.sourceSizeBytes),
      member "index_size_ratio" rfl indexSizeRatio.number.reads,
      member "term_lookups" rfl (reads_jsonNumber report.metrics.termLookups),
      member "posting_bytes_read" rfl (reads_jsonNumber report.metrics.postingBytesRead),
      member "candidate_granules" rfl (reads_jsonNumber report.metrics.candidateGranules),
      member "candidate_chunks" rfl (reads_jsonNumber report.metrics.candidateChunks),
      member "decoded_bytes" rfl (reads_jsonNumber report.metrics.decodedBytes),
      member "physical_decoded_bytes" rfl (reads_jsonNumber report.metrics.physicalDecodedBytes),
      member "physical_decoded_chunks" rfl (reads_jsonNumber report.metrics.physicalDecodedChunks),
      member "verified_matches" rfl (reads_jsonNumber report.metrics.verifiedMatches),
      member "query_time_ms" rfl queryTimeMs.number.reads]
  have hreads := reads_jsonObject (member "hits" rfl (reads_map reads_hit report.hits))
    [member "metrics" rfl hmetrics,
      member "capped" rfl (reads_boolText report.capped),
      member "stop_reason" rfl (reads_optionalText report.stopReason),
      member "index_complete_declared" rfl (reads_boolText report.indexCompleteDeclared),
      member "index_coverage_verified" rfl (reads_boolText report.indexCoverageVerified),
      member "incomplete_reason" rfl (reads_optionalText report.incompleteReason)]
  refine Eq.trans (congrArg parse ?_) (hreads.parse blank_newline)
  simp [searchReportParts, textOf, Part.text, Member.write, writeMoreMembers, member]

def inspectSidecarValue (sidecar : Sidecar.QziFileSidecar) : Json :=
  jsonObject [("index_type", jsonText sidecar.manifest.indexType),
    ("ngram_n", jsonOption jsonNumber sidecar.manifest.ngramN),
    ("complete", .bool sidecar.manifest.complete),
    ("high_df_per_million", jsonNumber sidecar.manifest.highDfPerMillion),
    ("source_size_bytes", jsonNumber sidecar.manifest.sourceSizeBytes),
    ("index_size_bytes", jsonNumber sidecar.manifest.indexSizeBytes),
    ("granule_count", jsonNumber sidecar.granuleCount),
    ("term_count", jsonNumber sidecar.terms.length),
    ("postings_size_bytes", jsonNumber sidecar.manifest.postings.size)]

theorem parse_inspectSidecarParts (sidecar : Sidecar.QziFileSidecar) :
    parse (textOf (inspectSidecarParts sidecar)) = some (inspectSidecarValue sidecar) := by
  have hreads := reads_jsonObject
    (member "index_type" rfl (reads_jsonText sidecar.manifest.indexType))
    [member "ngram_n" rfl (reads_optionalDecimal sidecar.manifest.ngramN),
      member "complete" rfl (reads_boolText sidecar.manifest.complete),
      member "high_df_per_million" rfl (reads_jsonNumber sidecar.manifest.highDfPerMillion),
      member "source_size_bytes" rfl (reads_jsonNumber sidecar.manifest.sourceSizeBytes),
      member "index_size_bytes" rfl (reads_jsonNumber sidecar.manifest.indexSizeBytes),
      member "granule_count" rfl (reads_jsonNumber sidecar.granuleCount),
      member "term_count" rfl (reads_jsonNumber sidecar.terms.length),
      member "postings_size_bytes" rfl (reads_jsonNumber sidecar.manifest.postings.size)]
  refine Eq.trans (congrArg parse ?_) (hreads.parse blank_newline)
  simp [inspectSidecarParts, textOf, Part.text, Member.write, writeMoreMembers, member]

theorem reads_checksum (checksum : Checksum) :
    Json.Reads (textOf (formatChecksum checksum)) (jsonChecksum checksum) := by
  refine Reads.of_eq (reads_jsonObject (member "algorithm" rfl (reads_jsonText checksum.algorithm))
    [member "value" rfl (reads_jsonHex checksum.value.toList)]) ?_ rfl
  simp [formatChecksum, textOf, Part.text, Member.write, writeMoreMembers, member]

theorem reads_containerChecksum (checksum : Option Checksum) :
    Json.Reads (textOf (formatContainerChecksum checksum)) (jsonOption jsonChecksum checksum) := by
  cases checksum with
  | none => exact reads_null
  | some checksum => exact reads_checksum checksum

def Attestation.value (self : Attestation) : Json :=
  jsonObject [("attestation_schema", jsonText "qzt-attestation-v1"),
    ("chunk_count", jsonNumber self.info.chunkCount),
    ("container_checksum", jsonOption jsonChecksum self.containerChecksum),
    ("container_id", jsonHex self.info.containerId.toList),
    ("final_file_size", jsonNumber self.finalFileSize),
    ("format", jsonText "qzt-0.1"),
    ("line_count", jsonNumber self.info.lineCount),
    ("original_checksum", jsonChecksum self.originalChecksum),
    ("original_size", jsonNumber self.info.originalSize),
    ("verify", jsonObject [("checked_chunks", jsonNumber self.verifyReport.checkedChunks),
      ("compressed_checksum_chunks", jsonNumber self.verifyReport.compressedChecksumChunks),
      ("container_checksum_status", jsonText self.verifyReport.containerChecksumStatus.asStr),
      ("decoded_bytes", jsonNumber self.verifyReport.decodedBytes),
      ("decoded_chunks", jsonNumber self.verifyReport.decodedChunks),
      ("dense_line_index_status", jsonText self.verifyReport.denseLineIndexStatus.asStr),
      ("document_index_status", jsonText self.verifyReport.documentIndexStatus.asStr),
      ("level", jsonText (verifyLevelAsStr self.verifyReport.level)),
      ("original_checksum_verified", .bool self.verifyReport.originalChecksumVerified)])]

theorem Attestation.parse_render (self : Attestation) :
    parse self.render = some self.value := by
  have hverify := reads_jsonObject
    (member "checked_chunks" rfl (reads_jsonNumber self.verifyReport.checkedChunks))
    [member "compressed_checksum_chunks" rfl
        (reads_jsonNumber self.verifyReport.compressedChecksumChunks),
      member "container_checksum_status" rfl
        (reads_name (isPlain_prefixStatus self.verifyReport.containerChecksumStatus)),
      member "decoded_bytes" rfl (reads_jsonNumber self.verifyReport.decodedBytes),
      member "decoded_chunks" rfl (reads_jsonNumber self.verifyReport.decodedChunks),
      member "dense_line_index_status" rfl
        (reads_name (isPlain_indexStatus self.verifyReport.denseLineIndexStatus)),
      member "document_index_status" rfl
        (reads_name (isPlain_indexStatus self.verifyReport.documentIndexStatus)),
      member "level" rfl (reads_name (isPlain_levelName self.verifyReport.level)),
      member "original_checksum_verified" rfl
        (reads_boolText self.verifyReport.originalChecksumVerified)]
  have hreads := reads_jsonObject
    (member "attestation_schema" rfl (@reads_name "qzt-attestation-v1" rfl))
    [member "chunk_count" rfl (reads_jsonNumber self.info.chunkCount),
      member "container_checksum" rfl (reads_containerChecksum self.containerChecksum),
      member "container_id" rfl (reads_jsonHex self.info.containerId.toList),
      member "final_file_size" rfl (reads_jsonNumber self.finalFileSize),
      member "format" rfl (@reads_name "qzt-0.1" rfl),
      member "line_count" rfl (reads_jsonNumber self.info.lineCount),
      member "original_checksum" rfl (reads_checksum self.originalChecksum),
      member "original_size" rfl (reads_jsonNumber self.info.originalSize),
      member "verify" rfl hverify]
  refine Eq.trans (congrArg parse ?_) (hreads.parse blank_newline)
  simp [Attestation.render, Attestation.parts, textOf, Part.text, Member.write, writeMoreMembers,
    member]

end Values

/-! ## Every output -/

/-- What a command prints in JSON mode. -/
inductive JsonOutput where
  | info (report : InfoReport)
  | docs (documents : List DocumentEntry)
  | verified (level : VerifyLevel) (report : VerifyReport)
  | verifyFailed (level : VerifyLevel) (error : CliError)
  | search (report : SearchReport) (indexSizeRatio queryTimeMs : FloatText)
  | inspectSidecar (sidecar : Sidecar.QziFileSidecar)
  | attest (attestation : Attestation)

namespace JsonOutput

def text (kindText : IoErrorKind → String) : JsonOutput → List Char
  | info report => textOf report.parts
  | docs documents => textOf (docsParts documents)
  | verified level report => textOf (verifyParts level report)
  | verifyFailed level error => textOf (verifyErrorParts kindText level error)
  | search report indexSizeRatio queryTimeMs =>
    textOf (searchReportParts report indexSizeRatio queryTimeMs)
  | inspectSidecar sidecar => textOf (inspectSidecarParts sidecar)
  | attest attestation => attestation.render

def value (kindText : IoErrorKind → String) : JsonOutput → Json
  | info report => report.value
  | docs documents => docsValue documents
  | verified level report => verifyValue level report
  | verifyFailed level error => verifyErrorValue kindText level error
  | search report indexSizeRatio queryTimeMs => searchReportValue report indexSizeRatio queryTimeMs
  | inspectSidecar sidecar => inspectSidecarValue sidecar
  | attest attestation => attestation.value

/-- Every output is one JSON value, and it is the one of the report. -/
theorem parse_text (kindText : IoErrorKind → String) (output : JsonOutput) :
    parse (output.text kindText) = some (output.value kindText) := by
  cases output with
  | info report => exact report.parse_parts
  | docs documents => exact parse_docsParts documents
  | verified level report => exact parse_verifyParts level report
  | verifyFailed level error => exact parse_verifyErrorParts kindText level error
  | search report indexSizeRatio queryTimeMs =>
    exact parse_searchReportParts report indexSizeRatio queryTimeMs
  | inspectSidecar sidecar => exact parse_inspectSidecarParts sidecar
  | attest attestation => exact attestation.parse_render

end JsonOutput

/-! ### Lines -/

section Lines

open Attestation

/-- The parts make no line end. -/
def Unbroken (parts : List Part) : Prop :=
  ∀ part ∈ parts, '\n' ∉ part.text

theorem Unbroken.textOf {parts : List Part} (h : Unbroken parts) : '\n' ∉ textOf parts := by
  intro hmem
  obtain ⟨part, hpart, hc⟩ := List.mem_flatMap.mp hmem
  exact h part hpart hc

/-- Only the template's last part ends a line. -/
theorem endsOnlyLine_textOf {parts : List Part} (last : String)
    (hparts : parts.getLast? = some (.own last))
    (hlast : last.toList = last.toList.dropLast ++ ['\n']) (htail : '\n' ∉ last.toList.dropLast)
    (hfront : Unbroken parts.dropLast) : EndsOnlyLine (textOf parts) := by
  refine ⟨textOf parts.dropLast ++ last.toList.dropLast, ?_, ?_⟩
  · rw [List.mem_append]
    rintro (hmem | hmem)
    · exact hfront.textOf hmem
    · exact htail hmem
  · have hsplit := List.dropLast_append_getLast? _ hparts
    rw [List.append_assoc, ← hlast]
    conv_lhs => rw [← hsplit]
    rw [textOf, List.flatMap_append, List.flatMap_singleton]
    rfl

@[simp] theorem newline_not_mem_decimal (n : Nat) : '\n' ∉ decimal n :=
  (clean_plain (plain_decimal n)).2

@[simp] theorem newline_not_mem_hex (bytes : List UInt8) : '\n' ∉ hex bytes :=
  (clean_plain (plain_hex bytes)).2

@[simp] theorem newline_not_mem_boolText (value : Bool) : '\n' ∉ boolText value :=
  (clean_plain (plain_boolText value)).2

@[simp] theorem newline_not_mem_escape (text : String) : '\n' ∉ escape text :=
  (clean_escape text).2

theorem newline_not_mem_of_isPlain {text : List Char} (h : isPlain text = true) : '\n' ∉ text := by
  intro hmem
  have hplain := List.all_eq_true.mp h '\n' hmem
  cases hplain

@[simp] theorem newline_not_mem_levelName (level : VerifyLevel) :
    '\n' ∉ (verifyLevelAsStr level).toList :=
  newline_not_mem_of_isPlain (isPlain_levelName level)

@[simp] theorem newline_not_mem_prefixStatus (status : PrefixChecksumStatus) :
    '\n' ∉ status.asStr.toList :=
  newline_not_mem_of_isPlain (isPlain_prefixStatus status)

@[simp] theorem newline_not_mem_indexStatus (status : IndexVerificationStatus) :
    '\n' ∉ status.asStr.toList :=
  newline_not_mem_of_isPlain (isPlain_indexStatus status)

@[simp] theorem newline_not_mem_floatText (number : FloatText) : '\n' ∉ number.text := by
  intro hmem
  have hchar := number.number.chars '\n' hmem
  cases hchar

@[simp] theorem newline_not_mem_optionalText (text : Option String) : '\n' ∉ optionalText text := by
  cases text with
  | none => decide
  | some text => simp [optionalText]

@[simp] theorem newline_not_mem_optionalDecimal (n : Option Nat) : '\n' ∉ optionalDecimal n := by
  cases n with
  | none => decide
  | some n => exact newline_not_mem_decimal n

theorem newline_not_mem_separated {items : List (List Char)} (h : ∀ item ∈ items, '\n' ∉ item) :
    '\n' ∉ separated items := by
  intro hmem
  obtain ⟨item, hitem, hc⟩ := List.mem_flatMap.mp hmem
  rw [separatedItem, List.mem_append] at hc
  obtain hc | hc := hc
  · split at hc
    · exact absurd hc (by decide)
    · cases hc
  · exact h item.1 (List.fst_mem_of_mem_zipIdx hitem) hc

theorem unbroken_docParts (doc : DocumentEntry) : Unbroken (docParts doc) := by
  simp [Unbroken, docParts, Part.text]

theorem unbroken_hitParts (hit : SearchHit) : Unbroken (hitParts hit) := by
  simp [Unbroken, hitParts, Part.text]

theorem newline_not_mem_docs (documents : List DocumentEntry) :
    '\n' ∉ separated (documents.map fun doc => textOf (docParts doc)) := by
  apply newline_not_mem_separated
  intro item hitem
  obtain ⟨doc, -, rfl⟩ := List.mem_map.mp hitem
  exact (unbroken_docParts doc).textOf

theorem newline_not_mem_hits (hits : List SearchHit) :
    '\n' ∉ separated (hits.map fun hit => textOf (hitParts hit)) := by
  apply newline_not_mem_separated
  intro item hitem
  obtain ⟨hit, -, rfl⟩ := List.mem_map.mp hitem
  exact (unbroken_hitParts hit).textOf

/-- Every output but that of `qzt info` is one line. -/
theorem JsonOutput.endsOnlyLine (kindText : IoErrorKind → String) (output : JsonOutput) :
    (∃ report, output = .info report) ∨ EndsOnlyLine (output.text kindText) := by
  cases output with
  | info report => exact .inl ⟨report, rfl⟩
  | docs documents =>
    refine .inr (endsOnlyLine_textOf "]\x7d\n" rfl rfl (by decide) ?_)
    simp [Unbroken, docsParts, Part.text, newline_not_mem_docs]
  | verified level report =>
    refine .inr (endsOnlyLine_textOf "\n" rfl rfl (by decide) ?_)
    simp [Unbroken, verifyParts, Part.text]
  | verifyFailed level error =>
    refine .inr (endsOnlyLine_textOf "\"\x7d\n" rfl rfl (by decide) ?_)
    simp [Unbroken, verifyErrorParts, Part.text]
  | search report indexSizeRatio queryTimeMs =>
    refine .inr (endsOnlyLine_textOf "\n" rfl rfl (by decide) ?_)
    simp [Unbroken, searchReportParts, Part.text, newline_not_mem_hits]
  | inspectSidecar sidecar =>
    refine .inr (endsOnlyLine_textOf "\n" rfl rfl (by decide) ?_)
    simp [Unbroken, inspectSidecarParts, Part.text]
  | attest attestation =>
    have hclean : Unbroken attestation.parts :=
      fun part hpart => (attestation.clean_parts part hpart).2
    exact .inr ⟨_, hclean.textOf, rfl⟩

/-- What a command prints in JSON mode is one value, that of its report, and, except for
`qzt info`, one line. -/
theorem JsonOutput.text_contract (kindText : IoErrorKind → String) (output : JsonOutput) :
    parse (output.text kindText) = some (output.value kindText) ∧
      ((∃ report, output = .info report) ∨ EndsOnlyLine (output.text kindText)) :=
  ⟨output.parse_text kindText, output.endsOnlyLine kindText⟩

end Lines

end Qzt
