import Qzt.Cli.ContextContract
import Qzt.Cli.Display
import Qzt.Cli.JsonOutput

/-!
# Context output (`context_cli.rs`)

A view is rendered as JSON or as text.  The offsets that are subtracted and added on the way are
those of a hit inside its document, so no view of `build` makes the rendering panic; the JSON is
one value with the view's data, and in the text nothing from the container adds or hides a line.
-/

namespace Qzt.Context

open Foundation Foundation.Json Attestation

/-! ## Names -/

def MappingStatus.asStr : MappingStatus → String
  | .unique => "unique"
  | .ambiguous => "ambiguous"
  | .crossDocument => "cross_document"
  | .unmapped => "unmapped"
  | .noDocumentIndex => "no_document_index"

def ScopeKind.asStr : ScopeKind → String
  | .document => "document"
  | .container => "container"

def StopReason.asStr : StopReason → String
  | .budget => "budget"
  | .complete => "complete"
  | .scopeBoundary => "scope_boundary"

/-- `a + b` on an unsigned type. -/
def add (a b : Nat) : Build Nat :=
  okOr .panic (checkedAdd a b)

/-! ## The renderings -/

def documentParts (doc : DocumentEntry) (localOffset localEnd : Nat) : List Part :=
  [.own "\x7b\"id\":\"", .field (escape doc.docId),
    .own "\",\"logical_offset\":", .field (decimal doc.logicalOffset),
    .own ",\"byte_length\":", .field (decimal doc.byteLength),
    .own ",\"local_offset\":", .field (decimal localOffset),
    .own ",\"local_end\":", .field (decimal localEnd), .own "\x7d"]

/-- The `document` member of `render_json`. -/
def documentJson (view : View) : Build (List Char) :=
  match view.document with
  | some doc => do
    let localOffset ← sub view.hitStart doc.logicalOffset
    let localEnd ← sub view.hitEnd doc.logicalOffset
    return textOf (documentParts doc localOffset localEnd)
  | none => .ok "null".toList

def candidateParts (doc : DocumentEntry) (stop : Nat) : List Part :=
  [.own "\x7b\"id\":\"", .field (escape doc.docId),
    .own "\",\"logical_offset\":", .field (decimal doc.logicalOffset),
    .own ",\"end\":", .field (decimal stop), .own "\x7d"]

/-- A candidate of `render_json`. -/
def candidateJson (doc : DocumentEntry) : Build (List Char) := do
  let stop ← add doc.logicalOffset doc.byteLength
  return textOf (candidateParts doc stop)

/-- `render_json`, with its subtractions and the texts of its parts. -/
def jsonParts (view : View) (hitLength : Nat) (document : List Char)
    (candidates : List (List Char)) (display : List Char) : List Part :=
  [.own "\x7b\"hit\":\x7b\"logical_offset\":", .field (decimal view.hitStart),
    .own ",\"byte_length\":", .field (decimal hitLength),
    .own ",\"end\":", .field (decimal view.hitEnd),
    .own "\x7d,\"mapping_status\":\"", .field view.status.asStr.toList,
    .own "\",\"scope\":\x7b\"kind\":\"", .field view.scopeKind.asStr.toList,
    .own "\",\"logical_offset\":", .field (decimal view.scopeStart),
    .own ",\"end\":", .field (decimal view.scopeEnd), .own "\x7d,",
    .own "\"document\":", .field document, .own ",",
    .own "\"candidates\":[", .field (separated candidates),
    .own "],\"excerpt\":\x7b\"logical_offset\":", .field (decimal view.excerptStart),
    .own ",\"byte_length\":", .field (decimal view.bytes.length),
    .own ",\"bytes_hex\":\"", .field (hex view.bytes),
    .own "\",\"text_escaped\":\"", .field (display.flatMap escapeChar),
    .own "\",\"leading_fragment\":", .field (boolText view.leadingFragment),
    .own ",\"trailing_fragment\":", .field (boolText view.trailingFragment),
    .own "\x7d,\"before\":\x7b\"requested\":", .field (decimal view.beforeRequested),
    .own ",\"returned\":", .field (decimal view.beforeReturned),
    .own ",\"stop\":\"", .field view.beforeStop.asStr.toList,
    .own "\"\x7d,\"after\":\x7b\"requested\":", .field (decimal view.afterRequested),
    .own ",\"returned\":", .field (decimal view.afterReturned),
    .own ",\"stop\":\"", .field view.afterStop.asStr.toList,
    .own "\"\x7d,\"verification\":\x7b\"decoded_chunks_verified\":true,",
    .own "\"document_index_block_verified\":", .field (boolText (view.status ≠ .noDocumentIndex)),
    .own ",\"document_checksum_verified\":false,\"search_query_verified\":false,",
    .own "\"external_provenance_verified\":false\x7d\x7d", .own "\n"]

/-- `render_json`. -/
def renderJson (view : View) : Build (List Char) := do
  let hitLength ← sub view.hitEnd view.hitStart
  let document ← documentJson view
  let candidates ← view.candidates.mapM candidateJson
  let display ← escapeDisplay view.bytes
  return textOf (jsonParts view hitLength document candidates display)

/-- The `document` line of `render_text`. -/
def documentLine (view : View) : Build (List Char) :=
  match view.document with
  | some doc => do
    let display ← escapeDisplay (textBytes doc.docId)
    let localOffset ← sub view.hitStart doc.logicalOffset
    let localEnd ← sub view.hitEnd doc.logicalOffset
    return textOf [.own "document: ", .field display, .own " local ", .field (decimal localOffset),
      .own ":", .field (decimal localEnd), .own "\n"]
  | none => .ok []

/-- A `candidate` line of `render_text`. -/
def candidateLine (doc : DocumentEntry) : Build (List Char) := do
  let display ← escapeDisplay (textBytes doc.docId)
  let stop ← add doc.logicalOffset doc.byteLength
  return textOf [.own "candidate: ", .field display, .own " ", .field (decimal doc.logicalOffset),
    .own ":", .field (decimal stop), .own "\n"]

/-- `render_text`. -/
def renderText (view : View) : Build (List Char) := do
  let hitLength ← sub view.hitEnd view.hitStart
  let document ← documentLine view
  let candidates ← view.candidates.mapM candidateLine
  let excerptEnd ← add view.excerptStart view.bytes.length
  let display ← escapeDisplay view.bytes
  return textOf [.own "hit ", .field (decimal view.hitStart), .own ":",
      .field (decimal view.hitEnd), .own " (", .field (decimal hitLength), .own " bytes)", .own "\n"] ++
    textOf [.own "mapping: ", .field view.status.asStr.toList, .own "\n"] ++
    textOf [.own "scope: ", .field view.scopeKind.asStr.toList, .own " ",
      .field (decimal view.scopeStart), .own ":", .field (decimal view.scopeEnd), .own "\n"] ++
    document ++ candidates.flatten ++
    textOf [.own "excerpt ", .field (decimal view.excerptStart), .own ":",
      .field (decimal excerptEnd), .own " (", .field (decimal view.bytes.length),
      .own " bytes; leading_fragment=", .field (boolText view.leadingFragment),
      .own "; trailing_fragment=", .field (boolText view.trailingFragment), .own ")", .own "\n"] ++
    textOf [.own "before: ", .field (decimal view.beforeReturned), .own "/",
      .field (decimal view.beforeRequested), .own " stop=", .field view.beforeStop.asStr.toList,
      .own "\n"] ++
    textOf [.own "after: ", .field (decimal view.afterReturned), .own "/",
      .field (decimal view.afterRequested), .own " stop=", .field view.afterStop.asStr.toList,
      .own "\n"] ++
    textOf [.own "original bytes (escaped display): ", .field display, .own "\n"] ++
    textOf [.own "verification: decoded chunks checked; document checksum, search query and ",
      .own "external provenance not verified", .own "\n"]

/-- The rendering in the chosen format. -/
def renderAs (json : Bool) (view : View) : Build (List Char) :=
  if json then renderJson view else renderText view

/-- The end of `build`: the rendering, within the output limit. -/
def render (env : Env) (reader : QztFileReader) (options : Options) (json : Bool) (output : Nat) :
    Build (List Char) := do
  let view ← build env reader options
  let text ← renderAs json view
  rejectIf ((Utf8.encode text).length > output) (.qzt .resourceLimitExceeded)
  return text

/-! ## What the rendering relies on -/

/-- The offsets that the renderings subtract and add. -/
structure Bounded (view : View) : Prop where
  hit : view.hitStart ≤ view.hitEnd
  document : ∀ doc, view.document = some doc → doc.logicalOffset ≤ view.hitStart
  candidates : ∀ doc ∈ view.candidates, doc.logicalOffset + doc.byteLength < 2 ^ 64
  excerpt : view.excerptStart + view.bytes.length < 2 ^ 64

theorem safe_add {a b : Nat} (h : a + b < 2 ^ 64) : Safe (add a b) (· = a + b) := by
  rw [add, checkedAdd_eq_some_iff.mpr ⟨h, rfl⟩]
  rfl

theorem safe_mapM {α β : Type} {f : α → Build β} {post : α → β → Prop} {items : List α}
    (h : ∀ a ∈ items, Safe (f a) (post a)) :
    Safe (items.mapM f) (fun results => List.Forall₂ post items results) := by
  induction items with
  | nil => exact safe_ok .nil
  | cons a items ih =>
    obtain ⟨hfirst, hrest⟩ := List.forall_mem_cons.mp h
    rw [List.mapM_cons]
    refine safe_bind hfirst fun b hb => ?_
    exact safe_bind (ih hrest) fun results hresults => safe_ok (.cons hb hresults)

/-! ## The JSON -/

def documentValue (view : View) (doc : DocumentEntry) : Json :=
  jsonObject [("id", jsonText doc.docId),
    ("logical_offset", jsonNumber doc.logicalOffset),
    ("byte_length", jsonNumber doc.byteLength),
    ("local_offset", jsonNumber (view.hitStart - doc.logicalOffset)),
    ("local_end", jsonNumber (view.hitEnd - doc.logicalOffset))]

def candidateValue (doc : DocumentEntry) : Json :=
  jsonObject [("id", jsonText doc.docId),
    ("logical_offset", jsonNumber doc.logicalOffset),
    ("end", jsonNumber (doc.logicalOffset + doc.byteLength))]

/-- The value of a view, whose excerpt is also shown as the text `display`. -/
def viewValue (view : View) (display : List Char) : Json :=
  jsonObject [
    ("hit", jsonObject [("logical_offset", jsonNumber view.hitStart),
      ("byte_length", jsonNumber (view.hitEnd - view.hitStart)),
      ("end", jsonNumber view.hitEnd)]),
    ("mapping_status", jsonText view.status.asStr),
    ("scope", jsonObject [("kind", jsonText view.scopeKind.asStr),
      ("logical_offset", jsonNumber view.scopeStart), ("end", jsonNumber view.scopeEnd)]),
    ("document", jsonOption (documentValue view) view.document),
    ("candidates", .arr (view.candidates.map candidateValue)),
    ("excerpt", jsonObject [("logical_offset", jsonNumber view.excerptStart),
      ("byte_length", jsonNumber view.bytes.length),
      ("bytes_hex", jsonHex view.bytes),
      ("text_escaped", .str display),
      ("leading_fragment", .bool view.leadingFragment),
      ("trailing_fragment", .bool view.trailingFragment)]),
    ("before", jsonObject [("requested", jsonNumber view.beforeRequested),
      ("returned", jsonNumber view.beforeReturned), ("stop", jsonText view.beforeStop.asStr)]),
    ("after", jsonObject [("requested", jsonNumber view.afterRequested),
      ("returned", jsonNumber view.afterReturned), ("stop", jsonText view.afterStop.asStr)]),
    ("verification", jsonObject [("decoded_chunks_verified", .bool true),
      ("document_index_block_verified", .bool (view.status ≠ .noDocumentIndex)),
      ("document_checksum_verified", .bool false), ("search_query_verified", .bool false),
      ("external_provenance_verified", .bool false)])]

theorem isPlain_status (status : MappingStatus) : isPlain status.asStr.toList = true := by
  cases status <;> rfl

theorem isPlain_scopeKind (kind : ScopeKind) : isPlain kind.asStr.toList = true := by
  cases kind <;> rfl

theorem isPlain_stop (stop : StopReason) : isPlain stop.asStr.toList = true := by
  cases stop <;> rfl

section Json

set_option maxRecDepth 4000

/-- The text of a value, on one line. -/
structure Writes (text : List Char) (value : Json) : Prop where
  reads : Json.Reads text value
  newline : '\n' ∉ text

theorem writes_document (view : View) (doc : DocumentEntry) :
    Writes (textOf (documentParts doc (view.hitStart - doc.logicalOffset)
      (view.hitEnd - doc.logicalOffset))) (documentValue view doc) where
  reads := by
    refine Reads.of_eq (reads_jsonObject (member "id" rfl (reads_jsonText doc.docId))
      [member "logical_offset" rfl (reads_jsonNumber doc.logicalOffset),
        member "byte_length" rfl (reads_jsonNumber doc.byteLength),
        member "local_offset" rfl (reads_jsonNumber (view.hitStart - doc.logicalOffset)),
        member "local_end" rfl (reads_jsonNumber (view.hitEnd - doc.logicalOffset))]) ?_ rfl
    simp [documentParts, textOf, Part.text, Member.write, writeMoreMembers, member]
  newline := Unbroken.textOf (by simp [Unbroken, documentParts, Part.text])

theorem writes_candidate (doc : DocumentEntry) :
    Writes (textOf (candidateParts doc (doc.logicalOffset + doc.byteLength))) (candidateValue doc) where
  reads := by
    refine Reads.of_eq (reads_jsonObject (member "id" rfl (reads_jsonText doc.docId))
      [member "logical_offset" rfl (reads_jsonNumber doc.logicalOffset),
        member "end" rfl (reads_jsonNumber (doc.logicalOffset + doc.byteLength))]) ?_ rfl
    simp [candidateParts, textOf, Part.text, Member.write, writeMoreMembers, member]
  newline := Unbroken.textOf (by simp [Unbroken, candidateParts, Part.text])

theorem documentJson_safe {view : View} (h : Bounded view) : Safe (documentJson view)
    (fun text => Writes text (jsonOption (documentValue view) view.document)) := by
  rw [documentJson]
  cases hdocument : view.document with
  | none => exact safe_ok ⟨reads_null, by decide⟩
  | some doc =>
    have hstart := h.document doc hdocument
    refine safe_bind (safe_sub hstart) fun localOffset hlocal => ?_
    refine safe_bind (safe_sub (hstart.trans h.hit)) fun localEnd hend => ?_
    subst hlocal hend
    exact safe_ok (writes_document view doc)

theorem candidateJson_safe {doc : DocumentEntry}
    (h : doc.logicalOffset + doc.byteLength < 2 ^ 64) :
    Safe (candidateJson doc) (fun text => Writes text (candidateValue doc)) := by
  refine safe_bind (safe_add h) fun stop hstop => ?_
  subst hstop
  exact safe_ok (writes_candidate doc)

theorem parse_jsonParts {view : View} {document display : List Char}
    {candidates : List (List Char)}
    (hdocument : Writes document (jsonOption (documentValue view) view.document))
    (hcandidates : List.Forall₂ (fun doc text => Writes text (candidateValue doc))
      view.candidates candidates) :
    parse (textOf (jsonParts view (view.hitEnd - view.hitStart) document candidates display)) =
      some (viewValue view display) := by
  have hhit := reads_jsonObject (member "logical_offset" rfl (reads_jsonNumber view.hitStart))
    [member "byte_length" rfl (reads_jsonNumber (view.hitEnd - view.hitStart)),
      member "end" rfl (reads_jsonNumber view.hitEnd)]
  have hscope := reads_jsonObject
    (member "kind" rfl (reads_name (isPlain_scopeKind view.scopeKind)))
    [member "logical_offset" rfl (reads_jsonNumber view.scopeStart),
      member "end" rfl (reads_jsonNumber view.scopeEnd)]
  have hitems : List.Forall₂ Json.Reads candidates (view.candidates.map candidateValue) := by
    rw [List.forall₂_map_right_iff]
    exact hcandidates.flip.imp fun _ _ h => h.reads
  have hexcerpt := reads_jsonObject
    (member "logical_offset" rfl (reads_jsonNumber view.excerptStart))
    [member "byte_length" rfl (reads_jsonNumber view.bytes.length),
      member "bytes_hex" rfl (reads_jsonHex view.bytes),
      member "text_escaped" rfl (readsString_flatMap readsChar_escapeChar display).reads,
      member "leading_fragment" rfl (reads_boolText view.leadingFragment),
      member "trailing_fragment" rfl (reads_boolText view.trailingFragment)]
  have hbefore := reads_jsonObject (member "requested" rfl (reads_jsonNumber view.beforeRequested))
    [member "returned" rfl (reads_jsonNumber view.beforeReturned),
      member "stop" rfl (reads_name (isPlain_stop view.beforeStop))]
  have hafter := reads_jsonObject (member "requested" rfl (reads_jsonNumber view.afterRequested))
    [member "returned" rfl (reads_jsonNumber view.afterReturned),
      member "stop" rfl (reads_name (isPlain_stop view.afterStop))]
  have hverification := reads_jsonObject
    (member "decoded_chunks_verified" rfl (reads_bool true))
    [member "document_index_block_verified" rfl
        (reads_boolText (view.status ≠ .noDocumentIndex)),
      member "document_checksum_verified" rfl (reads_bool false),
      member "search_query_verified" rfl (reads_bool false),
      member "external_provenance_verified" rfl (reads_bool false)]
  have hreads := reads_jsonObject (member "hit" rfl hhit)
    [member "mapping_status" rfl (reads_name (isPlain_status view.status)),
      member "scope" rfl hscope,
      member "document" rfl hdocument.reads,
      member "candidates" rfl (reads_array hitems),
      member "excerpt" rfl hexcerpt,
      member "before" rfl hbefore,
      member "after" rfl hafter,
      member "verification" rfl hverification]
  refine Eq.trans (congrArg parse ?_) (hreads.parse blank_newline)
  simp [jsonParts, textOf, Part.text, Member.write, writeMoreMembers, member]

@[simp] theorem newline_not_mem_status (status : MappingStatus) : '\n' ∉ status.asStr.toList :=
  newline_not_mem_of_isPlain (isPlain_status status)

@[simp] theorem newline_not_mem_scopeKind (kind : ScopeKind) : '\n' ∉ kind.asStr.toList :=
  newline_not_mem_of_isPlain (isPlain_scopeKind kind)

@[simp] theorem newline_not_mem_stop (stop : StopReason) : '\n' ∉ stop.asStr.toList :=
  newline_not_mem_of_isPlain (isPlain_stop stop)

@[simp] theorem newline_not_mem_escapeChar (c : Char) : '\n' ∉ escapeChar c :=
  (closed_escapeChar c).2

/-- What the JSON of a view says. -/
structure JsonContract (view : View) (text : List Char) : Prop where
  line : EndsOnlyLine text
  value : ∃ display, escapeDisplay view.bytes = .ok display ∧ Shown display ∧
    parse text = some (viewValue view display)

theorem renderJson_safe {view : View} (h : Bounded view) :
    Safe (renderJson view) (JsonContract view) := by
  refine safe_bind (safe_sub h.hit) fun hitLength hlength => ?_
  refine safe_bind (documentJson_safe h) fun document hdocument => ?_
  refine safe_bind (safe_mapM fun doc hdoc => candidateJson_safe (h.candidates doc hdoc))
    fun candidates hcandidates => ?_
  refine safe_bind (escapeDisplay_safe view.bytes).with_eq fun display hdisplay => ?_
  subst hlength
  refine safe_ok ⟨?_, display, hdisplay.1, hdisplay.2, parse_jsonParts hdocument hcandidates⟩
  have hseparated : '\n' ∉ separated candidates := by
    apply newline_not_mem_separated
    intro text htext
    obtain ⟨i, hi, rfl⟩ := List.getElem_of_mem htext
    have hwritten := hcandidates.get (by rw [hcandidates.length_eq]; exact hi) hi
    exact hwritten.newline
  refine endsOnlyLine_textOf "\n" rfl rfl (by decide) ?_
  simp [Unbroken, jsonParts, Part.text, hdocument.newline, hseparated]

end Json

/-! ## The text -/

/-- A text of so many lines, all of visible characters. -/
def Lines (text : List Char) (count : Nat) : Prop :=
  ∃ lines : List (List Char), text = lines.flatMap (· ++ ['\n']) ∧ lines.length = count ∧
    ∀ line ∈ lines, Shown line

theorem lines_nil : Lines [] 0 :=
  ⟨[], rfl, rfl, fun _ hline => absurd hline List.not_mem_nil⟩

theorem Lines.append {first second : List Char} {n m : Nat} (h : Lines first n)
    (hsecond : Lines second m) : Lines (first ++ second) (n + m) := by
  obtain ⟨lines, rfl, rfl, hshown⟩ := h
  obtain ⟨others, rfl, rfl, hothers⟩ := hsecond
  refine ⟨lines ++ others, List.flatMap_append.symm, List.length_append, ?_⟩
  exact List.forall_mem_append.mpr ⟨hshown, hothers⟩

/-- Parts of visible characters, and the end of the line. -/
theorem lines_textOf {parts : List Part} (hlast : parts.getLast? = some (.own "\n"))
    (h : ∀ part ∈ parts.dropLast, Shown part.text) : Lines (textOf parts) 1 := by
  refine ⟨[textOf parts.dropLast], ?_, rfl, ?_⟩
  · have hsplit := List.dropLast_append_getLast? _ hlast
    conv_lhs => rw [← hsplit]
    rw [List.flatMap_singleton, textOf, List.flatMap_append, List.flatMap_singleton]
    rfl
  · intro line hline
    rw [List.mem_singleton.mp hline]
    intro c hc
    obtain ⟨part, hpart, hc⟩ := List.mem_flatMap.mp hc
    exact h part hpart c hc

theorem shown_boolText (value : Bool) : Shown (boolText value) := by
  cases value <;> exact shown_of_all rfl

theorem shown_status (status : MappingStatus) : Shown status.asStr.toList := by
  cases status <;> exact shown_of_all rfl

theorem shown_scopeKind (kind : ScopeKind) : Shown kind.asStr.toList := by
  cases kind <;> exact shown_of_all rfl

theorem shown_stop (stop : StopReason) : Shown stop.asStr.toList := by
  cases stop <;> exact shown_of_all rfl

theorem documentLine_safe {view : View} (h : Bounded view) :
    Safe (documentLine view) (fun text => Lines text view.document.toList.length) := by
  rw [documentLine]
  cases hdocument : view.document with
  | none => exact safe_ok lines_nil
  | some doc =>
    have hstart := h.document doc hdocument
    refine safe_bind (escapeDisplay_safe _) fun display hdisplay => ?_
    refine safe_bind (safe_sub hstart) fun localOffset _ => ?_
    refine safe_bind (safe_sub (hstart.trans h.hit)) fun localEnd _ => safe_ok ?_
    refine lines_textOf rfl ?_
    simp only [List.dropLast_cons_cons, List.dropLast_singleton, List.forall_mem_cons,
      List.not_mem_nil, false_implies, implies_true, and_true, Part.text]
    exact ⟨shown_of_all rfl, hdisplay, shown_of_all rfl, shown_decimal _, shown_of_all rfl,
      shown_decimal _⟩

theorem candidateLine_safe {doc : DocumentEntry}
    (h : doc.logicalOffset + doc.byteLength < 2 ^ 64) :
    Safe (candidateLine doc) (fun text => Lines text 1) := by
  refine safe_bind (escapeDisplay_safe _) fun display hdisplay => ?_
  refine safe_bind (safe_add h) fun stop _ => safe_ok ?_
  refine lines_textOf rfl ?_
  simp only [List.dropLast_cons_cons, List.dropLast_singleton, List.forall_mem_cons,
    List.not_mem_nil, false_implies, implies_true, and_true, Part.text]
  exact ⟨shown_of_all rfl, hdisplay, shown_of_all rfl, shown_decimal _, shown_of_all rfl,
    shown_decimal _⟩

theorem lines_flatten {α : Type} {items : List α} {texts : List (List Char)}
    (h : List.Forall₂ (fun _ text => Lines text 1) items texts) :
    Lines texts.flatten items.length := by
  induction h with
  | nil => exact lines_nil
  | cons hfirst _ ih =>
    rw [List.flatten_cons, List.length_cons, Nat.add_comm]
    exact hfirst.append ih

/-- The text of a view is the lines of the template, one for its document and one for each
candidate. -/
theorem renderText_safe {view : View} (h : Bounded view) : Safe (renderText view)
    (fun text => Lines text (8 + view.document.toList.length + view.candidates.length)) := by
  refine safe_bind (safe_sub h.hit) fun hitLength _ => ?_
  refine safe_bind (documentLine_safe h) fun document hdocument => ?_
  refine safe_bind (safe_mapM fun doc hdoc => candidateLine_safe (h.candidates doc hdoc))
    fun candidates hcandidates => ?_
  refine safe_bind (safe_add h.excerpt) fun excerptEnd _ => ?_
  refine safe_bind (escapeDisplay_safe view.bytes) fun display hdisplay => safe_ok ?_
  have hcount : 8 + view.document.toList.length + view.candidates.length =
      1 + 1 + 1 + view.document.toList.length + view.candidates.length + 1 + 1 + 1 + 1 + 1 := by
    omega
  rw [hcount]
  refine ((((((((Lines.append (lines_textOf rfl ?_) (lines_textOf rfl ?_)).append
    (lines_textOf rfl ?_)).append hdocument).append (lines_flatten hcandidates)).append
    (lines_textOf rfl ?_)).append (lines_textOf rfl ?_)).append (lines_textOf rfl ?_)).append
    (lines_textOf rfl ?_)).append (lines_textOf rfl ?_)
  all_goals
    simp only [List.dropLast_cons_cons, List.dropLast_singleton, List.forall_mem_cons,
      List.not_mem_nil, false_implies, implies_true, and_true, Part.text]
  · exact ⟨shown_of_all rfl, shown_decimal _, shown_of_all rfl, shown_decimal _, shown_of_all rfl,
      shown_decimal _, shown_of_all rfl⟩
  · exact ⟨shown_of_all rfl, shown_status _⟩
  · exact ⟨shown_of_all rfl, shown_scopeKind _, shown_of_all rfl, shown_decimal _,
      shown_of_all rfl, shown_decimal _⟩
  · exact ⟨shown_of_all rfl, shown_decimal _, shown_of_all rfl, shown_decimal _, shown_of_all rfl,
      shown_decimal _, shown_of_all rfl, shown_boolText _, shown_of_all rfl, shown_boolText _,
      shown_of_all rfl⟩
  · exact ⟨shown_of_all rfl, shown_decimal _, shown_of_all rfl, shown_decimal _, shown_of_all rfl,
      shown_stop _⟩
  · exact ⟨shown_of_all rfl, shown_decimal _, shown_of_all rfl, shown_decimal _, shown_of_all rfl,
      shown_stop _⟩
  · exact ⟨shown_of_all rfl, hdisplay⟩
  · exact ⟨shown_of_all rfl, shown_of_all rfl⟩

/-! ## Which documents a hit touches -/

section Mapping

variable {originalSize hitStart hitEnd : Nat}

/-- The hit has a byte of the document. -/
def touches (hitStart hitEnd : Nat) (doc : DocumentEntry) : Bool :=
  doc.byteLength > 0 ∧ doc.logicalOffset < hitEnd ∧ hitStart < doc.logicalOffset + doc.byteLength

/-- The document has every byte of the hit. -/
def contains (hitStart hitEnd : Nat) (doc : DocumentEntry) : Bool :=
  doc.logicalOffset ≤ hitStart ∧ hitEnd ≤ doc.logicalOffset + doc.byteLength

/-- The loop keeps, in order, the documents that the hit touches and those of them that contain
it. -/
theorem mapDocuments_found (documents : List DocumentEntry) :
    ∀ {intersecting containing : List DocumentEntry}, Safe
      (mapDocuments originalSize hitStart hitEnd documents intersecting containing) (fun found =>
        found.1 = intersecting ++ documents.filter (touches hitStart hitEnd) ∧
          found.2 = containing ++
            (documents.filter (touches hitStart hitEnd)).filter (contains hitStart hitEnd) ∧
            ∀ doc ∈ documents, doc.logicalOffset + doc.byteLength ≤ originalSize) := by
  induction documents with
  | nil =>
    intro intersecting containing
    refine safe_ok ⟨?_, ?_, fun _ hdoc => absurd hdoc List.not_mem_nil⟩
    · exact (List.append_nil _).symm
    · exact (List.append_nil _).symm
  | cons doc documents ih =>
    intro intersecting containing
    rw [mapDocuments]
    refine safe_bind safe_okOr fun stop hstop => ?_
    obtain ⟨-, rfl⟩ := checkedAdd_eq_some_iff.mp hstop
    refine safe_bind safe_rejectIf fun _ hsize => ?_
    have hbound : doc.logicalOffset + doc.byteLength ≤ originalSize := Nat.le_of_not_lt hsize
    apply safe_ite
    · intro htouched
      have htouches : touches hitStart hitEnd doc = true := decide_eq_true htouched
      refine safe_bind safe_rejectIf fun _ _ => ih.mono fun found hfound => ?_
      obtain ⟨hintersecting, hcontaining, hrest⟩ := hfound
      rw [List.filter_cons_of_pos htouches]
      refine ⟨?_, ?_, List.forall_mem_cons.mpr ⟨hbound, hrest⟩⟩
      · rw [hintersecting, List.append_assoc]
        rfl
      · rw [hcontaining]
        by_cases hcontains : doc.logicalOffset ≤ hitStart ∧
            hitEnd ≤ doc.logicalOffset + doc.byteLength
        · have hcontained : contains hitStart hitEnd doc = true := decide_eq_true hcontains
          rw [if_pos hcontains, List.filter_cons_of_pos hcontained, List.append_assoc]
          rfl
        · rw [if_neg hcontains, List.filter_cons_of_neg]
          rw [contains, decide_eq_true_eq]
          exact hcontains
    · intro huntouched
      have htouches : ¬ touches hitStart hitEnd doc = true := by
        rw [touches, decide_eq_true_eq]
        exact huntouched
      refine ih.mono fun found hfound => ?_
      obtain ⟨hintersecting, hcontaining, hrest⟩ := hfound
      rw [List.filter_cons_of_neg htouches]
      exact ⟨hintersecting, hcontaining, List.forall_mem_cons.mpr ⟨hbound, hrest⟩⟩

end Mapping

/-! ### The mapping -/

theorem unique_iff {α : Type} {touched : List α} {test : α → Bool} :
    ((touched.filter test).length = 1 ∧ touched.length = 1) ↔
      ∃ a, touched = [a] ∧ test a = true := by
  constructor
  · rintro ⟨hfiltered, hone⟩
    obtain ⟨a, rfl⟩ := List.length_eq_one_iff.mp hone
    refine ⟨a, rfl, ?_⟩
    by_contra hnot
    rw [List.filter_cons_of_neg hnot] at hfiltered
    cases hfiltered
  · rintro ⟨a, rfl, htest⟩
    rw [List.filter_cons_of_pos htest]
    exact ⟨rfl, rfl⟩

theorem filter_eq_nil_iff {α : Type} {touched : List α} {test : α → Bool} :
    touched.filter test = [] ↔ ∀ a ∈ touched, test a = false := by
  simp only [List.filter_eq_nil_iff, Bool.not_eq_true]

/-- The status of a hit that no document has for itself. -/
def overlap {α : Type} (touched containing : List α) : MappingStatus :=
  if containing ≠ [] then .ambiguous else if touched ≠ [] then .crossDocument else .unmapped

theorem overlap_eq_ambiguous {α : Type} {touched : List α} {test : α → Bool} :
    overlap touched (touched.filter test) = .ambiguous ↔ ∃ a ∈ touched, test a = true := by
  rw [overlap]
  by_cases hnone : touched.filter test = []
  · rw [if_neg (not_not.mpr hnone)]
    rw [filter_eq_nil_iff] at hnone
    apply iff_of_false
    · split <;> exact MappingStatus.noConfusion
    · rintro ⟨a, ha, htest⟩
      rw [hnone a ha] at htest
      cases htest
  · rw [if_pos hnone]
    obtain ⟨a, ha⟩ := List.exists_mem_of_ne_nil _ hnone
    exact iff_of_true rfl ⟨a, List.mem_filter.mp ha⟩

theorem overlap_eq_crossDocument {α : Type} {touched : List α} {test : α → Bool} :
    overlap touched (touched.filter test) = .crossDocument ↔
      touched ≠ [] ∧ ∀ a ∈ touched, test a = false := by
  rw [overlap]
  by_cases hnone : touched.filter test = []
  · rw [if_neg (not_not.mpr hnone)]
    rw [filter_eq_nil_iff] at hnone
    by_cases hempty : touched = []
    · rw [if_neg (not_not.mpr hempty)]
      exact iff_of_false MappingStatus.noConfusion fun h => h.1 hempty
    · rw [if_pos hempty]
      exact iff_of_true rfl ⟨hempty, hnone⟩
  · rw [if_pos hnone]
    exact iff_of_false MappingStatus.noConfusion fun h => hnone (filter_eq_nil_iff.mpr h.2)

/-- What a view says about the documents its hit touches. -/
structure Mapped (details : SkeletonDetails) (hitStart hitEnd : Nat) (status : MappingStatus)
    (document : Option DocumentEntry) (candidates : List DocumentEntry) : Prop where
  /-- The candidates are the touched documents, in the order of the index. -/
  touched : ∀ index, details.documentIndex = some index →
    candidates = index.documents.filter (touches hitStart hitEnd)
  noIndex : details.documentIndex = none → candidates = []
  /-- A document is named when it is the only one touched and contains the hit. -/
  named : ∀ doc, document = some doc ↔ candidates = [doc] ∧ contains hitStart hitEnd doc = true
  unique : status = .unique ↔ document ≠ none
  ambiguous : status = .ambiguous ↔
    document = none ∧ ∃ doc ∈ candidates, contains hitStart hitEnd doc = true
  crossDocument : status = .crossDocument ↔
    candidates ≠ [] ∧ ∀ doc ∈ candidates, contains hitStart hitEnd doc = false
  noDocumentIndex : status = .noDocumentIndex ↔ details.documentIndex = none
  inside : ∀ doc ∈ candidates,
    doc.logicalOffset + doc.byteLength ≤ details.summary.originalSize

section Contract

variable {env : Env} {reader : QztFileReader} {options : Options}

theorem mapped_of_mapHit {details : SkeletonDetails} {hitStart hitEnd : Nat} {status : MappingStatus}
    {intersecting containing : List DocumentEntry} {document : Option DocumentEntry}
    (hmap : mapHit details options hitStart hitEnd = .ok (status, intersecting, containing))
    (hdocument : uniqueDocument status containing = .ok document) :
    Mapped details hitStart hitEnd status document intersecting := by
  unfold mapHit at hmap
  split at hmap
  case h_2 hnone =>
    simp only [Except.ok.injEq, Prod.mk.injEq] at hmap
    obtain ⟨rfl, rfl, rfl⟩ := hmap
    obtain rfl : none = document := Except.ok.inj hdocument
    constructor <;> simp [hnone]
  case h_1 index hindex =>
    simp only [bind_eq_ok_iff, pure_eq_ok, Except.ok.injEq, Prod.mk.injEq] at hmap
    obtain ⟨-, -, ⟨found, other⟩, hfound, hstatus, rfl, rfl⟩ := hmap
    obtain ⟨hintersecting, hcontaining, hinside⟩ := (mapDocuments_found index.documents).of_ok hfound
    simp only [List.nil_append] at hintersecting hcontaining hstatus
    rw [← hintersecting] at hcontaining
    have hindexed : details.documentIndex ≠ none := by
      rw [hindex]
      exact Option.some_ne_none index
    have htouched : ∀ other, details.documentIndex = some other →
        found = other.documents.filter (touches hitStart hitEnd) := by
      intro other hother
      rw [hindex, Option.some.injEq] at hother
      rw [← hother]
      exact hintersecting
    have hbound : ∀ doc ∈ found,
        doc.logicalOffset + doc.byteLength ≤ details.summary.originalSize := by
      intro doc hdoc
      rw [hintersecting] at hdoc
      exact hinside doc (List.mem_of_mem_filter hdoc)
    by_cases hunique : other.length = 1 ∧ found.length = 1
    · -- the only touched document contains the hit
      rw [if_pos hunique] at hstatus
      subst hstatus
      rw [hcontaining, unique_iff] at hunique
      obtain ⟨doc, rfl, hcontains⟩ := hunique
      rw [List.filter_cons_of_pos hcontains, List.filter_nil] at hcontaining
      subst hcontaining
      obtain rfl : some doc = document := Except.ok.inj hdocument
      have hnot : ¬ contains hitStart hitEnd doc = false := by
        rw [hcontains]
        exact Bool.noConfusion
      refine {
        touched := htouched
        noIndex := fun h => absurd h hindexed
        named := fun doc' => ⟨?_, ?_⟩
        unique := iff_of_true rfl (Option.some_ne_none doc)
        ambiguous := iff_of_false (by decide) fun h => absurd h.1 (Option.some_ne_none doc)
        crossDocument := iff_of_false (by decide) fun h => hnot (h.2 doc List.mem_cons_self)
        noDocumentIndex := iff_of_false (by decide) hindexed
        inside := hbound }
      · rintro ⟨⟩
        exact ⟨rfl, hcontains⟩
      · rintro ⟨⟨⟩, -⟩
        rfl
    · rw [if_neg hunique] at hstatus
      change overlap found other = status at hstatus
      have hother : status ≠ .unique ∧ status ≠ .noDocumentIndex := by
        rw [← hstatus, overlap]
        split
        · exact ⟨MappingStatus.noConfusion, MappingStatus.noConfusion⟩
        split
        · exact ⟨MappingStatus.noConfusion, MappingStatus.noConfusion⟩
        · exact ⟨MappingStatus.noConfusion, MappingStatus.noConfusion⟩
      obtain rfl : none = document := by
        rw [uniqueDocument, if_neg hother.1] at hdocument
        exact Except.ok.inj hdocument
      rw [hcontaining, unique_iff] at hunique
      refine {
        touched := htouched
        noIndex := fun h => absurd h hindexed
        named := fun doc => iff_of_false (fun h => absurd h.symm (Option.some_ne_none doc))
          fun h => hunique ⟨doc, h⟩
        unique := iff_of_false hother.1 fun h => h rfl
        ambiguous := ?_
        crossDocument := ?_
        noDocumentIndex := iff_of_false hother.2 hindexed
        inside := hbound }
      · rw [← hstatus, hcontaining, overlap_eq_ambiguous]
        exact (and_iff_right rfl).symm
      · rw [← hstatus, hcontaining, overlap_eq_crossDocument]

theorem mapped_of_build {view : View} (h : build env reader options = .ok view) :
    Mapped reader.details view.hitStart view.hitEnd view.status view.document view.candidates := by
  simp only [build, bind_eq_ok_iff, pure_eq_ok, Except.ok.injEq] at h
  obtain ⟨⟨hitStart, hitEnd⟩, -, ⟨status, intersecting, containing⟩, hmap, document, hdocument, -, -, -,
    -, -, -, -, -, -, -, rfl⟩ := h
  exact mapped_of_mapHit hmap hdocument

/-- The rendering of a view of `build` does no wrong arithmetic. -/
theorem bounded_of_build {view : View}
    (hlayout : Layout reader.details.chunkEntries reader.details.summary.originalSize)
    (hbuild : build env reader options = .ok view) (hfaithful : Faithful env reader options view) :
    Bounded view := by
  have hmapped := mapped_of_build hbuild
  have hsize := hlayout.size_lt
  obtain ⟨-, length, -, hend⟩ := hfaithful.hit
  have hhit := hfaithful.contains_hit
  have hinside := hfaithful.inside_scope
  have hscope : (scopeOf reader.details.summary.originalSize view.document).2.1 ≤
      reader.details.summary.originalSize := by
    cases hdocument : view.document with
    | none => exact Nat.le_refl _
    | some doc => exact (hfaithful.document doc hdocument).size
  rw [← hfaithful.scope] at hscope
  dsimp only at hscope
  refine ⟨by omega, fun doc hdoc => (hfaithful.document doc hdoc).1, fun doc hdoc => ?_, by omega⟩
  have hbound := hmapped.inside doc hdoc
  omega

/-- What a rendering says, in either format. -/
structure Rendered (env : Env) (reader : QztFileReader) (options : Options) (json : Bool)
    (output : Nat) (text : List Char) (view : View) : Prop where
  built : build env reader options = .ok view
  faithful : Faithful env reader options view
  mapped : Mapped reader.details view.hitStart view.hitEnd view.status view.document view.candidates
  size : (Utf8.encode text).length ≤ output
  asJson : json = true → JsonContract view text
  asText : json = false → Lines text (8 + view.document.toList.length + view.candidates.length)

theorem render_safe (hlayout : Layout reader.details.chunkEntries reader.details.summary.originalSize)
    (hnonempty : ∀ length, options.length = some length → 0 < length) (json : Bool) (output : Nat) :
    Safe (render env reader options json output)
      (fun text => ∃ view, Rendered env reader options json output text view) := by
  refine safe_bind (build_safe hlayout hnonempty).with_eq fun view hview => ?_
  have hbounded := bounded_of_build hlayout hview.1 hview.2
  have htext : Safe (renderAs json view) (fun text =>
      (json = true → JsonContract view text) ∧ (json = false →
        Lines text (8 + view.document.toList.length + view.candidates.length))) := by
    cases json with
    | true => exact (renderJson_safe hbounded).mono fun text h => ⟨fun _ => h, Bool.noConfusion⟩
    | false => exact (renderText_safe hbounded).mono fun text h => ⟨Bool.noConfusion, fun _ => h⟩
  refine safe_bind htext fun text hwritten => ?_
  refine safe_bind safe_rejectIf fun _ hsize => safe_ok ?_
  exact ⟨view, hview.1, hview.2, mapped_of_build hview.1, Nat.le_of_not_lt hsize, hwritten.1,
    hwritten.2⟩

end Contract

/-! ## A rendering -/

/-- What is printed for a hit, if anything. -/
def renderingOf (container : List UInt8) (options : Options) (json : Bool) (output : Nat) :
    Option (List Char) :=
  match QztFileReader.openReadAt Reference.env (memorySource container) container.length with
  | .error _ => none
  | .ok reader => (render Reference.env reader options json output).toOption

set_option maxRecDepth 100000 in
theorem renderingOf_staleContainer :
    (renderingOf staleContainer betaOptions true 4096).isSome = true := by
  decide +kernel

theorem renderingOf_eq_some {container : List UInt8} {options : Options} {json : Bool} {output : Nat}
    {text : List Char} (h : renderingOf container options json output = some text) : ∃ reader,
      QztFileReader.openReadAt Reference.env (memorySource container) container.length = .ok reader ∧
        render Reference.env reader options json output = .ok text := by
  unfold renderingOf at h
  split at h
  case h_1 => cases h
  case h_2 reader hopen =>
    refine ⟨reader, hopen, ?_⟩
    cases hrender : render Reference.env reader options json output with
    | error error =>
      rw [hrender] at h
      cases h
    | ok found =>
      rw [hrender] at h
      rw [Option.some.inj h]

end Qzt.Context
