import ChainLint.Proofs.Json.Decodes
import ChainLint.Proofs.Json.Printed
import ChainLint.Report.Document

/-!
# ChainLint.Proofs.Report.Document

What the report as a JSON document says. A reader decodes the text and looks members up by name;
an object with other members than those of a report has no content.

* `Content`: what a document holds of a scan. `contentOf`: what it has to hold.
* `Content.ofValue?`: the content of a decoded value.
* `documentText_lossless`: any decoder finds the document in its text, and the content is that of
  the scan.
-/

namespace ChainLint
namespace Report

/-- A finding without code and fix, at the place that is shown. -/
structure ShownDiagnostic where
  place : String
  line : Int
  column : Int
  ruleId : String
  message : String
  deriving DecidableEq

structure ShownFailure where
  place : String
  kind : FailureCause
  message : String
  line : Int
  deriving DecidableEq

structure Content where
  version : String
  totalFiles : Int
  diagnostics : List ShownDiagnostic
  failures : List ShownFailure
  deriving DecidableEq

def shownDiagnostic (s : Setting) (d : Diagnostic) : ShownDiagnostic :=
  ⟨s.place d.filePath, d.line, d.column, d.ruleId, d.message⟩

def shownFailure (s : Setting) (f : Failure) : ShownFailure :=
  ⟨s.place f.filePath, f.kind, f.message, f.line⟩

/-- What a document has to say about a scan. -/
def contentOf (s : Setting) (r : ScanOutcome) : Content where
  version := version
  totalFiles := r.totalFiles
  diagnostics := r.diagnostics.map (shownDiagnostic s)
  failures := r.failures.map (shownFailure s)

/-! ## Reading a decoded document -/

def text? : Json.Value → Option String
  | .string s => some s
  | _ => none

def whole? : Json.Value → Option Int
  | .number q => if q.den = 1 then some q.num else none
  | _ => none

/-- The items of an array, each as `read?` takes it. -/
def items? {α : Type} (read? : Json.Value → Option α) : Json.Value → Option (List α)
  | .array items => items.mapM read?
  | _ => none

/-- The values of the named members, of an object that has these and no others. -/
def fields? (names : List String) : Json.Value → Option (List Json.Value)
  | .object members =>
    if (members.map Prod.fst).isPerm names then names.mapM (List.lookup · members) else none
  | _ => none

def causeOfText? (s : String) : Option FailureCause :=
  [.syntaxError, .malformedTree, .readError, .parserError].find? (·.text = s)

def ShownDiagnostic.ofValue? (v : Json.Value) : Option ShownDiagnostic := do
  match ← fields? ["filePath", "line", "column", "ruleId", "message"] v with
  | [place, line, column, ruleId, message] =>
    return ⟨← text? place, ← whole? line, ← whole? column, ← text? ruleId, ← text? message⟩
  | _ => none

def ShownFailure.ofValue? (v : Json.Value) : Option ShownFailure := do
  match ← fields? ["filePath", "kind", "message", "line"] v with
  | [place, kind, message, line] =>
    return ⟨← text? place, ← causeOfText? (← text? kind), ← text? message, ← whole? line⟩
  | _ => none

def Content.ofValue? (v : Json.Value) : Option Content := do
  match ← fields? ["version", "totalFiles", "diagnostics", "failures"] v with
  | [version, totalFiles, diagnostics, failures] =>
    return ⟨← text? version, ← whole? totalFiles, ← items? ShownDiagnostic.ofValue? diagnostics,
      ← items? ShownFailure.ofValue? failures⟩
  | _ => none

/-! ## The content of a document -/

@[simp] theorem whole?_number (n : Int) : whole? (number n) = some n := by
  rw [number, whole?, Rat.den_intCast, if_pos rfl, Rat.num_intCast]

@[simp] theorem causeOfText?_text (c : FailureCause) : causeOfText? c.text = some c := by
  cases c <;> decide

/-- Items that are read back one by one are read back as a list. -/
theorem items?_array {α β : Type} {read? : Json.Value → Option β} {write : α → Json.Value}
    {f : α → β} (h : ∀ x, read? (write x) = some (f x)) (xs : List α) :
    items? read? (.array (xs.map write)) = some (xs.map f) := by
  rw [items?, List.mapM_map, show read? ∘ write = fun x => pure (f x) from funext h, List.mapM_pure]
  rfl

theorem ofValue?_diagnosticEntry (s : Setting) (d : Diagnostic) :
    ShownDiagnostic.ofValue? (diagnosticEntry s d) = some (shownDiagnostic s d) := by
  have hfields : fields? ["filePath", "line", "column", "ruleId", "message"]
      (diagnosticEntry s d) = some [.string (s.place d.filePath), number d.line, number d.column,
        .string d.ruleId, .string d.message] := rfl
  rw [ShownDiagnostic.ofValue?, hfields]
  simp [text?, shownDiagnostic]

/-- The members of a failure may stand in either order. -/
theorem ofValue?_failureEntry (order : FailureOrder) (s : Setting) (f : Failure) :
    ShownFailure.ofValue? (failureEntry order s f) = some (shownFailure s f) := by
  have hfields : fields? ["filePath", "kind", "message", "line"] (failureEntry order s f) =
      some [.string (s.place f.filePath), .string f.kind.text, .string f.message,
        number f.line] := by
    cases order <;> rfl
  rw [ShownFailure.ofValue?, hfields]
  simp [text?, shownFailure]

theorem ofValue?_document (order : FailureOrder) (s : Setting) (r : ScanOutcome) :
    Content.ofValue? (document order s r) = some (contentOf s r) := by
  have hfields : fields? ["version", "totalFiles", "diagnostics", "failures"] (document order s r) =
      some [.string version, number r.totalFiles, .array (r.diagnostics.map (diagnosticEntry s)),
        .array (r.failures.map (failureEntry order s))] := rfl
  rw [Content.ofValue?, hfields]
  simp [text?, items?_array (ofValue?_diagnosticEntry s),
    items?_array (ofValue?_failureEntry order s), contentOf]

/-! ## The text of a document -/

theorem whole_number (n : Int) : (number n).Whole := .number n

theorem whole_diagnosticEntry (s : Setting) (d : Diagnostic) : (diagnosticEntry s d).Whole := by
  refine .object ?_
  simp [Json.Value.Whole.string, whole_number]

theorem whole_failureEntry (order : FailureOrder) (s : Setting) (f : Failure) :
    (failureEntry order s f).Whole := by
  refine .object ?_
  cases order <;> simp [Json.Value.Whole.string, whole_number]

theorem whole_document (order : FailureOrder) (s : Setting) (r : ScanOutcome) :
    (document order s r).Whole := by
  have hdiagnostics : (Json.Value.array (r.diagnostics.map (diagnosticEntry s))).Whole :=
    .array (List.forall_mem_map.2 fun d _ => whole_diagnosticEntry s d)
  have hfailures : (Json.Value.array (r.failures.map (failureEntry order s))).Whole :=
    .array (List.forall_mem_map.2 fun f _ => whole_failureEntry order s f)
  refine .object ?_
  simp [Json.Value.Whole.string, whole_number, hdiagnostics, hfailures]

theorem decode_documentText (order : FailureOrder) (s : Setting) (r : ScanOutcome) :
    Json.decode (documentText order s r) = some (document order s r) :=
  Json.decode_eq_some_iff.2 (Json.isText_indentedText (whole_document order s r))

/-- A text decodes to the value that JSON gives it, and not at all where JSON gives it none. The
text of a document decodes to the document, and read by names that document has just the content of
the scan. So scans with the same text have the same content. -/
theorem documentText_lossless :
    (∀ text v, Json.decode text = some v ↔ Json.IsText text.toList v) ∧
      (∀ order s r, Json.decode (documentText order s r) = some (document order s r) ∧
        Content.ofValue? (document order s r) = some (contentOf s r)) ∧
      ∀ order order' s s' r r', documentText order s r = documentText order' s' r' →
        contentOf s r = contentOf s' r' := by
  refine ⟨fun text v => Json.decode_eq_some_iff, fun order s r =>
    ⟨decode_documentText order s r, ofValue?_document order s r⟩, ?_⟩
  intro order order' s s' r r' htext
  have hvalue : some (document order s r) = some (document order' s' r') := by
    rw [← decode_documentText, htext, decode_documentText]
  have hcontent : some (contentOf s r) = some (contentOf s' r') := by
    rw [← ofValue?_document order, Option.some.inj hvalue, ofValue?_document]
  exact Option.some.inj hcontent

/-- A scan of one file. Its path and a message hold what a string literal escapes; neither the
directory nor the code is shown. -/
def scanWithEscapes (directory : String) (codeSnippet : List String) : ScanOutcome :=
  let file := directory ++ "a\\\"b\n.py"
  { diagnostics := [⟨⟨"PMC001", "tab\tbell\x07 é😀", 3, -1⟩, file, codeSnippet, ""⟩]
    failures := [⟨file, .readError, "", 1⟩]
    totalFiles := 2
    scannedFiles := [file] }

theorem documentText_lossless_escapes :
    let s : Setting := .here false ["h"]
    let s' : Setting := .here true ["w", "x"]
    let r := scanWithEscapes "/h/" []
    let r' := scanWithEscapes "/w/x/" ["x = 1"]
    documentText .lineFirst s r = documentText .lineFirst s' r' ∧ r ≠ r' ∧
      contentOf s r = contentOf s' r' := by
  intro s s' r r'
  have hplace : s.place ("/h/" ++ "a\\\"b\n.py") = s'.place ("/w/x/" ++ "a\\\"b\n.py") := by
    decide +kernel
  have htext : documentText .lineFirst s r = documentText .lineFirst s' r' := by
    simp only [documentText, document, diagnosticEntry, failureEntry, r, r', scanWithEscapes,
      List.map_cons, List.map_nil, hplace]
  exact ⟨htext, by simp [r, r', scanWithEscapes], documentText_lossless.2.2 _ _ _ _ _ _ htext⟩

end Report
end ChainLint
