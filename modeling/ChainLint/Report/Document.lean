import ChainLint.Json.Value
import ChainLint.Report.Basic

/-!
# ChainLint.Report.Document

The report as a JSON document: the totals, the findings without code and fix, the failures.
-/

namespace ChainLint
namespace Report

/-- A failure is written with its members in the order in which they were recorded. A scan records
the message first; a record kept with its members in alphabetical order has the line first. -/
inductive FailureOrder where
  | messageFirst | lineFirst
  deriving DecidableEq

def number (n : Int) : Json.Value := .number n

def diagnosticEntry (s : Setting) (d : Diagnostic) : Json.Value :=
  .object [("filePath", .string (s.place d.filePath)), ("line", number d.line),
    ("column", number d.column), ("ruleId", .string d.ruleId), ("message", .string d.message)]

def failureEntry (order : FailureOrder) (s : Setting) (f : Failure) : Json.Value :=
  let message := ("message", Json.Value.string f.message)
  let line := ("line", number f.line)
  .object ([("filePath", .string (s.place f.filePath)), ("kind", .string f.kind.text)]
    ++ match order with
      | .messageFirst => [message, line]
      | .lineFirst => [line, message])

def document (order : FailureOrder) (s : Setting) (r : ScanOutcome) : Json.Value :=
  .object [("version", .string version), ("totalFiles", number r.totalFiles),
    ("diagnostics", .array (r.diagnostics.map (diagnosticEntry s))),
    ("failures", .array (r.failures.map (failureEntry order s)))]

def documentText (order : FailureOrder) (s : Setting) (r : ScanOutcome) : String :=
  (document order s r).indentedText

end Report
end ChainLint
