import ChainLint.Config
import ChainLint.Directive
import ChainLint.Discovery
import ChainLint.Engine.Check
import ChainLint.Scan.Result
import ChainLint.Snippet

/-!
# ChainLint.Scan.Check

Checking files.

* `checkSource`: findings in a text, less what its suppression comments silence.
* `checkPath`: the same for a file; a file that cannot be read or understood is a failure.
* `scan`: all files of a target, one after the other.
* `Traced`: a result together with the debug notes written on the way to it.

An error that says nothing about a file ends the scan.
-/

namespace ChainLint

/-- The outcome of some work and what was noted until it ended. -/
structure Traced (α : Type) where
  notes : List String
  outcome : Except Fault α

/-- What a scan works with. -/
structure Workplace where
  files : FileTree
  parser : Parser

namespace Scan

def diagnosticOf (filePath : String) (lines : List String) (f : Finding) : Diagnostic where
  toFinding := f
  filePath := filePath
  codeSnippet := snippet lines f.line
  fix := fixOf f.ruleId

def failed (f : Failure) : Verdict := { failure := some f }

def malformedFailure (filePath : String) (e : Malformed) : Failure :=
  ⟨filePath, .malformedTree, e.message, e.position.line.num⟩

/-- Directives count unless they are disabled. -/
def directivesOf (disableNoqa : Bool) (lines : List String) : List (Nat × Directive) :=
  if disableNoqa then [] else Directive.ofLines lines

def issuesNote (filePath : String) (reported found : Nat) : String :=
  filePath ++ ": " ++ toString reported ++ " issues (" ++ toString (found - reported)
    ++ " suppressed)"

/-- The findings of a tree as diagnostics of its file. -/
def report (filePath : String) (lines : List String) (disableNoqa : Bool)
    (found : List Finding) : Verdict × List String :=
  let directives := directivesOf disableNoqa lines
  let kept := found.filter (fun f => !isSilenced directives f)
  ({ diagnostics := kept.map (diagnosticOf filePath lines) },
    [issuesNote filePath kept.length found.length])

/-- What a text comes to, with the notes on it. -/
def checkSource (parser : Parser) (rules : List Rule) (disableNoqa : Bool)
    (source filePath : String) : Except Fault (Verdict × List String) :=
  match readSource parser source filePath with
  | .error (.malformed e) => .ok (failed (malformedFailure filePath e), [])
  | .error e => .error e
  | .ok (.failure f) => .ok (failed ⟨filePath, .ofReason f.reason, f.message, f.line⟩, [])
  | .ok (.tree root lines) =>
    match check rules root with
    | .error (.malformed e) => .ok (failed (malformedFailure filePath e), [])
    | .error e => .error (.ofTreeError e)
    | .ok found => .ok (report filePath lines disableNoqa found)

def checkPath (w : Workplace) (rules : List Rule) (disableNoqa : Bool) (path : Path.Parts) :
    Except Fault (Verdict × List String) :=
  match w.files.read path with
  | .error e => .ok (failed ⟨Path.toText path, .readError, e.message, 1⟩, [])
  | .ok source => checkSource w.parser rules disableNoqa source (Path.toText path)

/-- The rules that settings leave. -/
def rulesOf (c : Config) : List Rule := c.selection.pick catalog

/-- One file under given settings. -/
def checkUnder (w : Workplace) (c : Config) (path : Path.Parts) :
    Except Fault (Verdict × List String) :=
  checkPath w (rulesOf c) c.disableNoqa path

/-- Files one after the other, up to the first error. -/
def checkAll (w : Workplace) (c : Config) : List Path.Parts → Traced (List Verdict)
  | [] => ⟨[], .ok []⟩
  | path :: paths =>
    match checkUnder w c path with
    | .error e => ⟨[], .error e⟩
    | .ok (r, notes) =>
      let rest := checkAll w c paths
      ⟨notes ++ rest.notes, rest.outcome.map (r :: ·)⟩

def resultOf (paths : List Path.Parts) (results : List Verdict) : ScanOutcome where
  diagnostics := results.flatMap Verdict.diagnostics
  failures := results.filterMap Verdict.failure
  totalFiles := paths.length
  scannedFiles := paths.map Path.toText

def scanNote (files : Nat) (rules : List Rule) : String :=
  "checking " ++ toString files ++ " files with " ++ Text.joinWith ", " (rules.map Rule.id)

def scan (w : Workplace) (c : Config) (target : Path.Parts) : Traced ScanOutcome :=
  match Discovery.findFiles w.files target c.exclude with
  | .error e => ⟨[], .error (.plain e.message)⟩
  | .ok paths =>
    let run := checkAll w c paths
    ⟨scanNote paths.length (rulesOf c) :: run.notes, run.outcome.map (resultOf paths)⟩

end Scan
end ChainLint
