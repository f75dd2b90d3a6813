import ChainLint.CommandLine.Arguments
import ChainLint.CommandLine.Help
import ChainLint.ConfigFile
import ChainLint.Report.Document
import ChainLint.Watch

/-!
# ChainLint.CommandLine.Run

The program as a function of its arguments and the files.

* `Ending`: the program is stopped, has nothing left to do, meets an error that nothing accounts
  for, or begins to watch. `Ending.code?`: the exit code.
* `Outcome.received`: what arrives of the output.
* `execute`: the format is looked at first, then the path, then the configuration; with all three
  in order the rules are listed or the files checked.
* `run`: the program.
-/

namespace ChainLint
namespace CommandLine

inductive Ending where
  /-- The program is stopped where it stands. -/
  | exit (code : Nat)
  /-- Nothing is left to do but to wait for the output. -/
  | finished
  | crashed (fault : Fault)
  | watching (target : Path.Parts) (session : Session) (state : WatchState)

namespace Ending

/-- The exit code. There is none as long as the program watches. -/
def code? : Ending → Option Nat
  | exit code => some code
  | finished => some 0
  | crashed _ => some 1
  | watching .. => none

/-- What arrives of a text. When the program is stopped, what still waits is lost. -/
def delivered (e : Ending) (c : Channel) (text : String) : List UInt8 :=
  match e with
  | exit _ | crashed _ => c.taken (Text.Utf8.encode text)
  | finished | watching .. => Text.Utf8.encode text

end Ending

structure Outcome where
  streams : Streams
  ending : Ending

/-- What arrives of the output. -/
def Outcome.received (o : Outcome) (c : Channel) : List UInt8 :=
  o.ending.delivered c o.streams.stdout

/-- Where and how the program runs. -/
structure Surroundings where
  place : Workplace
  yaml : Yaml.Loader
  cwd : Path.Parts
  colour : Bool

namespace Surroundings

def setting (s : Surroundings) : Report.Setting := .here s.colour s.cwd

end Surroundings

/-- Ends with a message and the exit code of a wrong request. -/
def refuse (colour : Bool) (message : String) : Outcome :=
  ⟨⟨"", Log.line colour .error message⟩, .exit 2⟩

def unknownFormat (format : String) : String :=
  "unknown format \"" ++ format ++ "\" (expected "
    ++ Text.joinWith ", " (ReportFormat.all.map ReportFormat.text) ++ ")"

/-- The report on a scan. A limit does not shorten the document. -/
def report (s : Report.Setting) (format : ReportFormat) (limit : Int) (r : ScanOutcome) :
    List String :=
  match format with
  | .json => [Report.documentText .messageFirst s r]
  | .compact => Report.compact s limit r.diagnostics ++ Report.failures s r.failures
  | .grouped =>
    Report.header s r.totalFiles ++ Report.diagnostics s limit r.diagnostics
      ++ Report.failures s r.failures ++ Report.summary s r.diagnostics r.failures r.totalFiles

/-- The program is stopped for anything found or failed; for nothing it just ends. -/
def conclude (r : ScanOutcome) : Ending :=
  if r.diagnostics.isEmpty && r.failures.isEmpty then .finished else .exit 1

def overrides (a : Arguments) : Overrides :=
  ⟨a.select, a.ignore, a.exclude, some a.disableNoqa⟩

/-- The directory in which a configuration is looked for. -/
def configDir (t : FileTree) (target : Path.Parts) : Path.Parts :=
  if t.isDirectory target then target else Path.parent target

/-- Checks the target and reports. -/
def checkTarget (s : Surroundings) (a : Arguments) (format : ReportFormat) (c : Config)
    (target : Path.Parts) (notes : List String) : Outcome :=
  let limit := leadingInt a.maxIssues
  let scanned := Scan.scan s.place c target
  let stderr := Log.debugLines s.colour a.verbose (notes ++ scanned.notes)
  match scanned.outcome with
  | .error e => ⟨⟨"", stderr⟩, .crashed e⟩
  | .ok r =>
    let stdout := Report.text (report s.setting format limit r)
    if a.watch then
      ⟨⟨stdout ++ Session.waiting ++ "\n\n", stderr⟩,
        .watching target ⟨c, limit, s.setting, a.verbose⟩ (WatchState.ofScan r)⟩
    else ⟨⟨stdout, stderr⟩, conclude r⟩

def listRules (s : Surroundings) (c : Config) : String :=
  "\nEnabled rules:\n\n" ++ Report.ruleList s.setting (Scan.rulesOf c) ++ "\n\n"

def execute (s : Surroundings) (a : Arguments) : Outcome :=
  match ReportFormat.ofText? a.format with
  | none => refuse s.colour (unknownFormat a.format)
  | some format =>
    let target := Path.resolve s.cwd a.path
    if !s.place.files.contains target then refuse s.colour ("path not found: " ++ a.path)
    else
      let dir := configDir s.place.files target
      match ConfigFile.load s.yaml s.place.files s.cwd dir a.config with
      | .error e => refuse s.colour e.message
      | .ok base =>
        let c := base.merge (overrides a)
        let notes := ["config: " ++ c.toJson.compactText]
        if a.listRules then
          ⟨⟨listRules s c, Log.debugLines s.colour a.verbose notes⟩, .exit 0⟩
        else checkTarget s a format c target notes

def run (s : Surroundings) (args : List String) : Outcome :=
  match parse args with
  | .version => ⟨⟨Report.version ++ "\n", ""⟩, .exit 0⟩
  | .help => ⟨⟨Report.text help, ""⟩, .exit 0⟩
  | .rejected message => ⟨⟨"", message ++ "\n"⟩, .exit 1⟩
  | .run a => execute s a

end CommandLine
end ChainLint
