import ChainLint.Path
import ChainLint.Scan.Result
import ChainLint.Table
import ChainLint.Terminal

/-!
# ChainLint.Report.Basic

What all reports share.

* `ReportFormat`: the three forms of a report.
* `Setting`: colour, and the place from which paths are shown.
* `compactLine`, `failureLine`: one finding or failure on one line.
* `limited`: the findings a limit leaves.
-/

namespace ChainLint

inductive ReportFormat where
  | grouped | compact | json
  deriving DecidableEq

namespace ReportFormat

def all : List ReportFormat := [grouped, compact, json]

def text : ReportFormat → String
  | grouped => "grouped"
  | compact => "compact"
  | json => "json"

def ofText? (s : String) : Option ReportFormat := all.find? (fun f => f.text = s)

end ReportFormat

namespace Report

def version : String := "0.1.0"

structure Setting where
  colour : Bool
  /-- The working directory, in which relative paths begin. -/
  base : Path.Parts
  /-- The directory to which shown paths are relative. -/
  cwd : String

/-- Paths shown relative to the working directory. -/
def Setting.here (colour : Bool) (base : Path.Parts) : Setting :=
  ⟨colour, base, Path.toText base⟩

def Setting.paint (s : Setting) (style : Terminal.Style) (text : String) : String :=
  Terminal.paint s.colour style text

/-- A path as it is shown. -/
def Setting.place (s : Setting) (path : String) : String := Path.display s.base s.cwd path

/-- Every line with its end. -/
def text (lines : List String) : String :=
  lines.foldr (fun line rest => line ++ "\n" ++ rest) ""

/-- `one` for a single thing, `many` for any other number of them. -/
def counted (n : Nat) (one many : String) : String := if n = 1 then one else many

/-- Place, rule and message of a finding; columns are shown from one. -/
def compactLine (s : Setting) (d : Diagnostic) : String :=
  s.place d.filePath ++ ":" ++ toString d.line ++ ":" ++ toString (d.column + 1) ++ ": "
    ++ d.ruleId ++ " " ++ d.message

def failureLine (s : Setting) (f : Failure) : String :=
  s.place f.filePath ++ ":" ++ toString f.line ++ ": " ++ f.kind.text ++ " " ++ f.message

/-- The first `limit` findings, or all when there is no positive limit. -/
def limited (limit : Int) (ds : List Diagnostic) : List Diagnostic :=
  if limit > 0 then ds.take limit.toNat else ds

def compact (s : Setting) (limit : Int) (ds : List Diagnostic) : List String :=
  (limited limit ds).map (compactLine s)

end Report
end ChainLint
