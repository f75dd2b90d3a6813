import ChainLint.Report.Basic
import ChainLint.Rule.Catalog

/-!
# ChainLint.Report.Summary

What surrounds the findings of a report: the header, the files that could not be checked, the
totals, and the list of rules.
-/

namespace ChainLint
namespace Report

def header (s : Setting) (files : Int) : List String :=
  [s.paint .bold ("pmc-lint v" ++ version)
      ++ s.paint .dim (" · " ++ toString files ++ " files scanned"),
    ""]

/-- Nothing when every file could be checked. -/
def failures (s : Setting) (fs : List Failure) : List String :=
  if fs.isEmpty then []
  else
    s.paint .red ("  " ++ toString fs.length ++ " " ++ counted fs.length "file" "files"
        ++ " could not be checked:")
      :: fs.map (fun f => "  " ++ s.paint .red "✗" ++ "  " ++ failureLine s f)
      ++ [""]

def summary (s : Setting) (ds : List Diagnostic) (fs : List Failure) (totalFiles : Int) :
    List String :=
  if ds.isEmpty ∧ fs.isEmpty then
    [s.paint .green "✓" ++ " No issues found in " ++ toString totalFiles ++ " files."]
  else
    let affected := (distinct (ds.map Diagnostic.filePath)).length
    ["  " ++ s.paint .yellow ("⚠ " ++ toString ds.length ++ " "
        ++ counted ds.length "issue" "issues")
      ++ "   " ++ s.paint .dim ("in " ++ toString affected ++ "/" ++ toString totalFiles
        ++ " files")
      ++ (if fs.isEmpty then ""
        else "   " ++ s.paint .red ("✗ " ++ toString fs.length ++ " failed"))]

/-- Ids and messages of rules, one a line. -/
def ruleList (s : Setting) (rules : List Rule) : String :=
  Text.joinWith "\n" (rules.map (fun r => "  " ++ s.paint .yellow r.id ++ "  " ++ r.message))

end Report
end ChainLint
