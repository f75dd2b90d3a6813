import ChainLint.Report.Basic
import ChainLint.Rule.Catalog
import ChainLint.Sorted

/-!
# ChainLint.Report.Grouped

Findings with their code and their fix.

* `diagnostic`: one finding in full.
* `byFile`: a block for each file.
* `byRule`: a block for each rule, with the places of its findings.
* `diagnostics`: few findings by file, many by rule.
-/

namespace ChainLint
namespace Report

/-- From this number of findings on they are grouped by rule. -/
def groupingThreshold : Nat := 20

/-- Places listed in the block of a rule. -/
def maxPlaces : Nat := 5

def ruler (n : Nat) : String := String.ofList (List.replicate n '─')

/-- The chained form to write instead. -/
def fixBlock (s : Setting) (fix : String) : List String :=
  ("     " ++ s.paint .green "Fix" ++ " " ++ ruler 50)
    :: (Text.lines fix).map (fun line => "     " ++ s.paint .green line)
    ++ [""]

/-- A line of a snippet; the marked one stands out. -/
def snippetRow (s : Setting) (line : String) : String :=
  "  " ++ s.paint (if Text.startsWith line "▶" then .yellow else .dim) line

def diagnostic (s : Setting) (d : Diagnostic) : List String :=
  ["  " ++ s.paint .yellow "⚠" ++ "  "
      ++ s.paint .dim (toString d.line ++ ":" ++ toString (d.column + 1)) ++ "  "
      ++ s.paint .dim d.ruleId,
    "     " ++ s.paint .bold d.message,
    ""]
  ++ d.codeSnippet.map (snippetRow s)
  ++ (if d.codeSnippet.isEmpty then [] else [""])
  ++ fixBlock s d.fix

/-- The line above the findings of a file. -/
def fileHeader (s : Setting) (path : String) (n : Nat) : String :=
  "  " ++ s.paint .cyan (s.place path) ++ "   " ++ s.paint .yellow (toString n) ++ " "
    ++ counted n "issue" "issues"

/-- A ruler reaches at least to the end of the header above it. -/
def rulerWidth (header : String) : Nat := max 60 (Text.length (Terminal.strip header) - 2)

def fileBlock (s : Setting) (path : String) (ds : List Diagnostic) : List String :=
  let header := fileHeader s path ds.length
  [header, "  " ++ s.paint .dim (ruler (rulerWidth header)), ""] ++ ds.flatMap (diagnostic s)

def byFile (s : Setting) (ds : List Diagnostic) : List String :=
  (groupBy Diagnostic.filePath ds).flatMap (fun (path, found) => fileBlock s path found)

/-- One place in the block of a rule, with the lines of its findings. -/
def placeRow (s : Setting) (place : String) (ds : List Diagnostic) : String :=
  "     " ++ s.paint .dim "›" ++ " " ++ s.paint .cyan place ++ "  "
    ++ s.paint .dim (Text.joinWith ", " (ds.map (fun d => "line " ++ toString d.line)))

def ruleBlock (s : Setting) (ruleId : String) (ds : List Diagnostic) : List String :=
  let places := groupBy (fun d : Diagnostic => s.place d.filePath) ds
  ["  " ++ s.paint .yellow "⚠" ++ "  " ++ s.paint .dim ruleId ++ "  "
      ++ s.paint .yellow (toString ds.length) ++ " occurrence" ++ counted ds.length "" "s",
    "     " ++ s.paint .bold ((ds.head?.map (fun d => d.message)).getD ""),
    "",
    "     " ++ s.paint .dim "Affected files:"]
  ++ (places.take maxPlaces).map (fun (place, found) => placeRow s place found)
  ++ (if places.length > maxPlaces then
      ["     " ++ s.paint .dim ("+ " ++ toString (places.length - maxPlaces) ++ " more files")]
    else [])
  ++ [""]
  ++ fixBlock s (fixOf ruleId)
  ++ ["  " ++ s.paint .dim (ruler 60), ""]

def byRule (s : Setting) (ds : List Diagnostic) : List String :=
  let rules := sortBy (fun a b => Text.le a.1 b.1) (groupBy (fun d : Diagnostic => d.ruleId) ds)
  rules.flatMap (fun (ruleId, found) => ruleBlock s ruleId found)
    ++ [s.paint .dim ("  Grouped view: " ++ toString ds.length ++ " issues across "
        ++ toString rules.length ++ " rules."), ""]

/-- Nothing for no findings. A limit that hides some of them is mentioned at the end. -/
def diagnostics (s : Setting) (limit : Int) (ds : List Diagnostic) : List String :=
  if ds.isEmpty then []
  else
    let shown := limited limit ds
    (if shown.length ≥ groupingThreshold then byRule s shown else byFile s shown)
    ++ (if limit > 0 ∧ (ds.length : Int) > limit then
        [s.paint .dim ("  Showing " ++ toString limit ++ " of " ++ toString ds.length
          ++ " issues. Use --max-issues 0 to see all."), ""]
      else [])

end Report
end ChainLint
