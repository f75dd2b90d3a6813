import ChainLint.Text.Units

/-!
# ChainLint.Snippet

The lines around a finding, two on each side, with the line itself marked.
-/

namespace ChainLint

/-- One line of a snippet: marker, number right-aligned to three places, text. -/
def snippetLine (line : Int) (number : Nat) (text : String) : String :=
  (if (number : Int) = line then "▶" else " ") ++ " " ++ Text.padLeft 3 ' ' (toString number)
    ++ " │  " ++ text

/-- The numbered lines from `line - 2` to `line + 2` that exist. -/
def snippet (lines : List String) (line : Int) : List String :=
  (lines.zipIdx 1).filterMap (fun (text, number) =>
    if line - 2 ≤ (number : Int) ∧ (number : Int) ≤ line + 2 then
      some (snippetLine line number text)
    else none)

end ChainLint
