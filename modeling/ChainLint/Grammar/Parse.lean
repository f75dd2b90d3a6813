import ChainLint.Grammar.Lexer
import ChainLint.Grammar.Statement
import ChainLint.Source

/-!
# ChainLint.Grammar.Parse

Concrete syntax of Python source. Text that the grammar does not cover is marked by a node of
type `ERROR` where it starts.

* `goals`: the productions, tied together.
* `parse`.
-/

namespace ChainLint
namespace Grammar

/-- The parsing of every goal, to a nesting depth. -/
def goals : Nat → Goals
  | 0, _ => failure
  | fuel + 1, goal =>
    let below := goals fuel
    match goal with
    | .expression => expression below
    | .disjunction => disjunction below
    | .negation => negation below
    | .unary => unary below
    | .target => target below
    | .rightSide => rightSide below
    | .interpolation => interpolation below
    | .typeHint => typeHint below
    | .suite => suite below
    | .casePattern => casePattern below
    | .mappingPattern => dictPattern below

/-- The node for text that no token or no statement starts with. -/
def errorAt (m : Mark) : Cst := nodeAt "ERROR" true m m []

/-- The module of a text. A character outside of all tokens is an error wherever it stands;
otherwise the error is where the first statement that cannot be read starts. -/
def parse (source : String) : ParserOutcome :=
  let (ts, first) := tokens source
  let module (children : List Cst) : ParserOutcome :=
    .parsed (nodeAt "module" true first first children)
  match ts.find? (fun t => t.kind == .junk) with
  | some t => module [errorAt t.start]
  | none =>
    -- Between two goals without a token in between there are at most three others.
    match many (statement (goals (4 * ts.length + 8))) ts with
    | some (statements, []) => module statements
    | some (_, t :: _) => module [errorAt t.start]
    | none => module [errorAt first]

end Grammar
end ChainLint
