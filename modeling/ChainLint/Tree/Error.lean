import ChainLint.Json.Value
import ChainLint.Tree.Node

/-!
# ChainLint.Tree.Error

What can be wrong with a tree.

* `Malformed`: a tree, or the concrete syntax it is read from, does not have the shape its kind
  promises. It names the place.
* `TreeError`: a malformed tree, or a node of a kind outside the model.
-/

namespace ChainLint

structure Malformed where
  reason : String
  position : Position
  deriving DecidableEq

def Malformed.message (e : Malformed) : String := e.reason ++ " (" ++ e.position.text ++ ")"

inductive TreeError where
  | malformed (cause : Malformed)
  | unhandled (kind : String) (position : Position)
  deriving DecidableEq

/-- The node of an unknown kind, as a JSON object with its keys in alphabetical order. -/
def unhandledNode (kind : String) (p : Position) : Json.Value :=
  .object [("kind", .string kind),
    ("position", .object [("column", .number p.column), ("line", .number p.line)])]

def TreeError.message : TreeError → String
  | .malformed cause => cause.message
  | .unhandled kind p => "Unhandled node: " ++ (unhandledNode kind p).compactText

end ChainLint
