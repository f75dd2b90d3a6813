import ChainLint.Rule.Bindings
import ChainLint.Tree.Node

/-!
# ChainLint.Rule.Basic

Rules, and what they report.

* `Rule`: an id, the kinds of nodes it is offered, its test, and the rules it takes precedence
  over.
* `Finding`: a match. `Diagnostic`: a match placed in its file.
-/

namespace ChainLint

structure Rule where
  id : String
  message : String
  /-- Kinds of nodes this rule is offered. -/
  kinds : List Kind
  /-- Ids of rules that stay silent on a node this rule matches. -/
  supersedes : List String := []
  /-- The chained form to write instead. -/
  fix : String := ""
  /-- Tells apart two rules that share an id. -/
  serial : Nat := 0
  check : Node → Bindings → Bool

/-- Two entries of a list are the same rule when their keys agree. -/
def Rule.key (r : Rule) : String × Nat := (r.id, r.serial)

structure Finding where
  ruleId : String
  message : String
  line : Int
  column : Int
  deriving DecidableEq

structure Diagnostic extends Finding where
  filePath : String
  codeSnippet : List String
  fix : String
  deriving DecidableEq

end ChainLint
