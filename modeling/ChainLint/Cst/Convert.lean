import ChainLint.Cst.Basic

/-!
# ChainLint.Cst.Convert

The tree of a concrete syntax tree. Wrappers disappear, a chain of assignments becomes one, the
arguments of a call are split into positional ones and keywords, and every type without a form
of its own becomes an `other` node. A node that lacks a part its type requires is malformed; the
first one met decides the error.

* `convertNode`: one node, given the conversion of the nodes below it.
* `convert`, `convertModule`.
-/

namespace ChainLint
namespace Cst

/-- The words between two operands: trimmed, white space runs made single spaces. -/
def operatorText (source : Array (Option Char)) (left right : Cst) : String :=
  let between := Text.slice source left.label.stop right.label.start
  String.ofList (Text.collapse (Text.trim between.toList))

/-- One operator for each pair of neighbouring operands. -/
def operatorTexts (source : Array (Option Char)) : List Cst → List String
  | [] => []
  | [_] => []
  | a :: b :: rest => operatorText source a b :: operatorTexts source (b :: rest)

/-- A keyword or a double-starred argument. -/
def isKeywordArgument (c : Cst) : Bool :=
  c.type == "keyword_argument" || c.type == "dictionary_splat"

section

variable (source : Array (Option Char)) (below : Cst → Except Malformed Node)

/-- A node that no rule looks at. -/
def otherNode (c : Cst) : Except Malformed Node := do
  return .other c.position c.type (← c.parts.mapM below)

/-- The further targets of a chain `a = b = value`, and the value. An annotated assignment, or
one without a right-hand side, ends the chain. -/
def assignmentChain : Nat → Cst → Except Malformed (List Node × Cst)
  | 0, right => .ok ([], right)
  | fuel + 1, right =>
    if right.form = .assignment ∧ (right.field? "type").isNone then
      match right.field? "right" with
      | none => .ok ([], right)
      | some next => do
        let target ← below (← right.require "left")
        let (targets, value) ← assignmentChain fuel next
        return (target :: targets, value)
    else .ok ([], right)

def convertOptional : Option Cst → Except Malformed (Option Node)
  | none => .ok none
  | some c => do return some (← below c)

def convertAssignment (c : Cst) : Except Malformed Node := do
  let target ← below (← c.require "left")
  let typeHint := c.field? "type"
  match c.field? "right" with
  | none => return .other c.position "annotation" (target :: (← convertOptional below typeHint).toList)
  | some right =>
    let (targets, value) ← assignmentChain below c.depth right
    let typeHint ← convertOptional below typeHint
    return .assign c.position (target :: targets) typeHint (← below value)

def convertArgument (c : Cst) : Except Malformed Node :=
  if c.type = "keyword_argument" then do
    let name := (← c.require "name").text source
    return .keyword c.position (some name) (← below (← c.require "value"))
  else if c.type = "dictionary_splat" then
    match c.parts with
    | [] => .error ⟨"empty ** argument", c.position⟩
    | value :: _ => do return .keyword c.position none (← below value)
  else below c

def convertCall (c : Cst) : Except Malformed Node := do
  let func ← below (← c.require "function")
  let arguments ← c.require "arguments"
  if arguments.type = "argument_list" then
    let parts := arguments.parts
    let nodes ← parts.mapM (convertArgument source below)
    let (keywords, args) := (parts.zip nodes).partition (fun (part, _) => part.isKeywordArgument)
    return .call c.position func (args.map Prod.snd) (keywords.map Prod.snd)
  else return .call c.position func [← below arguments] []

/-- The parts of an optional list such as parameters. -/
def convertList : Option Cst → Except Malformed (List Node)
  | none => .ok []
  | some c => c.parts.mapM below

def convertFunction (c : Cst) : Except Malformed Node := do
  let name := (← c.require "name").text source
  let parameters ← convertList below (c.field? "parameters")
  let result ← convertOptional below (c.field? "return_type")
  return .function c.position name (parameters ++ result.toList)
    (← (← c.require "body").parts.mapM below)

def convertClass (c : Cst) : Except Malformed Node := do
  let name := (← c.require "name").text source
  let bases ← convertList below (c.field? "superclasses")
  return .classDef c.position name bases (← (← c.require "body").parts.mapM below)

def convertSubscript (c : Cst) : Except Malformed Node :=
  match c.parts with
  | [] => .error ⟨"subscript without a value", c.position⟩
  | value :: indices => do
    return .subscript c.position (← below value) (← indices.mapM below)

def convertComparison (c : Cst) : Except Malformed Node :=
  match c.parts with
  | [] => .error ⟨"comparison without operands", c.position⟩
  | left :: comparators => do
    return .compare c.position (← below left) (operatorTexts source c.parts)
      (← comparators.mapM below)

/-- One node, given the conversion of what lies below it. -/
def convertNode (c : Cst) : Except Malformed Node :=
  match c.form with
  | .wrapper =>
    match c.parts with
    | [inner] => below inner
    | _ => otherNode below c
  | .assignment => convertAssignment below c
  | .augmented => do
    let target ← below (← c.require "left")
    let operator ← c.require "operator"
    return .augassign c.position target operator.type (← below (← c.require "right"))
  | .function => convertFunction source below c
  | .classDef => convertClass source below c
  | .call => convertCall source below c
  | .attr => do
    let object ← below (← c.require "object")
    return .attr c.position object ((← c.require "attribute").text source)
  | .subscript => convertSubscript below c
  | .identifier => .ok (.name c.position (c.text source))
  | .comparison => convertComparison source below c
  | .binary => do
    let left ← below (← c.require "left")
    let operator ← c.require "operator"
    return .binop c.position left operator.type (← below (← c.require "right"))
  | .boolean => do
    let operator := if (← c.require "operator").type = "and" then "and" else "or"
    let left ← below (← c.require "left")
    return .boolop c.position operator [left, ← below (← c.require "right")]
  | .unary => do
    let operator ← c.require "operator"
    return .unaryop c.position operator.type (← below (← c.require "argument"))
  | .negation => do return .unaryop c.position "not" (← below (← c.require "argument"))
  | .lambda => do
    let parameters ← convertList below (c.field? "parameters")
    return .lambda c.position parameters (← below (← c.require "body"))
  | .string =>
    if c.parts.any (fun d => d.type == "interpolation") then otherNode below c
    else .ok (.constant c.position .string (c.text source))
  | .literal l => .ok (.constant c.position l (c.text source))
  | .other => otherNode below c

end

/-- Conversion of trees of at most `fuel` levels. -/
def convertWithin (source : Array (Option Char)) : Nat → Cst → Except Malformed Node
  | 0, c => .error ⟨"", c.position⟩
  | fuel + 1, c => convertNode source (convertWithin source fuel) c

/-- The tree of a concrete node; its own depth is always fuel enough. -/
def convert (source : Array (Option Char)) (c : Cst) : Except Malformed Node :=
  convertWithin source c.depth c

/-- The module of a whole text, whatever the type of its root. -/
def convertModule (source : Array (Option Char)) (root : Cst) : Except Malformed Node := do
  return .module root.position (← root.parts.mapM (convert source))

end Cst
end ChainLint
