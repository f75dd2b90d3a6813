import ChainLint.Text.Blank
import ChainLint.Text.Units
import ChainLint.Tree.Error

/-!
# ChainLint.Cst.Basic

Concrete syntax as a parser returns it: nodes named by their grammar type, with every token,
field names, and offsets into the source.

* `Cst`, with its accessors. `parts` are the named children that are not comments.
* `Form`: the grammar types that have a meaning of their own, and the literals.
* `firstError`: the first node, from top to bottom and left to right, that stands for a stretch
  of text the grammar does not cover.
-/

namespace ChainLint

/-- What a concrete node says about itself. Rows and columns count from zero, offsets are in
code units. -/
structure CstLabel where
  type : String
  named : Bool := true
  field : Option String := none
  row : Int := 0
  column : Int := 0
  start : Int := 0
  stop : Int := 0
  /-- The text of the failure when the node cannot be read. -/
  unreadable : Option String := none
  deriving DecidableEq, Inhabited

inductive Cst where
  | node (label : CstLabel) (children : List Cst)
  deriving Inhabited

namespace Cst

def label : Cst → CstLabel
  | .node l _ => l

def children : Cst → List Cst
  | .node _ cs => cs

def type (c : Cst) : String := c.label.type

def position (c : Cst) : Position := .at (c.label.row + 1) c.label.column

/-- Named children, comments apart. -/
def parts (c : Cst) : List Cst :=
  c.children.filter (fun d => d.label.named && d.type != "comment")

/-- The first child in a field. -/
def field? (c : Cst) (name : String) : Option Cst :=
  c.children.find? (fun d => d.label.field == some name)

/-- The first child in a field the node must have. -/
def require (c : Cst) (name : String) : Except Malformed Cst :=
  match c.field? name with
  | some d => .ok d
  | none => .error ⟨c.type ++ " without '" ++ name ++ "'", c.position⟩

/-- The source text of a node. -/
def text (source : Array (Option Char)) (c : Cst) : String :=
  Text.slice source c.label.start c.label.stop

mutual

/-- Number of levels, at least one. -/
def depth : Cst → Nat
  | .node _ cs => depthAll cs + 1

def depthAll : List Cst → Nat
  | [] => 0
  | c :: cs => max c.depth (depthAll cs)

end

mutual

/-- The first node of type `ERROR` in document order. An unreadable node in front of it fails
with its text. -/
def firstError : Cst → Except String (Option Cst)
  | .node l cs =>
    match l.unreadable with
    | some text => .error text
    | none => if l.type == "ERROR" then .ok (some (.node l cs)) else firstErrorIn cs

def firstErrorIn : List Cst → Except String (Option Cst)
  | [] => .ok none
  | c :: cs =>
    match firstError c with
    | .error text => .error text
    | .ok (some e) => .ok (some e)
    | .ok none => firstErrorIn cs

end

/-- How the tree is built from a node, by its grammar type. -/
inductive Form where
  | wrapper | assignment | augmented | function | classDef | call | attr | subscript
  | identifier | comparison | binary | boolean | unary | negation | lambda | string
  | literal (l : Literal)
  | other
  deriving DecidableEq

/-- Grammar types with a form of their own. -/
def forms : List (String × Form) :=
  [("expression_statement", .wrapper), ("parenthesized_expression", .wrapper),
    ("type", .wrapper), ("assignment", .assignment), ("augmented_assignment", .augmented),
    ("function_definition", .function), ("class_definition", .classDef), ("call", .call),
    ("attribute", .attr), ("subscript", .subscript), ("identifier", .identifier),
    ("comparison_operator", .comparison), ("binary_operator", .binary),
    ("boolean_operator", .boolean), ("unary_operator", .unary), ("not_operator", .negation),
    ("lambda", .lambda), ("string", .string), ("true", .literal .bool),
    ("false", .literal .bool), ("none", .literal .none), ("integer", .literal .number),
    ("float", .literal .number), ("concatenated_string", .literal .string),
    ("ellipsis", .literal .ellipsis)]

def Form.ofType (type : String) : Form := (forms.lookup type).getD .other

def form (c : Cst) : Form := Form.ofType c.type

end Cst
end ChainLint
