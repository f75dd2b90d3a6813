import ChainLint.Sorted
import ChainLint.Text.Decimal

/-!
# ChainLint.Tree.Node

The syntax tree that the rules read. Every node carries its position and only the children that
matter for its kind; anything else of the language is an `other` node whose children are still
visited.

* `Position`, with the order of the source text.
* `Kind`, `Literal`, `Node`.
* `Node.children`: the children in source order. The arguments and keywords of a call are kept
  in two lists and come back merged by position.
* `sizeOf_lt_of_mem_children`: a child is smaller than its parent, which is what recursion over
  a tree goes by.
-/

namespace ChainLint

/-- Lines count from one and columns from zero, in code units. A tree that was not made by the
parser may hold any number here. -/
structure Position where
  line : Rat
  column : Rat
  deriving DecidableEq, Inhabited

/-- A position at whole numbers. -/
def Position.at (line column : Int) : Position := ⟨line, column⟩

/-- Source order: by line, then by column. -/
def Position.le (p q : Position) : Bool :=
  if p.line = q.line then decide (p.column ≤ q.column) else decide (p.line < q.line)

/-- `line:column`. -/
def Position.text (p : Position) : String :=
  Text.decimal p.line ++ ":" ++ Text.decimal p.column

inductive Kind where
  | module | function | classDef | assign | augassign | call | keyword | attr | subscript
  | name | constant | compare | binop | unaryop | boolop | lambda | other
  | unknown (word : String)
  deriving DecidableEq

def Kind.text : Kind → String
  | .module => "module"
  | .function => "function"
  | .classDef => "class"
  | .assign => "assign"
  | .augassign => "augassign"
  | .call => "call"
  | .keyword => "keyword"
  | .attr => "attribute"
  | .subscript => "subscript"
  | .name => "name"
  | .constant => "constant"
  | .compare => "compare"
  | .binop => "binop"
  | .unaryop => "unaryop"
  | .boolop => "boolop"
  | .lambda => "lambda"
  | .other => "other"
  | .unknown word => word

def Kind.known : List Kind :=
  [.module, .function, .classDef, .assign, .augassign, .call, .keyword, .attr, .subscript,
    .name, .constant, .compare, .binop, .unaryop, .boolop, .lambda, .other]

def Kind.ofText (s : String) : Kind :=
  (Kind.known.find? (fun k => k.text == s)).getD (.unknown s)

/-- What sort of constant a literal is. -/
inductive Literal where
  | bool | none | number | string | ellipsis
  deriving DecidableEq

def Literal.text : Literal → String
  | .bool => "bool"
  | .none => "none"
  | .number => "number"
  | .string => "string"
  | .ellipsis => "ellipsis"

/-- A node of the tree. `unknown` stands for a node of a kind outside the model. -/
inductive Node where
  | module (position : Position) (body : List Node)
  | function (position : Position) (name : String) (parameters body : List Node)
  | classDef (position : Position) (name : String) (bases body : List Node)
  | assign (position : Position) (targets : List Node) (typeHint : Option Node) (value : Node)
  | augassign (position : Position) (target : Node) (operator : String) (value : Node)
  | call (position : Position) (func : Node) (args keywords : List Node)
  | keyword (position : Position) (name : Option String) (value : Node)
  | attr (position : Position) (object : Node) (name : String)
  | subscript (position : Position) (value : Node) (indices : List Node)
  | name (position : Position) (id : String)
  | constant (position : Position) (literal : Literal) (text : String)
  | compare (position : Position) (left : Node) (operators : List String)
      (comparators : List Node)
  | binop (position : Position) (left : Node) (operator : String) (right : Node)
  | unaryop (position : Position) (operator : String) (operand : Node)
  | boolop (position : Position) (operator : String) (values : List Node)
  | lambda (position : Position) (parameters : List Node) (body : Node)
  | other (position : Position) (type : String) (children : List Node)
  | unknown (position : Position) (kind : String)
  deriving Inhabited

namespace Node

def position : Node → Position
  | .module p _ | .function p _ _ _ | .classDef p _ _ _ | .assign p _ _ _ | .augassign p _ _ _
  | .call p _ _ _ | .keyword p _ _ | .attr p _ _ | .subscript p _ _ | .name p _
  | .constant p _ _ | .compare p _ _ _ | .binop p _ _ _ | .unaryop p _ _ | .boolop p _ _
  | .lambda p _ _ | .other p _ _ | .unknown p _ => p

def kind : Node → Kind
  | .module .. => .module
  | .function .. => .function
  | .classDef .. => .classDef
  | .assign .. => .assign
  | .augassign .. => .augassign
  | .call .. => .call
  | .keyword .. => .keyword
  | .attr .. => .attr
  | .subscript .. => .subscript
  | .name .. => .name
  | .constant .. => .constant
  | .compare .. => .compare
  | .binop .. => .binop
  | .unaryop .. => .unaryop
  | .boolop .. => .boolop
  | .lambda .. => .lambda
  | .other .. => .other
  | .unknown _ word => .unknown word

/-- The word that tells a node from its neighbours of the same kind, where it has one. -/
def label : Node → Option String
  | .name _ id => some id
  | .attr _ _ word => some word
  | .constant _ _ word => some word
  | .keyword _ word _ => word
  | .function _ word _ _ | .classDef _ word _ _ => some word
  | .other _ word _ => some word
  | .augassign _ _ op _ | .binop _ _ op _ | .unaryop _ op _ | .boolop _ op _ => some op
  | _ => none

/-- Nodes that open a scope of bindings. -/
def isScope : Node → Bool
  | .module .. | .function .. | .classDef .. => true
  | _ => false

/-- Nodes by position; two at one position keep their order. -/
def byPosition (nodes : List Node) : List Node :=
  sortBy (fun a b => a.position.le b.position) nodes

/-- The children of a node in source order. -/
def children : Node → List Node
  | .module _ body => body
  | .function _ _ parameters body => parameters ++ body
  | .classDef _ _ bases body => bases ++ body
  | .assign _ targets typeHint value => targets ++ typeHint.toList ++ [value]
  | .augassign _ target _ value => [target, value]
  | .call _ func args keywords => func :: byPosition (args ++ keywords)
  | .keyword _ _ value => [value]
  | .attr _ object _ => [object]
  | .subscript _ value indices => value :: indices
  | .compare _ left _ comparators => left :: comparators
  | .binop _ left _ right => [left, right]
  | .unaryop _ _ operand => [operand]
  | .boolop _ _ values => values
  | .lambda _ parameters body => parameters ++ [body]
  | .other _ _ children => children
  | .name .. | .constant .. | .unknown .. => []

theorem sizeOf_lt_of_mem_children {n c : Node} (h : c ∈ n.children) : sizeOf c < sizeOf n := by
  have mem : ∀ {l : List Node}, c ∈ l → sizeOf c < sizeOf l :=
    fun h => List.sizeOf_lt_of_mem h
  cases n with
  | module p body =>
    have := mem (l := body) h
    rw [module.sizeOf_spec]; omega
  | function p name parameters body =>
    rw [function.sizeOf_spec]
    rcases List.mem_append.1 h with h | h <;> have := mem h <;> omega
  | classDef p name bases body =>
    rw [classDef.sizeOf_spec]
    rcases List.mem_append.1 h with h | h <;> have := mem h <;> omega
  | assign p targets typeHint value =>
    rw [assign.sizeOf_spec]
    rcases List.mem_append.1 h with h | h
    · rcases List.mem_append.1 h with h | h
      · have := mem h; omega
      · cases typeHint with
        | none => cases h
        | some a =>
          obtain rfl := List.mem_singleton.1 h
          rw [Option.some.sizeOf_spec]; omega
    · obtain rfl := List.mem_singleton.1 h
      omega
  | augassign p target op value =>
    rw [augassign.sizeOf_spec]
    rcases List.mem_cons.1 h with rfl | h
    · omega
    · obtain rfl := List.mem_singleton.1 h
      omega
  | call p func args keywords =>
    rw [call.sizeOf_spec]
    rcases List.mem_cons.1 h with rfl | h
    · omega
    · rcases List.mem_append.1 (mem_sortBy.1 h) with h | h <;> have := mem h <;> omega
  | keyword p name value =>
    rw [keyword.sizeOf_spec]
    obtain rfl := List.mem_singleton.1 h
    omega
  | attr p object name =>
    rw [attr.sizeOf_spec]
    obtain rfl := List.mem_singleton.1 h
    omega
  | subscript p value indices =>
    rw [subscript.sizeOf_spec]
    rcases List.mem_cons.1 h with rfl | h
    · omega
    · have := mem h; omega
  | name p id => cases h
  | constant p lit text => cases h
  | compare p left ops comparators =>
    rw [compare.sizeOf_spec]
    rcases List.mem_cons.1 h with rfl | h
    · omega
    · have := mem h; omega
  | binop p left op right =>
    rw [binop.sizeOf_spec]
    rcases List.mem_cons.1 h with rfl | h
    · omega
    · obtain rfl := List.mem_singleton.1 h
      omega
  | unaryop p op operand =>
    rw [unaryop.sizeOf_spec]
    obtain rfl := List.mem_singleton.1 h
    omega
  | boolop p op values =>
    have := mem (l := values) h
    rw [boolop.sizeOf_spec]; omega
  | lambda p parameters body =>
    rw [lambda.sizeOf_spec]
    rcases List.mem_append.1 h with h | h
    · have := mem h; omega
    · obtain rfl := List.mem_singleton.1 h
      omega
  | other p type cs =>
    have := mem (l := cs) h
    rw [other.sizeOf_spec]; omega
  | unknown p kind => cases h

end Node
end ChainLint
