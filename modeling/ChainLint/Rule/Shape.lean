import ChainLint.Rule.Bindings
import ChainLint.Tree.Node

/-!
# ChainLint.Rule.Shape

Shapes of expressions that the rules look for.

* `chainBase`: the name at the bottom of a chain of attributes, calls and subscripts.
* `receiver`: the object a method is called on.
* `targets`: what an assignment binds.
* `isMask`, `origin`: boolean masks and the origin an expression gives to a name.
-/

namespace ChainLint

/-- Methods whose result is a boolean mask. -/
def maskMethods : List String :=
  ["isna", "isnull", "notna", "notnull", "isin", "between", "duplicated", "eq", "ne", "lt", "le",
    "gt", "ge", "any", "all", "contains", "startswith", "endswith", "match", "fullmatch"]

def maskOperators : List String := ["&", "|", "^"]

namespace Node

/-- The name at the bottom of a receiver chain, if the chain starts at one. -/
def chainBase : Node → Option String
  | .name _ id => some id
  | .attr _ object _ => object.chainBase
  | .call _ func _ _ => func.chainBase
  | .subscript _ value _ => value.chainBase
  | _ => none

/-- The object a call is invoked on; a bare function call has none. -/
def receiver : Node → Option Node
  | .call _ (.attr _ object _) _ _ => some object
  | _ => none

/-- Targets of an assignment, plain or augmented. -/
def targets : Node → List Node
  | .assign _ targets _ _ => targets
  | .augassign _ target _ _ => [target]
  | _ => []

def isName (id : String) : Node → Bool
  | .name _ id' => id == id'
  | _ => false

def isAttr : Node → Bool
  | .attr .. => true
  | _ => false

def isSubscript : Node → Bool
  | .subscript .. => true
  | _ => false

def isLabelAttr : Node → Bool
  | .attr _ _ word => word == "index" || word == "columns"
  | _ => false

/-- The expression yields a boolean mask, by its form or because it is a name bound to one. -/
def isMask (b : Bindings) : Node → Bool
  | .compare .. | .boolop .. => true
  | .unaryop _ op _ => op == "~" || op == "not"
  | .binop _ _ op _ => maskOperators.contains op
  | .call _ (.attr _ _ method) _ _ => maskMethods.contains method
  | .name _ id => b.has id .mask
  | _ => false

/-- The origin that a name gets from this value. -/
def origin (b : Bindings) (value : Node) : Origin :=
  if value.isMask b then .mask
  else
    match value with
    | .call .. => .call
    | .subscript .. => .subscript
    | _ => .other

/-- The bindings after an assignment is left: every plain name among its targets gets the origin
of the value. -/
def bindTargets (b : Bindings) : Node → Bindings
  | .assign _ targets _ value =>
    let o := value.origin b
    targets.foldl (fun b t =>
      match t with
      | .name _ id => b.bind id o
      | _ => b) b
  | _ => b

end Node
end ChainLint
