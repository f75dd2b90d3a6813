import ChainLint.Engine.Order
import ChainLint.Rule.Catalog
import ChainLint.Tree.Walk

/-!
# ChainLint.Engine.Check

Checking a tree against a list of rules.

* `inspect`: a node has whole, positive coordinates, and an assignment has a target.
* `fire`: the findings of the rules on one node. A rule is silent on a node where an earlier one
  that supersedes it has matched.
* `visit`: the visit of a subtree. A scope inside another one starts without bindings, and what
  it binds is forgotten when it is left. An assignment binds its names when it is left.
* `check`.
-/

namespace ChainLint

def isWhole (q : Rat) : Bool := q.den == 1

/-- Refuses a node that no source text has. -/
def inspect (n : Node) : Except TreeError Unit :=
  let p := n.position
  if !isWhole p.line || !isWhole p.column || p.line < 1 || p.column < 0 then
    .error (.malformed ⟨n.kind.text ++ " node has an invalid position", p⟩)
  else
    match n with
    | .assign _ [] _ _ => .error (.malformed ⟨"assignment without a target", p⟩)
    | _ => .ok ()

/-- Rules offered a node of this kind, once for every time they list it. -/
def offered (ordered : List Rule) (k : Kind) : List Rule :=
  ordered.flatMap (fun r => List.replicate (r.kinds.count k) r)

def findingAt (r : Rule) (n : Node) : Finding where
  ruleId := r.id
  message := r.message
  line := n.position.line.num
  column := n.position.column.num

/-- Findings of the rules on `n`, given the ids silenced so far. -/
def fireFrom (n : Node) (b : Bindings) : List String → List Rule → List Finding
  | _, [] => []
  | silenced, r :: rules =>
    if silenced.contains r.id || !r.check n b then fireFrom n b silenced rules
    else findingAt r n :: fireFrom n b (r.supersedes ++ silenced) rules

def fire (ordered : List Rule) (n : Node) (b : Bindings) : List Finding :=
  fireFrom n b [] (offered ordered n.kind)

/-- The bindings of the enclosing scope after the visit of `n`, and the findings in it. -/
def visit (ordered : List Rule) (isRoot : Bool) (b : Bindings) (n : Node) :
    Except TreeError (Bindings × List Finding) := do
  inspect n
  match n with
  | .unknown p kind => .error (.unhandled kind p)
  | n =>
    let opens := n.isScope && !isRoot
    let start := if opens then Bindings.empty else b
    let (stop, below) ← n.children.attach.foldlM
      (fun (b, found) ⟨c, _⟩ => do
        let (b, more) ← visit ordered false b c
        return (b, found ++ more))
      (start, [])
    return (if opens then b else n.bindTargets stop, fire ordered n start ++ below)
termination_by sizeOf n
decreasing_by exact Node.sizeOf_lt_of_mem_children ‹_›

/-- Findings of the rules in a tree, in the order of the visit. -/
def check (rules : List Rule) (root : Node) : Except TreeError (List Finding) := do
  let (_, found) ← visit (firingOrder rules) true Bindings.empty root
  return found

end ChainLint
