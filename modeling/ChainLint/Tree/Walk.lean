import ChainLint.Tree.Error

/-!
# ChainLint.Tree.Walk

The visit of a tree: a node is entered, its children are visited in source order, and it is
left. A node of an unknown kind stops the visit, since its children are not known.

* `Event`, `walk`.
-/

namespace ChainLint

inductive Phase where
  | enter | leave
  deriving DecidableEq

def Phase.text : Phase → String
  | .enter => "enter"
  | .leave => "leave"

structure Event where
  phase : Phase
  node : Node
  parent : Option Node

/-- The events of the visit of `n`, or the first node whose kind is unknown. -/
def walk (parent : Option Node) (n : Node) : Except TreeError (List Event) :=
  match n with
  | .unknown p kind => .error (.unhandled kind p)
  | n => do
    let inner ← n.children.attach.mapM (fun ⟨c, _⟩ => walk (some n) c)
    return ⟨.enter, n, parent⟩ :: inner.flatten ++ [⟨.leave, n, parent⟩]
termination_by sizeOf n
decreasing_by exact Node.sizeOf_lt_of_mem_children ‹_›

end ChainLint
