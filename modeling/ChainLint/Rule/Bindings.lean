/-!
# ChainLint.Rule.Bindings

What the names of a scope were bound to. Bindings only grow: binding a name again adds an origin
and drops none.

* `Origin`, `Bindings`, `bind`, `has`.
-/

namespace ChainLint

/-- The sort of expression a name was bound to. -/
inductive Origin where
  | call | subscript | mask | other
  deriving DecidableEq

structure Bindings where
  entries : List (String × Origin) := []
  deriving DecidableEq

namespace Bindings

def empty : Bindings := {}

def bind (b : Bindings) (name : String) (origin : Origin) : Bindings :=
  ⟨(name, origin) :: b.entries⟩

/-- The name was bound, at some time, to an expression of this origin. -/
def has (b : Bindings) (name : String) (origin : Origin) : Bool :=
  b.entries.contains (name, origin)

end Bindings
end ChainLint
