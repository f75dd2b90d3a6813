import ChainLint.Rule.Basic

/-!
# ChainLint.Engine.Order

The order in which rules are tried on a node: the order of the list, except that a rule comes
after the rules that supersede it.

* `place`: puts a rule into the order, after its superseders; a rule already met is skipped,
  which also ends a cycle.
* `firingOrder`.
-/

namespace ChainLint

structure Placement where
  /-- Keys of the rules met so far. -/
  met : List (String × Nat) := []
  ordered : List Rule := []

/-- Rules of the list that supersede `r`. -/
def superseders (rules : List Rule) (r : Rule) : List Rule :=
  rules.filter (fun other => other.supersedes.contains r.id)

/-- Each level meets a rule for the first time, so the depth is at most the number of rules. -/
def place (rules : List Rule) : Nat → Placement → Rule → Placement
  | 0, st, _ => st
  | depth + 1, st, r =>
    if st.met.contains r.key then st
    else
      let st := (superseders rules r).foldl (place rules depth) { st with met := r.key :: st.met }
      { st with ordered := st.ordered ++ [r] }

def firingOrder (rules : List Rule) : List Rule :=
  (rules.foldl (place rules (rules.length + 1)) {}).ordered

end ChainLint
