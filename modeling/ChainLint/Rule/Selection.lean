import ChainLint.Rule.Catalog
import ChainLint.Text.Units

/-!
# ChainLint.Rule.Selection

Which rules run. An id is enabled when some selected beginning of it is longer than every
ignored one.

* `longestMatch`: length of the longest beginning of an id in a list.
* `isEnabled`, `pick`.
-/

namespace ChainLint

structure Selection where
  select : List String := []
  ignore : List String := []
  deriving DecidableEq

namespace Selection

/-- What is selected when nothing is named. -/
def default : List String := ["PMC"]

/-- Length of the longest entry that begins `id`. -/
def longestMatch (id : String) (entries : List String) : Option Nat :=
  entries.foldl (fun best p =>
    if Text.startsWith id p then
      match best with
      | some n => some (max n p.length)
      | none => some p.length
    else best) none

def isEnabled (s : Selection) (id : String) : Bool :=
  let select := if s.select.isEmpty then default else s.select
  match longestMatch id select, longestMatch id s.ignore with
  | none, _ => false
  | some _, none => true
  | some n, some m => decide (m < n)

def pick (s : Selection) (rules : List Rule) : List Rule :=
  rules.filter (fun r => s.isEnabled r.id)

end Selection
end ChainLint
