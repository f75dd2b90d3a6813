import ChainLint.Text.Units

/-!
# ChainLint.Text.Distance

How far a word is from another: the least number of insertions, deletions, replacements and swaps
of neighbours that lead from one to the other, where no unit is touched twice.

* `distance`: row by row through the table of distances between beginnings of the two words.
* `similarTo`: the candidates that are near enough to be meant.
-/

namespace ChainLint
namespace Text

/-- The row for the first `i + 1` units of `a`, after the rows for fewer. -/
def distanceRow (a b : Array Nat) (rows : Array (Array Nat)) (i : Nat) : Array Nat :=
  let cell (r c : Nat) : Nat := (rows.getD r #[]).getD c 0
  (List.range b.size).foldl (fun row j =>
    let cost := if a[i]? = b[j]? then 0 else 1
    let best := min (min (cell i (j + 1) + 1) (row.getD j 0 + 1)) (cell i j + cost)
    row.push (if 0 < i ∧ 0 < j ∧ a[i]? = b[j - 1]? ∧ a[i - 1]? = b[j]? then
        min best (cell (i - 1) (j - 1) + 1)
      else best)) #[i + 1]

def distance (a b : List Nat) : Nat :=
  let rows := (List.range a.length).foldl
    (fun rows i => rows.push (distanceRow a.toArray b.toArray rows i))
    #[(List.range (b.length + 1)).toArray]
  (rows.getD a.length #[]).getD b.length 0

/-- Words further apart than this are not looked at. -/
def maxDistance : Nat := 3

/-- The distance of two words, or the length of the longer one if their lengths already differ by
too much. -/
def nearDistance (a b : List Nat) : Nat :=
  if a.length - b.length > maxDistance ∨ b.length - a.length > maxDistance then
    max a.length b.length
  else distance a b

/-- More than two fifths of the longer word are shared. -/
def isSimilar (a b : List Nat) (d : Nat) : Bool :=
  let n := max a.length b.length
  4 * n < 10 * (n - d)

/-- The similar candidates of the least distance, in the order given. -/
def similarTo (word : String) (candidates : List String) : List String :=
  let us (s : String) : List Nat := s.toList.flatMap unitsOf
  let rated := (candidates.filter (fun c => 1 < length c)).filterMap (fun c =>
    let d := nearDistance (us word) (us c)
    if isSimilar (us word) (us c) d ∧ d ≤ maxDistance then some (c, d) else none)
  let best := rated.foldl (fun n e => min n e.2) maxDistance
  (rated.filter (fun e => e.2 = best)).map Prod.fst

end Text
end ChainLint
