/-!
# ChainLint.Text.Units

Text measured in 16-bit code units. Columns, offsets and the order of paths count a character
beyond the basic plane as two units.

* `width`, `length`: units of a character and of a text.
* `slots`, `slice`: the text between two unit offsets; a negative offset counts from the end.
* `le`: lexicographic order of unit sequences.
-/

namespace ChainLint
namespace Text

/-- Units of one character. -/
def width (c : Char) : Nat := if c.toNat < 0x10000 then 1 else 2

/-- The units of one character: itself, or a high and a low half. -/
def unitsOf (c : Char) : List Nat :=
  if c.toNat < 0x10000 then [c.toNat]
  else
    let n := c.toNat - 0x10000
    [0xD800 + n / 0x400, 0xDC00 + n % 0x400]

def widthOf (cs : List Char) : Nat := cs.foldl (fun n c => n + width c) 0

/-- Units of a text. -/
def length (s : String) : Nat := widthOf s.toList

/-- A text with one place for every unit: a wide character stands in the first of its two. -/
def slotsOf (c : Char) : List (Option Char) :=
  if c.toNat < 0x10000 then [some c] else [some c, none]

def slots (s : String) : Array (Option Char) := (s.toList.flatMap slotsOf).toArray

/-- An offset into a text of `n` units: negative ones count from the end, all are clamped. -/
def clampOffset (n : Nat) (i : Int) : Nat :=
  if i < 0 then (n + i).toNat else min i.toNat n

/-- The text from offset `start` to offset `stop`, empty when they cross. -/
def slice (text : Array (Option Char)) (start stop : Int) : String :=
  let a := clampOffset text.size start
  let b := clampOffset text.size stop
  String.ofList ((text.extract a b).toList.filterMap id)

/-- Lexicographic order of two lists of units. -/
def unitsLe : List Nat → List Nat → Bool
  | [], _ => true
  | _ :: _, [] => false
  | x :: xs, y :: ys => if x = y then unitsLe xs ys else decide (x < y)

/-- Order of texts by code unit. -/
def le (a b : String) : Bool := unitsLe (a.toList.flatMap unitsOf) (b.toList.flatMap unitsOf)

/-- `p` begins `s`. -/
def startsWith (s p : String) : Bool := p.toList.isPrefixOf s.toList

/-- `p` ends `s`. -/
def endsWith (s p : String) : Bool := p.toList.isSuffixOf s.toList

def joinWith (sep : String) : List String → String
  | [] => ""
  | [s] => s
  | s :: rest => s ++ sep ++ joinWith sep rest

/-- The pieces of `cs` between the occurrences of `sep`, at least one. -/
def splitChars (sep : Char) : List Char → List (List Char)
  | [] => [[]]
  | c :: cs =>
    if c = sep then [] :: splitChars sep cs
    else
      match splitChars sep cs with
      | [] => [[c]]
      | piece :: pieces => (c :: piece) :: pieces

def splitAt (sep : Char) (s : String) : List String :=
  (splitChars sep s.toList).map String.ofList

/-- The lines of a text; only a line feed ends a line. -/
def lines (s : String) : List String := splitAt '\n' s

/-- `s` after enough copies of `pad` to reach `n` characters. -/
def padLeft (n : Nat) (pad : Char) (s : String) : String :=
  String.ofList (List.replicate (n - s.toList.length) pad ++ s.toList)

end Text
end ChainLint
