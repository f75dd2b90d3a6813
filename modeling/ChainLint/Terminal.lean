import ChainLint.Text.Units

/-!
# ChainLint.Terminal

Styled text for a terminal.

* `Style`, `paint`: a text between the sequence that turns a style on and the one that turns it
  off. Where the text itself turns the style off, it is turned on again.
* `strip`: a text without the sequences that set a style.

Without colour, `paint` leaves its text as it is.
-/

namespace ChainLint
namespace Terminal

inductive Style where
  | bold | dim | red | green | yellow | cyan
  deriving DecidableEq

def escape : Char := '\x1b'

/-- The sequence that sets an attribute of the terminal. -/
def sequence (code : String) : List Char := escape :: '[' :: (code.toList ++ ['m'])

def Style.on : Style → List Char
  | .bold => sequence "1"
  | .dim => sequence "2"
  | .red => sequence "31"
  | .green => sequence "32"
  | .yellow => sequence "33"
  | .cyan => sequence "36"

def Style.off : Style → List Char
  | .bold | .dim => sequence "22"
  | .red | .green | .yellow | .cyan => sequence "39"

/-- What replaces the end of a style inside a text of that style. Bold and dim share their end, so
it stays there before the style is set again. -/
def Style.again : Style → List Char
  | .bold => Style.off .bold ++ Style.on .bold
  | .dim => Style.off .dim ++ Style.on .dim
  | s => s.on

/-- Replaces every `close` by `again`, from the place `wait` units ahead on. The second number
counts the characters of a replaced `close` that are still to be left out. -/
def reopen (close again : List Char) : Nat → Nat → List Char → List Char
  | _, _, [] => []
  | wait, skip + 1, _ :: cs => reopen close again wait skip cs
  | wait, 0, c :: cs =>
    if wait = 0 ∧ close.isPrefixOf (c :: cs) then
      again ++ reopen close again 0 (close.length - 1) cs
    else c :: reopen close again (wait - Text.width c) 0 cs

/-- A text in a style. An end of the style is looked for only from the length of the opening
sequence on. -/
def paintChars (s : Style) (cs : List Char) : List Char :=
  s.on ++ reopen s.off s.again s.on.length 0 cs ++ s.off

def paint (colour : Bool) (s : Style) (text : String) : String :=
  if colour then String.ofList (paintChars s text.toList) else text

/-- Characters between the bracket and the `m` of a sequence. -/
def isParameter (c : Char) : Bool := c.isDigit || c == ';'

/-- Length of the sequence that begins a text. -/
def sequenceLength : List Char → Option Nat
  | a :: b :: cs =>
    if a = escape ∧ b = '[' then
      match cs.dropWhile isParameter with
      | 'm' :: _ => some ((cs.takeWhile isParameter).length + 3)
      | _ => none
    else none
  | _ => none

/-- Leaves out sequences; the number counts characters of one that are still to be left out. -/
def stripChars : Nat → List Char → List Char
  | _, [] => []
  | skip + 1, _ :: cs => stripChars skip cs
  | 0, c :: cs =>
    match sequenceLength (c :: cs) with
    | some n => stripChars (n - 1) cs
    | none => c :: stripChars 0 cs

def strip (s : String) : String := String.ofList (stripChars 0 s.toList)

end Terminal
end ChainLint
