import ChainLint.Yaml.Value

/-!
# ChainLint.Yaml.Cursor

A place in a YAML stream, with what the layout rules need to know about the current line.

* `Cursor`, `Read`: reading may fail, which makes the stream invalid.
* `skipSpace`: white space, line breaks and comments.
* `isSeparator`: a line that ends the document.

The stream ends in a NUL character, which occurs nowhere else in it.
-/

namespace ChainLint
namespace Yaml

structure Cursor where
  input : Array Char
  pos : Nat := 0
  line : Nat := 0
  lineStart : Nat := 0
  /-- Spaces at the start of the line. -/
  indent : Int := 0
  /-- The line has a tabulator in front of its content. -/
  tabbed : Bool := false
  anchors : List (String × Value) := []
  /-- Tag handles declared for this document. -/
  handles : List (String × String) := []

abbrev Read := StateT Cursor Option

def invalid {α : Type} : Read α := fun _ => none

/-- The character `k` places ahead. -/
def ahead (k : Nat) : Read Char := do
  let c ← get
  return c.input.getD (c.pos + k) '\x00'

def peek : Read Char := ahead 0

def advance (k : Nat) : Read Unit := modify (fun c => { c with pos := c.pos + k })

def isEnd (c : Char) : Bool := c.toNat == 0

def isSpace (c : Char) : Bool := c == ' ' || c == '\t'

def isBreak (c : Char) : Bool := c == '\n' || c == '\r'

def isSpaceOrBreak (c : Char) : Bool := isSpace c || isBreak c

def isFlowMark (c : Char) : Bool := [',', '[', ']', '\x7b', '\x7d'].contains c

/-- Characters that may stand in a scalar. -/
def isPrintable (c : Char) : Bool :=
  let n := c.toNat
  !(n ≤ 0x08 || n == 0x0B || n == 0x0C || (0x0E ≤ n && n ≤ 0x1F) || (0x7F ≤ n && n ≤ 0x84)
    || (0x86 ≤ n && n ≤ 0x9F) || n == 0xFFFE || n == 0xFFFF)

/-- The characters from a place on that satisfy a test, at most `limit` of them. -/
def runAt (input : Array Char) (p : Char → Bool) : (limit pos : Nat) → List Char
  | 0, _ => []
  | limit + 1, pos =>
    let c := input.getD pos '\x00'
    if !isEnd c && p c then c :: runAt input p limit (pos + 1) else []

/-- The characters from here on that satisfy a test; they are consumed. -/
def takeWhile (p : Char → Bool) : Read (List Char) := do
  let c ← get
  let cs := runAt c.input p (c.input.size - c.pos) c.pos
  advance cs.length
  return cs

/-- The characters between two places. -/
def between (start stop : Nat) : Read (List Char) := do
  return ((← get).input.extract start stop).toList

/-- One line break. -/
def lineBreak : Read Unit := do
  let k ← match ← peek, ← ahead 1 with
    | '\r', '\n' => pure 2
    | '\n', _ | '\r', _ => pure 1
    | _, _ => invalid
  modify (fun c =>
    { c with pos := c.pos + k, line := c.line + 1, lineStart := c.pos + k, tabbed := false })

/-- Rest of a comment. -/
def skipComment : Read Unit := do discard (takeWhile (fun c => !isBreak c))

def skipSpaceFrom (comments : Bool) : Nat → Nat → Read Nat
  | 0, breaks => pure breaks
  | fuel + 1, breaks => do
    let blanks ← takeWhile isSpace
    if blanks.contains '\t' then modify (fun c => { c with tabbed := true })
    if comments && (← peek) == '#' then skipComment
    if isBreak (← peek) then
      lineBreak
      let spaces ← takeWhile (· == ' ')
      modify (fun c => { c with indent := spaces.length })
      skipSpaceFrom comments fuel (breaks + 1)
    else pure breaks

/-- Skips white space, line breaks and, if asked to, comments. Counts the line breaks. -/
def skipSpace (comments : Bool) : Read Nat := do
  skipSpaceFrom comments ((← get).input.size + 1) 0

/-- The line starts here with three dashes or dots that stand alone. -/
def atSeparator : Read Bool := do
  let c ← get
  let a ← peek
  return c.pos == c.lineStart && (a == '-' || a == '.') && (← ahead 1) == a && (← ahead 2) == a
    && (isEnd (← ahead 3) || isSpaceOrBreak (← ahead 3))

/-- A fold of line breaks: one is a space, each further one a line break. -/
def folded (breaks : Nat) : List Char :=
  if breaks = 1 then [' '] else List.replicate (breaks - 1) '\n'

end Yaml
end ChainLint
