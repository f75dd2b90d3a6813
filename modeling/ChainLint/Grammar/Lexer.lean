import ChainLint.Grammar.Token

/-!
# ChainLint.Grammar.Lexer

From source text to tokens. Line structure becomes `newline`, `indent` and `dedent` tokens, as
long as no bracket is open; white space, comments and joined lines leave no token.

* `Mode`: what the scanner is inside of. A formatted string literal holds text, replacement
  fields and format specifications, each read by rules of its own.
* `Scan`, `Scan.step`: one step consumes text and adds tokens.
* `tokens`: all tokens, and where the first token or comment stands.
-/

namespace ChainLint
namespace Grammar

/-- How a string literal ends, and whether a backslash is an ordinary character in it. -/
structure Delimiter where
  quote : Char
  triple : Bool
  raw : Bool
  deriving DecidableEq

inductive Mode where
  | bracket
  /-- Text of a formatted string literal. -/
  | text (d : Delimiter)
  /-- A replacement field, outside of any bracket in it. -/
  | replacement
  | specification
  deriving DecidableEq

structure Scan where
  rest : List Char
  mark : Mark := {}
  /-- The indentation of the current line is still to be read. -/
  lineStart : Bool := true
  /-- The current line holds a token. -/
  busy : Bool := false
  /-- Indentations of the open blocks, innermost first. -/
  indents : List Nat := []
  modes : List Mode := []
  /-- Text of the last token. -/
  last : String := ""
  /-- End of the last token, or of a comment behind it. -/
  lastStop : Mark := {}
  /-- Start of the first token or comment. -/
  first : Option Mark := none
  /-- Tokens so far, last one first. -/
  output : List Token := []

/-- White space between tokens, the line feed apart. -/
def isGap (c : Char) : Bool :=
  c == ' ' || c == '\t' || c == '\r' || c.toNat == 0x0B || c.toNat == 0x0C || c.toNat == 0xFEFF
    || c.toNat == 0x2060 || c.toNat == 0x200B

/-- Beyond ASCII every character that is not white space counts as part of a name: in valid
source no other one stands outside of strings and comments. -/
def isNameStart (c : Char) : Bool := c.isAlpha || c == '_' || c.toNat > 127

def isNamePart (c : Char) : Bool := isNameStart c || c.isDigit

/-- Width of an indentation: a tabulator counts eight, a form feed or carriage return starts
anew. -/
def indentWidth (cs : List Char) : Nat :=
  cs.foldl (fun n c =>
    if c = ' ' then n + 1
    else if c = '\t' then n + 8
    else if c = '\r' || c.toNat = 0x0C then 0
    else n) 0

namespace Scan

/-- Moves over `cs`, which begins the rest. -/
def skip (s : Scan) (cs rest : List Char) : Scan :=
  { s with rest := rest, mark := s.mark.after cs }

/-- Adds the token over `cs`, which begins the rest. -/
def emit (s : Scan) (kind : TokenKind) (cs rest : List Char) (inner : List Cst) : Scan :=
  let stop := s.mark.after cs
  let text := String.ofList cs
  { s with
    rest := rest, mark := stop, busy := true, last := text, lastStop := stop,
    first := s.first.orElse (fun _ => some s.mark),
    output := ⟨kind, text, s.mark, stop, inner⟩ :: s.output }

/-- Adds a token without text. -/
def emitEmpty (s : Scan) (kind : TokenKind) : Scan :=
  { s with output := ⟨kind, "", s.lastStop, s.lastStop, []⟩ :: s.output }

/-- Closes the blocks indented deeper than `width`. -/
def closeBlocks (width : Nat) : List Nat → Scan → Scan
  | [], s => { s with indents := [] }
  | i :: is, s =>
    if width < i then closeBlocks width is (s.emitEmpty .dedent) else { s with indents := i :: is }

/-- Reads the indentation of a line that holds a token. It opens a block only behind a colon. -/
def indentation (s : Scan) (width : Nat) : Scan :=
  let current := s.indents.headD 0
  if current < width then
    if s.last = ":" then { s.emitEmpty .indent with indents := width :: s.indents } else s
  else closeBlocks width s.indents s

end Scan

/-- The rest behind the quotes that end a literal here, if they do. -/
def closing (d : Delimiter) (cs : List Char) : Option (List Char × List Char) :=
  let quotes := if d.triple then [d.quote, d.quote, d.quote] else [d.quote]
  if quotes.isPrefixOf cs then some (quotes, cs.drop quotes.length) else none

/-- The body of a plain string literal with its closing quotes, and what follows. -/
def literalBody (d : Delimiter) : List Char → List Char × List Char
  | [] => ([], [])
  | ['\\'] => (['\\'], [])
  | '\\' :: c :: cs =>
    let (body, rest) := literalBody d cs
    ('\\' :: c :: body, rest)
  | c :: cs =>
    match closing d (c :: cs) with
    | some (quotes, rest) => (quotes, rest)
    | none =>
      let (body, rest) := literalBody d cs
      (c :: body, rest)

def isHex (c : Char) : Bool := c.isDigit || ('a' ≤ c && c ≤ 'f') || ('A' ≤ c && c ≤ 'F')

/-- Number of hexadecimal digits that must follow, if exactly so many or more do. -/
def hexLength (n : Nat) (cs : List Char) : Option Nat :=
  if (cs.take n).length = n ∧ (cs.take n).all isHex then some (n + 1) else none

/-- Length of an escape behind its backslash, if there is one. -/
def escapeLength : List Char → Option Nat
  | [] => none
  | 'u' :: cs => hexLength 4 cs
  | 'U' :: cs => hexLength 8 cs
  | 'x' :: cs => hexLength 2 cs
  | 'N' :: '\x7b' :: cs =>
    let name := cs.takeWhile (· != '\x7d')
    if name.isEmpty || name.length = cs.length then none else some (name.length + 3)
  | '\r' :: '\n' :: _ => some 2
  | c :: cs =>
    if c.isDigit then some ((c :: cs).take 3 |>.takeWhile Char.isDigit).length
    else if ['\n', '\'', '"', 'a', 'b', 'f', 'r', 'n', 't', 'v', '\\'].contains c then some 1
    else none

/-- A stretch of text in a formatted string literal: its characters and the escapes in it. Every
round takes at least one character, so there is at most one for each of the first argument. -/
def formatText (d : Delimiter) : List Char → Mark → List Char → List Char × List Cst
  | [], _, _ => ([], [])
  | _ :: bound, m, cs =>
    let go (n : Nat) (type : Option String) : List Char × List Cst :=
      let taken := cs.take n
      let stop := m.after taken
      let (more, inner) := formatText d bound stop (cs.drop n)
      (taken ++ more,
        match type with
        | some type => nodeAt type true m stop [] :: inner
        | none => inner)
    match cs with
    | [] => ([], [])
    | '\x7b' :: '\x7b' :: _ => go 2 (some "escape_interpolation")
    | '\x7d' :: '\x7d' :: _ => go 2 (some "escape_interpolation")
    | '\x7b' :: _ => ([], [])
    | '\\' :: rest =>
      if d.raw then
        match rest with
        | c :: _ => if c = d.quote || c = '\\' || c = '\n' then go 2 none else go 1 none
        | [] => go 1 none
      else
        match escapeLength rest with
        | some n => go (n + 1) (some "escape_sequence")
        | none => go 1 none
    | _ :: _ => if (closing d cs).isSome then ([], []) else go 1 none

/-- Digits and underscores. -/
def digitRun (cs : List Char) : List Char := cs.takeWhile (fun c => c.isDigit || c == '_')

/-- An exponent with its digits, empty when there are none. -/
def exponent (cs : List Char) : List Char :=
  match cs with
  | e :: rest =>
    if e = 'e' || e = 'E' then
      let sign := rest.take 1 |>.filter (fun c => c == '+' || c == '-')
      let digits := digitRun (rest.drop sign.length)
      if (digits.take 1).any Char.isDigit then e :: sign ++ digits else []
    else []
  | [] => []

/-- A number and whether it is a float. -/
def number (cs : List Char) : List Char × Bool :=
  let based (isPart : Char → Bool) : List Char × Bool :=
    (cs.take 2 ++ (cs.drop 2).takeWhile (fun c => isPart c || c == '_'), false)
  match cs with
  | '0' :: 'x' :: _ | '0' :: 'X' :: _ => based isHex
  | '0' :: 'o' :: _ | '0' :: 'O' :: _ | '0' :: 'b' :: _ | '0' :: 'B' :: _ => based Char.isDigit
  | _ =>
    let whole := digitRun cs
    let rest := cs.drop whole.length
    let point :=
      match rest with
      | '.' :: more => '.' :: digitRun more
      | _ => []
    let rest := rest.drop point.length
    let power := exponent rest
    let rest := rest.drop power.length
    let unit := rest.take 1 |>.filter (fun c => c == 'j' || c == 'J')
    (whole ++ point ++ power ++ unit, !(point ++ power).isEmpty)

/-- The delimiter of a string literal behind its letters. -/
def delimiterOf (letters : List Char) (cs : List Char) : Option (Delimiter × List Char) :=
  let raw := letters.any (fun c => c == 'r' || c == 'R')
  match cs with
  | '"' :: '"' :: '"' :: _ => some (⟨'"', true, raw⟩, ['"', '"', '"'])
  | '\'' :: '\'' :: '\'' :: _ => some (⟨'\'', true, raw⟩, ['\'', '\'', '\''])
  | '"' :: _ => some (⟨'"', false, raw⟩, ['"'])
  | '\'' :: _ => some (⟨'\'', false, raw⟩, ['\''])
  | _ => none

/-- Letters that may stand in front of a string literal. -/
def isStringLetters (letters : List Char) : Bool :=
  letters.length ≤ 2 && letters.all (fun c => "rRbBuUfF".toList.contains c)

namespace Scan

/-- A string literal whose quotes follow `letters`. -/
def stringLiteral (s : Scan) (letters : List Char) (d : Delimiter) (quotes : List Char) : Scan :=
  let opened := letters ++ quotes
  let rest := s.rest.drop opened.length
  if letters.any (fun c => c == 'f' || c == 'F') then
    { s.emit .formatStart opened rest [] with modes := .text d :: s.modes }
  else
    let (body, rest) := literalBody d rest
    s.emit .string (opened ++ body) rest []

/-- A name, a keyword, or a string literal with letters in front. -/
def word (s : Scan) : Scan :=
  let cs := s.rest.takeWhile isNamePart
  let rest := s.rest.drop cs.length
  let opened := if isStringLetters cs then delimiterOf cs rest else none
  match opened with
  | some (d, quotes) => s.stringLiteral cs d quotes
  | none => s.emit (if keywords.contains (String.ofList cs) then .keyword else .name) cs rest []

/-- An operator. Brackets open and close modes, and a colon or a closing brace that belongs to a
replacement field ends its expression. -/
def operator (s : Scan) (cs : List Char) : Scan :=
  let rest := s.rest.drop cs.length
  match cs, s.modes with
  | ['('], modes | ['['], modes | ['\x7b'], modes =>
    { s.emit .op cs rest [] with modes := .bracket :: modes }
  | ['\x7d'], .replacement :: modes => { s.emit .op cs rest [] with modes := modes }
  | [')'], _ :: modes | [']'], _ :: modes | ['\x7d'], _ :: modes =>
    { s.emit .op cs rest [] with modes := modes }
  | [':'], .replacement :: _ =>
    { s.emit .formatColon cs rest [] with modes := .specification :: s.modes }
  | _, _ => s.emit .op cs rest []

/-- The end of a line: a token when the line holds one. -/
def lineFeed (s : Scan) (rest : List Char) : Scan :=
  if s.modes.isEmpty then
    let s := if s.busy then s.emitEmpty .newline else s
    { s.skip ['\n'] rest with lineStart := true, busy := false }
  else s.skip ['\n'] rest

def comment (s : Scan) : Scan :=
  let cs := s.rest.takeWhile (· != '\n')
  let moved := s.skip cs (s.rest.drop cs.length)
  { moved with
    lastStop := if s.busy then moved.mark else s.lastStop,
    first := s.first.orElse (fun _ => some s.mark) }

/-- A token of code. -/
def code (s : Scan) : Scan :=
  match s.rest with
  | [] => s
  | '\n' :: rest => s.lineFeed rest
  | '#' :: _ => s.comment
  | '\\' :: '\n' :: rest => s.skip ['\\', '\n'] rest
  | '\\' :: '\r' :: '\n' :: rest => s.skip ['\\', '\r', '\n'] rest
  | c :: rest =>
    let isPoint := c == '.' && (rest.take 1).any Char.isDigit
    if isGap c then s.skip [c] rest
    else if isNameStart c then s.word
    else if c.isDigit || isPoint then
      let (cs, isFloat) := number s.rest
      s.emit (if isFloat then .float else .integer) cs (s.rest.drop cs.length) []
    else
      match delimiterOf [] s.rest with
      | some (d, quotes) => s.stringLiteral [] d quotes
      | none =>
        match operators.find? (fun o => o.toList.isPrefixOf s.rest) with
        | some o => s.operator o.toList
        | none =>
          match c, rest, s.modes with
          | '!', letter :: more, .replacement :: _ =>
            if 'a' ≤ letter && letter ≤ 'z' then s.emit .conversion ['!', letter] more []
            else s.emit .junk [c] rest []
          | _, _, _ => s.emit .junk [c] rest []

/-- A piece of a formatted string literal. -/
def formatted (s : Scan) (d : Delimiter) (modes : List Mode) : Scan :=
  match closing d s.rest with
  | some (quotes, rest) => { s.emit .formatEnd quotes rest [] with modes := modes }
  | none =>
    match formatText d s.rest s.mark s.rest with
    | ([], _) =>
      { s.emit .op (s.rest.take 1) (s.rest.drop 1) [] with modes := .replacement :: s.modes }
    | (cs, inner) => s.emit .formatText cs (s.rest.drop cs.length) inner

/-- A piece of a format specification: plain characters leave no token. -/
def specified (s : Scan) (modes : List Mode) : Scan :=
  match s.rest with
  | '\x7b' :: rest => { s.emit .op ['\x7b'] rest [] with modes := .replacement :: s.modes }
  | '\x7d' :: rest => { s.emit .op ['\x7d'] rest [] with modes := modes.drop 1 }
  | c :: rest => s.skip [c] rest
  | [] => s

/-- One step. It consumes a character, or reads the indentation of a line. -/
def step (s : Scan) : Scan :=
  match s.modes with
  | .text d :: modes => s.formatted d modes
  | .specification :: modes => s.specified modes
  | _ =>
    if s.lineStart then
      let cs := s.rest.takeWhile isGap
      let moved := { s.skip cs (s.rest.drop cs.length) with lineStart := false }
      match moved.rest with
      | [] | '\n' :: _ | '#' :: _ => moved
      | _ => moved.indentation (indentWidth cs)
    else s.code

def run : Nat → Scan → Scan
  | 0, s => s
  | fuel + 1, s => if s.rest.isEmpty then s else run fuel s.step

/-- The end of the text ends the last line and closes all blocks. -/
def finish (s : Scan) : Scan :=
  let s := if s.busy then s.emitEmpty .newline else s
  closeBlocks 0 (s.indents.filter (0 < ·)) s

end Scan

/-- The tokens of a text, and where its first token or comment stands, or its end if it has
none. A line costs one step more than its characters. -/
def tokens (source : String) : List Token × Mark :=
  let cs := source.toList
  let s := (Scan.run (2 * cs.length + 2) { rest := cs }).finish
  (s.output.reverse, s.first.getD s.mark)

end Grammar
end ChainLint
