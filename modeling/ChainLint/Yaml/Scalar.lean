import ChainLint.Yaml.Cursor

/-!
# ChainLint.Yaml.Scalar

The written forms of scalars. Each reader gives nothing when the text does not start with its
form, and fails when the form is started but broken.

* `plainScalar`, `singleQuoted`, `doubleQuoted`, `blockScalar`.
-/

namespace ChainLint
namespace Yaml

/-! ### Plain scalars -/

/-- Characters that cannot start a plain scalar. -/
def isIndicator (c : Char) : Bool :=
  isSpaceOrBreak c || isFlowMark c
    || ['#', '&', '*', '!', '|', '>', '\'', '"', '%', '@', '`'].contains c

/-- A dash, question mark or colon counts as an indicator in front of such a character. -/
def endsIndicator (inFlow : Bool) (c : Char) : Bool := isSpaceOrBreak c || (inFlow && isFlowMark c)

/-- A stretch of text up to its last character that is not white space. -/
structure Stretch where
  start : Nat
  stop : Nat

/-- Reads on. `pending` is the line at which a line break was met that may turn out to be part of
the scalar. -/
def plainFrom (indent : Int) (inFlow : Bool) :
    Nat → Stretch → Option Nat → List Char → Read (List Char)
  | 0, _, _, _ => invalid
  | fuel + 1, s, pending, result => do
    let close : Read (List Char) := do return result ++ (← between s.start s.stop)
    let c ← peek
    let at_ ← get
    if isEnd c then close
    else if c == ':' && endsIndicator inFlow (← ahead 1) then close
    else if c == '#' && at_.pos > 0 && isSpaceOrBreak (at_.input.getD (at_.pos - 1) 'x') then close
    else if c != ':' && c != '#' && ((← atSeparator) || (inFlow && isFlowMark c)) then close
    else if isBreak c then
      discard (skipSpace false)
      if indent ≤ (← get).indent then
        plainFrom indent inFlow fuel s (some (pending.getD at_.line)) result
      else
        modify (fun now =>
          { now with pos := s.stop, line := at_.line, lineStart := at_.lineStart,
                     indent := at_.indent })
        close
    else
      let here := at_.pos
      let (s, result) ← match pending with
        | some line => do
          let text ← between s.start s.stop
          pure (⟨here, here⟩, result ++ text ++ folded (at_.line - line))
        | none => pure (s, result)
      let s := if isSpace c then s else { s with stop := here + 1 }
      advance 1
      plainFrom indent inFlow fuel s none result

def plainScalar (indent : Int) (inFlow : Bool) : Read (Option String) := do
  let c ← peek
  if isEnd c || isIndicator c then return none
  if (c == '?' || c == '-') && endsIndicator inFlow (← ahead 1) then return none
  let start := (← get).pos
  let text ← plainFrom indent inFlow ((← get).input.size + 2) ⟨start, start⟩ none []
  if !text.all isPrintable then invalid
  else return if text.isEmpty then none else some (String.ofList text)

/-! ### Quoted scalars -/

/-- Characters that may stand in a quoted scalar as they are. -/
def isQuotable (c : Char) : Bool := c == '\t' || 0x20 ≤ c.toNat

/-- The value of a character as code units. -/
def unitsOfChar (c : Char) : List Nat := Text.unitsOf c

/-- The text of a list of code units; two halves that meet become one character. -/
def ofUnits : List Nat → List Char
  | [] => []
  | h :: l :: rest =>
    if 0xD800 ≤ h && h < 0xDC00 && 0xDC00 ≤ l && l < 0xE000 then
      Char.ofNat (0x10000 + (h - 0xD800) * 0x400 + (l - 0xDC00)) :: ofUnits rest
    else if 0xD800 ≤ h && h < 0xE000 then Char.ofNat 0xFFFD :: ofUnits (l :: rest)
    else Char.ofNat h :: ofUnits (l :: rest)
  | [h] => [if 0xD800 ≤ h && h < 0xE000 then Char.ofNat 0xFFFD else Char.ofNat h]

def unitsOfCode (n : Nat) : List Nat :=
  if n < 0x10000 then [n] else [0xD800 + (n - 0x10000) / 0x400, 0xDC00 + (n - 0x10000) % 0x400]

/-- Escapes of one letter. -/
def simpleEscapes : List (Char × Nat) :=
  [('0', 0), ('a', 7), ('b', 8), ('t', 9), ('\t', 9), ('n', 10), ('v', 11), ('f', 12), ('r', 13),
    ('e', 27), (' ', 32), ('"', 34), ('/', 47), ('\\', 92), ('N', 0x85), ('_', 0xA0),
    ('L', 0x2028), ('P', 0x2029)]

/-- Digits of a hexadecimal escape. -/
def escapeWidth (c : Char) : Option Nat :=
  if c = 'x' then some 2 else if c = 'u' then some 4 else if c = 'U' then some 8 else none

/-- The code units of the escape behind a backslash. A line break is dropped with the white
space that follows it. -/
def escape : Read (List Nat) := do
  let c ← peek
  if isBreak c then
    discard (skipSpace false)
    return []
  match simpleEscapes.lookup c, escapeWidth c with
  | some n, _ =>
    advance 1
    return [n]
  | none, some width =>
    advance 1
    let start := (← get).pos
    match numeral 16 (← between start (start + width)) with
    | some n =>
      advance width
      return unitsOfCode n
    | none => invalid
  | none, none => invalid

/-- Reads on to the closing quote. -/
def quotedFrom (quote : Char) : Nat → List Nat → Read (List Nat)
  | 0, _ => invalid
  | fuel + 1, result => do
    let c ← peek
    if isEnd c then invalid
    else if c == quote then
      advance 1
      if quote == '\'' && (← peek) == quote then
        advance 1
        quotedFrom quote fuel (result ++ [quote.toNat])
      else return result
    else if c == '\\' && quote == '"' then
      advance 1
      quotedFrom quote fuel (result ++ (← escape))
    else if isBreak c then
      let breaks ← skipSpace false
      quotedFrom quote fuel (result ++ (folded breaks).map Char.toNat)
    else if ← atSeparator then invalid
    else if !isQuotable c then invalid
    else
      advance 1
      quotedFrom quote fuel (result ++ unitsOfChar c)

def quotedScalar (quote : Char) : Read (Option String) := do
  if (← peek) != quote then return none
  advance 1
  let units ← quotedFrom quote ((← get).input.size + 1) []
  return some (String.ofList (ofUnits units))

/-! ### Block scalars -/

inductive Chomping where
  | clip | strip | keep
  deriving DecidableEq

structure BlockHeader where
  chomping : Chomping := .clip
  /-- An indentation that is given, not found. -/
  given : Option Nat := none

/-- The marks behind the bar or angle: at most one for chomping and one for the indentation. -/
def blockHeader : Nat → BlockHeader → Read BlockHeader
  | 0, _ => invalid
  | fuel + 1, h => do
    let c ← peek
    if c == '+' || c == '-' then
      if h.chomping = .clip then
        advance 1
        blockHeader fuel { h with chomping := if c == '+' then .keep else .strip }
      else invalid
    else if c.isDigit then
      if c == '0' || h.given.isSome then invalid
      else
        advance 1
        blockHeader fuel { h with given := some (c.toNat - 48) }
    else return h

structure BlockState where
  /-- The indentation of the text, once known. -/
  width : Int
  known : Bool
  started : Bool := false
  empty : Nat := 0
  /-- The last line was indented deeper than the text. -/
  deeper : Bool := false
  result : List Char := []

def breaks (n : Nat) : List Char := List.replicate n '\n'

/-- What joins a line to the text before it. -/
def joint (isFolded : Bool) (c : Char) (b : BlockState) : List Char :=
  let all := breaks (if b.started then b.empty + 1 else b.empty)
  if !isFolded || isSpace c then all
  else if b.deeper then breaks (b.empty + 1)
  else if b.empty = 0 then (if b.started then [' '] else [])
  else breaks b.empty

/-- The line breaks kept at the end. -/
def chomp (chomping : Chomping) (b : BlockState) : List Char :=
  match chomping with
  | .keep => breaks (if b.started then b.empty + 1 else b.empty)
  | .clip => if b.started then ['\n'] else []
  | .strip => []

/-- Reads line after line; the cursor stands at a line break or at the end. -/
def blockLines (isFolded : Bool) (chomping : Chomping) : Nat → BlockState → Read (List Char)
  | 0, _ => invalid
  | fuel + 1, b => do
    if isEnd (← peek) then return b.result
    lineBreak
    let spaces ← takeWhile (· == ' ')
    let found : Int := spaces.length
    let depth := if b.known then min found b.width else found
    -- Spaces beyond a known indentation belong to the text.
    modify (fun c => { c with pos := c.pos - (found - depth).toNat, indent := depth })
    let c ← peek
    let width := if !b.known && b.width < depth then depth else b.width
    if isBreak c then blockLines isFolded chomping fuel { b with width, empty := b.empty + 1 }
    else if depth < width then return b.result ++ chomp chomping b
    else
      let text ← takeWhile (fun c => !isBreak c)
      if !text.all isPrintable then invalid
      blockLines isFolded chomping fuel
        { width, known := true, started := true, empty := 0, deeper := isFolded && isSpace c,
          result := b.result ++ joint isFolded c b ++ text }

def blockScalar (indent : Int) : Read (Option String) := do
  let mark ← peek
  if mark != '|' && mark != '>' then return none
  advance 1
  let h ← blockHeader ((← get).input.size + 1) {}
  let blanks ← takeWhile isSpace
  if !blanks.isEmpty && (← peek) == '#' then skipComment
  let width := match h.given with
    | some n => indent + n - 1
    | none => indent
  let text ← blockLines (mark == '>') h.chomping ((← get).input.size + 2)
    { width, known := h.given.isSome }
  return some (String.ofList text)

end Yaml
end ChainLint
