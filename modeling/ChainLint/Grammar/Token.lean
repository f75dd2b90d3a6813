import ChainLint.Cst.Basic

/-!
# ChainLint.Grammar.Token

Tokens of Python source text.

* `Mark`: a place in the text, by row, column and offset.
* `Token`: its kind, its text and where it stands. The pieces of a formatted string literal are
  tokens of their own.
* `Token.leaf`: the concrete node of a token.
-/

namespace ChainLint
namespace Grammar

structure Mark where
  row : Nat := 0
  column : Nat := 0
  offset : Nat := 0
  deriving DecidableEq

/-- The place after one more character. Only a line feed ends a line. -/
def Mark.next (m : Mark) (c : Char) : Mark :=
  if c = '\n' then ⟨m.row + 1, 0, m.offset + 1⟩
  else ⟨m.row, m.column + Text.width c, m.offset + Text.width c⟩

def Mark.after (m : Mark) (cs : List Char) : Mark := cs.foldl Mark.next m

inductive TokenKind where
  | name | keyword | integer | float | op
  /-- A whole string literal without replacement fields. -/
  | string
  | formatStart | formatText | formatEnd
  /-- A conversion such as `!r` in a replacement field. -/
  | conversion
  /-- The colon in front of a format specification. -/
  | formatColon
  | newline | indent | dedent
  /-- A character that begins no token. -/
  | junk
  deriving DecidableEq

structure Token where
  kind : TokenKind
  text : String
  start : Mark
  stop : Mark
  /-- The escapes inside a stretch of formatted text. -/
  inner : List Cst := []

/-- A concrete node over a stretch of text. -/
def nodeAt (type : String) (named : Bool) (start stop : Mark) (children : List Cst) : Cst :=
  .node
    { type := type, named := named, row := start.row, column := start.column,
      start := start.offset, stop := stop.offset }
    children

/-- The concrete node of a token with a grammar type of its own. -/
def Token.typed (t : Token) (type : String) : Cst := nodeAt type true t.start t.stop t.inner

/-- The concrete node of a keyword, an operator or a mark of punctuation. -/
def Token.leaf (t : Token) : Cst := nodeAt t.text false t.start t.stop []

/-- Words that are never names. -/
def keywords : List String :=
  ["False", "None", "True", "and", "as", "assert", "async", "await", "break", "class",
    "continue", "def", "del", "elif", "else", "except", "finally", "for", "from", "global", "if",
    "import", "in", "is", "lambda", "nonlocal", "not", "or", "pass", "raise", "return", "try",
    "while", "with", "yield"]

/-- Operators and punctuation, longer ones first. -/
def operators : List String :=
  ["**=", "//=", ">>=", "<<=", "...", "**", "//", ">>", "<<", "<=", ">=", "==", "!=", "<>", "->",
    "+=", "-=", "*=", "/=", "%=", "&=", "|=", "^=", "@=", ":=", "+", "-", "*", "/", "%", "@", "&",
    "|", "^", "~", "<", ">", "(", ")", "[", "]", "\x7b", "\x7d", ",", ":", ".", ";", "="]

end Grammar
end ChainLint
