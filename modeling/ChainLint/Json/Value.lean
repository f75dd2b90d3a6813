import ChainLint.Text.Decimal

/-!
# ChainLint.Json.Value

JSON values and their two written forms.

* `quoted`: a string literal. A quote, a backslash and the controls below U+0020 are escaped,
  everything else stands for itself.
* `Value.compact`: no white space.
* `Value.indented`: one member a line, two spaces a level; empty arrays and objects stay on one
  line.

Members of an object keep the order they are given in.
-/

namespace ChainLint
namespace Json

inductive Value where
  | null
  | bool (b : Bool)
  | number (q : Rat)
  | string (s : String)
  | array (items : List Value)
  | object (members : List (String × Value))

/-- A control as four hexadecimal digits; only the last two can differ from zero. -/
def hexEscape (n : Nat) : List Char :=
  ['\\', 'u', '0', '0', Nat.digitChar (n / 16), Nat.digitChar (n % 16)]

/-- How one character is written inside a string literal. -/
def escaped (c : Char) : List Char :=
  if c = '"' then ['\\', '"']
  else if c = '\\' then ['\\', '\\']
  else if c.toNat = 8 then ['\\', 'b']
  else if c.toNat = 9 then ['\\', 't']
  else if c.toNat = 10 then ['\\', 'n']
  else if c.toNat = 12 then ['\\', 'f']
  else if c.toNat = 13 then ['\\', 'r']
  else if c.toNat < 32 then hexEscape c.toNat
  else [c]

def quotedChars (cs : List Char) : List Char := '"' :: (cs.flatMap escaped ++ ['"'])

def quoted (s : String) : String := String.ofList (quotedChars s.toList)

mutual

def Value.compact : Value → List Char
  | .null => "null".toList
  | .bool b => if b then "true".toList else "false".toList
  | .number q => (Text.decimal q).toList
  | .string s => quotedChars s.toList
  | .array items => '[' :: compactItems items ++ [']']
  | .object members => '\x7b' :: compactMembers members ++ ['\x7d']

def compactItems : List Value → List Char
  | [] => []
  | [v] => v.compact
  | v :: w :: rest => v.compact ++ ',' :: compactItems (w :: rest)

def compactMembers : List (String × Value) → List Char
  | [] => []
  | [(k, v)] => quotedChars k.toList ++ ':' :: v.compact
  | (k, v) :: m :: rest =>
    quotedChars k.toList ++ ':' :: v.compact ++ ',' :: compactMembers (m :: rest)

end

/-- A line break and the indentation of a level. -/
def newLine (level : Nat) : List Char := '\n' :: List.replicate (2 * level) ' '

mutual

def Value.indented (level : Nat) : Value → List Char
  | .null => "null".toList
  | .bool b => if b then "true".toList else "false".toList
  | .number q => (Text.decimal q).toList
  | .string s => quotedChars s.toList
  | .array [] => ['[', ']']
  | .array items =>
    '[' :: newLine (level + 1) ++ indentedItems (level + 1) items ++ newLine level ++ [']']
  | .object [] => ['\x7b', '\x7d']
  | .object members =>
    '\x7b' :: newLine (level + 1) ++ indentedMembers (level + 1) members ++ newLine level
      ++ ['\x7d']

def indentedItems (level : Nat) : List Value → List Char
  | [] => []
  | [v] => v.indented level
  | v :: w :: rest => v.indented level ++ ',' :: newLine level ++ indentedItems level (w :: rest)

def indentedMembers (level : Nat) : List (String × Value) → List Char
  | [] => []
  | [(k, v)] => quotedChars k.toList ++ ':' :: ' ' :: v.indented level
  | (k, v) :: m :: rest =>
    quotedChars k.toList ++ ':' :: ' ' :: v.indented level ++ ',' :: newLine level
      ++ indentedMembers level (m :: rest)

end

def Value.compactText (v : Value) : String := String.ofList v.compact

def Value.indentedText (v : Value) : String := String.ofList (v.indented 0)

def strings (l : List String) : Value := .array (l.map .string)

end Json
end ChainLint
