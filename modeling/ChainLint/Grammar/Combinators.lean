import ChainLint.Grammar.Token

/-!
# ChainLint.Grammar.Combinators

What the productions of the grammar are written with.

* `Parse`: consumes tokens and may fail, in which case nothing is consumed.
* `Goal`: the productions that can contain each other. A production gets the parsing of goals as
  an argument, so none of them is recursive; the recursion is tied once, by fuel.
* `group`: a concrete node over its children.
-/

namespace ChainLint
namespace Grammar

abbrev Parse := StateT (List Token) Option

inductive Goal where
  | expression | disjunction | negation | unary | target | rightSide | interpolation | typeHint
  | suite | casePattern | mappingPattern
  deriving DecidableEq

/-- The parsing of every goal. -/
abbrev Goals := Goal → Parse Cst

/-- The next token, if it satisfies a test. -/
def token (p : Token → Bool) : Parse Token := fun ts =>
  match ts with
  | t :: rest => if p t then some (t, rest) else none
  | [] => none

/-- The next token satisfies a test; nothing is consumed. -/
def ahead (p : Option Token → Bool) : Parse Unit := fun ts =>
  if p ts.head? then some ((), ts) else none

def Token.isWord (t : Token) (word : String) : Bool :=
  (t.kind == .op || t.kind == .keyword) && t.text == word

/-- A keyword, an operator or a mark of punctuation. -/
def word (w : String) : Parse Cst := do return (← token (fun t => t.isWord w)).leaf

def anyWord (ws : List String) : Parse Cst := do
  return (← token (fun t => (t.kind == .op || t.kind == .keyword) && ws.contains t.text)).leaf

/-- A word that is a keyword only in this place. -/
def softWord (w : String) : Parse Cst := do
  return (← token (fun t => t.kind == .name && t.text == w)).leaf

def typedToken (kind : TokenKind) (type : String) : Parse Cst := do
  return (← token (fun t => t.kind == kind)).typed type

def identifier : Parse Cst := typedToken .name "identifier"

def optionally (p : Parse (List Cst)) : Parse (List Cst) := p <|> pure []

def one (p : Parse Cst) : Parse (List Cst) := do return [← p]

/-- As often as it goes, but at most once for every token of the first argument. -/
def manyUpTo (p : Parse (List Cst)) : List Token → Parse (List Cst)
  | [] => pure []
  | _ :: bound => (do
    let x ← p
    let xs ← manyUpTo p bound
    return x ++ xs) <|> pure []

/-- As often as it goes. Every round consumes a token, so there are no more rounds than tokens. -/
def many (p : Parse (List Cst)) : Parse (List Cst) := fun ts => manyUpTo p ts ts

def many1 (p : Parse (List Cst)) : Parse (List Cst) := do
  let x ← p
  let xs ← many p
  return x ++ xs

/-- Extends a node at most once for every token of the first argument. -/
def extendUpTo (p : Cst → Parse Cst) : List Token → Cst → Parse Cst
  | [], c => pure c
  | _ :: bound, c => (do extendUpTo p bound (← p c)) <|> pure c

/-- Extends a node to the right as often as it goes. -/
def extend (p : Cst → Parse Cst) (c : Cst) : Parse Cst := fun ts => extendUpTo p ts c ts

/-- One or more items between commas, and perhaps a comma at the end. -/
def commaList (item : Parse Cst) : Parse (List Cst) := do
  let first ← item
  let more ← many (do
    let comma ← word ","
    return [comma, ← item])
  let last ← optionally (one (word ","))
  return first :: more ++ last

/-- A concrete node from the start of its first child to the end of its last one. -/
def group (type : String) (children : List Cst) : Cst :=
  match children.head?, children.getLast? with
  | some a, some z =>
    .node
      { type := type, row := a.label.row, column := a.label.column, start := a.label.start,
        stop := z.label.stop }
      children
  | _, _ => .node { type := type } []

def inField (field : String) (c : Cst) : Cst :=
  .node { c.label with field := some field } c.children

end Grammar
end ChainLint
