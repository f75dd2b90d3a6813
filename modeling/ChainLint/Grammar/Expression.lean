import ChainLint.Grammar.Combinators

/-!
# ChainLint.Grammar.Expression

Productions for expressions, from the loosest binding to the tightest: lambda, conditional and
named expressions, the boolean operators, comparisons, the binary operators by precedence, the
unary ones, powers, and primary expressions with their trailers. Exclusive or binds tighter than
conjunction of bits.
-/

namespace ChainLint
namespace Grammar

section

variable (below : Goals)

/-! ### Parameters -/

def parameterDefault : Parse (List Cst) := do
  let eq ← word "="
  return [eq, inField "value" (← below .expression)]

/-- A parameter with a name, a type hint where `typed` allows one, and a default. -/
def namedParameter (typed : Bool) : Parse Cst := do
  let name ← identifier
  let hint ← if typed then
      optionally (do
        let colon ← word ":"
        return [colon, inField "type" (← below .typeHint)])
    else pure []
  let value ← optionally (parameterDefault below)
  match hint, value with
  | [], [] => return name
  | _, [] => return group "typed_parameter" (name :: hint)
  | [], _ => return group "default_parameter" (inField "name" name :: value)
  | _, _ => return group "typed_default_parameter" (inField "name" name :: hint ++ value)

/-- A starred parameter. -/
def starParameter (typed : Bool) (star type : String) : Parse Cst := do
  let s ← word star
  let name ← identifier
  let splat := group type [s, name]
  if typed then
    (do
      let colon ← word ":"
      return group "typed_parameter" [splat, colon, inField "type" (← below .typeHint)])
      <|> pure splat
  else return splat

def parameter (typed : Bool) : Parse Cst :=
  namedParameter below typed
    <|> starParameter below typed "*" "list_splat_pattern"
    <|> starParameter below typed "**" "dictionary_splat_pattern"
    <|> (do return (← token (fun t => t.isWord "*")).typed "keyword_separator")
    <|> (do return (← token (fun t => t.isWord "/")).typed "positional_separator")

def lambda : Parse Cst := do
  let kw ← word "lambda"
  let parameters ← optionally (do
    return [inField "parameters" (group "lambda_parameters"
      (← commaList (parameter below false)))])
  let colon ← word ":"
  let body ← below .expression
  return group "lambda" (kw :: parameters ++ [colon, inField "body" body])

/-! ### Lists of expressions -/

/-- An expression, or several between commas as one node. -/
def expressions : Parse Cst := do
  match ← commaList (below .expression) with
  | [e] => return e
  | es => return group "expression_list" es

def yieldExpression : Parse Cst := do
  let kw ← word "yield"
  let rest ← (do
      let source ← word "from"
      return [source, ← below .expression])
    <|> optionally (one (expressions below))
  return group "yield" (kw :: rest)

def starred (star type : String) : Parse Cst := do
  let s ← word star
  return group type [s, ← below .expression]

/-- An element of a list, a set or a tuple. -/
def element : Parse Cst :=
  starred below "*" "list_splat" <|> yieldExpression below <|> below .expression

/-! ### Comprehensions -/

/-- The targets of an assignment or a loop. -/
def leftSide : Parse Cst := do
  match ← commaList (below .target) with
  | [t] => return t
  | ts => return group "pattern_list" ts

/-- An operand in a comprehension clause, where a conditional expression cannot stand. -/
def clauseOperand : Parse Cst := lambda below <|> below .disjunction

def forClause : Parse Cst := do
  let start ← optionally (one (word "async"))
  let kw ← word "for"
  let left ← leftSide below
  let within ← word "in"
  let right ← clauseOperand below
  return group "for_in_clause"
    (start ++ [kw, inField "left" left, within, inField "right" right])

def ifClause : Parse Cst := do
  let kw ← word "if"
  return group "if_clause" [kw, ← clauseOperand below]

def clauses : Parse (List Cst) := do
  let first ← forClause below
  return first :: (← many (one (forClause below <|> ifClause below)))

/-! ### Brackets -/

/-- A comprehension, or the elements of a display, behind the first one. -/
def displayRest (start first : Cst) (close comprehension display : String) : Parse Cst :=
  (do
    let cs ← clauses below
    let stop ← word close
    return group comprehension (start :: inField "body" first :: cs ++ [stop]))
  <|> (do
    let more ← many (do
      let comma ← word ","
      return [comma, ← element below])
    let last ← optionally (one (word ","))
    let stop ← word close
    return group display (start :: first :: more ++ last ++ [stop]))

def parenthesized : Parse Cst := do
  let start ← word "("
  (do
    let stop ← word ")"
    return group "tuple" [start, stop])
  <|> (do
    let first ← element below
    (do
      let stop ← word ")"
      return group "parenthesized_expression" [start, first, stop])
    <|> displayRest below start first ")" "generator_expression" "tuple")

def list : Parse Cst := do
  let start ← word "["
  (do
    let stop ← word "]"
    return group "list" [start, stop])
  <|> (do displayRest below start (← element below) "]" "list_comprehension" "list")

def pairFrom (key : Cst) : Parse Cst := do
  let colon ← word ":"
  return group "pair" [inField "key" key, colon, inField "value" (← below .expression)]

def dictionaryEntry : Parse Cst :=
  starred below "**" "dictionary_splat" <|> (do pairFrom below (← below .expression))

/-- The entries of a dictionary behind the first one. -/
def dictionaryRest (start first : Cst) : Parse Cst := do
  let more ← many (do
    let comma ← word ","
    return [comma, ← dictionaryEntry below])
  let last ← optionally (one (word ","))
  let stop ← word "\x7d"
  return group "dictionary" (start :: first :: more ++ last ++ [stop])

/-- A dictionary or a set; the first entry tells which. -/
def braces : Parse Cst := do
  let start ← word "\x7b"
  (do
    let stop ← word "\x7d"
    return group "dictionary" [start, stop])
  <|> (do dictionaryRest below start (← starred below "**" "dictionary_splat"))
  <|> (do
    let first ← element below
    (do
      let entry ← pairFrom below first
      (do
        let cs ← clauses below
        let stop ← word "\x7d"
        return group "dictionary_comprehension" (start :: inField "body" entry :: cs ++ [stop]))
      <|> dictionaryRest below start entry)
    <|> displayRest below start first "\x7d" "set_comprehension" "set")

/-! ### String literals -/

/-- A replacement field: an expression, a conversion and a format specification. -/
def interpolation : Parse Cst := do
  let start ← word "\x7b"
  let value ← yieldExpression below <|> expressions below
  let eq ← optionally (one (word "="))
  let conversion ← optionally (one (typedToken .conversion "type_conversion"))
  let spec ← optionally (do
    let colon ← token (fun t => t.kind == .formatColon)
    let nested ← many (do
      let field ← below .interpolation
      return [.node { field.label with type := "format_expression" } field.children])
    return [group "format_specifier" (colon.leaf :: nested)])
  let stop ← word "\x7d"
  return group "interpolation"
    (start :: inField "expression" value :: eq ++ conversion ++ spec ++ [stop])

def stringLiteral : Parse Cst :=
  typedToken .string "string"
  <|> (do
    let start ← typedToken .formatStart "string_start"
    let pieces ← many (one (typedToken .formatText "string_content" <|> below .interpolation))
    let stop ← typedToken .formatEnd "string_end"
    return group "string" (start :: pieces ++ [stop]))

def strings : Parse Cst := do
  match ← many1 (one (stringLiteral below)) with
  | [s] => return s
  | ss => return group "concatenated_string" ss

/-! ### Primary expressions -/

def constant : Parse Cst :=
  typedToken .integer "integer" <|> typedToken .float "float"
    <|> (do return (← token (fun t => t.isWord "True")).typed "true")
    <|> (do return (← token (fun t => t.isWord "False")).typed "false")
    <|> (do return (← token (fun t => t.isWord "None")).typed "none")
    <|> (do return (← token (fun t => t.isWord "...")).typed "ellipsis")

def atom : Parse Cst :=
  identifier <|> constant <|> strings below <|> parenthesized below <|> list below
    <|> braces below

def argument : Parse Cst :=
  (do
    let name ← identifier
    let eq ← word "="
    return group "keyword_argument"
      [inField "name" name, eq, inField "value" (← below .expression)])
  <|> starred below "*" "list_splat"
  <|> starred below "**" "dictionary_splat"
  <|> below .expression

def argumentList : Parse Cst := do
  let start ← word "("
  let args ← optionally (commaList (argument below))
  let stop ← word ")"
  return group "argument_list" (start :: args ++ [stop])

/-- The arguments of a call. A generator expression alone shares its parentheses with the
call. -/
def callArguments : Parse Cst := do
  let start ← word "("
  (do
    let stop ← word ")"
    return group "argument_list" [start, stop])
  <|> (do
    let first ← argument below
    (do
      let cs ← clauses below
      let stop ← word ")"
      return group "generator_expression" (start :: inField "body" first :: cs ++ [stop]))
    <|> (do
      let more ← many (do
        let comma ← word ","
        return [comma, ← argument below])
      let last ← optionally (one (word ","))
      let stop ← word ")"
      return group "argument_list" (start :: first :: more ++ last ++ [stop])))

def callTrailer (c : Cst) : Parse Cst := do
  return group "call" [inField "function" c, inField "arguments" (← callArguments below)]

/-- A slice behind its first part, which may be missing. -/
def sliceFrom (start : List Cst) : Parse Cst := do
  let colon ← word ":"
  let stop ← optionally (one (below .expression))
  let step ← optionally (do
    let colon ← word ":"
    return colon :: (← optionally (one (below .expression))))
  return group "slice" (start ++ colon :: stop ++ step)

/-- An index: an expression or a slice. -/
def index : Parse Cst := do
  let start ← optionally (one (starred below "*" "list_splat" <|> below .expression))
  sliceFrom below start
  <|> (match start with
    | [e] => pure e
    | _ => failure)

def subscriptTrailer (c : Cst) : Parse Cst := do
  let start ← word "["
  let indices ← commaList (do return inField "subscript" (← index below))
  let stop ← word "]"
  return group "subscript" (inField "value" c :: start :: indices ++ [stop])

def attributeTrailer (c : Cst) : Parse Cst := do
  let dot ← word "."
  return group "attribute" [inField "object" c, dot, inField "attribute" (← identifier)]

def trailer (c : Cst) : Parse Cst :=
  attributeTrailer c <|> callTrailer below c <|> subscriptTrailer below c

def primary : Parse Cst := do extend (trailer below) (← atom below)

/-- What an assignment can bind and a star can stand in front of. -/
def isReference (c : Cst) : Bool := ["identifier", "attribute", "subscript"].contains c.type

/-- Puts a star in front of the longest part of `c` that is a reference. -/
def splat (star : Cst) : Nat → Cst → Option Cst
  | 0, _ => none
  | fuel + 1, c =>
    if isReference c then some (group "list_splat" [star, c])
    else
      match c.type, c.children with
      | "call", f :: rest => do
        return group "call" (inField "function" (← splat star fuel f) :: rest)
      | _, _ => none

/-- A starred reference that stands as an operand. -/
def splatOperand : Parse Cst := do
  let star ← word "*"
  let c ← primary below
  match splat star c.depth c with
  | some c => return c
  | none => failure

/-! ### Operators -/

def power : Parse Cst := do
  let base ← splatOperand below <|> primary below
  (do
    let op ← word "**"
    let right ← below .unary
    return group "binary_operator"
      [inField "left" base, inField "operator" op, inField "right" right])
    <|> pure base

def unary : Parse Cst :=
  (do
    let op ← anyWord ["+", "-", "~"]
    return group "unary_operator" [inField "operator" op, inField "argument" (← below .unary)])
  <|> (do
    let kw ← word "await"
    return group "await" [kw, ← below .unary])
  <|> power below

/-- Operators of one precedence, grouped to the left. -/
def leftGrouped (type : String) (ops : List String) (operand : Parse Cst) : Parse Cst := do
  extend (fun left => do
    let op ← anyWord ops
    let right ← operand
    return group type [inField "left" left, inField "operator" op, inField "right" right])
    (← operand)

def product : Parse Cst := leftGrouped "binary_operator" ["*", "@", "/", "%", "//"] (unary below)
def sum : Parse Cst := leftGrouped "binary_operator" ["+", "-"] (product below)
def shift : Parse Cst := leftGrouped "binary_operator" ["<<", ">>"] (sum below)
def exclusiveOr : Parse Cst := leftGrouped "binary_operator" ["^"] (shift below)
def bitAnd : Parse Cst := leftGrouped "binary_operator" ["&"] (exclusiveOr below)
def bitOr : Parse Cst := leftGrouped "binary_operator" ["|"] (bitAnd below)

def comparisonOperator : Parse (List Cst) :=
  one (anyWord ["<", "<=", "==", "!=", ">=", ">", "<>", "in"])
  <|> (do
    let no ← word "not"
    return [no, ← word "in"])
  <|> (do
    let is ← word "is"
    return is :: (← optionally (one (word "not"))))

/-- A chain of comparisons is one node. -/
def comparison : Parse Cst := do
  let left ← bitOr below
  match ← many (do
    let op ← comparisonOperator
    return op ++ [← bitOr below]) with
  | [] => return left
  | rest => return group "comparison_operator" (left :: rest)

def negation : Parse Cst :=
  (do
    let kw ← word "not"
    return group "not_operator" [kw, inField "argument" (← below .negation)])
  <|> comparison below

def conjunction : Parse Cst := leftGrouped "boolean_operator" ["and"] (negation below)

/-- A named expression takes all of a disjunction as its value, but no conditional. -/
def namedExpression : Parse Cst := do
  let name ← identifier
  let op ← word ":="
  let value ← lambda below <|> below .disjunction
  return group "named_expression" [inField "name" name, op, inField "value" value]

def disjunction : Parse Cst :=
  namedExpression below <|> leftGrouped "boolean_operator" ["or"] (conjunction below)

/-- An expression bound to a name by `as`. -/
def aliased (value : Cst) : Parse Cst := do
  let kw ← word "as"
  let goal ← disjunction below
  return group "as_pattern" [value, kw, inField "alias" (group "as_pattern_target" [goal])]

def expression : Parse Cst :=
  lambda below
  <|> (do
    let body ← extend (aliased below) (← disjunction below)
    (do
      let kw ← word "if"
      let condition ← below .expression
      let other ← word "else"
      return group "conditional_expression"
        [body, kw, condition, other, ← below .expression])
    <|> pure body)

/-! ### Targets and type hints -/

def targetTuple (start stop type : String) : Parse Cst := do
  let a ← word start
  let items ← optionally (commaList (below .target))
  let z ← word stop
  return group type (a :: items ++ [z])

/-- What an assignment or a loop binds. -/
def target : Parse Cst :=
  (do
    let star ← word "*"
    let c ← primary below
    if isReference c then return group "list_splat_pattern" [star, c] else failure)
  <|> (do
    let c ← primary below
    if isReference c then return c else failure)
  <|> targetTuple below "(" ")" "tuple_pattern"
  <|> targetTuple below "[" "]" "list_pattern"

/-- Type arguments or type parameters; a parameter may have a bound. -/
def typeParameters : Parse Cst := do
  let start ← word "["
  let items ← commaList (do
    let t ← below .typeHint
    (do
      let colon ← word ":"
      let bound ← below .typeHint
      return group "type" [group "constrained_type" [t, colon, bound]])
    <|> pure t)
  let stop ← word "]"
  return group "type_parameter" (start :: items ++ [stop])

/-- Nothing of the same type hint can follow. -/
def endsTypeHint : Option Token → Bool
  | none => true
  | some t => t.kind == .newline || [",", "=", ")", ":", "]", ";"].contains t.text

/-- A type hint: an expression, except that a name with type arguments and nothing else has a
form of its own. -/
def typeHint : Parse Cst := do
  let inner ← (do
      let star ← anyWord ["*", "**"]
      return group "splat_type" [star, ← identifier])
    <|> (do
      let name ← identifier
      let arguments ← typeParameters below
      ahead endsTypeHint
      return group "generic_type" [name, arguments])
    <|> below .expression
  return group "type" [inner]

end

end Grammar
end ChainLint
