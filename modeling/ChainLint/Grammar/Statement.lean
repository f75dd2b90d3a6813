import ChainLint.Grammar.Expression

/-!
# ChainLint.Grammar.Statement

Productions for statements: assignments, simple statements, blocks, compound statements and the
patterns of `match`. The words `match`, `case` and `type` are names everywhere else.
-/

namespace ChainLint
namespace Grammar

def augmentedOperators : List String :=
  ["+=", "-=", "*=", "/=", "@=", "//=", "%=", "**=", ">>=", "<<=", "&=", "^=", "|="]

def lineEnd : Parse Unit := do discard (token (fun t => t.kind == .newline))

section

variable (below : Goals)

/-! ### Assignments -/

def assignedValue : Parse (List Cst) := do
  let eq ← word "="
  return [eq, inField "right" (← below .rightSide)]

def assignment : Parse Cst := do
  let left ← leftSide below
  (do return group "assignment" (inField "left" left :: (← assignedValue below)))
  <|> (do
    let colon ← word ":"
    let hint ← below .typeHint
    let value ← optionally (assignedValue below)
    return group "assignment" (inField "left" left :: colon :: inField "type" hint :: value))
  <|> (do
    let op ← anyWord augmentedOperators
    return group "augmented_assignment"
      [inField "left" left, inField "operator" op, inField "right" (← below .rightSide)])

def rightSide : Parse Cst := assignment below <|> yieldExpression below <|> expressions below

def expressionStatement : Parse Cst := do
  return group "expression_statement"
    (← one (assignment below) <|> one (yieldExpression below) <|> commaList (below .expression))

/-! ### Simple statements -/

def dottedName : Parse Cst := do
  let first ← identifier
  let more ← many (do
    let dot ← word "."
    return [dot, ← identifier])
  return group "dotted_name" (first :: more)

def importedName : Parse Cst := do
  let name ← dottedName
  (do
    let kw ← word "as"
    return group "aliased_import" [inField "name" name, kw, inField "alias" (← identifier)])
  <|> pure name

def importedNames : Parse (List Cst) :=
  commaList importedName
  <|> (do
    let start ← word "("
    let names ← commaList importedName
    return start :: names ++ [← word ")"])

def importStatement : Parse Cst := do
  let kw ← word "import"
  return group "import_statement" (kw :: (← commaList importedName))

/-- The dots of a relative import, which may stand together. -/
def importDots : Parse Cst := do
  return group "import_prefix" (← many1 (one (anyWord [".", "..."])))

def relativeImport : Parse Cst := do
  let dots ← importDots
  return group "relative_import" (dots :: (← optionally (one dottedName)))

def importFromStatement : Parse Cst := do
  let kw ← word "from"
  (do
    let future ← softWord "__future__"
    let imports ← word "import"
    return group "future_import_statement" (kw :: future :: imports :: (← importedNames)))
  <|> (do
    let module ← relativeImport <|> dottedName
    let imports ← word "import"
    let names ← (do return [(← token (fun t => t.isWord "*")).typed "wildcard_import"])
      <|> importedNames
    return group "import_from_statement"
      (kw :: inField "module_name" module :: imports :: names))

/-- A keyword with what may follow it. -/
def keywordStatement (kw type : String) (rest : Parse (List Cst)) : Parse Cst := do
  let k ← word kw
  return group type (k :: (← rest))

def names : Parse (List Cst) := commaList identifier

def raiseRest : Parse (List Cst) := do
  let value ← optionally (one (expressions below))
  let cause ← optionally (do
    let kw ← word "from"
    return [kw, inField "cause" (← below .expression)])
  return value ++ cause

def typeAlias : Parse Cst := do
  let kw ← softWord "type"
  let left ← below .typeHint
  let eq ← word "="
  return group "type_alias_statement"
    [kw, inField "left" left, eq, inField "right" (← below .typeHint)]

def simpleStatement : Parse Cst :=
  importStatement <|> importFromStatement
    <|> keywordStatement "assert" "assert_statement" (commaList (below .expression))
    <|> keywordStatement "return" "return_statement" (optionally (one (expressions below)))
    <|> keywordStatement "del" "delete_statement" (one (expressions below))
    <|> keywordStatement "raise" "raise_statement" (raiseRest below)
    <|> keywordStatement "pass" "pass_statement" (pure [])
    <|> keywordStatement "break" "break_statement" (pure [])
    <|> keywordStatement "continue" "continue_statement" (pure [])
    <|> keywordStatement "global" "global_statement" names
    <|> keywordStatement "nonlocal" "nonlocal_statement" names
    <|> typeAlias below
    <|> expressionStatement below

/-- Simple statements of one line. -/
def simpleLine : Parse (List Cst) := do
  let first ← simpleStatement below
  let more ← many (do
    let _ ← word ";"
    return [← simpleStatement below])
  let _ ← optionally (one (word ";"))
  lineEnd
  return first :: more

/-! ### Compound statements -/

/-- A colon and the block behind it. -/
def body (field : String) : Parse (List Cst) := do
  let colon ← word ":"
  return [colon, inField field (← below .suite)]

def elseClause : Parse (List Cst) := do
  let kw ← word "else"
  return [inField "alternative" (group "else_clause" (kw :: (← body below "body")))]

def ifStatement : Parse Cst := do
  let kw ← word "if"
  let condition ← below .expression
  let consequence ← body below "consequence"
  let elifs ← many (do
    let kw ← word "elif"
    let condition ← below .expression
    return [inField "alternative"
      (group "elif_clause" (kw :: condition :: (← body below "consequence")))])
  let other ← optionally (elseClause below)
  return group "if_statement" (kw :: condition :: consequence ++ elifs ++ other)

def whileStatement : Parse Cst := do
  let kw ← word "while"
  let condition ← below .expression
  let loop ← body below "body"
  return group "while_statement"
    (kw :: condition :: loop ++ (← optionally (elseClause below)))

def forStatement : Parse Cst := do
  let start ← optionally (one (word "async"))
  let kw ← word "for"
  let left ← leftSide below
  let within ← word "in"
  let right ← expressions below
  let loop ← body below "body"
  let other ← optionally (elseClause below)
  return group "for_statement"
    (start ++ kw :: inField "left" left :: within :: inField "right" right :: loop ++ other)

/-- The keyword of a handler for groups is written without a gap. -/
def exceptStar : Parse Cst := fun ts =>
  match ts with
  | kw :: star :: rest =>
    if kw.isWord "except" && star.isWord "*" && kw.stop == star.start then
      some (nodeAt "except*" false kw.start star.stop [], rest)
    else none
  | _ => none

def exceptClause : Parse (List Cst) :=
  (do
    let kw ← exceptStar
    let error ← below .expression
    return [group "except_group_clause" (kw :: error :: (← body below "body"))])
  <|> (do
    let kw ← word "except"
    let errors ← optionally (commaList (below .expression))
    return [group "except_clause" (kw :: errors ++ (← body below "body"))])

def finallyClause : Parse (List Cst) := do
  let kw ← word "finally"
  return [group "finally_clause" (kw :: (← body below "body"))]

def tryStatement : Parse Cst := do
  let kw ← word "try"
  let tried ← body below "body"
  let handlers ← many (exceptClause below)
  let other ← optionally (elseClause below)
  let last ← optionally (finallyClause below)
  return group "try_statement" (kw :: tried ++ handlers ++ other ++ last)

def withItem : Parse Cst := do return group "with_item" [inField "value" (← below .expression)]

/-- Two or more items in parentheses, as far as the colon; a single one in parentheses is an
ordinary expression. -/
def parenthesizedItems : Parse Cst := do
  let start ← word "("
  let first ← withItem below
  let more ← many1 (do
    let comma ← word ","
    return [comma, ← withItem below])
  let last ← optionally (one (word ","))
  let stop ← word ")"
  ahead (fun t => t.any (fun t => t.isWord ":"))
  return group "with_clause" (start :: first :: more ++ last ++ [stop])

def withStatement : Parse Cst := do
  let start ← optionally (one (word "async"))
  let kw ← word "with"
  let items ← parenthesizedItems below
    <|> (do return group "with_clause" (← commaList (withItem below)))
  return group "with_statement" (start ++ kw :: items :: (← body below "body"))

def functionDefinition : Parse Cst := do
  let start ← optionally (one (word "async"))
  let kw ← word "def"
  let name ← identifier
  let types ← optionally (one (typeParameters below))
  let left ← word "("
  let parameters ← optionally (commaList (parameter below true))
  let right ← word ")"
  let result ← optionally (do
    let arrow ← word "->"
    return [arrow, inField "return_type" (← below .typeHint)])
  let block ← body below "body"
  return group "function_definition"
    (start ++ kw :: inField "name" name :: types.map (inField "type_parameters")
      ++ inField "parameters" (group "parameters" (left :: parameters ++ [right])) :: result
      ++ block)

def classDefinition : Parse Cst := do
  let kw ← word "class"
  let name ← identifier
  let types ← optionally (one (typeParameters below))
  let bases ← optionally (one (argumentList below))
  let block ← body below "body"
  return group "class_definition"
    (kw :: inField "name" name :: types.map (inField "type_parameters")
      ++ bases.map (inField "superclasses") ++ block)

def decorator : Parse (List Cst) := do
  let mark ← word "@"
  let value ← below .expression
  lineEnd
  return [group "decorator" [mark, value]]

def definition : Parse Cst := functionDefinition below <|> classDefinition below

def decoratedDefinition : Parse Cst := do
  let decorators ← many1 (decorator below)
  return group "decorated_definition"
    (decorators ++ [inField "definition" (← definition below)])

/-! ### Patterns of `match` -/

def patternNumber : Parse (List Cst) := do
  let sign ← optionally (one (word "-"))
  return sign ++ [← typedToken .integer "integer" <|> typedToken .float "float"]

def complexPattern : Parse Cst := do
  let real ← patternNumber
  let sign ← anyWord ["+", "-"]
  let imaginary ← typedToken .integer "integer" <|> typedToken .float "float"
  return group "complex_pattern" (real ++ [sign, imaginary])

def wildcard : Parse Cst := softWord "_"

def splatPattern : Parse Cst := do
  let star ← anyWord ["*", "**"]
  return group "splat_pattern" [star, ← wildcard <|> identifier]

/-- Patterns between brackets. -/
def patternList (start stop : String) : Parse (List Cst) := do
  let a ← word start
  let items ← optionally (commaList (below .casePattern))
  return a :: items ++ [← word stop]

def classPattern : Parse Cst := do
  let name ← dottedName
  return group "class_pattern" (name :: (← patternList below "(" ")"))

/-- A pattern without alternatives. A number may bring its sign as a node of its own. -/
def closedPattern : Parse (List Cst) :=
  one (classPattern below) <|> one splatPattern
    <|> (do return [group "list_pattern" (← patternList below "[" "]")])
    <|> (do return [group "tuple_pattern" (← patternList below "(" ")")])
    <|> one (below .mappingPattern)
    <|> one complexPattern
    <|> patternNumber
    <|> one (strings below)
    <|> one wildcard
    <|> one constant
    <|> one dottedName

/-- A pattern, or alternatives as one node. -/
def alternatives : Parse (List Cst) := do
  let first ← closedPattern below
  match ← many (do
    let bar ← word "|"
    return bar :: (← closedPattern below)) with
  | [] => return first
  | rest => return [group "union_pattern" (first ++ rest)]

def dictPatternEntry : Parse (List Cst) :=
  one splatPattern
  <|> (do
    let key ← alternatives below
    let colon ← word ":"
    return key.map (inField "key") ++ [colon, inField "value" (← below .casePattern)])

/-- A mapping pattern. -/
def dictPattern : Parse Cst := do
  let start ← word "\x7b"
  let entries ← optionally (do
    let first ← dictPatternEntry below
    let more ← many (do
      let comma ← word ","
      return comma :: (← dictPatternEntry below))
    return first ++ more ++ (← optionally (one (word ","))))
  return group "dict_pattern" (start :: entries ++ [← word "\x7d"])

def keywordPattern : Parse Cst := do
  let name ← identifier
  let eq ← word "="
  return group "keyword_pattern" (name :: eq :: (← alternatives below))

def casePattern : Parse Cst := do
  let inner ← one (keywordPattern below) <|> alternatives below
  extend (fun c => do
    let kw ← word "as"
    let name ← identifier
    return group "case_pattern" [group "as_pattern" [c, kw, inField "alias" name]])
    (group "case_pattern" inner)

def caseClause : Parse (List Cst) := do
  let kw ← softWord "case"
  let patterns ← commaList (below .casePattern)
  let guarded ← optionally (do
    let kw ← word "if"
    return [inField "guard" (group "if_clause" [kw, ← below .expression])])
  return [group "case_clause" (kw :: patterns ++ guarded ++ (← body below "consequence"))]

/-- The block of a `match` starts where its indentation is announced: right behind the line with
the colon. -/
def matchStatement : Parse Cst := do
  let kw ← softWord "match"
  let subjects ← commaList (below .expression)
  let colon ← word ":"
  lineEnd
  let indent ← token (fun t => t.kind == .indent)
  let cases ← many1 (caseClause below)
  let _ ← token (fun t => t.kind == .dedent)
  return group "match_statement"
    (kw :: subjects ++ [colon, inField "body" (group "block" (indent.leaf :: cases))])

/-! ### Blocks -/

def compoundStatement : Parse Cst :=
  ifStatement below <|> forStatement below <|> whileStatement below <|> tryStatement below
    <|> withStatement below <|> definition below <|> decoratedDefinition below
    <|> matchStatement below

def statement : Parse (List Cst) := one (compoundStatement below) <|> simpleLine below

/-- The statements behind a colon, on its line or indented below it. -/
def suite : Parse Cst :=
  (do
    lineEnd
    let _ ← token (fun t => t.kind == .indent)
    let statements ← many1 (statement below)
    let _ ← token (fun t => t.kind == .dedent)
    return group "block" statements)
  <|> (do return group "block" (← simpleLine below))

end

end Grammar
end ChainLint
