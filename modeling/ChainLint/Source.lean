import ChainLint.Cst.Convert

/-!
# ChainLint.Source

Reading a source text: parse it, look for a syntax error, build the tree.

* `ParserOutcome`, `Parser`: what parsing a text may come to.
* `ReadFailure`: a text that has no tree, and why.
* `readSource`.
-/

namespace ChainLint

/-- Parsing either fails as such, or returns concrete syntax. -/
inductive ParserOutcome where
  | threw (message : String)
  | parsed (root : Cst)

abbrev Parser := String → ParserOutcome

inductive FailureReason where
  | badSyntax | unreadable | parserFault
  deriving DecidableEq

def FailureReason.text : FailureReason → String
  | .badSyntax => "syntax"
  | .unreadable => "read"
  | .parserFault => "parser"

structure ReadFailure where
  filePath : String
  reason : FailureReason
  message : String
  line : Int
  deriving DecidableEq

/-- A text that could be read, or the reason why not. -/
inductive Reading where
  | tree (root : Node) (lines : List String)
  | failure (f : ReadFailure)

/-- Errors that are not a property of the text. -/
inductive Fault where
  | malformed (cause : Malformed)
  | plain (message : String)
  deriving DecidableEq

def Fault.message : Fault → String
  | .malformed cause => cause.message
  | .plain message => message

def Fault.ofTreeError : TreeError → Fault
  | .malformed cause => .malformed cause
  | e => .plain e.message

/-- The failure for an error node, whose place is given with both numbers counted from one. -/
def syntaxFailure (filePath : String) (e : Cst) : ReadFailure where
  filePath := filePath
  reason := .badSyntax
  message := "invalid syntax at line " ++ toString (e.label.row + 1) ++ ", column "
    ++ toString (e.label.column + 1)
  line := e.label.row + 1

/-- Parses a text. A syntax error anywhere is reported before the tree is built. -/
def readSource (parser : Parser) (source filePath : String) : Except Fault Reading :=
  match parser source with
  | .threw message => .ok (.failure ⟨filePath, .parserFault, message, 1⟩)
  | .parsed root =>
    match root.firstError with
    | .error text => .error (.plain text)
    | .ok (some e) => .ok (.failure (syntaxFailure filePath e))
    | .ok none =>
      match root.convertModule (Text.slots source) with
      | .error cause => .error (.malformed cause)
      | .ok tree => .ok (.tree tree (Text.lines source))

end ChainLint
