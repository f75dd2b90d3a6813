import ChainLint.Rule.Basic
import ChainLint.Source

/-!
# ChainLint.Scan.Result

What checking files comes to.

* `Failure`: a file that could not be checked, and why.
* `Verdict`: what was found in one file.
* `ScanOutcome`: what was found in many.
-/

namespace ChainLint

inductive FailureCause where
  | syntaxError | malformedTree | readError | parserError
  deriving DecidableEq

def FailureCause.text : FailureCause → String
  | .syntaxError => "syntax-error"
  | .malformedTree => "malformed-tree"
  | .readError => "read-error"
  | .parserError => "parser-error"

def FailureCause.ofReason : FailureReason → FailureCause
  | .badSyntax => .syntaxError
  | .unreadable => .readError
  | .parserFault => .parserError

structure Failure where
  filePath : String
  kind : FailureCause
  message : String
  line : Int
  deriving DecidableEq

structure Verdict where
  diagnostics : List Diagnostic := []
  failure : Option Failure := none
  deriving DecidableEq

structure ScanOutcome where
  diagnostics : List Diagnostic
  failures : List Failure
  totalFiles : Int
  scannedFiles : List String
  deriving DecidableEq

end ChainLint
