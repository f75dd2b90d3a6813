import ChainLint.Terminal

/-!
# ChainLint.Log

Messages beside the report. They go to the error stream, so that a report in a machine-readable
form stays clean.

* `Level`, `Log.line`: a tag in the colour of the level, then the message.
* `Log.render`: what is written for a message; debug messages only when they are asked for.
-/

namespace ChainLint

inductive Level where
  | debug | info | warn | error
  deriving DecidableEq

namespace Log

def tag : String := "[pmc-lint]"

def tagStyle : Level → Terminal.Style
  | .error => .red
  | .warn => .yellow
  | .debug | .info => .dim

def line (colour : Bool) (level : Level) (message : String) : String :=
  Terminal.paint colour (tagStyle level) tag ++ " "
    ++ (if level = .debug then Terminal.paint colour .dim message else message) ++ "\n"

def render (colour verbose : Bool) (level : Level) (message : String) : String :=
  if level = .debug ∧ !verbose then "" else line colour level message

/-- Debug messages, one after the other. -/
def debugLines (colour verbose : Bool) (messages : List String) : String :=
  messages.foldr (fun m rest => render colour verbose .debug m ++ rest) ""

end Log
end ChainLint
