import ChainLint.Sorted
import ChainLint.Text.Blank
import ChainLint.Text.Distance

/-!
# ChainLint.CommandLine.Arguments

The arguments of the program.

* `Flag`: the options, with the name of the value that some of them take.
* `Arguments`: what a command line asks for.
* `parseFrom`: reads arguments from the left. A value follows its option, or is joined to it by an
  equals sign; short options may share a dash; `--` ends the options.
* `parse`: a request, or the message with which the command line is refused.
-/

namespace ChainLint
namespace CommandLine

inductive Flag where
  | version | select | ignore | exclude | format | maxIssues | listRules | disableNoqa
  | config | watch | verbose
  deriving DecidableEq

namespace Flag

def all : List Flag :=
  [version, select, ignore, exclude, format, maxIssues, listRules, disableNoqa, config, watch,
    verbose]

def long : Flag → String
  | version => "--version"
  | select => "--select"
  | ignore => "--ignore"
  | exclude => "--exclude"
  | format => "--format"
  | maxIssues => "--max-issues"
  | listRules => "--list-rules"
  | disableNoqa => "--disable-noqa"
  | config => "--config"
  | watch => "--watch"
  | verbose => "--verbose"

def short : Flag → Option Char
  | version => some 'V'
  | watch => some 'w'
  | _ => none

/-- What the value of an option is called. -/
def value : Flag → Option String
  | select | ignore => some "prefix"
  | exclude => some "pattern"
  | format => some "format"
  | maxIssues => some "n"
  | config => some "path"
  | _ => none

def takesValue (f : Flag) : Bool := f.value.isSome

/-- An option as messages name it. -/
def shown (f : Flag) : String :=
  match f.value with
  | some v => f.long ++ " <" ++ v ++ ">"
  | none => f.long

end Flag

structure Arguments where
  path : String := "."
  select : List String := []
  ignore : List String := []
  exclude : List String := []
  format : String := "grouped"
  maxIssues : String := "0"
  listRules : Bool := false
  disableNoqa : Bool := false
  config : Option String := none
  watch : Bool := false
  verbose : Bool := false
  deriving DecidableEq

/-- Lists grow with every mention; of the other options the last mention counts. -/
def Arguments.set (a : Arguments) (f : Flag) (v : String) : Arguments :=
  match f with
  | .version => a
  | .select => { a with select := a.select ++ [v] }
  | .ignore => { a with ignore := a.ignore ++ [v] }
  | .exclude => { a with exclude := a.exclude ++ [v] }
  | .format => { a with format := v }
  | .maxIssues => { a with maxIssues := v }
  | .listRules => { a with listRules := true }
  | .disableNoqa => { a with disableNoqa := true }
  | .config => { a with config := some v }
  | .watch => { a with watch := true }
  | .verbose => { a with verbose := true }

/-- What has been read so far. From the first unknown option on, everything that is no option
counts as unknown too. -/
structure Progress where
  arguments : Arguments := {}
  operands : List String := []
  unknown : List String := []

/-- Reasons to stop in the middle of the arguments. -/
inductive Halt where
  | version
  | missing (f : Flag)
  deriving DecidableEq

def Progress.set (p : Progress) (f : Flag) (v : String) : Except Halt Progress :=
  match f with
  | .version => .error .version
  | f => .ok { p with arguments := p.arguments.set f v }

/-- Takes arguments that are no known option. -/
def Progress.take (p : Progress) (args : List String) : Progress :=
  if p.unknown.isEmpty then { p with operands := p.operands ++ args }
  else { p with unknown := p.unknown ++ args }

def isOption : List Char → Bool
  | '-' :: _ :: _ => true
  | _ => false

/-- The option that an argument names. -/
def flagOf? (arg : List Char) : Option Flag :=
  Flag.all.find? (fun f => f.long.toList = arg || (f.short.map (fun c => ['-', c])) = some arg)

/-- An argument that begins with a short option and goes on: the option and the rest, behind a dash
of its own. -/
def cluster? : List Char → Option (Flag × List Char)
  | '-' :: c :: d :: rest =>
    if c = '-' then none else (flagOf? ['-', c]).map (fun f => (f, '-' :: d :: rest))
  | _ => none

/-- A long option and the value that an equals sign joins to it. -/
def joined? (arg : List Char) : Option (Flag × String) :=
  let name := arg.takeWhile (· ≠ '=')
  match arg.dropWhile (· ≠ '=') with
  | '=' :: v =>
    match flagOf? name with
    | some f => if f.takesValue then some (f, String.ofList v) else none
    | none => none
  | _ => none

theorem cluster?_length {arg rest : List Char} {f : Flag} (h : cluster? arg = some (f, rest)) :
    rest.length < arg.length := by
  unfold cluster? at h
  split at h
  · split at h
    · simp at h
    · obtain ⟨g, -, hg⟩ := Option.map_eq_some_iff.1 h
      simp only [Prod.mk.injEq] at hg
      obtain ⟨-, rfl⟩ := hg
      simp
  · simp at h

/-- Characters still to be read, and one for every argument. -/
def weight : List (List Char) → Nat
  | [] => 0
  | arg :: rest => arg.length + 1 + weight rest

def parseFrom (p : Progress) (args : List (List Char)) : Except Halt Progress :=
  match args with
  | [] => .ok p
  | arg :: rest =>
    if arg = ['-', '-'] then
      .ok (p.take ((if p.unknown.isEmpty then [] else ["--"]) ++ rest.map String.ofList))
    else if isOption arg then
      match flagOf? arg with
      | some f =>
        if f.takesValue then
          match rest with
          | [] => .error (.missing f)
          | v :: rest =>
            match p.set f (String.ofList v) with
            | .ok p => parseFrom p rest
            | .error halt => .error halt
        else
          match p.set f "" with
          | .ok p => parseFrom p rest
          | .error halt => .error halt
      | none =>
        match _h : cluster? arg with
        | some (f, more) =>
          match p.set f "" with
          | .ok p => parseFrom p (more :: rest)
          | .error halt => .error halt
        | none =>
          match joined? arg with
          | some (f, v) =>
            match p.set f v with
            | .ok p => parseFrom p rest
            | .error halt => .error halt
          | none => parseFrom { p with unknown := p.unknown ++ [String.ofList arg] } rest
    else parseFrom (p.take [String.ofList arg]) rest
termination_by weight args
decreasing_by
  all_goals simp only [weight]
  all_goals try have shorter := cluster?_length ‹_›
  all_goals omega

/-- What a command line asks for. -/
inductive Request where
  | version
  | help
  | rejected (message : String)
  | run (a : Arguments)
  deriving DecidableEq

def isHelp (arg : String) : Bool := arg = "--help" || arg = "-h"

/-- Names of long options, without dashes. -/
def longNames : List String :=
  (Flag.all.map Flag.long ++ ["--help"]).map (fun s => String.ofList (s.toList.drop 2))

/-- A guess at the option that was meant, on a line of its own. -/
def suggestion (flag : String) : String :=
  match flag.toList with
  | '-' :: '-' :: word =>
    match (sortBy Text.le (Text.similarTo (String.ofList word) longNames)).map ("--" ++ ·) with
    | [] => ""
    | [one] => "\n(Did you mean " ++ one ++ "?)"
    | many => "\n(Did you mean one of " ++ Text.joinWith ", " many ++ "?)"
  | _ => ""

def parse (args : List String) : Request :=
  match parseFrom {} (args.map String.toList) with
  | .error .version => .version
  | .error (.missing f) => .rejected ("error: option '" ++ f.shown ++ "' argument missing")
  | .ok p =>
    if p.unknown.any isHelp then .help
    else
      match p.unknown with
      | flag :: _ => .rejected ("error: unknown option '" ++ flag ++ "'" ++ suggestion flag)
      | [] => .run { p.arguments with path := p.operands.headD "." }

/-- The whole number at the beginning of a text, or zero: white space, a sign, digits. -/
def leadingInt (s : String) : Int :=
  let digits (cs : List Char) : Int :=
    ((cs.takeWhile Char.isDigit).foldl (fun n c => n * 10 + (c.toNat - '0'.toNat)) 0 : Nat)
  match s.toList.dropWhile Text.isBlank with
  | '-' :: cs => -digits cs
  | '+' :: cs => digits cs
  | cs => digits cs

end CommandLine
end ChainLint
