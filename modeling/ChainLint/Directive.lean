import ChainLint.Rule.Basic
import ChainLint.Text.Blank
import ChainLint.Text.Units

/-!
# ChainLint.Directive

Suppression comments: `# noqa` silences a line, `# noqa: A1, B2` the rules whose ids begin with
one of the codes.

* `Directive.ofLine`: the directive of a line, read at the leftmost mark.
* `Directive.ofLines`: with line numbers.
* `isSilenced`.
-/

namespace ChainLint

inductive Directive where
  | all
  | codes (list : List String)
  deriving DecidableEq

namespace Directive

def isLetter (c : Char) : Bool := c.isAlpha

def isSeparator (c : Char) : Bool := c == ',' || Text.isBlank c

/-- The word `noqa` in any case, with what follows it. -/
def dropMark : List Char → Option (List Char)
  | a :: b :: c :: d :: rest =>
    if [a, b, c, d].map Char.toLower = ['n', 'o', 'q', 'a'] then some rest else none
  | _ => none

/-- One code: letters, then digits. -/
def code (cs : List Char) : Option (List Char × List Char) :=
  match cs.takeWhile isLetter with
  | [] => none
  | letters =>
    let rest := cs.dropWhile isLetter
    some (letters ++ rest.takeWhile Char.isDigit, rest.dropWhile Char.isDigit)

/-- The codes of a list; each further one follows commas and white space. The text shrinks with
every code, so its length bounds their number. -/
def codesFrom : Nat → List Char → List (List Char)
  | 0, _ => []
  | fuel + 1, cs =>
    match code cs with
    | none => []
    | some (c, rest) =>
      c :: (if (rest.takeWhile isSeparator).isEmpty then []
        else codesFrom fuel (rest.dropWhile isSeparator))

/-- The codes after a mark: a colon, at most one white space, and a list. -/
def codesAfter : List Char → List (List Char)
  | ':' :: c :: rest =>
    if Text.isBlank c then codesFrom rest.length rest else codesFrom (rest.length + 1) (c :: rest)
  | _ => []

/-- The directive whose `#` is the first character. -/
def atHash (afterHash : List Char) : Option Directive :=
  match dropMark (afterHash.dropWhile Text.isBlank) with
  | none => none
  | some rest =>
    match codesAfter rest with
    | [] => some .all
    | list => some (.codes (list.map (fun c => String.ofList (c.map Char.toUpper))))

/-- The directive of a line, at its leftmost mark. -/
def ofChars : List Char → Option Directive
  | [] => none
  | c :: cs =>
    if c = '#' then
      match atHash cs with
      | some d => some d
      | none => ofChars cs
    else ofChars cs

def ofLine (line : String) : Option Directive := ofChars line.toList

/-- The directives of a text under the numbers of their lines. -/
def ofLines (lines : List String) : List (Nat × Directive) :=
  (lines.zipIdx 1).filterMap (fun (text, number) => (ofLine text).map (fun d => (number, d)))

def silences (d : Directive) (ruleId : String) : Bool :=
  match d with
  | .all => true
  | .codes list => list.any (fun c => Text.startsWith ruleId c)

end Directive

/-- The line of the finding holds a directive that names its rule. -/
def isSilenced (directives : List (Nat × Directive)) (f : Finding) : Bool :=
  directives.any (fun (number, d) => (number : Int) == f.line && d.silences f.ruleId)

end ChainLint
