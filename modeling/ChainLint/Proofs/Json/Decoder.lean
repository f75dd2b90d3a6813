import ChainLint.Proofs.Json.Grammar

/-!
# ChainLint.Proofs.Json.Decoder

A decoder of JSON texts.

* `ofUnits`: the text with given code units, if they are one.
* `string?`, `number?`, `word?`: the values that hold no others, at the front of a text.
* `list?`, `group?`, `member?`: what stands between brackets, given how one thing is read.
* `value?`: any value. The number bounds how deep values are nested.
* `decode`: the value of a whole text.
-/

namespace ChainLint
namespace Json

/-- The characters with these code units: a high surrogate has to be followed by a low one. -/
def ofUnits : List Nat → Option (List Char)
  | [] => some []
  | u :: us =>
    if u < 0xD800 ∨ 0xDFFF < u ∧ u < 0x10000 then (ofUnits us).map (Char.ofNat u :: ·)
    else
      match us with
      | [] => none
      | v :: us =>
        if u < 0xDC00 ∧ 0xDC00 ≤ v ∧ v ≤ 0xDFFF then
          (ofUnits us).map (Char.ofNat (0x10000 + (u - 0xD800) * 0x400 + (v - 0xDC00)) :: ·)
        else none

/-- The code units up to the next quote, and what stands behind it. -/
def units? : List Char → Option (List Nat × List Char)
  | [] => none
  | c :: r =>
    if c = '"' then some ([], r)
    else if c = '\\' then
      match r with
      | [] => none
      | e :: r =>
        if e = 'u' then
          match r with
          | a :: b :: c :: d :: r =>
            match hexUnit? a b c d with
            | some n => (units? r).map (fun (us, r) => (n :: us, r))
            | none => none
          | _ => none
        else
          match shortEscapes.lookup e with
          | some c => (units? r).map (fun (us, r) => (c.toNat :: us, r))
          | none => none
    else if c.toNat < 32 then none
    else (units? r).map (fun (us, r) => (Text.unitsOf c ++ us, r))

/-- A string whose opening quote has been read. -/
def string? (cs : List Char) : Option (String × List Char) := do
  let (us, r) ← units? cs
  return (String.ofList (← ofUnits us), r)

def digits? (cs : List Char) : Option (List Char × List Char) :=
  if cs.takeWhile Char.isDigit = [] then none
  else some (cs.takeWhile Char.isDigit, cs.dropWhile Char.isDigit)

def sign (cs : List Char) : Bool × List Char :=
  match cs with
  | [] => (false, [])
  | c :: r => if c = '-' then (true, r) else (false, c :: r)

def fraction? : List Char → Option (List Char × List Char)
  | [] => some ([], [])
  | c :: r => if c = '.' then digits? r else some ([], c :: r)

def signed? : List Char → Option (Int × List Char)
  | [] => none
  | c :: r =>
    if c = '+' then (digits? r).map (fun (ds, r) => ((natOf ds : Int), r))
    else if c = '-' then (digits? r).map (fun (ds, r) => (-(natOf ds : Int), r))
    else (digits? (c :: r)).map (fun (ds, r) => ((natOf ds : Int), r))

def exponent? : List Char → Option (Int × List Char)
  | [] => some (0, [])
  | c :: r => if c = 'e' ∨ c = 'E' then signed? r else some (0, c :: r)

def number? (cs : List Char) : Option (Rat × List Char) := do
  let (negative, cs) := sign cs
  let (ds, cs) ← digits? cs
  if ds.head? = some '0' ∧ ds ≠ ['0'] then none
  else
    let (fs, cs) ← fraction? cs
    let (e, cs) ← exponent? cs
    return (numberOf negative ds fs e, cs)

/-- The values that are written as words. -/
def words : List (List Char × Value) :=
  [("null".toList, .null), ("true".toList, .bool true), ("false".toList, .bool false)]

def word? (cs : List Char) : Option (Value × List Char) :=
  words.findSome? (fun (w, v) => if w.isPrefixOf cs then some (v, cs.drop w.length) else none)

/-- The text behind `c`, which may have space in front of it. -/
def expect? (c : Char) (cs : List Char) : Option (List Char) :=
  match cs.dropWhile isSpace with
  | [] => none
  | d :: r => if d = c then some r else none

section

variable {α : Type} (close : Char) (one : List Char → Option (α × List Char))

/-- Things with commas between them, at least one, up to the closing bracket. -/
def list? : Nat → List Char → Option (List α × List Char)
  | 0, _ => none
  | fuel + 1, cs => do
    let (x, r) ← one cs
    match expect? close r with
    | some r => return ([x], r)
    | none =>
      let (xs, r) ← list? fuel (← expect? ',' r)
      return (x :: xs, r)

/-- Things between brackets of which the first has been read. -/
def group? (cs : List Char) : Option (List α × List Char) :=
  match expect? close cs with
  | some r => some ([], r)
  | none => list? close one cs.length cs

end

/-- A name, a colon and a value. -/
def member? (value : List Char → Option (Value × List Char)) (cs : List Char) :
    Option ((String × Value) × List Char) := do
  let (name, r) ← string? (← expect? '"' cs)
  let (v, r) ← value (← expect? ':' r)
  return ((name, v), r)

def value? : Nat → List Char → Option (Value × List Char)
  | 0, _ => none
  | fuel + 1, cs =>
    match cs.dropWhile isSpace with
    | [] => none
    | c :: r =>
      if c = '"' then (string? r).map (fun (s, r) => (.string s, r))
      else if c = '[' then (group? ']' (value? fuel) r).map (fun (vs, r) => (.array vs, r))
      else if c = '\x7b' then
        (group? '\x7d' (member? (value? fuel)) r).map (fun (ms, r) => (.object ms, r))
      else
        match word? (c :: r) with
        | some p => some p
        | none => (number? (c :: r)).map (fun (q, r) => (.number q, r))

/-- The value of a whole text. -/
def decode (text : String) : Option Value := do
  let (v, r) ← value? text.toList.length text.toList
  if r.all isSpace then some v else none

end Json
end ChainLint
