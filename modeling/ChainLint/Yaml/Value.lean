import ChainLint.Text.Decimal
import ChainLint.Text.Units

/-!
# ChainLint.Yaml.Value

YAML values, and how scalars and tags become values.

* `Value`. Keys of a mapping are text: other keys are written out.
* `Loader`: whatever turns a text into a value.
* `resolvePlain`: the value and the tag of an unquoted scalar, by the core schema with dates and
  the merge key. Digits are not grouped: `1_000` is a string.
* `applyTag`: the value under an explicit tag, if the tag is known and fits.
-/

namespace ChainLint
namespace Yaml

inductive Value where
  | null
  | bool (b : Bool)
  | number (text : String)
  | string (s : String)
  | sequence (items : List Value)
  | mapping (entries : List (String × Value))
  /-- A point in time: an object without keys. -/
  | instant (text : String)
  /-- Bytes: an object without keys. -/
  | bytes (text : String)

/-- A text has a value, or is not valid. -/
abbrev Loader := String → Option Value

/-- The three sorts of nodes. -/
inductive NodeSort where
  | scalar | sequence | mapping
  deriving DecidableEq

def core (name : String) : String := "tag:yaml.org,2002:" ++ name

/-! ### Scalars -/

def isNull (s : String) : Bool := ["~", "null", "Null", "NULL"].contains s

def asBool (s : String) : Option Bool :=
  if ["true", "True", "TRUE"].contains s then some true
  else if ["false", "False", "FALSE"].contains s then some false
  else none

/-- Value of a digit in bases up to sixteen. -/
def digitValue (c : Char) : Nat :=
  if c.isDigit then c.toNat - 48
  else if 'a' ≤ c && c ≤ 'f' then c.toNat - 87
  else if 'A' ≤ c && c ≤ 'F' then c.toNat - 55
  else 16

/-- A numeral without sign in a base. -/
def numeral (base : Nat) (cs : List Char) : Option Nat :=
  if cs.isEmpty || !cs.all (fun c => digitValue c < base) then none
  else some (cs.foldl (fun n c => base * n + digitValue c) 0)

/-- A sign and the rest. -/
def signed : List Char → Bool × List Char
  | '-' :: cs => (true, cs)
  | '+' :: cs => (false, cs)
  | cs => (false, cs)

def asInteger (s : String) : Option Int :=
  let (negative, cs) := signed s.toList
  let n := match cs with
    | '0' :: 'b' :: ds => numeral 2 ds
    | '0' :: 'o' :: ds => numeral 8 ds
    | '0' :: 'x' :: ds => numeral 16 ds
    | ds => numeral 10 ds
  n.map (fun n => if negative then -(n : Int) else n)

/-- An exponent, if the text is one or is empty. -/
def exponentOf : List Char → Option Int
  | [] => some 0
  | e :: cs =>
    if e = 'e' || e = 'E' then
      let (negative, ds) := signed cs
      (numeral 10 ds).map (fun n => if negative then -(n : Int) else n)
    else none

/-- Digits after the point, and an exponent. -/
def scaled (whole fraction : List Char) (rest : List Char) : Option Rat := do
  let e ← exponentOf rest
  let n := ((whole ++ fraction).foldl (fun n c => 10 * n + digitValue c) 0 : Nat)
  let shift := e - fraction.length
  -- Beyond the range of a float the exact value no longer matters.
  let shift := max (-400) (min 400 shift)
  return if shift < 0 then (n : Rat) / (Nat.pow 10 shift.natAbs : Rat)
    else (n : Rat) * (Nat.pow 10 shift.natAbs : Rat)

/-- The text of a float. -/
def asFloat (s : String) : Option String :=
  if [".nan", ".NaN", ".NAN"].contains s then some "NaN"
  else
    let (negative, cs) := signed s.toList
    if [".inf", ".Inf", ".INF"].contains (String.ofList cs) then
      some (if negative then "-Infinity" else "Infinity")
    else
      let whole := cs.takeWhile Char.isDigit
      let rest := cs.drop whole.length
      let fraction := match rest with
        | '.' :: more => more.takeWhile Char.isDigit
        | _ => []
      let value :=
        match whole, rest with
        | [], '.' :: _ =>
          -- A number that starts with the point has no sign and needs a digit.
          if fraction.isEmpty || cs.length != s.toList.length then none
          else scaled [] fraction (rest.drop (fraction.length + 1))
        | [], _ => none
        | _, '.' :: _ => scaled whole fraction (rest.drop (fraction.length + 1))
        | _, _ => scaled whole [] rest
      value.map (fun q => Text.decimal (if negative then -q else q))

def asNumber (s : String) : Option String :=
  match asInteger s with
  | some n => some (toString n)
  | none => asFloat s

/-- `n` to `m` digits, and the rest. -/
def digits (n m : Nat) (cs : List Char) : Option (List Char) :=
  let ds := (cs.take m).takeWhile Char.isDigit
  if n ≤ ds.length then some (cs.drop ds.length) else none

def expect (c : Char) : List Char → Option (List Char)
  | d :: cs => if c = d then some cs else none
  | [] => none

/-- A time zone behind a time, or nothing. -/
def isZone (cs : List Char) : Bool :=
  match cs.dropWhile (fun c => c == ' ' || c == '\t') with
  | [] => cs.isEmpty
  | ['Z'] => true
  | sign :: rest =>
    (sign == '+' || sign == '-') &&
      match digits 1 2 rest with
      | some [] => true
      | some (':' :: minutes) => digits 2 2 minutes == some []
      | _ => false

/-- A date, alone or with a time. -/
def isInstant (s : String) : Bool :=
  let cs := s.toList
  let day : Option (List Char) := do
    let cs ← digits 4 4 cs
    let cs ← expect '-' cs
    let cs ← digits 2 2 cs
    let cs ← expect '-' cs
    digits 2 2 cs
  let time : Option Bool := do
    let cs ← digits 4 4 cs
    let cs ← expect '-' cs
    let cs ← digits 1 2 cs
    let cs ← expect '-' cs
    let cs ← digits 1 2 cs
    let cs ← match cs with
      | 'T' :: cs | 't' :: cs => some cs
      | c :: _ =>
        if c == ' ' || c == '\t' then some (cs.dropWhile (fun c => c == ' ' || c == '\t'))
        else none
      | [] => none
    let cs ← digits 1 2 cs
    let cs ← expect ':' cs
    let cs ← digits 2 2 cs
    let cs ← expect ':' cs
    let cs ← digits 2 2 cs
    let cs := match cs with
      | '.' :: more => more.dropWhile Char.isDigit
      | _ => cs
    return isZone cs
  day == some [] || time == some true

/-- The value of an unquoted scalar and the tag it gets. -/
def resolvePlain (s : String) : Value × String :=
  if isNull s then (.null, core "null")
  else
    match asBool s with
    | some b => (.bool b, core "bool")
    | none =>
      match asInteger s, asFloat s with
      | some n, _ => (.number (toString n), core "int")
      | none, some text => (.number text, core "float")
      | none, none =>
        if isInstant s then (.instant s, core "timestamp")
        else if s == "<<" then (.string s, core "merge")
        else (.string s, "?")

/-! ### Keys -/

/-- The text of a value inside a key that is a sequence. -/
def itemText : Value → Option String
  | .null => some ""
  | .bool b => some (if b then "true" else "false")
  | .number text | .instant text | .bytes text => some text
  | .string s => some s
  | .sequence _ => none
  | .mapping _ => some "[object Object]"

/-- The text of a key. Sequences in sequences cannot be keys. -/
def keyText : Value → Option String
  | .null => some "null"
  | .sequence items => do return Text.joinWith "," (← items.mapM itemText)
  | v => itemText v

/-! ### Tags -/

def isBase64 (s : String) : Bool :=
  let alphabet :=
    "ABCDEFGHIJKLMNOPQRSTUVWXYZabcdefghijklmnopqrstuvwxyz0123456789+/=".toList
  let cs := s.toList.filter (fun c => c != '\n' && c != '\r')
  cs.all alphabet.contains && 6 * cs.length % 8 == 0

/-- The one entry of each mapping in a sequence. -/
def soleEntry : Value → Option (String × Value)
  | .mapping [entry] => some entry
  | _ => none

/-- The value under a core tag; `sort` is missing for an empty node. -/
def applyCoreTag (name : String) (sort : Option NodeSort) (v : Value) : Option Value :=
  let fits (wanted : NodeSort) : Bool := sort == none || sort == some wanted
  let scalar (f : String → Option Value) : Option Value :=
    match v with
    | .string s => if fits .scalar then f s else none
    | _ => none
  match name, v with
  | "str", .null => if fits .scalar then some (.string "") else none
  | "str", v => if fits .scalar then some v else none
  | "seq", .null => if fits .sequence then some (.sequence []) else none
  | "seq", v => if fits .sequence then some v else none
  | "map", .null => if fits .mapping then some (.mapping []) else none
  | "map", v => if fits .mapping then some v else none
  | "null", .null => if fits .scalar then some .null else none
  | "null", _ => scalar (fun s => if isNull s then some .null else none)
  | "bool", _ => scalar (fun s => (asBool s).map .bool)
  | "int", _ => scalar (fun s => (asInteger s).map (fun n => .number (toString n)))
  | "float", _ => scalar (fun s => (asNumber s).map .number)
  | "timestamp", _ => scalar (fun s => if isInstant s then some (.instant s) else none)
  | "merge", .null => if fits .scalar then some .null else none
  | "merge", _ => scalar (fun s => if s == "<<" then some (.string s) else none)
  | "binary", _ => scalar (fun s => if isBase64 s then some (.bytes s) else none)
  | "omap", .null | "pairs", .null => if fits .sequence then some (.sequence []) else none
  | "omap", .sequence items => do
    let keys := (← items.mapM soleEntry).map Prod.fst
    if keys.eraseDups.length = keys.length then some (.sequence items) else none
  | "pairs", .sequence items => do
    return .sequence ((← items.mapM soleEntry).map (fun (k, v) => .sequence [.string k, v]))
  | "set", .null => if fits .mapping then some (.mapping []) else none
  | "set", .mapping entries =>
    if entries.all (fun (_, v) => match v with
      | .null => true
      | _ => false) then some (.mapping entries) else none
  | _, _ => none

/-- The value under an explicit tag. Only core tags are known; the tag `!` leaves a scalar as it
is written. -/
def applyTag (tag : String) (sort : Option NodeSort) (v : Value) : Option Value :=
  if tag = "!" then some v
  else if Text.startsWith tag (core "") then
    applyCoreTag (String.ofList (tag.toList.drop (core "").toList.length)) sort v
  else none

end Yaml
end ChainLint
