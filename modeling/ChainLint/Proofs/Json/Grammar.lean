import ChainLint.Json.Value
import ChainLint.Proofs.Text.Order
import Mathlib.Algebra.Field.Rat

/-!
# ChainLint.Proofs.Json.Grammar

JSON texts and the values they stand for, as the interchange format lays them down, whoever wrote
them and however they are laid out.

* `Space`: the white space that may stand around every token.
* `IsString`: a string literal. It stands for a sequence of code units, of which an escape gives one
  and any other character its own; the literal has a text where these units are one.
* `IsNumber`: a number with its sign, fraction and exponent, and its exact value.
* `Writes`: a value without the space around it. `IsText`: a whole text.
-/

namespace ChainLint
namespace Json

def isSpace (c : Char) : Bool := c == ' ' || c == '\t' || c == '\n' || c == '\r'

def Space (w : List Char) : Prop := ∀ c ∈ w, isSpace c = true

/-! ## Strings -/

/-- Escapes of one letter, each with the character it stands for. -/
def shortEscapes : List (Char × Char) :=
  [('"', '"'), ('\\', '\\'), ('/', '/'), ('b', '\x08'), ('f', '\x0c'), ('n', '\n'), ('r', '\r'),
    ('t', '\t')]

/-- The value of a hexadecimal digit; either case will do. -/
def hexDigit? (c : Char) : Option Nat :=
  if c.isDigit then some (c.toNat - 48)
  else if 97 ≤ c.toNat ∧ c.toNat ≤ 102 then some (c.toNat - 87)
  else if 65 ≤ c.toNat ∧ c.toNat ≤ 70 then some (c.toNat - 55)
  else none

/-- The code unit with these four digits. -/
def hexUnit? (a b c d : Char) : Option Nat := do
  return (((← hexDigit? a) * 16 + (← hexDigit? b)) * 16 + (← hexDigit? c)) * 16 + (← hexDigit? d)

/-- What may stand between two quotes, and the code units it stands for. -/
inductive Units : List Char → List Nat → Prop where
  | nil : Units [] []
  | plain {c : Char} {t : List Char} {us : List Nat} (hc : 32 ≤ c.toNat) (hquote : c ≠ '"')
      (hslash : c ≠ '\\') (h : Units t us) : Units (c :: t) (Text.unitsOf c ++ us)
  | short {e c : Char} {t : List Char} {us : List Nat} (he : (e, c) ∈ shortEscapes)
      (h : Units t us) : Units ('\\' :: e :: t) (c.toNat :: us)
  | code {a b c d : Char} {n : Nat} {t : List Char} {us : List Nat}
      (hn : hexUnit? a b c d = some n) (h : Units t us) :
      Units ('\\' :: 'u' :: a :: b :: c :: d :: t) (n :: us)

def IsString (t : List Char) (s : String) : Prop :=
  ∃ body, Units body (Text.units s.toList) ∧ t = '"' :: (body ++ ['"'])

/-! ## Numbers -/

structure Digits (ds : List Char) : Prop where
  ne_nil : ds ≠ []
  isDigit : ∀ c ∈ ds, c.isDigit = true

/-- The number that decimal digits stand for. -/
def natOf (ds : List Char) : Nat := Nat.ofDigitChars 10 ds 0

inductive IsFraction : List Char → List Char → Prop where
  | none : IsFraction [] []
  | some {fs : List Char} (h : Digits fs) : IsFraction ('.' :: fs) fs

/-- Digits with a sign, or without one. -/
inductive IsSigned : List Char → Int → Prop where
  | plain {ds : List Char} (h : Digits ds) : IsSigned ds (natOf ds)
  | plus {ds : List Char} (h : Digits ds) : IsSigned ('+' :: ds) (natOf ds)
  | minus {ds : List Char} (h : Digits ds) : IsSigned ('-' :: ds) (-natOf ds)

inductive IsExponent : List Char → Int → Prop where
  | none : IsExponent [] 0
  | some {mark : Char} {t : List Char} {e : Int} (hmark : mark = 'e' ∨ mark = 'E')
      (h : IsSigned t e) : IsExponent (mark :: t) e

/-- The digits before and behind the point, moved by the exponent. -/
def numberOf (negative : Bool) (ds fs : List Char) (e : Int) : Rat :=
  (if negative then -1 else 1) * natOf (ds ++ fs) * 10 ^ (e - fs.length)

/-- No digit stands behind a leading zero. -/
inductive IsNumber : List Char → Rat → Prop where
  | mk (negative : Bool) {ds f fs x : List Char} {e : Int} (hds : Digits ds)
      (hzero : ds.head? = some '0' → ds = ['0']) (hf : IsFraction f fs) (hx : IsExponent x e) :
      IsNumber ((if negative then ['-'] else []) ++ (ds ++ (f ++ x))) (numberOf negative ds fs e)

/-! ## Values -/

/-- An item of an array or a member of an object: what stands in front of its value, the text of
its value, and the space behind that. -/
structure Piece where
  before : List Char
  text : List Char
  after : List Char
  value : Value

def Piece.whole (p : Piece) : List Char := p.before ++ (p.text ++ p.after)

/-- Texts with a comma between every two of them. -/
def commas : List (List Char) → List Char
  | [] => []
  | [t] => t
  | t :: u :: rest => t ++ ',' :: commas (u :: rest)

/-- What stands in front of the value of a member: its name and a colon. -/
def Names (before : List Char) (name : String) : Prop :=
  ∃ w t w' w'', Space w ∧ IsString t name ∧ Space w' ∧ Space w'' ∧
    before = w ++ (t ++ (w' ++ ':' :: w''))

/-- The text stands for the value, without space around it. -/
inductive Writes : List Char → Value → Prop where
  | null : Writes "null".toList .null
  | bool (b : Bool) : Writes (if b then "true".toList else "false".toList) (.bool b)
  | number {t : List Char} {q : Rat} (h : IsNumber t q) : Writes t (.number q)
  | string {t : List Char} {s : String} (h : IsString t s) : Writes t (.string s)
  | noItems {w : List Char} (h : Space w) : Writes ('[' :: (w ++ [']'])) (.array [])
  | items {ps : List Piece} (hne : ps ≠ []) (hbefore : ∀ p ∈ ps, Space p.before)
      (hafter : ∀ p ∈ ps, Space p.after) (h : ∀ p ∈ ps, Writes p.text p.value) :
      Writes ('[' :: (commas (ps.map Piece.whole) ++ [']'])) (.array (ps.map Piece.value))
  | noMembers {w : List Char} (h : Space w) : Writes ('\x7b' :: (w ++ ['\x7d'])) (.object [])
  | members {ms : List (String × Piece)} (hne : ms ≠ []) (hbefore : ∀ m ∈ ms, Names m.2.before m.1)
      (hafter : ∀ m ∈ ms, Space m.2.after) (h : ∀ m ∈ ms, Writes m.2.text m.2.value) :
      Writes ('\x7b' :: (commas (ms.map (fun m => m.2.whole)) ++ ['\x7d']))
        (.object (ms.map (fun m => (m.1, m.2.value))))

/-- The text stands for the value. -/
def IsText (t : List Char) (v : Value) : Prop :=
  ∃ w t' w', Space w ∧ Writes t' v ∧ Space w' ∧ t = w ++ (t' ++ w')

end Json
end ChainLint
