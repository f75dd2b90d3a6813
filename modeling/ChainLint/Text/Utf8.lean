/-!
# ChainLint.Text.Utf8

Text from bytes. A byte sequence that encodes no character is replaced by U+FFFD, one replacement
for every longest beginning of a possible encoding.

* `Pending`: the open part of a character that takes several bytes.
* `decode`, `encode`.
-/

namespace ChainLint
namespace Text
namespace Utf8

/-- A character that still needs `need` bytes, the next of them between `low` and `high`. -/
structure Pending where
  need : Nat
  low : Nat
  high : Nat
  value : Nat

def replacement : Char := '\ufffd'

/-- The first byte of a character: it is complete, refused, or opens a longer one. The bounds on
the second byte leave out overlong forms, halves of pairs and values beyond U+10FFFF. -/
def start (b : Nat) : List Char × Option Pending :=
  if b < 0x80 then ([Char.ofNat b], none)
  else if 0xC2 ≤ b ∧ b ≤ 0xDF then ([], some ⟨1, 0x80, 0xBF, b - 0xC0⟩)
  else if 0xE0 ≤ b ∧ b ≤ 0xEF then
    ([], some ⟨2, if b = 0xE0 then 0xA0 else 0x80, if b = 0xED then 0x9F else 0xBF, b - 0xE0⟩)
  else if 0xF0 ≤ b ∧ b ≤ 0xF4 then
    ([], some ⟨3, if b = 0xF0 then 0x90 else 0x80, if b = 0xF4 then 0x8F else 0xBF, b - 0xF0⟩)
  else ([replacement], none)

/-- One more byte. A byte that cannot continue the open character starts anew. -/
def feed : Option Pending → Nat → List Char × Option Pending
  | none, b => start b
  | some p, b =>
    if p.low ≤ b ∧ b ≤ p.high then
      let value := p.value * 64 + (b - 0x80)
      if p.need ≤ 1 then ([Char.ofNat value], none)
      else ([], some ⟨p.need - 1, 0x80, 0xBF, value⟩)
    else
      let (out, next) := start b
      (replacement :: out, next)

def decodeFrom : Option Pending → List UInt8 → List Char
  | none, [] => []
  | some _, [] => [replacement]
  | p, b :: bs =>
    let (out, next) := feed p b.toNat
    out ++ decodeFrom next bs

def decode (bytes : List UInt8) : String := String.ofList (decodeFrom none bytes)

/-- The bytes of a text. -/
def encode (s : String) : List UInt8 := s.toList.flatMap String.utf8EncodeChar

end Utf8
end Text
end ChainLint
