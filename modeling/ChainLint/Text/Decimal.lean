/-!
# ChainLint.Text.Decimal

The decimal text of a rational number: whole numbers without a point, other ones positionally
down to one millionth, and below that with one leading digit and an exponent.
-/

namespace ChainLint
namespace Text

/-- Decimal digits of `n / d` with `n < d`, until they end or `fuel` runs out. -/
def fractionDigits (d : Nat) : Nat → Nat → List Char
  | 0, _ => []
  | fuel + 1, n =>
    if n = 0 then []
    else Nat.digitChar (10 * n / d) :: fractionDigits d fuel (10 * n % d)

/-- Text of the nonnegative number `n / d`. -/
def positive (n d : Nat) : String :=
  let digits := fractionDigits d (d.log2 + 1) (n % d)
  if n % d = 0 then toString (n / d)
  else if 1000000 * n < d then
    let zeros := (digits.takeWhile (· == '0')).length
    match digits.drop zeros with
    | [] => "0"
    | [c] => String.ofList [c] ++ "e-" ++ toString (zeros + 1)
    | c :: rest => String.ofList (c :: '.' :: rest) ++ "e-" ++ toString (zeros + 1)
  else toString (n / d) ++ "." ++ String.ofList digits

/-- Text of a rational number. -/
def decimal (q : Rat) : String :=
  if q.num < 0 then "-" ++ positive q.num.natAbs q.den else positive q.num.natAbs q.den

end Text
end ChainLint
