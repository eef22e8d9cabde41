import Lox.Number.Binary64

/-!
# The shortest decimal that reads back

Among the decimals that round to a given double, this module picks one with the fewest
digits, and among those the one nearest to the double. For each count of digits it is enough
to look at the two points of that decimal grid on either side of the value: if any point of
the grid lies in the interval of the double, one of these two does.

## Main definitions

* `Decimal` — a whole number of digits and the power of ten that scales it.
* `Binary64.Span.shortest` — the shortest decimal in an interval.
-/

namespace Lox

/-- The number `digits * 10 ^ exponent`. -/
structure Decimal where
  /-- The digits, as one whole number. -/
  digits : Nat
  /-- The power of ten that scales them. -/
  exponent : Int
  deriving DecidableEq, Repr

namespace Decimal

/-- Ten to a power. -/
def powerOfTen (n : Nat) : Nat := Nat.pow 10 n

/-- How many decimal digits a number has; zero has one. -/
def length (n : Nat) : Nat := (Nat.toDigits 10 n).length

/-- The same number without trailing zeros among its digits. -/
def trimmed (d : Decimal) : Decimal :=
  if h : d.digits ≠ 0 ∧ d.digits % 10 = 0 then
    trimmed ⟨d.digits / 10, d.exponent + 1⟩
  else d
termination_by d.digits
decreasing_by omega

/-- Where the decimal point stands when the digits are read as a fraction: the number lies
between `10 ^ (point - 1)` and `10 ^ point`. -/
def point (d : Decimal) : Int := (length d.digits : Int) + d.exponent

end Decimal

namespace Binary64.Span

/-- The point position of the value in the interval: the least power of ten above it. -/
def point (s : Span) : Int :=
  if Span.one ≤ s.middle then (Decimal.length (s.middle / Span.one) : Int)
  else
    let places := Decimal.length (Span.one / s.middle)
    if Span.one = s.middle * Decimal.powerOfTen (places - 1) then 2 - (places : Int)
    else 1 - (places : Int)

/-- Whether `x`, measured on a scale that is `factor` times finer, lies in the interval. -/
def holds (s : Span) (factor x : Nat) : Bool :=
  if s.closed then s.low * factor ≤ x && x ≤ s.high * factor
  else s.low * factor < x && x < s.high * factor

/-- The multiple of `10 ^ exponent` in the interval that is nearest to the value, a tie
going to the even multiple, if the interval holds one at all. -/
def gridPoint? (s : Span) (exponent : Int) : Option Decimal :=
  let factor := Decimal.powerOfTen (-exponent).toNat
  let step := Decimal.powerOfTen exponent.toNat * Span.one
  let value := s.middle * factor
  let below := value / step
  let above := below + 1
  let decimal (n : Nat) : Decimal := ⟨n, exponent⟩
  match s.holds factor (below * step), s.holds factor (above * step) with
  | true, true => some (decimal (roundQuotient value step))
  | true, false => some (decimal below)
  | false, true => some (decimal above)
  | false, false => none

/-- The shortest decimal in the interval, nearest to its value. Seventeen digits always
suffice for a double. -/
def shortest (s : Span) : Decimal :=
  let found := (List.range 17).findSome? fun (i : Nat) => s.gridPoint? (s.point - 1 - (i : Int))
  (found.getD ⟨s.middle / Span.one, 0⟩).trimmed

end Binary64.Span

end Lox
