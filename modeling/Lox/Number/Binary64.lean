/-!
# Binary64 magnitudes as whole numbers of units

Every finite double is a whole number of *units*, where one unit is the least positive
double `2 ^ (-1074)`. A magnitude is therefore a natural number, and all questions about
rounding are questions about natural numbers: no floating point operation is used here.

The bits of a magnitude (a double without its sign bit) are
`shift * hiddenBit + significand`, and its value is `significand * 2 ^ shift` units. One
formula covers the subnormal and the normal doubles, since the hidden leading bit of a
normal significand is the carry out of the fraction field.

## Main definitions

* `units` — the exact value of a magnitude.
* `nearest` — the magnitude nearest to a fraction, ties to the even significand.
* `Span`, `span` — the interval of reals that round to a magnitude.
-/

namespace Lox.Binary64

/-- How many units make the number one: `2 ^ 1074`. -/
def one : Nat := 1 <<< 1074

/-- The leading bit of a normal significand, which is not stored: `2 ^ 52`. -/
def hiddenBit : Nat := 1 <<< 52

/-- The bit that holds the sign: `2 ^ 63`. -/
def signBit : Nat := 1 <<< 63

/-- The magnitude bits of infinity: the first pattern above every finite magnitude. -/
def infinity : Nat := 2047 * hiddenBit

/-- Whether the sign bit is set. -/
def isNegative (bits : UInt64) : Bool := signBit ≤ bits.toNat

/-- The bits below the sign bit. -/
def magnitude (bits : UInt64) : Nat := bits.toNat % signBit

/-- The double with the given sign and magnitude bits. -/
def ofMagnitude (negative : Bool) (magnitude : Nat) : UInt64 :=
  UInt64.ofNat (if negative then signBit + magnitude else magnitude)

/-- The power of two that scales the significand, counted from the subnormal range, where
it is zero. -/
def shift (magnitude : Nat) : Nat := magnitude / hiddenBit - 1

/-- The significand with its hidden bit. -/
def significand (magnitude : Nat) : Nat := magnitude - shift magnitude * hiddenBit

/-- The exact value of a finite magnitude, in units. -/
def units (magnitude : Nat) : Nat := significand magnitude <<< shift magnitude

/-- The quotient rounded to the nearest whole number, a tie to the even one. -/
def roundQuotient (numerator denominator : Nat) : Nat :=
  let quotient := numerator / denominator
  let twice := 2 * (numerator % denominator)
  if twice < denominator then quotient
  else if denominator < twice then quotient + 1
  else quotient + quotient % 2

/-- The magnitude nearest to a fraction. The shift is the least one for which the
significand fits in 53 bits; a significand that rounds up to the next power of two carries
into the shift by plain addition. Values past the finite range give infinity. -/
def nearest (numerator denominator : Nat) : Nat :=
  let scaled := numerator * one
  let shift := Nat.log2 (scaled / denominator) - 52
  min infinity (shift * hiddenBit + roundQuotient scaled (denominator <<< shift))

/-! ### The reals that round to a magnitude -/

/-- An interval around a value. The three numbers are counted in quarters of a unit, so
that the midpoints between neighbouring doubles are whole. -/
structure Span where
  /-- Where the interval starts. -/
  low : Nat
  /-- The value itself. -/
  middle : Nat
  /-- Where the interval ends. -/
  high : Nat
  /-- Whether both ends belong to the interval. -/
  closed : Bool

/-- How many quarters of a unit make the number one. -/
def Span.one : Nat := 4 * Binary64.one

/-- The reals that round to a finite magnitude. The interval reaches half way to each
neighbour; below a power of two the neighbour is nearer by half. The ends round to the even
significand, so they belong to the interval exactly when this one is even. -/
def span (magnitude : Nat) : Span :=
  let gap := 1 <<< shift magnitude
  let middle := 4 * units magnitude
  let lowest := significand magnitude = hiddenBit ∧ 0 < shift magnitude
  { low := middle - (if lowest then gap else 2 * gap)
    middle
    high := middle + 2 * gap
    closed := significand magnitude % 2 = 0 }

end Lox.Binary64
