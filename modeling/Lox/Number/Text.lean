import Lox.Number.Shortest

/-!
# The text of a number

How numbers are printed and how number literals are read. Printing gives the shortest
decimal that reads back as the same double; reading rounds the written decimal to the
nearest double. Both are exact: they work on the bits of a double through
`Lox.Binary64` and use no floating point operation.

## Main definitions

* `Number.text` — the printed form.
* `Number.read?` — the value of a literal, if the text is one.
-/

namespace Lox.Number

open Binary64

/-! ### Printing -/

/-- Where positional digits end and scientific ones begin. -/
structure Layout where
  /-- Whole numbers below ten to this power are bare digits. -/
  wholeDigits : Nat
  /-- The leftmost place of the point in a positional decimal. -/
  leastPoint : Int
  /-- The rightmost place of the point in a positional decimal. -/
  greatestPoint : Int

/-- Whole numbers below `10 ^ 15` are bare digits. Other numbers are positional from
`0.00001` up to, but not including, `10 ^ 16`, and always show a point; the rest are
scientific. -/
def layout : Layout := ⟨15, -4, 16⟩

/-- A count of zeros. -/
def zeros (n : Nat) : List Char := List.replicate n '0'

/-- The digits of a whole number. -/
def wholeText (n : Nat) : List Char := Nat.toDigits 10 n

/-- A power of ten, with a sign only when it is negative. -/
def exponentText (e : Int) : List Char :=
  if e < 0 then '-' :: wholeText e.natAbs else wholeText e.natAbs

/-- Positional digits with a point: at least one digit stands on each side of it. -/
def positionalText (d : Decimal) : List Char :=
  let digits := wholeText d.digits
  let point := d.point
  if 0 ≤ d.exponent then digits ++ zeros d.exponent.toNat ++ ['.', '0']
  else if 0 < point then digits.take point.toNat ++ '.' :: digits.drop point.toNat
  else '0' :: '.' :: zeros (-point).toNat ++ digits

/-- Scientific digits: one digit before the point, and no point after a single digit. -/
def scientificText (d : Decimal) : List Char :=
  let mark := 'e' :: exponentText (d.point - 1)
  match wholeText d.digits with
  | [] => mark
  | [digit] => digit :: mark
  | first :: others => first :: '.' :: others ++ mark

/-- A decimal, positional or scientific as its size demands. -/
def decimalText (d : Decimal) : List Char :=
  if layout.leastPoint ≤ d.point ∧ d.point ≤ layout.greatestPoint then positionalText d
  else scientificText d

/-- A finite magnitude. -/
def magnitudeText (magnitude : Nat) : List Char :=
  let value := units magnitude
  if value % one = 0 ∧ value / one < Decimal.powerOfTen layout.wholeDigits then wholeText
    (value / one)
  else decimalText (span magnitude).shortest

/-- The printed form of the double with the given bits. A NaN shows neither its sign nor its
payload; every other number, zero included, shows its sign. -/
def textOfBits (bits : UInt64) : String :=
  let magnitude := magnitude bits
  if infinity < magnitude then "nan"
  else
    let digits := if magnitude = infinity then "inf".toList else magnitudeText magnitude
    String.ofList (if isNegative bits then '-' :: digits else digits)

/-- The printed form of a number. -/
def text (x : Float) : String := textOfBits x.toBits

/-! ### Reading -/

/-- The number written by decimal digits. -/
def wholeValue (digits : List Char) : Nat :=
  digits.foldl (fun n c => 10 * n + (c.toNat - '0'.toNat)) 0

/-- An optional sign and what follows it. -/
def readSign : List Char → Bool × List Char
  | '-' :: rest => (true, rest)
  | '+' :: rest => (false, rest)
  | rest => (false, rest)

/-- The power of ten after an exponent mark: an optional sign and at least one digit, and
nothing after them. -/
def readExponent? (cs : List Char) : Option Int :=
  let (negative, digits) := readSign cs
  if digits.isEmpty || !digits.all Char.isDigit then none
  else if negative then some (-(wholeValue digits : Int))
  else some (wholeValue digits)

/-- An unsigned decimal: digits with at most one point among or around them, then an
optional exponent. At least one digit stands before the exponent. -/
def readDecimal? (cs : List Char) : Option Decimal :=
  let whole := cs.takeWhile Char.isDigit
  let (fraction, rest) :=
    match cs.dropWhile Char.isDigit with
    | '.' :: rest => (rest.takeWhile Char.isDigit, rest.dropWhile Char.isDigit)
    | rest => ([], rest)
  if whole.isEmpty && fraction.isEmpty then none
  else
    let digits := wholeValue (whole ++ fraction)
    let places : Int := -(fraction.length : Int)
    match rest with
    | [] => some ⟨digits, places⟩
    | mark :: rest =>
      if mark = 'e' ∨ mark = 'E' then
        (readExponent? rest).map fun e => ⟨digits, places + e⟩
      else none

/-- The magnitude nearest to a decimal. A decimal far outside the range of doubles is decided
by the place of its point alone, so that a huge exponent costs nothing. -/
def nearestTo (d : Decimal) : Nat :=
  if d.digits = 0 ∨ d.point < -400 then 0
  else if 400 < d.point then infinity
  else
    nearest (d.digits * Decimal.powerOfTen d.exponent.toNat)
      (Decimal.powerOfTen (-d.exponent).toNat)

/-- The magnitude bits of the NaN that a literal names: only the first bit of its fraction is
set. -/
def notANumber : Nat := infinity + hiddenBit / 2

/-- The magnitude of an unsigned literal. The names of infinity and of a NaN are read in any
case. -/
def readMagnitude? (cs : List Char) : Option Nat :=
  let word := String.ofList (cs.map Char.toLower)
  if word = "inf" ∨ word = "infinity" then some infinity
  else if word = "nan" then some notANumber
  else (readDecimal? cs).map nearestTo

/-- The bits of a literal: an optional sign and an unsigned literal. -/
def bitsOfText? (text : String) : Option UInt64 :=
  let (negative, cs) := readSign text.toList
  (readMagnitude? cs).map (ofMagnitude negative)

/-- The value of a literal, if the text is one. -/
def read? (text : String) : Option Float := (bitsOfText? text).map Float.ofBits

end Lox.Number
