import DynamicTypes.Number.Binary64

/-!
# The fewest digits that read back

A reader of decimal text rounds to the nearest double, so every decimal strictly
between the midpoints on the two sides of a double reads back as that double
(and so do the midpoints themselves when the mantissa is even). The shortest text
is found grid by grid: with one significant digit, then two, and so on, only the
two grid points around the value can be the nearest hit, and the first grid with
a hit gives the digits. Seventeen digits always suffice.
-/

namespace DynamicTypes

/-- The decimal `d₁.d₂d₃… * 10 ^ exponent`, by its significant digits. -/
structure Decimal where
  digits : List Char
  exponent : Int
  deriving Repr, DecidableEq

namespace Decimal

/-- A power of ten. -/
def tenTo (n : Nat) : Nat := Nat.pow 10 n

/-- The number of decimal digits, none for zero. -/
def digitCount (n : Nat) : Nat := if n = 0 then 0 else (Nat.toDigits 10 n).length

/-- A positive double and the midpoints on its two sides, as numerators over one
denominator. -/
structure Interval where
  low : Nat
  value : Nat
  high : Nat
  denominator : Nat
  /-- Whether the midpoints themselves read back as the value. -/
  closed : Bool

namespace Interval

/-- The interval around `mantissa * 2 ^ exponent`. Below the least mantissa of a binade
the doubles stand twice as close, so the lower midpoint is half as far away. -/
def ofBinary (mantissa : Nat) (exponent : Int) : Interval :=
  let scale := if 0 ≤ exponent then Binary64.twoTo exponent.toNat else 1
  let below := if mantissa = Binary64.twoTo 52 ∧ -1074 < exponent then 1 else 2
  { low := (4 * mantissa - below) * scale
    value := 4 * mantissa * scale
    high := (4 * mantissa + 2) * scale
    denominator := 4 * (if 0 ≤ exponent then 1 else Binary64.twoTo (-exponent).toNat)
    closed := mantissa % 2 = 0 }

/-- The power `k` of ten with `10 ^ (k - 1) ≤ value < 10 ^ k`. -/
def order (i : Interval) : Int :=
  if i.denominator ≤ i.value then digitCount (i.value / i.denominator)
  else 1 - (digitCount ((i.denominator - 1) / i.value) : Int)

/-- The point of the grid of multiples of `10 ^ power` that is nearest to the value
among those that read back; of two equally near ones, the larger. -/
def nearest? (i : Interval) (power : Int) : Option Nat :=
  let scale := if 0 ≤ power then 1 else tenTo (-power).toNat
  let unit := i.denominator * (if 0 ≤ power then tenTo power.toNat else 1)
  let value := i.value * scale
  let below := value / unit
  let above := below + 1
  let fits (point : Nat) : Bool :=
    if i.closed then i.low * scale ≤ point * unit && point * unit ≤ i.high * scale
    else i.low * scale < point * unit && point * unit < i.high * scale
  match fits below, fits above with
  | true, true => if above * unit - value ≤ value - below * unit then some above else some below
  | true, false => some below
  | false, true => some above
  | false, false => none

end Interval

/-- The decimal `point * 10 ^ power`, without trailing zeros. -/
def ofPoint (point : Nat) (power : Int) : Decimal :=
  let all := Nat.toDigits 10 point
  { digits := (all.reverse.dropWhile (· == '0')).reverse
    exponent := power + all.length - 1 }

/-- The shortest decimal that reads back as `mantissa * 2 ^ exponent`, and of those the
nearest. -/
def shortest (mantissa : Nat) (exponent : Int) : Decimal :=
  let interval := Interval.ofBinary mantissa exponent
  let order := interval.order
  let grids := (List.range 17).map fun n : Nat => order - 1 - n
  match grids.findSome? fun power => (interval.nearest? power).map (ofPoint · power) with
  | some decimal => decimal
  | none => ofPoint 0 0

end Decimal

end DynamicTypes
