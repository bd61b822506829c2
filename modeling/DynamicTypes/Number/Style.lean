import DynamicTypes.Number.Decimal

/-!
# Writing numbers

Where the shortest digits are already chosen, what is left is a handful of
decisions: which exponents are written in full, how a power of ten is marked, and
what stands for the numbers that have no digits. A `NumberStyle` holds them.
-/

namespace DynamicTypes

/-- How a number is written. -/
structure NumberStyle where
  /-- Exponents of ten from this one on are written with a mark. -/
  scientificFrom : Int
  /-- Exponents of ten below this one are written with a mark. -/
  scientificBelow : Int
  mark : String
  /-- What stands before a power that is not negative. -/
  plus : String
  minus : String
  infinity : String
  nan : String

namespace NumberStyle

/-- The digits with a point where the exponent puts it. -/
def positional (d : Decimal) : String :=
  if d.exponent < 0 then
    "0." ++ String.ofList (List.replicate (-d.exponent - 1).toNat '0' ++ d.digits)
  else
    let whole := d.exponent.toNat + 1
    if d.digits.length ≤ whole then
      String.ofList (d.digits ++ List.replicate (whole - d.digits.length) '0')
    else String.ofList (d.digits.take whole ++ '.' :: d.digits.drop whole)

/-- One digit, the others behind a point, and the power of ten behind the mark. -/
def scientific (n : NumberStyle) (d : Decimal) : String :=
  let mantissa := match d.digits with
    | [] => ""
    | [c] => c.toString
    | c :: rest => String.ofList (c :: '.' :: rest)
  let power :=
    if d.exponent < 0 then n.minus ++ toString (-d.exponent).toNat
    else n.plus ++ toString d.exponent.toNat
  mantissa ++ n.mark ++ power

/-- The text of a number: the fewest digits that read back, and a sign that zero
keeps. -/
def write (n : NumberStyle) : Binary64 → String
  | .nan => n.nan
  | .infinite negative => if negative then n.minus ++ n.infinity else n.infinity
  | .finite negative mantissa exponent =>
    let sign := if negative then n.minus else ""
    if mantissa = 0 then sign ++ "0"
    else
      let d := Decimal.shortest mantissa exponent
      if d.exponent < n.scientificBelow ∨ n.scientificFrom ≤ d.exponent then sign ++ n.scientific d
      else sign ++ positional d

end NumberStyle

end DynamicTypes
