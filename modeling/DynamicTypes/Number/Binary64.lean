/-!
# What a double denotes

A double is a sign, a whole mantissa and a power of two, or it is not finite.
Everything that has to be exact about numbers (which of them are integers, which
instant a timestamp names, which decimal digits tell a number from its
neighbours) is decided on this reading with whole-number arithmetic, never by
rounding operations.
-/

namespace DynamicTypes

/-- The exact meaning of a double: `finite s m e` is `m * 2 ^ e`, negated when `s`. -/
inductive Binary64 where
  | nan
  | infinite (negative : Bool)
  | finite (negative : Bool) (mantissa : Nat) (exponent : Int)
  deriving Repr, DecidableEq

namespace Binary64

/-- A power of two. -/
def twoTo (n : Nat) : Nat := Nat.pow 2 n

/-- The reading of sixty-four bits: one of sign, eleven of exponent, fifty-two of
fraction. -/
def ofBits (bits : Nat) : Binary64 :=
  let negative := bits / twoTo 63 % 2 == 1
  let power := bits / twoTo 52 % twoTo 11
  let fraction := bits % twoTo 52
  if power = 2047 then
    if fraction = 0 then infinite negative else nan
  else if power = 0 then finite negative fraction (-1074)
  else finite negative (twoTo 52 + fraction) ((power : Int) - 1075)

/-- The reading of a number. -/
def ofFloat (x : Float) : Binary64 := ofBits x.toBits.toNat

def isFinite : Binary64 → Bool
  | finite .. => true
  | _ => false

def isNaN : Binary64 → Bool
  | nan => true
  | _ => false

/-- The number with its fraction dropped, toward zero; nothing for a number that is not
finite. -/
def truncate? : Binary64 → Option Int
  | finite negative m e =>
    let whole := if 0 ≤ e then m * twoTo e.toNat else m / twoTo (-e).toNat
    some (if negative then -(whole : Int) else whole)
  | _ => none

/-- The integer that the number is, if it is one. -/
def integer? : Binary64 → Option Int
  | x@(finite _ m e) => if 0 ≤ e ∨ m % twoTo (-e).toNat = 0 then x.truncate? else none
  | _ => none

/-- Whether the number is finite and at most `bound` away from zero. -/
def magnitudeLe (bound : Nat) : Binary64 → Bool
  | finite _ m e => if 0 ≤ e then m * twoTo e.toNat ≤ bound else m ≤ bound * twoTo (-e).toNat
  | _ => false

end Binary64

end DynamicTypes
