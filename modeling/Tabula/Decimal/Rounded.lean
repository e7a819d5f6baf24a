import Tabula.Binary64.Round
import Tabula.Decimal.Scientific

/-!
A magnitude rounded to a fixed number of significant decimal digits.
-/

namespace Tabula

/-- The nearest whole number of `10 ^ place`s in `num / den`, a half going to the even one. -/
def roundToPlace (num den : Nat) (place : Int) : Nat :=
  if 0 ≤ place then roundHalfEven num (den * 10 ^ place.toNat)
  else roundHalfEven (num * 10 ^ (-place).toNat) den

namespace Binary64

/-- No positive number is below `10 ^ -324`, so this many places hold the first digit of each. -/
def leastPlaces : Nat := 324

/-- The power of ten of the first significant digit of a non-zero finite number. -/
def decimalExponent (x : Binary64) : Int :=
  (digitCount (x.magnitude * 10 ^ leastPlaces / scale) : Int) - 1 - leastPlaces

def toSignificant (count : Nat) (x : Binary64) : Scientific :=
  if x.isZero then ⟨['0'], 0⟩
  else
    let place := x.decimalExponent - count + 1
    Scientific.ofCoefficient (roundToPlace x.magnitude scale place) place

end Binary64

end Tabula
