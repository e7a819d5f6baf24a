import Tabula.Binary64.Basic

/-!
Rounding to binary64. An exact result is a quotient of natural numbers, counted in steps of `2 ^ -1074`;
`ofSteps` takes the nearest number and a tie to the even significand, once.
-/

namespace Tabula

/-- The whole number nearest to `num / den`, a half going to the even neighbour. -/
def roundHalfEven (num den : Nat) : Nat :=
  let q := num / den
  let twice := 2 * (num % den)
  if twice < den then q else if den < twice then q + 1 else q + q % 2

def excessBits (n : Nat) : Nat := n.log2 - 52

namespace Binary64

/-- A magnitude in stored form, or an infinity if it has none. -/
def pack (negative : Bool) (significand exponent : Nat) : Binary64 :=
  if h : Canonical significand exponent then finite negative significand exponent h
  else infinity negative

/-- The number nearest to `num / den` steps, ties to the even significand, with the given sign. -/
def ofSteps (negative : Bool) (num den : Nat) : Binary64 :=
  let e := excessBits (num / den)
  let m := roundHalfEven num (den * 2 ^ e)
  -- rounding up can carry into a 54th bit
  if m = 2 ^ (53 : Nat) then pack negative (2 ^ (52 : Nat)) (e + 1) else pack negative m e

def ofRatio (negative : Bool) (num den : Nat) : Binary64 := ofSteps negative (num * scale) den

def ofInt (i : Int) : Binary64 := ofRatio (decide (i < 0)) i.natAbs 1

def ofNat (n : Nat) : Binary64 := ofRatio false n 1

instance (n : Nat) : OfNat Binary64 n := ⟨ofNat n⟩

end Binary64

end Tabula
