/-!
Binary64 numbers as exact data. Every finite number is a whole count of the smallest step `2 ^ -1074`,
so values are compared, added and rounded as integers.
-/

namespace Tabula

-- a power of natural numbers or integers is the same term whatever further powers are in scope; where the exponent is a
-- literal, its type is given, since the instance is chosen by it
attribute [scoped instance (high)] instPowNat

/-- The one stored form of a magnitude `significand * 2 ^ exponent` steps: 53 bits at most, and all 53 of
them in use unless the exponent is already the least one. -/
def Canonical (significand exponent : Nat) : Prop :=
  significand < 2 ^ (53 : Nat) ∧ exponent ≤ 2045 ∧ (2 ^ (52 : Nat) ≤ significand ∨ exponent = 0)

instance (significand exponent : Nat) : Decidable (Canonical significand exponent) :=
  inferInstanceAs (Decidable (_ ∧ _ ∧ (_ ∨ _)))

/-- A number of the IEEE 754 double format. Two numbers are equal as Lean values exactly if they are the
same datum, so `0` and `-0` differ here; NaNs are told apart by their sign and by whether they signal. -/
inductive Binary64 where
  /-- A signaling NaN becomes a quiet one in every operation that computes with it. -/
  | nan (negative signaling : Bool)
  | infinity (negative : Bool)
  | finite (negative : Bool) (significand exponent : Nat) (canonical : Canonical significand exponent)
deriving DecidableEq

namespace Binary64

def scale : Nat := 2 ^ (1074 : Nat)

def zero (negative : Bool) : Binary64 := .finite negative 0 0 (by decide)

instance : Inhabited Binary64 := ⟨zero false⟩

def negative : Binary64 → Bool
  | nan s _ => s
  | infinity s => s
  | finite s _ _ _ => s

/-- The steps between zero and a finite number; `0` for the others. -/
def magnitude : Binary64 → Nat
  | finite _ m e _ => m * 2 ^ e
  | _ => 0

def units (x : Binary64) : Int :=
  if x.negative then -(x.magnitude : Int) else x.magnitude

def isNaN : Binary64 → Bool
  | nan .. => true
  | _ => false

def isSignaling : Binary64 → Bool
  | nan _ signaling => signaling
  | _ => false

def isFinite : Binary64 → Bool
  | finite .. => true
  | _ => false

def isZero : Binary64 → Bool
  | finite _ m _ _ => m == 0
  | _ => false

def neg : Binary64 → Binary64
  | nan s signaling => nan (!s) signaling
  | infinity s => infinity !s
  | finite s m e h => finite (!s) m e h

def abs : Binary64 → Binary64
  | nan _ signaling => nan false signaling
  | infinity _ => infinity false
  | finite _ m e h => finite false m e h

/-- Where a number lies on the line: its steps, with the infinities beyond every finite number.
A NaN lies nowhere. -/
def position? : Binary64 → Option Int
  | nan .. => none
  | infinity false => some (2 ^ (2098 : Nat))
  | infinity true => some (-2 ^ (2098 : Nat))
  | x => some x.units

/-- Equality of numbers as a program sees it: the zeros are equal, and a NaN equals nothing. -/
def equal (x y : Binary64) : Bool :=
  match x.position?, y.position? with
  | some a, some b => a == b
  | _, _ => false

def less (x y : Binary64) : Bool :=
  match x.position?, y.position? with
  | some a, some b => decide (a < b)
  | _, _ => false

def toInt? (x : Binary64) : Option Int :=
  if x.isFinite && x.magnitude % scale == 0 then
    let n : Nat := x.magnitude / scale
    some (if x.negative then -(n : Int) else n)
  else none

end Binary64

end Tabula
