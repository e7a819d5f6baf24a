import Tabula.Binary64.Arith
import Tabula.FixedPoint

/-!
Sine, cosine, tangent and power on binary64 numbers: the value to far more digits than a number holds, rounded once.
-/

namespace Tabula.Binary64

def trustedBits : Nat := 256

/-- The nearest integer with no more than the trusted bits. An exact result that the approximation missed by its
last bits comes back here, so that it is rounded as what it is. -/
def settle (n : Nat) : Nat :=
  let excess := n.log2 + 1 - trustedBits
  (2 * n + 2 ^ excess) / (2 * 2 ^ excess) * 2 ^ excess

def ofApproximation (num den : Int) : Binary64 :=
  ofRatio (decide (num < 0) != decide (den < 0)) (settle num.natAbs) (settle den.natAbs)

/-- The fraction bits of angles: enough for the rest of the largest number after whole turns, and for the least
number as it is. -/
def angleBits : Nat := 2688

/-- The fraction bits of logarithms. Where a power is neither infinite nor zero the exponent is below `2 ^ 63`, and so
the error of the logarithm stays far below the trusted bits. -/
def logBits : Nat := 512

def pi : Int := FixedPoint.pi angleBits

def ln2 : Int := FixedPoint.ln2 logBits

def toFixed (x : Binary64) : Int := x.units * 2 ^ (angleBits - 1074)

structure Angle where
  quarter : Int
  rest : Int

def angle (x : Binary64) : Angle :=
  let v := x.toFixed
  -- the nearest multiple of half of pi
  let quarter := (4 * v + pi).fdiv (2 * pi)
  { quarter := quarter, rest := v - (quarter * pi).fdiv 2 }

namespace Angle

def sinAfter (a : Angle) (quarters : Int) : Int :=
  match ((a.quarter + quarters) % 4).toNat with
  | 0 => FixedPoint.sin angleBits a.rest
  | 1 => FixedPoint.cos angleBits a.rest
  | 2 => -FixedPoint.sin angleBits a.rest
  | _ => -FixedPoint.cos angleBits a.rest

def sin (a : Angle) : Int := a.sinAfter 0

def cos (a : Angle) : Int := a.sinAfter 1

end Angle

def sin (x : Binary64) : Binary64 :=
  if !x.isFinite then nan false false
  else if x.isZero then x
  else ofApproximation x.angle.sin (FixedPoint.one angleBits)

def cos (x : Binary64) : Binary64 :=
  if !x.isFinite then nan false false
  else ofApproximation x.angle.cos (FixedPoint.one angleBits)

def tan (x : Binary64) : Binary64 :=
  if !x.isFinite then nan false false
  else if x.isZero then x
  else ofApproximation x.angle.sin x.angle.cos

def logMagnitude (x : Binary64) : Int :=
  let top := x.magnitude.log2
  let mantissa : Int := x.magnitude * 2 ^ logBits / 2 ^ top
  ((top : Int) - 1074) * ln2 + FixedPoint.ln logBits mantissa

/-- The number nearest to the exponential of an approximation. Beyond `e ^ ±800` it is infinite or zero. -/
def ofExponential (negative : Bool) (l : Int) : Binary64 :=
  if 800 * FixedPoint.one logBits < l then infinity negative
  else if l < -800 * FixedPoint.one logBits then zero negative
  else
    let power := l.fdiv ln2
    let mantissa := settle (FixedPoint.exp logBits (l - power * ln2)).natAbs
    ofRatio negative (mantissa * 2 ^ power.toNat) (2 ^ (logBits + (-power).toNat))

def isOddInteger (x : Binary64) : Bool :=
  match x.toInt? with
  | some i => i % 2 == 1
  | none => false

/-- `x ^ y`. A zero exponent and the base `1` win over a NaN that does not signal; a negative base needs an integer
exponent. -/
def pow (x y : Binary64) : Binary64 :=
  let one := ofNat 1
  if y.isZero || x == one then if x.isSignaling || y.isSignaling then nan false false else one
  else if x.isNaN || y.isNaN then nan false false
  else
    let negative := x.negative && y.isOddInteger
    match y with
    | infinity s =>
      if x.abs == one then one
      else if x.abs.less one == s then infinity false
      else zero false
    | _ =>
      if x.isZero then if y.negative then infinity negative else zero negative
      else if !x.isFinite then if y.negative then zero negative else infinity negative
      else if x.negative && y.toInt?.isNone then nan false false
      else ofExponential negative ((x.logMagnitude * y.units).fdiv scale)

end Tabula.Binary64
