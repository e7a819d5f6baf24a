import Tabula.Binary64.Round

/-!
Arithmetic on binary64 numbers: each operation is its exact result, rounded once. The two remainders differ in
which way the quotient is rounded: `modulo` goes to the floor and rounds at each of its three operations,
`remainder` goes toward zero and is exact.
-/

namespace Tabula

/-- `root ^ 2 ≤ n < (root + 1) ^ 2`, one binary digit of the root for each unit of `digits`. -/
def squareRootWithin : (digits : Nat) → Nat → Nat
  | 0, _ => 0
  | k + 1, n =>
    let root := 2 * squareRootWithin k (n / 4)
    if (root + 1) * (root + 1) ≤ n then root + 1 else root

def squareRoot (n : Nat) : Nat := squareRootWithin (n.log2 / 2 + 1) n

namespace Binary64

def add : Binary64 → Binary64 → Binary64
  | nan s _, _ => nan s false
  | _, nan s _ => nan s false
  | infinity s, infinity t => if s = t then infinity s else nan false false
  | infinity s, finite .. => infinity s
  | finite .., infinity t => infinity t
  | x@(finite s _ _ _), y@(finite t _ _ _) =>
    let sum := x.units + y.units
    -- an exact cancellation is the positive zero, unless both were negative zeros
    if sum = 0 then zero (s && t) else ofSteps (decide (sum < 0)) sum.natAbs 1

def sub (x y : Binary64) : Binary64 := x.add y.neg

def mul : Binary64 → Binary64 → Binary64
  | nan s _, _ => nan s false
  | _, nan s _ => nan s false
  | infinity s, y => if y.isZero then nan false false else infinity (s != y.negative)
  | x, infinity t => if x.isZero then nan false false else infinity (x.negative != t)
  | x@(finite s _ _ _), y@(finite t _ _ _) => ofSteps (s != t) (x.magnitude * y.magnitude) scale

def div : Binary64 → Binary64 → Binary64
  | nan s _, _ => nan s false
  | _, nan s _ => nan s false
  | infinity _, infinity _ => nan false false
  | infinity s, y => infinity (s != y.negative)
  | x, infinity t => zero (x.negative != t)
  | x@(finite s _ _ _), y@(finite t _ _ _) =>
    if y.isZero then if x.isZero then nan false false else infinity (s != t)
    else ofSteps (s != t) (x.magnitude * scale) y.magnitude

def floor : Binary64 → Binary64
  | x@(finite s _ _ _) => ofRatio s (x.units.fdiv scale).natAbs 1
  | nan s _ => nan s false
  | x => x

/-- The least integer not below the number; a negative fraction goes to the negative zero. -/
def ceil : Binary64 → Binary64
  | x@(finite s _ _ _) => ofRatio s ((-x.units).fdiv scale).natAbs 1
  | nan s _ => nan s false
  | x => x

def sqrt : Binary64 → Binary64
  | nan s _ => nan s false
  | infinity s => if s then nan false false else infinity false
  | x@(finite s _ _ _) =>
    if x.isZero then x
    else if s then nan false false
    else
      let square := x.magnitude * scale
      let root := squareRoot square
      -- an odd half marks a root that is not whole, which is all that rounding needs to know
      ofSteps false (2 * root + if root * root = square then 0 else 1) 2

/-- `x - y * trunc (x / y)`, exactly; the sign is that of `x`. -/
def remainder : Binary64 → Binary64 → Binary64
  | nan s _, _ => nan s false
  | _, nan s _ => nan s false
  | infinity _, _ => nan false false
  | x, infinity _ => x
  | x@(finite s _ _ _), y@(finite ..) =>
    if y.isZero then nan false false else ofSteps s (x.magnitude % y.magnitude) 1

/-- `x - floor (x / y) * y`, each operation rounded. -/
def modulo (x y : Binary64) : Binary64 := x.sub ((x.div y).floor.mul y)

end Binary64

end Tabula
