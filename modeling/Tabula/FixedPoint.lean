/-!
Transcendental functions in fixed point. A real `v` stands as an integer close to `v * 2 ^ bits`. The precision is far
beyond that of binary64, so that a result can be rounded as if it were exact; each series has more terms than the
precision can tell from zero.
-/

namespace Tabula.FixedPoint

def one (bits : Nat) : Int := 2 ^ bits

def mul (bits : Nat) (a b : Int) : Int := (a * b).fdiv (one bits)

def div (bits : Nat) (a b : Int) : Int := (a * one bits).fdiv b

/-- `weight 0 t₀ + weight 1 t₁ + …` for `count` terms, each term made from the one before. -/
def series (weight next : Nat → Int → Int) : (count index : Nat) → Int → Int
  | 0, _, _ => 0
  | count + 1, index, term =>
    weight index term + series weight next count (index + 1) (next index term)

/-- The inverse hyperbolic tangent, for `|z| ≤ 1 / 3`: each term is at most a ninth of the one before. -/
def artanh (bits : Nat) (z : Int) : Int :=
  let square := mul bits z z
  series (fun k t => t.fdiv (2 * k + 1)) (fun _ t => mul bits t square) (bits / 3) 0 z

/-- The inverse tangent of `1 / n`, for `n ≥ 5`. -/
def arctanInverse (bits : Nat) (n : Int) : Int :=
  series (fun k t => t.fdiv (2 * k + 1)) (fun _ t => -t.fdiv (n * n)) (bits / 4) 0 ((one bits).fdiv n)

def pi (bits : Nat) : Int := 16 * arctanInverse bits 5 - 4 * arctanInverse bits 239

def ln2 (bits : Nat) : Int := 2 * artanh bits ((one bits).fdiv 3)

/-- For `|r| ≤ 1`, as are `cos` and `exp`. -/
def sin (bits : Nat) (r : Int) : Int :=
  let square := mul bits r r
  series (fun _ t => t) (fun k t => (-mul bits t square).fdiv ((2 * k + 2) * (2 * k + 3))) (bits / 8) 0 r

def cos (bits : Nat) (r : Int) : Int :=
  let square := mul bits r r
  series (fun _ t => t) (fun k t => (-mul bits t square).fdiv ((2 * k + 1) * (2 * k + 2))) (bits / 8) 0
    (one bits)

def exp (bits : Nat) (r : Int) : Int :=
  series (fun _ t => t) (fun k t => (mul bits t r).fdiv (k + 1)) (bits / 4) 0 (one bits)

/-- The natural logarithm, from `1` to below `2`. -/
def ln (bits : Nat) (f : Int) : Int := 2 * artanh bits (div bits (f - one bits) (f + one bits))

end Tabula.FixedPoint
