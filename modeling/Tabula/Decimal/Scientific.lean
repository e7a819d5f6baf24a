/-!
Decimal text. A positive decimal is a run of digits and the power of ten of the first one; a `Layout` says how
such a decimal is written. Choosing the digits is left to `Decimal.Rounded` and `Decimal.Shortest`.
-/

namespace Tabula

/-- The number of decimal digits of `n`, counted in at most `limit` steps. A step takes off sixteen digits while there
are more. -/
def digitCountWithin : (limit : Nat) → Nat → Nat
  | 0, _ => 0
  | limit + 1, n =>
    if n = 0 then 0
    else if 10 ^ (16 : Nat) ≤ n then digitCountWithin limit (n / 10 ^ (16 : Nat)) + 16
    else digitCountWithin limit (n / 10) + 1

def digitCount (n : Nat) : Nat := digitCountWithin (n.log2 + 1) n

/-- `d₀.d₁d₂… * 10 ^ exponent`. -/
structure Scientific where
  digits : List Char
  exponent : Int
deriving DecidableEq

namespace Scientific

def trimZeros (digits : List Char) : List Char :=
  (digits.reverse.dropWhile (· == '0')).reverse

/-- `coefficient * 10 ^ exponent`, without trailing zeros; zero is the digit `0`. -/
def ofCoefficient (coefficient : Nat) (exponent : Int) : Scientific :=
  let digits := Nat.toDigits 10 coefficient
  match trimZeros digits with
  | [] => ⟨['0'], 0⟩
  | kept => ⟨kept, exponent + digits.length - 1⟩

end Scientific

structure Layout where
  /-- Powers of ten of the first digit that are written without an exponent: from this one … -/
  positionalFrom : Int
  /-- … to below this one. -/
  positionalBelow : Int
  /-- A positional integer gets a `.0`. -/
  keepsPoint : Bool
  /-- A non-negative exponent gets a `+`. -/
  exponentPlus : Bool
  /-- An exponent has at least this many digits. -/
  exponentWidth : Nat

namespace Layout

def joinPoint (keepsPoint : Bool) (whole fraction : List Char) : List Char :=
  match fraction, keepsPoint with
  | [], false => whole
  | [], true => whole ++ ['.', '0']
  | _, _ => whole ++ '.' :: fraction

def positional (layout : Layout) (d : Scientific) : List Char :=
  if 0 ≤ d.exponent then
    let size := d.exponent.toNat + 1
    joinPoint layout.keepsPoint (d.digits.take size ++ List.replicate (size - d.digits.length) '0')
      (d.digits.drop size)
  else
    joinPoint layout.keepsPoint ['0'] (List.replicate ((-d.exponent).toNat - 1) '0' ++ d.digits)

def exponentText (layout : Layout) (exponent : Int) : List Char :=
  let digits := Nat.toDigits 10 exponent.natAbs
  let sign := if exponent < 0 then ['-'] else if layout.exponentPlus then ['+'] else []
  sign ++ List.replicate (layout.exponentWidth - digits.length) '0' ++ digits

def exponential (layout : Layout) (d : Scientific) : List Char :=
  joinPoint false (d.digits.take 1) (d.digits.drop 1) ++ 'e' :: layout.exponentText d.exponent

def write (layout : Layout) (d : Scientific) : List Char :=
  if layout.positionalFrom ≤ d.exponent ∧ d.exponent < layout.positionalBelow then layout.positional d
  else layout.exponential d

end Layout

end Tabula
