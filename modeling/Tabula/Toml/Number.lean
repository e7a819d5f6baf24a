import Tabula.Toml.Text

/-!
The numbers and points in time of TOML. Underscores may stand between two digits, and a decimal number has no leading
zero.
-/

namespace Tabula.Toml

/-- More digits, each with an underscore before it or not. -/
def moreDigits? (digit? : Char → Option Nat) : List Char → Option (List Nat × List Char)
  | [] => some ([], [])
  | '_' :: c :: rest => do
    let d ← digit? c
    let (ds, rest) ← moreDigits? digit? rest
    return (d :: ds, rest)
  | '_' :: [] => none
  | c :: rest =>
    match digit? c with
    | some d => (moreDigits? digit? rest).map fun r => (d :: r.1, r.2)
    | none => some ([], c :: rest)

def digits? (digit? : Char → Option Nat) : List Char → Option (List Nat × List Char)
  | c :: rest => do
    let d ← digit? c
    let (ds, rest) ← moreDigits? digit? rest
    return (d :: ds, rest)
  | [] => none

/-- The digits of a decimal integer: a lone zero, or none at the front. -/
def wholeDigits? : List Char → Option (List Nat × List Char)
  | '0' :: rest => some ([0], rest)
  | cs => digits? Numeral.digit? cs

def baseDigit? (base : Nat) (c : Char) : Option Nat :=
  (Numeral.hexDigit? c).filter (· < base)

def inRange (i : Int) : Bool := decide (-2 ^ (63 : Nat) ≤ i) && decide (i < 2 ^ (63 : Nat))

def radixInteger? (base : Nat) (cs : List Char) : Option (Int × List Char) := do
  let (ds, rest) ← digits? (baseDigit? base) cs
  let i : Int := Numeral.natOfDigits base ds
  if inRange i then return (i, rest) else none

def integer? : List Char → Option (Int × List Char)
  | '0' :: 'x' :: rest => radixInteger? 16 rest
  | '0' :: 'o' :: rest => radixInteger? 8 rest
  | '0' :: 'b' :: rest => radixInteger? 2 rest
  | cs => do
    let (negative, rest) := Numeral.takeSign cs
    let (ds, rest) ← wholeDigits? rest
    let n : Int := Numeral.natOfDigits 10 ds
    let i := if negative then -n else n
    if inRange i then return (i, rest) else none

def fraction? : List Char → Option (List Nat × List Char)
  | '.' :: rest => digits? Numeral.digit? rest
  | _ => none

def exponent? : List Char → Option (Int × List Char)
  | mark :: rest => do
    if mark == 'e' || mark == 'E' then
      let (negative, rest) := Numeral.takeSign rest
      let (ds, rest) ← digits? Numeral.digit? rest
      let n : Int := Numeral.natOfDigits 10 ds
      return (if negative then -n else n, rest)
    else none
  | [] => none

/-- The fraction and the exponent of a float, of which one at least is written. -/
def floatTail? (cs : List Char) : Option ((List Nat × Int) × List Char) :=
  match fraction? cs with
  | some (fraction, rest) =>
    match exponent? rest with
    | some (e, rest) => some ((fraction, e), rest)
    | none => some ((fraction, 0), rest)
  | none => (exponent? cs).map fun r => (([], r.1), r.2)

/-- A float. One that is too large is refused, where a negative one is not. -/
def float? (cs : List Char) : Option (Binary64 × List Char) :=
  let (negative, rest) := Numeral.takeSign cs
  match rest with
  | 'i' :: 'n' :: 'f' :: rest => some (.infinity negative, rest)
  | 'n' :: 'a' :: 'n' :: rest => some (.nan negative false, rest)
  | _ => do
    let (whole, rest) ← wholeDigits? rest
    let ((fraction, exponent), rest) ← floatTail? rest
    let x := (Numeral.decimal whole fraction exponent).value negative
    if x = .infinity false then none else return (x, rest)

def fixed? (count low high : Nat) (cs : List Char) : Option (Nat × List Char) := do
  let ds ← (cs.take count).mapM Numeral.digit?
  let n := Numeral.natOfDigits 10 ds
  if ds.length = count ∧ low ≤ n ∧ n ≤ high then return (n, cs.drop count) else none

def expect? (c : Char) : List Char → Option (List Char)
  | d :: rest => if c = d then some rest else none
  | [] => none

def daysInMonth (year month : Nat) : Nat :=
  if month = 2 then if year % 4 = 0 ∧ (year % 100 ≠ 0 ∨ year % 400 = 0) then 29 else 28
  else if month ∈ [4, 6, 9, 11] then 30 else 31

def date? (cs : List Char) : Option (List Char) := do
  let (year, rest) ← fixed? 4 0 9999 cs
  let (month, rest) ← fixed? 2 1 12 (← expect? '-' rest)
  let (_, rest) ← fixed? 2 1 (daysInMonth year month) (← expect? '-' rest)
  return rest

def skipSecondFraction (cs : List Char) : List Char :=
  match cs with
  | '.' :: rest =>
    match Numeral.takeDigits Numeral.digit? rest with
    | ([], _) => cs
    | (_, rest) => rest
  | _ => cs

/-- A time of day; a leap second is allowed. -/
def time? (cs : List Char) : Option (List Char) := do
  let (_, rest) ← fixed? 2 0 23 cs
  let (_, rest) ← fixed? 2 0 59 (← expect? ':' rest)
  let (_, rest) ← fixed? 2 0 60 (← expect? ':' rest)
  return skipSecondFraction rest

def offset? : List Char → Option (List Char)
  | 'Z' :: rest => some rest
  | 'z' :: rest => some rest
  | sign :: rest => do
    if sign == '+' || sign == '-' then
      let (_, rest) ← fixed? 2 0 23 rest
      let (_, rest) ← fixed? 2 0 59 (← expect? ':' rest)
      return rest
    else none
  | [] => none

def skipTimeOfDate (cs : List Char) : List Char :=
  match cs with
  | mark :: rest =>
    if mark == 'T' || mark == 't' || mark == ' ' then
      match time? rest with
      | some rest => (offset? rest).getD rest
      | none => cs
    else cs
  | [] => cs

def moment? (cs : List Char) : Option (List Char) :=
  match date? cs with
  | some rest => some (skipTimeOfDate rest)
  | none => time? cs

end Tabula.Toml
