import Tabula.Binary64.Arith

/-!
Numeric strings: blanks, an optional sign, a hexadecimal or decimal numeral, blanks, and nothing else.
A decimal is read as the exact value it spells, rounded once. A hexadecimal is accumulated digit by digit, and
each step rounds, so beyond 53 bits it can differ from the decimal numeral of the same integer.
-/

namespace Tabula

inductive Numeral where
  | hexadecimal (digits : List Nat)
  /-- The digits before and after the point, and the written exponent. -/
  | decimal (whole fraction : List Nat) (exponent : Int)
deriving DecidableEq

namespace Numeral

/-- Space, tab, line feed, vertical tab, form feed and carriage return. -/
def isBlank (c : Char) : Bool :=
  c == ' ' || ('\t' ≤ c && c ≤ '\r')

def digit? (c : Char) : Option Nat :=
  if '0' ≤ c ∧ c ≤ '9' then some (c.toNat - '0'.toNat) else none

def hexDigit? (c : Char) : Option Nat :=
  if '0' ≤ c ∧ c ≤ '9' then some (c.toNat - '0'.toNat)
  else if 'a' ≤ c ∧ c ≤ 'f' then some (c.toNat - 'a'.toNat + 10)
  else if 'A' ≤ c ∧ c ≤ 'F' then some (c.toNat - 'A'.toNat + 10)
  else none

def takeDigits (digit? : Char → Option Nat) (cs : List Char) : List Nat × List Char :=
  let isDigit := fun c => (digit? c).isSome
  ((cs.takeWhile isDigit).filterMap digit?, cs.dropWhile isDigit)

def takeSign : List Char → Bool × List Char
  | '-' :: cs => (true, cs)
  | '+' :: cs => (false, cs)
  | cs => (false, cs)

def appendDigits (base n : Nat) (digits : List Nat) : Nat := digits.foldl (fun n d => n * base + d) n

theorem appendDigits_eq (base n : Nat) (digits : List Nat) :
    appendDigits base n digits = n * base ^ digits.length + appendDigits base 0 digits := by
  induction digits generalizing n with
  | nil => simp [appendDigits]
  | cons d ds ih =>
    change appendDigits base (n * base + d) ds = _ + appendDigits base (0 * base + d) ds
    rw [ih (n * base + d), ih (0 * base + d), List.length_cons, Nat.pow_succ]
    simp [Nat.add_mul, Nat.mul_assoc, Nat.mul_comm base, Nat.add_assoc]

/-- The number that digits spell, the run halved `depth` times: long numbers are then put together from few parts. -/
def joinDigits (base : Nat) : (depth : Nat) → List Nat → Nat
  | 0, digits => appendDigits base 0 digits
  | depth + 1, digits =>
    let high := digits.take (digits.length / 2)
    let low := digits.drop (digits.length / 2)
    joinDigits base depth high * base ^ low.length + joinDigits base depth low

theorem joinDigits_eq (base depth : Nat) (digits : List Nat) :
    joinDigits base depth digits = appendDigits base 0 digits := by
  induction depth generalizing digits with
  | zero => rfl
  | succ depth ih =>
    rw [joinDigits, ih, ih, ← appendDigits_eq]
    simp only [appendDigits]
    rw [← List.foldl_append, List.take_append_drop]

def natOfDigits (base : Nat) (digits : List Nat) : Nat :=
  joinDigits base (digits.length.log2 - 8) digits

theorem natOfDigits_eq (base : Nat) (digits : List Nat) :
    natOfDigits base digits = appendDigits base 0 digits := joinDigits_eq base _ digits

/-- An exponent part if one is written in full, else `0` and the whole text. -/
def takeExponent (cs : List Char) : Int × List Char :=
  match cs with
  | mark :: tail =>
    if mark == 'e' || mark == 'E' then
      let (negative, afterSign) := takeSign tail
      match takeDigits digit? afterSign with
      | ([], _) => (0, cs)
      | (ds, rest) =>
        let n : Nat := natOfDigits 10 ds
        (if negative then -(n : Int) else n, rest)
    else (0, cs)
  | [] => (0, cs)

/-- The digits of a decimal, on both sides of the point if there is one; one digit is needed. -/
def takeMantissa? (cs : List Char) : Option ((List Nat × List Nat) × List Char) :=
  match takeDigits digit? cs with
  | ([], '.' :: tail) =>
    match takeDigits digit? tail with
    | ([], _) => none
    | (fraction, rest) => some (([], fraction), rest)
  | ([], _) => none
  | (whole, '.' :: tail) =>
    let (fraction, rest) := takeDigits digit? tail
    some ((whole, fraction), rest)
  | (whole, rest) => some ((whole, []), rest)

def takeDecimal? (cs : List Char) : Option (Numeral × List Char) :=
  match takeMantissa? cs with
  | some ((whole, fraction), tail) =>
    let (exponent, rest) := takeExponent tail
    some (.decimal whole fraction exponent, rest)
  | none => none

def takeHexadecimal? : List Char → Option (Numeral × List Char)
  | '0' :: mark :: tail =>
    if mark == 'x' || mark == 'X' then
      match takeDigits hexDigit? tail with
      | ([], _) => none
      | (ds, rest) => some (.hexadecimal ds, rest)
    else none
  | _ => none

def take? (cs : List Char) : Option (Numeral × List Char) :=
  match takeHexadecimal? cs with
  | some result => some result
  | none => takeDecimal? cs

/-- `coefficient * 10 ^ exponent` to the nearest number. Far outside the range of numbers the power is not
computed: from `10 ^ 400` on all is infinite, and below `10 ^ -400` all is zero. -/
def ofDecimal (negative : Bool) (coefficient size : Nat) (exponent : Int) : Binary64 :=
  if coefficient = 0 then Binary64.zero negative
  else if 400 < exponent then Binary64.infinity negative
  else if exponent < -400 - (size : Int) then Binary64.zero negative
  else if 0 ≤ exponent then Binary64.ofRatio negative (coefficient * 10 ^ exponent.toNat) 1
  else Binary64.ofRatio negative coefficient (10 ^ (-exponent).toNat)

def value (negative : Bool) : Numeral → Binary64
  | hexadecimal digits =>
    let total := digits.foldl (fun n d => (n.mul 16).add (Binary64.ofNat d)) (Binary64.zero false)
    if negative then total.neg else total
  | decimal whole fraction exponent =>
    let digits := whole ++ fraction
    ofDecimal negative (natOfDigits 10 digits) digits.length (exponent - fraction.length)

end Numeral

/-- The number that a numeric string stands for; `none` for any other text. -/
def parseNumber? (text : String) : Option Binary64 :=
  let (negative, body) := Numeral.takeSign (text.toList.dropWhile Numeral.isBlank)
  match Numeral.take? body with
  | some (numeral, rest) => if rest.all Numeral.isBlank then some (numeral.value negative) else none
  | none => none

end Tabula
