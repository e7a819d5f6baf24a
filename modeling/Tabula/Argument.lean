import Tabula.Coercion

/-!
Arguments of library functions. Positions count from 1, and the first argument that does not fit is the one named.
-/

namespace Tabula.Argument

def number (function : String) (position : Nat) : Option Value → Except Error Binary64
  | none => .error (.missing (.argument position function))
  | some .nil => .error (.missing (.nilArgument position function))
  | some v =>
    match v.toNumber? with
    | some x => .ok x
    | none => .error (.mismatch (.argument position function v.kind))

def one (function : String) (args : List Value) : Except Error Binary64 :=
  number function 1 args[0]?

def two (function : String) (args : List Value) : Except Error (Binary64 × Binary64) := do
  let x ← number function 1 args[0]?
  let y ← number function 2 args[1]?
  return (x, y)

def several (function : String) (args : List Value) : Except Error (Binary64 × List Binary64) := do
  let first ← number function 1 args[0]?
  let others ← (args.tail.zipIdx 2).mapM fun e => number function e.2 (some e.1)
  return (first, others)

/-- A number rounded down to an integer of 64 bits. -/
def integer (function : String) (position : Nat) (v : Option Value) : Except Error Int64 := do
  let x ← number function position v
  match x.floor.toInt? with
  | some i =>
    if -2 ^ (63 : Nat) ≤ i ∧ i < 2 ^ (63 : Nat) then return Int64.ofInt i
    else .error (.mismatch (.notAnInteger position function))
  | none => .error (.mismatch (.notAnInteger position function))

def given (args : List Value) : List Value := (args.reverse.dropWhile Value.isNil).reverse

end Tabula.Argument
