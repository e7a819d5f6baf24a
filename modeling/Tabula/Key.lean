import Tabula.Error

/-!
Table keys in normal form. Numbers that are equal to a program have one key: an integer of 64 bits is kept as an
integer, and only what is left is kept as a number.
-/

namespace Tabula

inductive Key where
  | int (i : Int)
  | float (x : Binary64)
  | str (s : String)
deriving DecidableEq

namespace Key

def inRange (i : Int) : Bool := decide (-2 ^ (63 : Nat) ≤ i) && decide (i < 2 ^ (63 : Nat))

/-- The key of a number; a NaN has none. -/
def ofNumber? (x : Binary64) : Option Key :=
  if x.isNaN then none
  else
    match x.toInt? with
    | some i => if inRange i then some (int i) else some (float x)
    | none => some (float x)

/-- The key of a value; only numbers and strings have one. -/
def ofValue? : Value → Option Key
  | .number x => ofNumber? x
  | .string s => some (str s)
  | _ => none

def toValue : Key → Value
  | int i => .number (.ofInt i)
  | float x => .number x
  | str s => .string s

def ofValue (v : Value) : Except Error Key :=
  match ofValue? v with
  | some k => .ok k
  | none =>
    match v with
    | .nil => .error (.mismatch .nilKey)
    | .number _ => .error (.mismatch .nanKey)
    | other => .error (.mismatch (.keyKind other.kind))

end Key

end Tabula
