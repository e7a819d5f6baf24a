import Tabula.Error
import Tabula.Numeral

/-!
Values where a number or a defined value is needed.
-/

namespace Tabula

namespace Value

def toNumber? : Value → Option Binary64
  | number x => some x
  | string s => parseNumber? s
  | _ => none

def operand (v : Value) : Except Error Binary64 :=
  match v.toNumber? with
  | some x => .ok x
  | none => .error (.mismatch (.arithmetic v))

def defined (v : Value) (parameter : String) : Except Error Value :=
  if v.isNil then .error (.missing (.parameter parameter)) else .ok v

end Value

/-- The remainder with the quotient rounded to the floor; a zero divisor is an error. -/
def trappedModulo (x y : Binary64) : Except Error Binary64 :=
  if y.isZero then .error .divisionByZero else .ok (x.modulo y)

end Tabula
