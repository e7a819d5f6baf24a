import Tabula.Decimal.Shortest

/-!
The two texts of a number: the one that programs see, with fourteen significant digits, and the exact one used
in diagnostics, with the fewest digits that read back.
-/

namespace Tabula.Binary64

/-- Positional from `0.0001` to below `10 ^ 14`, no idle point, exponents as in `e+15` and `e-05`. -/
def displayLayout : Layout where
  positionalFrom := -4
  positionalBelow := 14
  keepsPoint := false
  exponentPlus := true
  exponentWidth := 2

/-- Positional from `0.0001` to below `10 ^ 16`, a point in every one of them, exponents as in `e16` and `e-5`. -/
def diagnosticLayout : Layout where
  positionalFrom := -4
  positionalBelow := 16
  keepsPoint := true
  exponentPlus := false
  exponentWidth := 1

def signed (negative : Bool) (body : List Char) : String :=
  String.ofList (if negative then '-' :: body else body)

def display (x : Binary64) : String :=
  match x with
  | nan s _ => signed s ['n', 'a', 'n']
  | infinity s => signed s ['i', 'n', 'f']
  | finite s .. => signed s (displayLayout.write (x.toSignificant 14))

def diagnostic (x : Binary64) : String :=
  match x with
  | nan .. => "NaN"
  | infinity s => signed s ['i', 'n', 'f']
  | finite s .. => signed s (diagnosticLayout.write x.toShortest)

end Tabula.Binary64
