import Tabula.Decimal.Rounded

/-!
The fewest decimal digits that read back as the same number, and of those the nearest to it.
-/

namespace Tabula

namespace Binary64

/-- The decimals that read back as a finite number, in quarter steps: those between the midpoints to its
neighbours. The midpoints themselves belong to an even significand. -/
structure ReadBack where
  value : Nat
  below : Nat
  above : Nat
  closed : Bool

def readBack : Binary64 → ReadBack
  | finite _ m e _ =>
    { value := 4 * (m * 2 ^ e)
      -- below a power of two the neighbour is only half as far
      below := 4 * (m * 2 ^ e) - (if m = 2 ^ (52 : Nat) ∧ e ≠ 0 then 2 ^ e else 2 * 2 ^ e)
      above := 4 * (m * 2 ^ e) + 2 * 2 ^ e
      closed := m % 2 == 0 }
  | _ => ⟨0, 0, 0, false⟩

def ReadBack.admits (r : ReadBack) (num den : Nat) : Bool :=
  if r.closed then decide (r.below * den ≤ num) && decide (num ≤ r.above * den)
  else decide (r.below * den < num) && decide (num < r.above * den)

def quarterSteps (coefficient : Nat) (place : Int) : Nat × Nat :=
  if 0 ≤ place then (coefficient * 10 ^ place.toNat * (4 * scale), 1)
  else (coefficient * (4 * scale), 10 ^ (-place).toNat)

/-- The multiple of `10 ^ place` that reads back as the number: of its two neighbours the nearer, and the
upper one of two equally near. -/
def shortestAt? (r : ReadBack) (place : Int) : Option Nat :=
  let unit := quarterSteps 1 place
  let low := r.value * unit.2 / unit.1
  let admits := fun (c : Nat) => r.admits (c * unit.1) unit.2
  let lowGap := r.value * unit.2 - low * unit.1
  let highGap := (low + 1) * unit.1 - r.value * unit.2
  if admits low && (!admits (low + 1) || decide (lowGap < highGap)) then some low
  else if admits (low + 1) then some (low + 1)
  else none

/-- Seventeen digits always suffice. -/
def toShortest (x : Binary64) : Scientific :=
  if x.isZero then ⟨['0'], 0⟩
  else
    let first := x.decimalExponent
    let attempt := fun (count : Nat) =>
      let place := first - count
      (shortestAt? x.readBack place).map (Scientific.ofCoefficient · place)
    ((List.range 17).findSome? attempt).getD (x.toSignificant 17)

end Binary64

end Tabula
