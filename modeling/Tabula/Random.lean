import Tabula.Argument
import Tabula.Random.Interval
import Tabula.Update

/-!
Random numbers for programs. The arguments are settled before a word is drawn, so a call that fails leaves the
source as it was. With one bound the interval is closed; with two it ends before the upper one.
-/

namespace Tabula.Random

inductive Request where
  /-- A number from `0` to below `1`. -/
  | fraction
  | integer (interval : Interval)
deriving DecidableEq

def request (args : List Value) : Except Error Request :=
  match Argument.given args with
  | [] => .ok .fraction
  | [bound] => do
    let upper ← Argument.integer "random" 1 (some bound)
    if upper < 1 then .error (.mismatch (.emptyInterval 1 "random"))
    else return .integer ⟨1, upper⟩
  | [first, second] => do
    let lower ← Argument.integer "random" 1 (some first)
    let upper ← Argument.integer "random" 2 (some second)
    if upper ≤ lower then .error (.mismatch (.emptyInterval 2 "random"))
    else return .integer ⟨lower, upper - 1⟩
  | _ => .error (.mismatch (.argumentCount "random"))

def fraction (w : UInt64) : Binary64 := .ofRatio false (w >>> 11).toNat (2 ^ (53 : Nat))

def Request.draw {γ : Type} [WordSource γ] (r : Request) (g : γ) : Binary64 × γ :=
  match r with
  | .fraction => let (w, rest) := WordSource.next g; (Random.fraction w, rest)
  | .integer interval => let (i, rest) := interval.draw g; (.ofInt i.toInt, rest)

def random {γ : Type} [WordSource γ] (args : List Value) : Update γ Binary64 := do
  let r ← request args
  modifyGet r.draw

/-- An error comes before the first word. -/
theorem perform_random {γ : Type} [WordSource γ] (args : List Value) (g : γ) :
    (random args).perform g =
      match request args with
      | .ok r => (.ok (r.draw g).1, (r.draw g).2)
      | .error e => (.error e, g) := by
  rw [random, Update.perform_bind, Update.perform_lift]
  cases request args <;> rfl

end Tabula.Random
