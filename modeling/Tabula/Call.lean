import Tabula.Standard

/-!
Calls. A method call hands the receiver over as the first argument. A routine of the host does to the machine whatever
it does, calls of other functions included.
-/

namespace Tabula

/-- What a call of a host's routine does, given the place of the routine. -/
class HostCode (Host : Type) where
  run : (index : Nat) → Host → List Value → Run Host Value

instance : HostCode Empty where
  run _ r _ := nomatch r

variable {Host : Type} [HostCode Host]

def Routine.run (index : Nat) (r : Routine Host) (args : List Value) : Run Host Value := do
  match r with
  | standard f => f.run args
  | random g =>
    let (outcome, rest) := (Random.random args).perform g
    modify fun m => m.setRoutine index (.random rest)
    Run.check (outcome.map .number)
  | host r => HostCode.run index r args

def call (f : Value) (args : List Value) : Run Host Value := do
  match f with
  | .function f =>
    match (← get).routines[f.index]? with
    | some r => r.run f.index args
    | none => return .nil
  | other => throw (.mismatch (.call other.kind))

/-- `receiver:name(args)`. The method is the one that the receiver or its fallback chain has under the name. -/
def callMethod (receiver : Value) (name : String) (args : List Value) : Run Host Value := do
  match receiver with
  | .table t =>
    match ← Run.ask fun h => .ok (h.lookup t (.string name)) with
    | .nil => throw (.methodNotFound name)
    | method => call method (receiver :: args)
  | other => throw (.mismatch (.methodCall name other.kind))

end Tabula
