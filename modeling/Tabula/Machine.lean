import Tabula.Fallback
import Tabula.Random
import Tabula.Random.Generator

/-!
The state of a running program: its tables, its functions and what it has printed. A function is a reference into
the machine, where a routine says what a call does; closures keep their state in their routine. What routines a host
has of its own is left open: `Host` is their type.
-/

namespace Tabula

/-- The functions of the standard library that keep no state. -/
inductive StandardFunction where
  | print
  | tostring
  | tonumber
  | type
  | error
  | floor
  | ceil
  | abs
  | sqrt
  | sin
  | cos
  | tan
  | pow
  | fmod
  | max
  | min
deriving DecidableEq

inductive Routine (Host : Type) where
  | standard (f : StandardFunction)
  | random (g : Generator)
  | host (r : Host)
deriving DecidableEq

structure Machine (Host : Type) where
  names : Naming := {}
  heap : Heap := {}
  routines : Array (Routine Host) := #[]
  printed : String := ""

abbrev Run (Host : Type) := Update (Machine Host)

variable {Host : Type}

namespace Machine

instance : Inhabited (Machine Host) := ⟨{}⟩

def newTable (m : Machine Host) (content : Table) : TableId × Machine Host :=
  (m.heap.fresh, { m with heap := m.heap.push content })

def define (m : Machine Host) (name : String) (isClosure : Bool) (r : Routine Host) : Callable × Machine Host :=
  (⟨m.routines.size, name, isClosure⟩, { m with routines := m.routines.push r })

def setRoutine (m : Machine Host) (index : Nat) (r : Routine Host) : Machine Host :=
  { m with routines := m.routines.setIfInBounds index r }

end Machine

namespace Run

def ask {α : Type} (f : Heap → Except Error α) : Run Host α := do
  match f (← get).heap with
  | .ok a => return a
  | .error e => throw e

def change {α : Type} (u : Update Heap α) : Run Host α :=
  u.within Machine.heap fun heap m => { m with heap := heap }

def check {α : Type} (r : Except Error α) : Run Host α := ask fun _ => r

end Run

end Tabula
