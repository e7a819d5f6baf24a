import Tabula.Call
import Tabula.Config
import Tabula.Registry

/-!
A session: the settings, the modules, and the machine that programs run on.
-/

namespace Tabula

structure Session (Host : Type) where
  config : Config := {}
  registry : Registry := {}
  machine : Machine Host := {}

namespace Session

variable {Host : Type}

instance : Inhabited (Session Host) := ⟨{}⟩

def randomSeed (config : Config) (entropy : UInt64) : UInt64 := config.randomSeed.getD entropy

/-- A session with the standard modules, ready for a loader. The entropy of the host also salts the names of tables. -/
def new (config : Config) (entropy : UInt64) : Session Host :=
  let (registry, machine) := Registry.withStandard { names := ⟨entropy⟩ } (randomSeed config entropy)
  { config := config, registry := registry, machine := machine }

def renewRegistry (s : Session Host) (entropy : UInt64) : Session Host :=
  let (registry, machine) := Registry.withStandard s.machine (randomSeed s.config entropy)
  { s with registry := registry, machine := machine }

def require (s : Session Host) (name : String) : Except Error Value := s.registry.require name

def load {World : Type} (l : Loader World) : Update (Session Host × World) Bindings :=
  (Registry.load l).within (fun p => ⟨p.1.registry, p.1.machine.heap, p.2⟩) fun scene p =>
    ({ p.1 with registry := scene.registry, machine := { p.1.machine with heap := scene.heap } }, scene.world)

/-- `a % b` on values. Only the settings make a zero divisor an error. -/
def modulo (s : Session Host) (a b : Value) : Except Error Value := do
  let x ← a.operand
  let y ← b.operand
  if s.config.trapDivision then return .number (← trappedModulo x y)
  else return .number (x.modulo y)

end Session

end Tabula
