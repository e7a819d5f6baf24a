/-!
The settings of a session.
-/

namespace Tabula

structure Config where
  /-- The seed of `math.random`; without one the host supplies it. -/
  randomSeed : Option UInt64 := none
  /-- A remainder by zero is an error instead of a NaN. -/
  trapDivision : Bool := false
deriving DecidableEq

namespace Config

def withSeed (c : Config) (seed : UInt64) : Config := { c with randomSeed := some seed }

def withTrap (c : Config) (trap : Bool) : Config := { c with trapDivision := trap }

end Config

end Tabula
