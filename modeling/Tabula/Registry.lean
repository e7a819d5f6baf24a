import Tabula.Standard

/-!
The module registry. It is seeded with modules, then one loader may fill the module `ffi`, then it is frozen. A
loader gathers bindings apart from it, and none of them is seen unless the loader succeeds.
-/

namespace Tabula

structure Bindings where
  /-- Each bound name once, in the order of the first bindings. -/
  names : List String := []
  values : Table := {}

namespace Bindings

def bind (b : Bindings) (name : String) (v : Value) : Bindings where
  names := if name ∈ b.names then b.names else b.names ++ [name]
  values := b.values.putField name v

def writeTo (b : Bindings) (target : Table) : Table :=
  b.names.foldl (fun t name => t.putField name (b.values.field name)) target

end Bindings

structure Loader (World : Type) where
  name : String
  /-- Adds to the bindings it is given. It may act on a world of its own besides, and fail after any of that. -/
  bind : Update (Bindings × World) Unit

namespace Loader

variable {World : Type}

def gather (l : Loader World) : Update World Bindings :=
  Update.within (fun w => (({} : Bindings), w)) (fun p _ => p.2) do
    l.bind
    return (← get).1

end Loader

inductive Phase where
  | seeding
  | bindable
  | frozen
deriving DecidableEq

structure Registry where
  modules : Std.ExtTreeMap String Value := ∅
  phase : Phase := .seeding
  /-- The loader that has filled `ffi`. -/
  loader : Option String := none

namespace Registry

instance : Inhabited Registry := ⟨{}⟩

def foreignModule : String := "ffi"

def has (r : Registry) (name : String) : Bool := r.modules.contains name

def require (r : Registry) (name : String) : Except Error Value :=
  match r.modules[name]? with
  | some v => .ok v
  | none => .error (.moduleNotFound name)

def names (r : Registry) : List String := r.modules.keys

def seed (r : Registry) (name : String) (v : Value) : Registry :=
  { r with modules := r.modules.insert name v }

/-- Adds a module or replaces the one of its name, during seeding only. -/
def register (name : String) (v : Value) : Update Registry Unit := do
  if (← get).phase ≠ .seeding then throw (.locked (.register name))
  modify fun r => r.seed name v

def closeSeeding (r : Registry) : Registry :=
  match r.phase with
  | .seeding => { r with phase := .bindable }
  | _ => r

def freeze (r : Registry) : Registry := { r with phase := .frozen }

def foreignTable (r : Registry) : Except Error TableId :=
  match r.phase with
  | .seeding => .error (.locked .notSeeded)
  | .frozen =>
    match r.loader with
    | some previous => .error (.locked (.loadedBy previous))
    | none => .error (.locked .frozen)
  | .bindable =>
    match r.modules[foreignModule]? with
    | some (.table t) => .ok t
    | _ => .error (.moduleNotFound foreignModule)

/-- A registry with what a loader can reach: the tables that its modules are, and the world of the loader. -/
structure Scene (World : Type) where
  registry : Registry := {}
  heap : Heap := {}
  world : World

/-- Runs a loader. On success its bindings are in `ffi` and the registry is frozen. -/
def load {World : Type} (l : Loader World) : Update (Scene World) Bindings := do
  let target ← (← get).registry.foreignTable
  let bound ← l.gather.within Scene.world fun w s => { s with world := w }
  modify fun s => { s with heap := s.heap.modify target bound.writeTo }
  modify fun s => { s with registry := { s.registry with phase := .frozen, loader := some l.name } }
  return bound

def withStandard {Host : Type} (m : Machine Host) (randomSeed : UInt64) : Registry × Machine Host :=
  let (base, m) := m.newBase
  let (math, m) := m.newMath randomSeed
  let (foreign, m) := m.newTable {}
  let r := ((({} : Registry).seed "_G" (.table base)).seed "math" (.table math)).seed foreignModule
    (.table foreign)
  (r.closeSeeding, m)

end Registry

end Tabula
