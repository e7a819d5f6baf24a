import Tabula.Heap

/-!
Fallback links between tables. A read that misses goes on along the links; a write stays where it is. A link that
would close a cycle is refused, so that every walk along the links comes to an end.
-/

namespace Tabula.Heap

def next? (h : Heap) (t : TableId) : Option TableId := (h.table t).fallback

/-- Asks `t`, the table it falls back to, and so on until one of them answers or there is no further table. The outer
option is the walk itself: a walk that never ends has no result. -/
def walk {α : Type} (h : Heap) (ask : TableId → Option α) (t : TableId) : Option (Option α) :=
  match ask t with
  | some a => some (some a)
  | none =>
    match h.next? t with
    | some u => h |>.walk ask u
    | none => some none
partial_fixpoint

def seek (t u : TableId) : Option Unit := if u = t then some () else none

/-- The value under the key in the first table on the way that has one. -/
def lookup (h : Heap) (t : TableId) (key : Value) : Value :=
  match Key.ofValue? key with
  | some k => (h.walk (fun u => (h.table u).get? k) t).join.getD .nil
  | none => .nil

def index (h : Heap) (container key : Value) : Except Error Value :=
  match container with
  | .table t => .ok (h.lookup t key)
  | other => .error (.mismatch (.index other.kind key))

/-- `container[key] = v`. The links are not consulted. -/
def assign (container key v : Value) : Update Heap Unit :=
  match container with
  | .table t => write t key v
  | other => throw (.mismatch (.index other.kind key))

/-- The heap in which `t` falls back to `target`, whatever that closes. -/
def linked (h : Heap) (t target : TableId) : Heap :=
  h.modify t fun content => { content with fallback := some target }

def link (t target : TableId) : Update Heap Unit := do
  let h ← get
  if (h.walk (seek t) target).join.isSome then throw (.fallback .cycle)
  set (h.linked t target)

/-- The target that a description of a link names: a table whose only entry is a table under `__index`. -/
def describedTarget (h : Heap) (description : Value) : Except Error TableId :=
  match description with
  | .table d =>
    match (h.table d).entries.toList with
    | [(.str "__index", .table target)] => .ok target
    | [(.str "__index", other)] => .error (.fallback (.targetNotTable other.kind))
    | [(key, _)] => .error (.fallback (.field key.toValue))
    | entries => .error (.fallback (.fieldCount entries.length))
  | other => .error (.fallback (.notTable other.kind))

def linkAs (owner description : Value) : Update Heap Value :=
  match owner with
  | .table t => do
    let target ← (← get).describedTarget description
    link t target
    return owner
  | other => throw (.mismatch (.fallbackOwner other.kind))

def fallbackValue (h : Heap) : Value → Value
  | .table t =>
    match h.next? t with
    | some u => .table u
    | none => .nil
  | _ => .nil

end Tabula.Heap
