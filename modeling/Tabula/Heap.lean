import Tabula.Table
import Tabula.Update

/-!
All tables of a program. A reference is a place in the heap, and no table is ever taken out of it.
-/

namespace Tabula

structure Heap where
  tables : Array Table := #[]

namespace Heap

instance : Inhabited Heap := ⟨{}⟩

def size (h : Heap) : Nat := h.tables.size

def table (h : Heap) (t : TableId) : Table := h.tables[t.index]?.getD {}

def fresh (h : Heap) : TableId := ⟨h.tables.size⟩

def push (h : Heap) (content : Table) : Heap := { tables := h.tables.push content }

def replace (h : Heap) (t : TableId) (content : Table) : Heap :=
  { tables := h.tables.setIfInBounds t.index content }

def modify (h : Heap) (t : TableId) (f : Table → Table) : Heap := h.replace t (f (h.table t))

def make (content : Table) : Update Heap TableId := do
  let h ← get
  set (h.push content)
  return h.fresh

def edit (t : TableId) (f : Table → Table) : Update Heap Unit := do
  let h ← get
  set (h.modify t f)

def write (t : TableId) (key v : Value) : Update Heap Unit := do
  let h ← get
  let content ← (h.table t).write key v
  set (h.replace t content)

/-- The length of a string in bytes, or of a table as a sequence. -/
def length (h : Heap) : Value → Except Error Nat
  | .string s => .ok s.utf8ByteSize
  | .table t => .ok (h.table t).length
  | other => .error (.mismatch (.length other.kind))

end Heap

end Tabula
