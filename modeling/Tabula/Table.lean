import Tabula.Key.Order

/-!
One table: a finite map from keys to values that are not `nil`, and at most one link to the table that is asked
when a key is absent. The integers from 1 on serve as a sequence; there is no separate array.
-/

namespace Tabula

structure Table where
  entries : Std.ExtTreeMap Key Value := ∅
  fallback : Option TableId := none

namespace Table

instance : Inhabited Table := ⟨{}⟩

def get? (t : Table) (k : Key) : Option Value := t.entries[k]?

/-- An absent key reads as `nil`. -/
def get (t : Table) (k : Key) : Value := (t.get? k).getD .nil

def contains (t : Table) (k : Key) : Bool := t.entries.contains k

def erase (t : Table) (k : Key) : Table := { t with entries := t.entries.erase k }

/-- Writing `nil` removes the key. -/
def put (t : Table) (k : Key) (v : Value) : Table :=
  if v.isNil then t.erase k else { t with entries := t.entries.insert k v }

def size (t : Table) : Nat := t.entries.size

def keys (t : Table) : List Key := t.entries.keys

def field (t : Table) (name : String) : Value := t.get (.str name)

def putField (t : Table) (name : String) (v : Value) : Table := t.put (.str name) v

def item (t : Table) (i : Int) : Value := t.get (.int i)

def putItem (t : Table) (i : Int) (v : Value) : Table := t.put (.int i) v

/-- What is stored under a value; a value that cannot be a key has nothing. -/
def read (t : Table) (key : Value) : Value :=
  match Key.ofValue? key with
  | some k => t.get k
  | none => .nil

def holds (t : Table) (key : Value) : Bool :=
  match Key.ofValue? key with
  | some k => t.contains k
  | none => false

def write (t : Table) (key v : Value) : Except Error Table := do
  let k ← Key.ofValue key
  return t.put k v

/-- The values under 1, 2, 3 and so on. A `nil` leaves a hole. -/
def ofList (values : List Value) : Table :=
  (values.zipIdx 1).foldl (fun t e => t.putItem e.2 e.1) {}

def ofEntries (entries : List (Value × Value)) : Except Error Table :=
  entries.foldlM (fun t e => t.write e.1 e.2) {}

/-- The length of the sequence: the least `n` without an entry at `n + 1`. -/
def length (t : Table) : Nat :=
  ((List.range t.size).takeWhile fun (i : Nat) => t.contains (.int (i + 1))).length

end Table

end Tabula
