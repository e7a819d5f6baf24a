import Tabula.Heap

/-!
Walks over a table that may change between two steps. A sequence walk reads 1, 2, 3 and so on until one is absent,
and then stays at its end. An entry walk takes the keys that are there when it starts and passes over those that
are gone when it comes to them.
-/

namespace Tabula

structure SequenceWalk where
  table : TableId
  next : Int := 1
  finished : Bool := false

namespace SequenceWalk

def step (w : SequenceWalk) (h : Heap) : Option (Int × Value) × SequenceWalk :=
  if w.finished then (none, w)
  else
    match (h.table w.table).item w.next with
    | .nil => (none, { w with finished := true })
    | v => (some (w.next, v), { w with next := w.next + 1 })

def collect (h : Heap) : (limit : Nat) → SequenceWalk → List (Int × Value) × SequenceWalk
  | 0, w => ([], w)
  | limit + 1, w =>
    match w.step h with
    | (none, w') => ([], w')
    | (some item, w') => let (items, last) := collect h limit w'; (item :: items, last)

/-- All that is left of a walk if nothing is written meanwhile. No index is visited twice, so the number of keys
bounds the steps. -/
def drain (w : SequenceWalk) (h : Heap) : List (Int × Value) × SequenceWalk :=
  collect h ((h.table w.table).size + 1) w

end SequenceWalk

structure EntryWalk where
  table : TableId
  pending : List Key

namespace EntryWalk

def start (h : Heap) (t : TableId) : EntryWalk := ⟨t, (h.table t).keys⟩

/-- The first pending key that does not read as `nil` with its value, and the keys after it. -/
def advance (content : Table) : List Key → Option (Key × Value) × List Key
  | [] => (none, [])
  | k :: rest =>
    match content.get k with
    | .nil => advance content rest
    | v => (some (k, v), rest)

theorem advance_of_nil {content : Table} {k : Key} (hk : content.get k = .nil) (rest : List Key) :
    advance content (k :: rest) = advance content rest := by
  rw [advance, hk]

theorem advance_of_ne {content : Table} {k : Key} (hk : content.get k ≠ .nil) (rest : List Key) :
    advance content (k :: rest) = (some (k, content.get k), rest) := by
  rw [advance]
  split
  · contradiction
  · rfl

def step (w : EntryWalk) (h : Heap) : Option (Value × Value) × EntryWalk :=
  let (item, rest) := advance (h.table w.table) w.pending
  (item.map fun e => (e.1.toValue, e.2), { w with pending := rest })

def drain (w : EntryWalk) (h : Heap) : List (Value × Value) × EntryWalk :=
  let present := w.pending.filter fun k => !((h.table w.table).get k).isNil
  (present.map fun k => (k.toValue, (h.table w.table).get k), { w with pending := [] })

end EntryWalk

end Tabula
