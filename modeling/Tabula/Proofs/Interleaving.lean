import Mathlib.Data.List.Forall2
import Tabula.Proofs.Entries
import Tabula.Traversal

/-!
Walks that go on while the tables change under them and other walks go on beside them. An entry walk cuts the keys it
started with into consecutive parts, one for each of its steps. Whether a key is given or passed over is settled by the
table at the step that comes by it, and by nothing before or after.
-/

namespace Tabula

inductive Walk where
  | sequence (w : SequenceWalk)
  | entries (w : EntryWalk)

inductive Item where
  | indexed (i : Int) (v : Value)
  | keyed (key v : Value)
deriving DecidableEq

def Walk.step (h : Heap) : Walk → Option Item × Walk
  | sequence w => ((w.step h).1.map fun e => .indexed e.1 e.2, sequence (w.step h).2)
  | entries w => ((w.step h).1.map fun e => .keyed e.1 e.2, entries (w.step h).2)

structure Loops where
  heap : Heap
  walks : List Walk

namespace Loops

inductive Event where
  /-- Whatever is done to the tables, by a loop body or otherwise: any heap can come of it. -/
  | change (h : Heap)
  | start (w : Walk)
  | next (n : Nat)

def apply (s : Loops) : Event → Loops
  | .change h => { s with heap := h }
  | .start w => { s with walks := s.walks ++ [w] }
  | .next n =>
    match s.walks[n]? with
    | some w => { s with walks := s.walks.set n (w.step s.heap).2 }
    | none => s

/-- The steps of the walk `n` during some events: the heap that each of them finds, and what it gives. -/
def log (n : Nat) (s : Loops) : List Event → List (Heap × Option Item)
  | [] => []
  | .next m :: rest =>
    match s.walks[n]? with
    | some w =>
      if m = n then (s.heap, (w.step s.heap).1) :: log n (s.apply (.next m)) rest
      else log n (s.apply (.next m)) rest
    | none => log n (s.apply (.next m)) rest
  | e :: rest => log n (s.apply e) rest

variable {s : Loops} {n m : Nat} {w : Walk} {rest : List Event}

theorem walks_start (hw : s.walks[n]? = some w) (w' : Walk) : (s.apply (.start w')).walks[n]? = some w := by
  have hn : n < s.walks.length := (List.getElem?_eq_some_iff.1 hw).1
  rw [apply, List.getElem?_append_left hn, hw]

theorem walks_next_self (hw : s.walks[n]? = some w) :
    (s.apply (.next n)).heap = s.heap ∧ (s.apply (.next n)).walks[n]? = some (w.step s.heap).2 := by
  have hn : n < s.walks.length := (List.getElem?_eq_some_iff.1 hw).1
  simp only [apply, hw, List.getElem?_set_self hn, and_self]

theorem walks_next_of_ne (hw : s.walks[n]? = some w) (hm : m ≠ n) : (s.apply (.next m)).walks[n]? = some w := by
  cases hm' : s.walks[m]? with
  | some w' => simp only [apply, hm', List.getElem?_set_ne hm, hw]
  | none => simp only [apply, hm', hw]

theorem log_next_self (hw : s.walks[n]? = some w) :
    s.log n (.next n :: rest) = (s.heap, (w.step s.heap).1) :: (s.apply (.next n)).log n rest := by
  simp only [log, hw, if_pos]

theorem log_next_of_ne (hw : s.walks[n]? = some w) (hm : m ≠ n) :
    s.log n (.next m :: rest) = (s.apply (.next m)).log n rest := by
  simp only [log, hw, if_neg hm]

end Loops

namespace EntryWalk

variable {content : Table} {pending rest : List Key} {k : Key} {v : Value}

theorem advance_eq_some (ha : advance content pending = (some (k, v), rest)) :
    ∃ skipped, pending = skipped ++ k :: rest ∧ (∀ k' ∈ skipped, content.get k' = .nil) ∧
      content.get k ≠ .nil ∧ v = content.get k := by
  induction pending with
  | nil => simp [advance] at ha
  | cons k' pending ih =>
    by_cases hk : content.get k' = .nil
    · rw [advance_of_nil hk] at ha
      obtain ⟨skipped, rfl, hskipped, hgiven⟩ := ih ha
      exact ⟨k' :: skipped, rfl, List.forall_mem_cons.2 ⟨hk, hskipped⟩, hgiven⟩
    · simp only [advance_of_ne hk, Prod.mk.injEq, Option.some.injEq] at ha
      obtain ⟨⟨rfl, rfl⟩, rfl⟩ := ha
      exact ⟨[], rfl, by simp, hk, rfl⟩

theorem advance_eq_none (ha : advance content pending = (none, rest)) :
    rest = [] ∧ ∀ k ∈ pending, content.get k = .nil := by
  induction pending with
  | nil =>
    obtain rfl : [] = rest := by simpa [advance] using ha
    simp
  | cons k pending ih =>
    by_cases hk : content.get k = .nil
    · rw [advance_of_nil hk] at ha
      obtain ⟨hrest, hnil⟩ := ih ha
      exact ⟨hrest, List.forall_mem_cons.2 ⟨hk, hnil⟩⟩
    · simp [advance_of_ne hk] at ha

/-- What a step gives for the keys it comes by: the last of them with what it reads as, where the ones before it read as
`nil`, and nothing only if all do. -/
def Answers (content : Table) (part : List Key) : Option Item → Prop
  | some item => ∃ skipped k, part = skipped ++ [k] ∧ (∀ k' ∈ skipped, content.get k' = .nil) ∧
      content.get k ≠ .nil ∧ item = .keyed k.toValue (content.get k)
  | none => ∀ k ∈ part, content.get k = .nil

/-- The course of a walk that has these keys before it: steps that give an item, then steps that report the end, and for
each step the part of the keys that it comes by. -/
structure Course (t : TableId) (keys : List Key) (given ended : List (Heap × Option Item)) (parts : List (List Key)) :
    Prop where
  answers : List.Forall₂ (fun call part => Answers (call.1.table t) part call.2) (given ++ ended) parts
  consecutive : parts.flatten <+: keys
  items : ∀ call ∈ given, call.2.isSome = true
  few : given.length ≤ keys.length
  done : ∀ call ∈ ended, call.2 = none
  /-- The end is not reported before all keys have been come by. -/
  complete : ended ≠ [] → parts.flatten = keys

namespace Course

variable {t : TableId} {keys : List Key} {given ended : List (Heap × Option Item)} {parts : List (List Key)} {h : Heap}

theorem nil (t : TableId) (keys : List Key) : Course t keys [] [] [] where
  answers := .nil
  consecutive := List.nil_prefix
  items := by simp
  few := by simp
  done := by simp
  complete := by simp

/-- A step that gives an item comes before a course of the keys after it. -/
theorem give {skipped : List Key} (c : Course t keys given ended parts)
    (hskipped : ∀ k' ∈ skipped, (h.table t).get k' = .nil) (hk : (h.table t).get k ≠ .nil) :
    Course t (skipped ++ k :: keys) ((h, some (.keyed k.toValue ((h.table t).get k))) :: given) ended
      ((skipped ++ [k]) :: parts) where
  answers := .cons ⟨skipped, k, rfl, hskipped, hk, rfl⟩ c.answers
  consecutive := by
    rw [List.flatten_cons, List.append_cons skipped k keys]
    exact (List.prefix_append_right_inj _).2 c.consecutive
  items := List.forall_mem_cons.2 ⟨rfl, c.items⟩
  few := by
    have := c.few
    simp only [List.length_cons, List.length_append]
    omega
  done := c.done
  complete := fun he => by rw [List.flatten_cons, c.complete he, List.append_cons skipped k keys]

theorem finish (c : Course t [] given ended parts) (hnil : ∀ k ∈ keys, (h.table t).get k = .nil) :
    given = [] ∧ Course t keys [] ((h, none) :: ended) (keys :: parts) := by
  have hgiven : given = [] := List.eq_nil_of_length_eq_zero (Nat.le_zero.1 c.few)
  have hparts : parts.flatten = [] := List.prefix_nil.1 c.consecutive
  have hall : (keys :: parts).flatten = keys := by rw [List.flatten_cons, hparts, List.append_nil]
  have hanswers := c.answers
  rw [hgiven, List.nil_append] at hanswers
  exact ⟨hgiven, {
    answers := .cons hnil hanswers
    consecutive := ⟨[], by rw [hall, List.append_nil]⟩
    items := by simp
    few := by simp
    done := List.forall_mem_cons.2 ⟨rfl, c.done⟩
    complete := fun _ => hall }⟩

end Course

end EntryWalk

namespace Loops

open EntryWalk

/-- The steps of an entry walk take a course through its keys, whatever happens between them. -/
theorem exists_course {s : Loops} {n : Nat} {t : TableId} {pending : List Key}
    (hw : s.walks[n]? = some (.entries ⟨t, pending⟩)) (events : List Event) :
    ∃ given ended parts, s.log n events = given ++ ended ∧ Course t pending given ended parts := by
  induction events generalizing s pending with
  | nil => exact ⟨[], [], [], rfl, .nil t pending⟩
  | cons e rest ih =>
    cases e with
    | change h => exact ih (s := s.apply (.change h)) hw
    | start w => exact ih (walks_start hw w)
    | next m =>
      by_cases hm : m = n
      · subst hm
        obtain ⟨-, hw'⟩ := walks_next_self hw
        rw [log_next_self hw]
        -- the part of the keys that this step comes by is put before those of the later steps
        rcases ha : advance (s.heap.table t) pending with ⟨item | ⟨k, v⟩, after⟩
        · obtain ⟨rfl, hnil⟩ := advance_eq_none ha
          simp only [Walk.step, EntryWalk.step, ha, Option.map_none] at hw' ⊢
          obtain ⟨given, ended, parts, hlog, c⟩ := ih hw'
          obtain ⟨rfl, hfinish⟩ := c.finish hnil
          exact ⟨[], _, _, by rw [hlog]; rfl, hfinish⟩
        · obtain ⟨skipped, rfl, hskipped, hk, rfl⟩ := advance_eq_some ha
          simp only [Walk.step, EntryWalk.step, ha, Option.map_some] at hw' ⊢
          obtain ⟨given, ended, parts, hlog, c⟩ := ih hw'
          exact ⟨_, ended, _, by rw [hlog]; rfl, c.give hskipped hk⟩
      · rw [log_next_of_ne hw hm]
        exact ih (walks_next_of_ne hw hm)

end Loops

end Tabula
