import Tabula.Proofs.Interleaving
import Tabula.Proofs.Sequence

/-!
Sequence walks over tables that change under them. What a walk gives depends on its own state and on the heaps that its
own steps find, and on nothing that is done with other walks. Main statement: it gives 1, 2, 3 and so on with the values
of the moment, up to the first step that finds its index absent, and from then on it is at its end, whatever is written
there later.
-/

namespace Tabula

def Walk.course : Walk → List Heap → List (Heap × Option Item)
  | _, [] => []
  | w, h :: rest => (h, (w.step h).1) :: (w.step h).2.course rest

namespace Loops

/-- The heaps that the steps of the walk `n` find during some events, said without any walk. -/
def found (n : ℕ) : Heap → List Event → List Heap
  | _, [] => []
  | _, .change h :: rest => found n h rest
  | h, .start _ :: rest => found n h rest
  | h, .next m :: rest => if m = n then h :: found n h rest else found n h rest

theorem mem_found {n : ℕ} {h h' : Heap} {events : List Event} (hmem : h' ∈ found n h events) :
    h' = h ∨ .change h' ∈ events := by
  induction events generalizing h with
  | nil => contradiction
  | cons e rest ih =>
    cases e with
    | change g =>
      right
      rcases ih hmem with rfl | hrest
      · exact List.mem_cons_self
      · exact List.mem_cons_of_mem _ hrest
    | start w => exact (ih hmem).imp_right (List.mem_cons_of_mem _)
    | next m =>
      rw [found] at hmem
      split_ifs at hmem with hm
      · rcases List.mem_cons.1 hmem with rfl | hmem
        · exact .inl rfl
        · exact (ih hmem).imp_right (List.mem_cons_of_mem _)
      · exact (ih hmem).imp_right (List.mem_cons_of_mem _)

/-- A walk takes its course through the heaps that its own steps find. -/
theorem log_eq_course {s : Loops} {n : ℕ} {w : Walk} (hw : s.walks[n]? = some w) (events : List Event) :
    s.log n events = w.course (found n s.heap events) := by
  induction events generalizing s w with
  | nil => rfl
  | cons e rest ih =>
    cases e with
    | change h => exact ih (s := s.apply (.change h)) hw
    | start w' => exact ih (walks_start hw w')
    | next m =>
      by_cases hm : m = n
      · subst hm
        obtain ⟨hheap, hw'⟩ := walks_next_self hw
        rw [log_next_self hw, ih hw', hheap, found, if_pos rfl, Walk.course]
      · have hheap : (s.apply (.next m)).heap = s.heap := by
          rw [apply]
          cases s.walks[m]? <;> rfl
        rw [log_next_of_ne hw hm, ih (walks_next_of_ne hw hm), hheap, found, if_neg hm]

end Loops

namespace SequenceWalk

variable {h : Heap} {t : TableId} {i : ℤ} {v : Value} {given ended : List (Heap × Option Item)}

/-- The course of a walk that is at the index `i`: steps that give an item, then steps that report the end. -/
structure Course (t : TableId) (i : ℤ) (given ended : List (Heap × Option Item)) : Prop where
  items : ∀ (j : ℕ) call, given[j]? = some call →
    ∃ v, v ≠ .nil ∧ (call.1.table t).get? (.int (i + j)) = some v ∧ call.2 = some (.indexed (i + j) v)
  /-- The first step that reports the end finds the next index absent; the later ones do not look. -/
  absent : ∀ call ∈ ended.head?, (call.1.table t).contains (.int (i + given.length)) = false
  done : ∀ call ∈ ended, call.2 = none

/-- A step that gives an item comes before a course from the next index on. -/
theorem Course.give (c : Course t (i + 1) given ended) (hv : v ≠ .nil) (hg : (h.table t).get? (.int i) = some v) :
    Course t i ((h, some (.indexed i v)) :: given) ended where
  items := by
    intro j call hj
    cases j with
    | zero =>
      obtain rfl : (h, some (Item.indexed i v)) = call := by simpa using hj
      exact ⟨v, hv, by simpa using hg, by simp⟩
    | succ j =>
      have hitem := c.items j call (by simpa using hj)
      rwa [show i + 1 + (j : ℤ) = i + (j + 1 : ℕ) by omega] at hitem
  absent := by
    intro call hcall
    have habsent := c.absent call hcall
    rwa [show i + 1 + (given.length : ℤ) = i + (given.length + 1 : ℕ) by omega] at habsent
  done := c.done

theorem course_finished (t : TableId) (i : ℤ) (heaps : List Heap) :
    ∀ call ∈ (Walk.sequence ⟨t, i, true⟩).course heaps, call.2 = none := by
  induction heaps with
  | nil => simp [Walk.course]
  | cons h rest ih =>
    rw [Walk.course, Walk.step, step_finished]
    exact List.forall_mem_cons.2 ⟨rfl, ih⟩

theorem exists_course {heaps : List Heap} (hn : ∀ h ∈ heaps, (h.table t).NoNil) (i : ℤ) :
    ∃ given ended, (Walk.sequence ⟨t, i, false⟩).course heaps = given ++ ended ∧ Course t i given ended := by
  induction heaps generalizing i with
  | nil => exact ⟨[], [], rfl, by simp, by simp, by simp⟩
  | cons h rest ih =>
    rw [List.forall_mem_cons] at hn
    rw [Walk.course, Walk.step]
    by_cases hv : (h.table t).item i = .nil
    · rw [step_end hv]
      refine ⟨[], _, rfl, by simp, ?_, List.forall_mem_cons.2 ⟨rfl, course_finished t i rest⟩⟩
      intro call hcall
      obtain rfl : (h, none) = call := by simpa using hcall
      simpa using hn.1.get_eq_nil_iff.1 hv
    · rw [step_item hv]
      obtain ⟨given, ended, hcourse, c⟩ := ih hn.2 (i + 1)
      refine ⟨_, ended, congrArg (_ :: ·) hcourse, c.give hv ?_⟩
      rw [Table.item, Table.get] at hv ⊢
      cases hg : (h.table t).get? (.int i) with
      | none => simp [hg] at hv
      | some v => rfl

end SequenceWalk

namespace Loops

/-- A sequence walk is started, and then anything happens to the tables, to this walk and to others. The steps of the
walk that give something give 1, 2, 3 and so on, each with the value that is stored there at that moment and is not
`nil`. The first step that finds its index absent reports the end, and so do all after it. All this depends on nothing
but the heaps that the steps of this walk find, and starting it changes nothing for the walks that were there before,
over the same table or another. -/
theorem sequence_walk_course (s : Loops) (t : TableId) (events : List Event) (hs : s.heap.Sound)
    (he : ∀ h, Event.change h ∈ events → h.Sound) :
    (∃ given ended,
      (s.apply (.start (.sequence { table := t }))).log s.walks.length events = given ++ ended ∧
      SequenceWalk.Course t 1 given ended) ∧
    (s.apply (.start (.sequence { table := t }))).log s.walks.length events =
      (Walk.sequence { table := t }).course (found s.walks.length s.heap events) ∧
    ∀ n w, s.walks[n]? = some w →
      (s.apply (.start (.sequence { table := t }))).log n events = s.log n events := by
  have hw : (s.apply (.start (.sequence { table := t }))).walks[s.walks.length]? = some (.sequence { table := t }) :=
    List.getElem?_concat_length
  have hlog := log_eq_course hw events
  refine ⟨?_, hlog, fun n w hn => ?_⟩
  · rw [hlog]
    refine SequenceWalk.exists_course (fun h hmem => ?_) 1
    rcases mem_found hmem with rfl | hchange
    · exact hs.noNil t
    · exact (he h hchange).noNil t
  · rw [log_eq_course (walks_start hn _) events, log_eq_course hn events]
    rfl

/-- An entry is put at the end while the walk goes on, and another one after the walk has come to its end. A second walk
starts at 1 meanwhile. -/
theorem sequence_walk_course_refilled :
    ∃ (s : Loops) (events : List Event), s.heap.Sound ∧ (∀ h, Event.change h ∈ events → h.Sound) ∧
      ((s.apply (.start (.sequence { table := ⟨0⟩ }))).log 0 events).map Prod.snd =
        [some (.indexed 1 (.string "a")), some (.indexed 2 (.string "b")), none, none] ∧
      ((s.apply (.start (.sequence { table := ⟨0⟩ }))).log 1 events).map Prod.snd =
        [some (.indexed 1 (.string "a"))] ∧
      ∃ given ended, (s.apply (.start (.sequence { table := ⟨0⟩ }))).log 0 events = given ++ ended ∧
        SequenceWalk.Course ⟨0⟩ 1 given ended := by
  let actions : List Heap.Action := [.createList [.string "a"]]
  let longer := actions ++ [.putItem ⟨0⟩ 2 (.string "b")]
  let longest := longer ++ [.putItem ⟨0⟩ 3 (.string "c")]
  let s : Loops := ⟨Heap.after actions, []⟩
  let events : List Event :=
    [.next 0, .change (Heap.after longer), .start (.sequence { table := ⟨0⟩ }), .next 1, .next 0, .next 0,
      .change (Heap.after longest), .next 0]
  have hsound (l : List Heap.Action) : (Heap.after l).Sound := Heap.Reachable.sound ⟨l, rfl⟩
  have he : ∀ h, Event.change h ∈ events → h.Sound := by
    intro h hmem
    simp only [events, List.mem_cons, List.not_mem_nil, or_false, reduceCtorEq, false_or, Event.change.injEq] at hmem
    rcases hmem with rfl | rfl
    · exact hsound longer
    · exact hsound longest
  exact ⟨s, events, hsound actions, he, by decide +kernel, by decide +kernel,
    (sequence_walk_course s ⟨0⟩ events (hsound actions) he).1⟩

end Loops

end Tabula
