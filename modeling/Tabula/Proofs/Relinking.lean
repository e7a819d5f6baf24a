import Tabula.Proofs.Enumeration
import Tabula.Proofs.Links
import Tabula.Proofs.Sequence

/-!
Linking by a description. Which descriptions are accepted is said of the map that a table is, in no order of its
entries, and of the links between the tables. Main statement: what such a link does to the chains of all tables, and
that it shows in nothing that is read off a single table.
-/

namespace Tabula

theorem Table.toList_eq_singleton_iff {t : Table} {k : Key} {v : Value} :
    t.entries.toList = [(k, v)] ↔ t.size = 1 ∧ t.get? k = some v := by
  rw [← mem_toList_iff, size, ← Std.ExtTreeMap.length_toList]
  constructor
  · intro h
    simp [h]
  · rintro ⟨hsize, hmem⟩
    obtain ⟨e, he⟩ := List.length_eq_one_iff.1 hsize
    rw [he, List.mem_singleton] at hmem
    rw [he, hmem]

namespace Heap

variable {h h' : Heap} {t f : TableId} {owner description v : Value} {e : Error}

/-- A description of a link to `f`: a table whose only entry is `f` under `__index`. -/
def Describes (h : Heap) (description : Value) (f : TableId) : Prop :=
  ∃ d, description = .table d ∧ (h.table d).size = 1 ∧ (h.table d).get? (.str "__index") = some (.table f)

theorem describedTarget_eq_ok_iff : h.describedTarget description = .ok f ↔ Describes h description f := by
  simp only [Describes, ← Table.toList_eq_singleton_iff]
  cases description with
  | table d =>
    simp only [describedTarget, Value.table.injEq, exists_eq_left']
    split
    · next target hd => simp [hd]
    · next other hother hd => simpa [hd] using hother f
    · next key _ _ hkey hd => simp [hd, mt hkey]
    · next hlist => simpa using hlist _ _
  | _ => simp [describedTarget]

/-- Where the description names a table that does not lead back to the owner, the link is made and the owner is given
back. -/
theorem perform_linkAs_of_describes (he : Ends h.next?) (hd : Describes h description f)
    (hr : ¬ Reaches h.next? f t) :
    (linkAs (.table t) description).perform h = (.ok (.table t), h.linked t f) := by
  rw [perform_linkAs, describedTarget_eq_ok_iff.2 hd]
  dsimp only
  rw [perform_link_of_not_reaches he hr]
  rfl

/-- In all other cases nothing is done. -/
theorem perform_linkAs_of_not_describes (he : Ends h.next?)
    (hn : ¬ ∃ t f, owner = .table t ∧ Describes h description f ∧ ¬ Reaches h.next? f t) :
    ∃ e, (linkAs owner description).perform h = (.error e, h) := by
  cases owner with
  | table t =>
    rw [perform_linkAs]
    cases hd : h.describedTarget description with
    | error e => exact ⟨e, rfl⟩
    | ok f =>
      have hr : Reaches h.next? f t := by
        by_contra hr
        exact hn ⟨t, f, rfl, describedTarget_eq_ok_iff.1 hd, hr⟩
      dsimp only
      rw [perform_link_of_reaches he hr]
      exact ⟨_, rfl⟩
  | _ => exact ⟨_, rfl⟩

/-! ### What is read off a single table -/

/-- No table of one heap tells it from the other: not by what is under a key, how many keys there are or how long the
sequence is, and not by what a walk of either kind gives. -/
structure SameContents (h h' : Heap) : Prop where
  get? : ∀ u k, (h'.table u).get? k = (h.table u).get? k
  read : ∀ u key, (h'.table u).read key = (h.table u).read key
  holds : ∀ u key, (h'.table u).holds key = (h.table u).holds key
  size : ∀ u, (h'.table u).size = (h.table u).size
  length : ∀ u, (h'.table u).length = (h.table u).length
  sequence : ∀ w : SequenceWalk, w.drain h' = w.drain h
  start : ∀ u, EntryWalk.start h' u = EntryWalk.start h u
  entries : ∀ w : EntryWalk, w.drain h' = w.drain h

/-- The steps of a walk depend on nothing but entries. -/
theorem collect_congr (he : ∀ u, (h'.table u).entries = (h.table u).entries) (limit : ℕ) (w : SequenceWalk) :
    w.collect h' limit = w.collect h limit := by
  induction limit generalizing w with
  | zero => rfl
  | succ limit ih =>
    have hstep : w.step h' = w.step h := by
      simp only [SequenceWalk.step, Table.item, Table.get, Table.get?, he]
    rw [SequenceWalk.collect, SequenceWalk.collect, hstep]
    rcases w.step h with ⟨_ | item, w'⟩
    · rfl
    · dsimp only
      rw [ih]

theorem SameContents.of_entries (he : ∀ u, (h'.table u).entries = (h.table u).entries) : SameContents h h' where
  get? u k := by rw [Table.get?, he, Table.get?]
  read u key := by simp only [Table.read, Table.get, Table.get?, he]
  holds u key := by simp only [Table.holds, Table.contains, he]
  size u := by rw [Table.size, he, Table.size]
  length u := by simp only [Table.length, Table.contains, Table.size, he]
  sequence w := by
    rw [SequenceWalk.drain, Table.size, he]
    exact collect_congr he _ w
  start u := by rw [EntryWalk.start, Table.keys, he, EntryWalk.start, Table.keys]
  entries w := by simp only [EntryWalk.drain, Table.get, Table.get?, he]

theorem entries_linked (h : Heap) (t f u : TableId) : ((h.linked t f).table u).entries = (h.table u).entries := by
  rw [linked, table_modify]
  split_ifs with hu
  · rw [hu.1]
  · rfl

end Heap

namespace Registry

open Heap

/-- In every scene that events lead to, linking by a description succeeds exactly if the owner is a table and the
description names a table that does not lead back to it. The owner is then given back and falls back to that table. The
chain of every table that comes by the owner goes as before up to the owner and then along the chain of the named table;
every other chain is as it was, and no single table shows the change. If linking fails, the heap is as it was. -/
theorem linkAs_relinks {World : Type} {s : Scene World} (hr : s.Reachable) (owner description : Value)
    (hlive : ∀ t, owner = .table t → t.index < s.heap.size) :
    ((∃ v, ((linkAs owner description).perform s.heap).1 = .ok v) ↔
      ∃ t f, owner = .table t ∧ Describes s.heap description f ∧ ¬ Reaches s.heap.next? f t) ∧
    (∀ v h', (linkAs owner description).perform s.heap = (.ok v, h') →
      v = owner ∧ SameContents s.heap h' ∧
      ∃ t f fs, owner = .table t ∧ Describes s.heap description f ∧ Chain s.heap.next? f fs ∧
        h'.next? = Function.update s.heap.next? t (some f) ∧
        (∀ x pre post, Chain s.heap.next? x (pre ++ t :: post) → Chain h'.next? x (pre ++ t :: fs)) ∧
        ∀ x xs, Chain s.heap.next? x xs → t ∉ xs → Chain h'.next? x xs) ∧
    ∀ e h', (linkAs owner description).perform s.heap = (.error e, h') → h' = s.heap := by
  have he := hr.sound.ends
  by_cases hd : ∃ t f, owner = .table t ∧ Describes s.heap description f ∧ ¬ Reaches s.heap.next? f t
  · obtain ⟨t, f, rfl, hdesc, hnot⟩ := hd
    have hp := perform_linkAs_of_describes he hdesc hnot
    rw [hp]
    refine ⟨⟨fun _ => ⟨t, f, rfl, hdesc, hnot⟩, fun _ => ⟨_, rfl⟩⟩, fun v h' heq => ?_, fun e h' heq => ?_⟩
    · cases heq
      obtain ⟨fs, cf⟩ := he f
      have hf : t ∉ fs := fun hmem => hnot (cf.mem_iff.1 hmem)
      have hnext : (s.heap.linked t f).next? = Function.update s.heap.next? t (some f) := by
        rw [next?_linked, if_pos (hlive t rfl)]
      refine ⟨rfl, .of_entries (s.heap.entries_linked t f), t, f, fs, rfl, hdesc, cf, hnext, ?_, ?_⟩
      · intro x pre post c
        rw [hnext]
        exact c.update_of_mem cf hf
      · intro x xs c hx
        rw [hnext]
        exact c.update_of_notMem hx _
    · simp at heq
  · obtain ⟨e, hp⟩ := perform_linkAs_of_not_describes he hd
    rw [hp]
    refine ⟨⟨?_, fun h => absurd h hd⟩, fun v h' heq => ?_, fun e h' heq => ?_⟩
    · rintro ⟨v, hv⟩
      contradiction
    · simp at heq
    · cases heq
      rfl

/-- A table that is its own description, with another table before it on a chain. -/
theorem linkAs_relinks_itself :
    ∃ s : Scene Unit, s.Reachable ∧ Describes s.heap (.table ⟨1⟩) ⟨0⟩ ∧ Chain s.heap.next? ⟨2⟩ [⟨2⟩, ⟨1⟩] ∧
      ∃ h', (linkAs (.table ⟨1⟩) (.table ⟨1⟩)).perform s.heap = (.ok (.table ⟨1⟩), h') ∧
        Chain h'.next? ⟨2⟩ [⟨2⟩, ⟨1⟩, ⟨0⟩] ∧ (h'.table ⟨1⟩).size = 1 := by
  let made : List (Event Unit) :=
    [.operation .create, .operation (.createEntries [(.string "__index", .table ⟨0⟩)]), .operation .create]
  let s : Scene Unit := { heap := (Scene.after () made).heap.linked ⟨2⟩ ⟨1⟩, world := () }
  have hr : s.Reachable := by
    refine ⟨(), made ++ [.operation (.link ⟨2⟩ ⟨1⟩)], ?_⟩
    have hlink : (link ⟨2⟩ ⟨1⟩).perform (Scene.after () made).heap = (.ok (), s.heap) := by
      rw [perform_link, walk]
      rfl
    rw [Scene.after, List.foldl_append]
    change Event.apply (.operation (.link ⟨2⟩ ⟨1⟩)) (Scene.after () made) = s
    rw [Event.apply, Event.run, Update.perform_within, Action.run, hlink]
    rfl
  have hdesc : Describes s.heap (.table ⟨1⟩) ⟨0⟩ := ⟨⟨1⟩, rfl, rfl, rfl⟩
  have hbase : Chain s.heap.next? ⟨0⟩ [⟨0⟩] := .last rfl
  have hchain : Chain s.heap.next? ⟨2⟩ [⟨2⟩, ⟨1⟩] := .step rfl (.last rfl)
  have hnot : ¬ Reaches s.heap.next? ⟨0⟩ ⟨1⟩ := by
    rw [← hbase.mem_iff]
    decide
  obtain ⟨hok, hdone, -⟩ := linkAs_relinks hr (.table ⟨1⟩) (.table ⟨1⟩) (by rintro _ ⟨⟩; decide)
  obtain ⟨v, hv⟩ := hok.2 ⟨_, _, rfl, hdesc, hnot⟩
  have hp : (linkAs (.table ⟨1⟩) (.table ⟨1⟩)).perform s.heap = (.ok v, _) := Prod.ext hv rfl
  obtain ⟨rfl, hsame, t, f, fs, ht, hf, cf, -, hthrough, -⟩ := hdone _ _ hp
  cases ht
  cases (describedTarget_eq_ok_iff.2 hf).symm.trans (describedTarget_eq_ok_iff.2 hdesc)
  cases cf.unique hbase
  exact ⟨s, hr, hdesc, hchain, _, hp, hthrough _ [⟨2⟩] [] hchain, hsame.size ⟨1⟩⟩

end Registry

end Tabula
