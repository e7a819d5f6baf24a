import Mathlib.Data.List.Perm.Subperm
import Mathlib.Data.Nat.Find
import Mathlib.Order.Bounds.Basic
import Tabula.Proofs.FiniteMap
import Tabula.Traversal

/-!
The length of a table as a sequence: the number of entries at 1, 2, 3 and so on before the first gap. Main statement:
in every table that a program can make, counting up comes to that gap, a walk over the sequence gives just the entries
before it, and each write moves the length as far as the gap moves. A write that closes the gap moves it past entries
that were out of reach before.
-/

namespace Tabula

namespace Table

variable {t : Table} {i : ℤ} {n r r' : ℕ} {k : Key} {v : Value}

theorem contains_put (t : Table) (k k' : Key) (v : Value) :
    (t.put k v).contains k' = if k' = k then !v.isNil else t.contains k' := by
  rw [contains_eq, contains_eq, get?_put]
  split_ifs with hk hv
  · rw [Value.isNil_iff.2 hv]
    rfl
  · rw [Bool.eq_false_iff.2 (mt Value.isNil_iff.1 hv)]
    rfl
  · rfl

/-! ### Runs of indices -/

/-- Indices without a gap are as many keys, so the number of keys bounds theirs. -/
theorem le_size_of_contains (h : ∀ j : ℕ, j < r → t.contains (.int (i + j)) = true) : r ≤ t.size := by
  have hnodup : ((List.range r).map fun j : ℕ => Key.int (i + j)).Nodup := by
    refine List.nodup_range.map fun a b hab => ?_
    simpa using hab
  have hsub : ((List.range r).map fun j : ℕ => Key.int (i + j)) ⊆ t.keys := by
    intro k hk
    obtain ⟨j, hj, rfl⟩ := List.mem_map.1 hk
    exact Std.ExtTreeMap.mem_keys.2 (h j (List.mem_range.1 hj))
  have hle := (List.subperm_of_subset hnodup hsub).length_le
  rwa [List.length_map, List.length_range, keys, Std.ExtTreeMap.length_keys] at hle

/-- There are `r` entries from the index `i` on before the first gap. -/
structure Run (t : Table) (i : ℤ) (r : ℕ) : Prop where
  present : ∀ j : ℕ, j < r → t.contains (.int (i + j)) = true
  absent : t.contains (.int (i + r)) = false

theorem exists_run (t : Table) (i : ℤ) : ∃ r, t.Run i r := by
  have hgap : ∃ n : ℕ, t.contains (.int (i + n)) = false := by
    by_contra hnone
    push Not at hnone
    have hle := le_size_of_contains (t := t) (i := i) (r := t.size + 1) fun j _ => by simpa using hnone j
    omega
  refine ⟨Nat.find hgap, fun j hj => ?_, Nat.find_spec hgap⟩
  simpa using Nat.find_min hgap hj

namespace Run

theorem le_size (h : t.Run i r) : r ≤ t.size := le_size_of_contains h.present

theorem isLeast (h : t.Run i r) : IsLeast {n : ℕ | t.contains (.int (i + n)) = false} r := by
  refine ⟨h.absent, fun n hn => ?_⟩
  by_contra hlt
  have hpresent := h.present n (not_le.1 hlt)
  rw [show t.contains (.int (i + n)) = false from hn] at hpresent
  contradiction

theorem tail (h : t.Run i (r + 1)) : t.contains (.int i) = true ∧ t.Run (i + 1) r := by
  have hnext : ∀ j : ℕ, i + (j + 1 : ℕ) = i + 1 + j := by omega
  refine ⟨?_, fun j hj => ?_, ?_⟩
  · simpa using h.present 0 (by omega)
  · rw [← hnext]
    exact h.present (j + 1) (by omega)
  · rw [← hnext]
    exact h.absent

theorem length_eq (h : t.Run 1 r) : t.length = r := by
  have hsize : t.size = r + (t.size - r) := by
    have := h.le_size
    omega
  have hpresent : ∀ j ∈ List.range r, t.contains (.int (j + 1)) = true := by
    intro j hj
    rw [add_comm]
    exact h.present j (List.mem_range.1 hj)
  have habsent : t.contains (.int (r + 1)) = false := by
    rw [add_comm]
    exact h.absent
  rw [length, hsize, List.range_add, List.takeWhile_append_of_pos hpresent]
  cases t.size - r with
  | zero => simp
  | succ m => simp [List.range_succ_eq_map, habsent]

end Run

theorem run_length (t : Table) : t.Run 1 t.length := by
  obtain ⟨r, hr⟩ := t.exists_run 1
  rwa [hr.length_eq]

def sequence (t : Table) : List (ℤ × Value) := (List.range t.length).map fun j : ℕ => ((j + 1 : ℤ), t.item (j + 1))

@[simp] theorem length_sequence (t : Table) : t.sequence.length = t.length := by
  simp [sequence]

/-- Counting up from `n` while there is an entry at the next index comes to `m` and stops there. -/
inductive CountsTo (t : Table) : ℕ → ℕ → Prop
  | stop {n : ℕ} : t.contains (.int (n + 1)) = false → CountsTo t n n
  | step {n m : ℕ} : t.contains (.int (n + 1)) = true → CountsTo t (n + 1) m → CountsTo t n m

theorem Run.countsTo (h : t.Run (n + 1) r) : t.CountsTo n (n + r) := by
  induction r generalizing n with
  | zero => exact .stop (by simpa using h.absent)
  | succ r ih =>
    obtain ⟨hfirst, hrest⟩ := h.tail
    have hcount := ih (n := n + 1) (by exact_mod_cast hrest)
    rw [show n + 1 + r = n + (r + 1) by omega] at hcount
    exact .step hfirst hcount

/-! ### What a write does to the length -/

/-- The length before and after a write of `v` under `k`: the write takes an entry out of the sequence, puts one at its
end, or leaves the sequence as long as it is. -/
structure LengthMoves (t : Table) (k : Key) (v : Value) (t' : Table) : Prop where
  cut : ∀ i : ℤ, k = .int i → 1 ≤ i → i ≤ t.length → v = .nil → (t'.length : ℤ) = i - 1
  extend : k = .int (t.length + 1) → v ≠ .nil → ∃ r, t.Run (t.length + 2) r ∧ t'.length = t.length + 1 + r
  keep : ¬ (∃ i : ℤ, k = .int i ∧ 1 ≤ i ∧ i ≤ t.length ∧ v = .nil) → ¬ (k = .int (t.length + 1) ∧ v ≠ .nil) →
    t'.length = t.length

theorem Run.put_nil (h : t.Run 1 n) (hr : r < n) : (t.put (.int (1 + r)) .nil).Run 1 r where
  present := by
    intro j hj
    rw [contains_put, if_neg (by simpa using hj.ne)]
    exact h.present j (by omega)
  absent := by
    rw [contains_put, if_pos rfl]
    rfl

/-- The entry that closes the gap joins the run before it and the run after it. -/
theorem Run.put_join (h : t.Run 1 n) (hr : t.Run (n + 2) r) (hv : v ≠ .nil) :
    (t.put (.int (n + 1)) v).Run 1 (n + 1 + r) where
  present := by
    intro j hj
    rw [contains_put]
    split_ifs with hk
    · simpa [← Value.isNil_iff] using hv
    · simp only [Key.int.injEq] at hk
      rcases Nat.lt_or_ge j n with hlt | hge
      · exact h.present j hlt
      · have hj' := hr.present (j - (n + 1)) (by omega)
        rwa [show (n : ℤ) + 2 + (j - (n + 1) : ℕ) = 1 + j by omega] at hj'
  absent := by
    rw [contains_put, if_neg (by simp only [Key.int.injEq]; omega)]
    have := hr.absent
    rwa [show (n : ℤ) + 2 + r = 1 + (n + 1 + r : ℕ) by omega] at this

theorem Run.put_of_contains (h : t.Run 1 n)
    (hk : ∀ j : ℕ, j ≤ n → k = .int (1 + j) → t.contains k = !v.isNil) : (t.put k v).Run 1 n := by
  have hsame : ∀ j : ℕ, j ≤ n → (t.put k v).contains (.int (1 + j)) = t.contains (.int (1 + j)) := by
    intro j hj
    rw [contains_put]
    split_ifs with he
    · rw [he, hk j hj he.symm]
    · rfl
  exact ⟨fun j hj => (hsame j hj.le).trans (h.present j hj), (hsame n le_rfl).trans h.absent⟩

theorem lengthMoves_put (t : Table) (k : Key) (v : Value) : t.LengthMoves k v (t.put k v) where
  cut := by
    rintro i rfl hlow hhigh rfl
    obtain ⟨r, rfl⟩ : ∃ r : ℕ, i = 1 + r := ⟨(i - 1).toNat, by omega⟩
    rw [(t.run_length.put_nil (by omega)).length_eq]
    omega
  extend := by
    rintro rfl hv
    obtain ⟨r, hr⟩ := t.exists_run (t.length + 2)
    exact ⟨r, hr, (t.run_length.put_join hr hv).length_eq⟩
  keep := by
    intro hcut hextend
    refine (t.run_length.put_of_contains fun j hj he => ?_).length_eq
    rcases hj.lt_or_eq with hlt | rfl
    · -- an entry of the sequence is there before and after
      have hv : v ≠ .nil := fun hv => hcut ⟨_, he, by omega, by omega, hv⟩
      rw [he, t.run_length.present j hlt, Bool.eq_false_iff.2 (mt Value.isNil_iff.1 hv)]
      rfl
    · -- the gap is there before and after
      have hv : v = .nil := by
        by_contra hv
        exact hextend ⟨by rw [he, add_comm], hv⟩
      rw [he, t.run_length.absent, hv]
      rfl

end Table

/-! ### Walks over the sequence -/

namespace SequenceWalk

variable {h : Heap} {t : TableId} {i : ℤ} {w : SequenceWalk} {items items' : List (ℤ × Value)}

theorem step_item (hv : (h.table t).item i ≠ .nil) :
    (⟨t, i, false⟩ : SequenceWalk).step h = (some (i, (h.table t).item i), ⟨t, i + 1, false⟩) := by
  rw [step, if_neg Bool.false_ne_true]
  dsimp only
  split
  · contradiction
  · rfl

theorem step_end (hv : (h.table t).item i = .nil) :
    (⟨t, i, false⟩ : SequenceWalk).step h = (none, ⟨t, i, true⟩) := by
  rw [step, if_neg Bool.false_ne_true]
  dsimp only
  rw [hv]

theorem step_finished (h : Heap) (t : TableId) (i : ℤ) :
    (⟨t, i, true⟩ : SequenceWalk).step h = (none, ⟨t, i, true⟩) := if_pos rfl

/-- Step after step on a heap that stays as it is, the walk gives these items and then the end. -/
inductive Drains (h : Heap) : SequenceWalk → List (ℤ × Value) → Prop
  | done {w w' : SequenceWalk} : w.step h = (none, w') → Drains h w []
  | item {w w' : SequenceWalk} {e : ℤ × Value} {items : List (ℤ × Value)} :
      w.step h = (some e, w') → Drains h w' items → Drains h w (e :: items)

theorem Drains.unique (hd : Drains h w items) (hd' : Drains h w items') : items = items' := by
  induction hd generalizing items' with
  | done hs =>
    cases hd' with
    | done _ => rfl
    | item hs' _ => simp [hs] at hs'
  | item hs _ ih =>
    cases hd' with
    | done hs' => simp [hs] at hs'
    | item hs' hrest =>
      rw [hs, Prod.mk.injEq, Option.some.injEq] at hs'
      obtain ⟨rfl, rfl⟩ := hs'
      rw [ih hrest]

/-- Given enough steps, `collect` finds what there is. -/
theorem Drains.collect_eq (hd : Drains h w items) {limit : ℕ} (hl : items.length < limit) :
    (collect h limit w).1 = items := by
  induction hd generalizing limit with
  | done hs =>
    obtain ⟨limit, rfl⟩ := Nat.exists_eq_add_one_of_ne_zero (by omega : limit ≠ 0)
    rw [collect, hs]
  | item hs _ ih =>
    obtain ⟨limit, rfl⟩ := Nat.exists_eq_add_one_of_ne_zero (by omega : limit ≠ 0)
    rw [collect, hs]
    dsimp only
    rw [ih (by simpa using hl)]

/-- A walk at the index `i` gives the run that starts there. -/
theorem drains_run {r : ℕ} (hn : (h.table t).NoNil) (hr : (h.table t).Run i r) :
    Drains h ⟨t, i, false⟩ ((List.range r).map fun j : ℕ => (i + j, (h.table t).item (i + j))) := by
  induction r generalizing i with
  | zero => exact .done (step_end (hn.get_eq_nil_iff.2 (by simpa using hr.absent)))
  | succ r ih =>
    obtain ⟨hfirst, hrest⟩ := hr.tail
    have hv : (h.table t).item i ≠ .nil := by
      rw [Table.item, Ne, hn.get_eq_nil_iff, hfirst]
      simp
    have hitems : (List.range (r + 1)).map (fun j : ℕ => (i + j, (h.table t).item (i + j))) =
        (i, (h.table t).item i) :: (List.range r).map fun j : ℕ => (i + 1 + j, (h.table t).item (i + 1 + j)) := by
      rw [List.range_succ_eq_map, List.map_cons, List.map_map, Nat.cast_zero, add_zero]
      congr 2
      funext j
      simp only [Function.comp_apply, show i + (j.succ : ℕ) = i + 1 + j by omega]
    rw [hitems]
    exact .item (step_item hv) (ih hrest)

theorem drains_sequence (hn : (h.table t).NoNil) : Drains h { table := t } (h.table t).sequence := by
  have hd := drains_run hn (h.table t).run_length
  simpa only [Table.sequence, add_comm (1 : ℤ)] using hd

theorem drain_eq (hn : (h.table t).NoNil) : (drain { table := t } h).1 = (h.table t).sequence := by
  refine (drains_sequence hn).collect_eq ?_
  rw [Table.length_sequence]
  exact Nat.lt_succ_of_le (h.table t).run_length.le_size

end SequenceWalk

namespace Heap

/-- What an operation writes, and where, if it writes at all: the table, the key and the value. -/
def Action.written? : Action → Option (TableId × Key × Value)
  | .write t key v => (Key.ofValue? key).map fun k => (t, k, v)
  | .assign (.table t) key v => (Key.ofValue? key).map fun k => (t, k, v)
  | .putField t name v => some (t, .str name, v)
  | .putItem t i v => some (t, .int i, v)
  | .erase t k => some (t, k, .nil)
  | _ => none

theorem Action.perform_of_written {a : Action} {t : TableId} {k : Key} {v : Value}
    (hw : a.written? = some (t, k, v)) (h : Heap) :
    a.run.perform h = (.ok (), h.modify t fun content => content.put k v) := by
  cases a with
  | write u key w =>
    obtain ⟨k', hk, he⟩ := Option.map_eq_some_iff.1 hw
    cases he
    exact perform_assign_eq_ok_iff.2 ⟨k, hk, rfl⟩
  | assign container key w =>
    cases container with
    | table u =>
      obtain ⟨k', hk, he⟩ := Option.map_eq_some_iff.1 hw
      cases he
      exact perform_assign_eq_ok_iff.2 ⟨k, hk, rfl⟩
    | _ => contradiction
  | putField u name w =>
    cases hw
    rfl
  | putItem u i w =>
    cases hw
    rfl
  | erase u k' =>
    cases hw
    rfl
  | _ => contradiction

end Heap

namespace Registry

/-- In every scene that events lead to, counting up in a table comes to its length, which is the least number without an
entry after it and at most the number of keys. A fresh walk over the sequence of a table that is left alone gives the
entries from 1 to the length, in order, and then the end. A write succeeds only under a value that has a key, and every
operation that writes under a key succeeds. It moves the length to just before an entry that it takes out of the
sequence, past the run that follows if it puts an entry at the end of the sequence, and not at all otherwise. -/
theorem sequence_length_moves {World : Type} {s : Scene World} (hr : s.Reachable) (t : TableId) :
    s.heap.length (.table t) = .ok (s.heap.table t).length ∧
    (s.heap.table t).CountsTo 0 (s.heap.table t).length ∧
    IsLeast {n : ℕ | (s.heap.table t).contains (.int (n + 1)) = false} (s.heap.table t).length ∧
    (∀ items, SequenceWalk.Drains s.heap { table := t } items ↔ items = (s.heap.table t).sequence) ∧
    (SequenceWalk.drain { table := t } s.heap).1 = (s.heap.table t).sequence ∧
    (s.heap.table t).sequence.length = (s.heap.table t).length ∧
    (s.heap.table t).length ≤ (s.heap.table t).size ∧
    (∀ key v h', (Heap.write t key v).perform s.heap = (.ok (), h') →
      ∃ k, (Heap.Action.write t key v).written? = some (t, k, v)) ∧
    (t.index < s.heap.size → ∀ (a : Heap.Action) (k : Key) (v : Value), a.written? = some (t, k, v) →
      ∃ h', a.run.perform s.heap = (.ok (), h') ∧ (s.heap.table t).LengthMoves k v (h'.table t)) := by
  have hn := hr.sound.noNil t
  have hrun := (s.heap.table t).run_length
  have hdrains := SequenceWalk.drains_sequence hn
  refine ⟨rfl, ?_, ?_, fun items => ⟨fun hd => hd.unique hdrains, ?_⟩, SequenceWalk.drain_eq hn,
    Table.length_sequence _, hrun.le_size, fun key v h' hp => ?_, fun ht a k v hw => ?_⟩
  · simpa using Table.Run.countsTo (n := 0) (by simpa using hrun)
  · simpa only [add_comm (1 : ℤ)] using hrun.isLeast
  · rintro rfl
    exact hdrains
  · obtain ⟨k, hk, -⟩ := Heap.perform_assign_eq_ok_iff.1 hp
    exact ⟨k, by rw [Heap.Action.written?, hk]; rfl⟩
  · refine ⟨_, Heap.Action.perform_of_written hw _, ?_⟩
    rw [Heap.table_modify, if_pos ⟨rfl, ht⟩]
    exact Table.lengthMoves_put _ k v

/-- Of the entries at 1, 2, 4 and 5 two count until a write under the number 3 joins the others to them. -/
theorem sequence_length_moves_joined :
    ∃ s : Scene Unit, s.Reachable ∧ (s.heap.table ⟨0⟩).length = 2 ∧
      ∃ h' r, (Heap.write ⟨0⟩ (.number 3) (.string "c")).perform s.heap = (.ok (), h') ∧
        (s.heap.table ⟨0⟩).Run 4 r ∧ r = 2 ∧ (h'.table ⟨0⟩).length = 3 + r := by
  let events : List (Event Unit) :=
    [.operation (.createList [.string "a", .string "b", .nil, .string "d", .string "e"])]
  have hr : (Scene.after () events).Reachable := ⟨(), events, rfl⟩
  have hlength : ((Scene.after () events).heap.table ⟨0⟩).length = 2 := by decide +kernel
  have hkey : Key.ofValue? (.number 3) = some (.int 3) := by decide +kernel
  have hrun : ((Scene.after () events).heap.table ⟨0⟩).Run 4 2 := ⟨by decide +kernel, by decide +kernel⟩
  obtain ⟨-, -, -, -, -, -, -, -, hmoves⟩ := sequence_length_moves hr ⟨0⟩
  obtain ⟨h', hp, hmove⟩ := hmoves (by decide) (.write ⟨0⟩ (.number 3) (.string "c")) (.int 3) (.string "c")
    (by rw [Heap.Action.written?, hkey]; rfl)
  obtain ⟨r, hr4, hnew⟩ := hmove.extend (by rw [hlength]; rfl) (by simp)
  rw [hlength] at hr4 hnew
  exact ⟨_, hr, hlength, h', r, hp, hr4, hr4.isLeast.unique hrun.isLeast, hnew⟩

end Registry

end Tabula
