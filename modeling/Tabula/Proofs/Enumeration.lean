import Tabula.Proofs.Exactness
import Tabula.Proofs.FiniteMap
import Tabula.Traversal

/-!
A walk over the entries of a table that is left alone gives each entry once. Whether the keys it shows lead back to the
entries is another matter: an integer that no number stands for can be a key, and is shown rounded. Main statement: the
items make the table anew exactly if it has no such key.
-/

namespace Tabula

namespace EntryWalk

variable {h : Heap} {w w' : EntryWalk}

/-- Step after step on a heap that stays as it is, the walk gives these items and then the end. -/
inductive Drains (h : Heap) : EntryWalk → List (Value × Value) → Prop
  | done {w w' : EntryWalk} : w.step h = (none, w') → Drains h w []
  | item {w w' : EntryWalk} {e : Value × Value} {items : List (Value × Value)} :
      w.step h = (some e, w') → Drains h w' items → Drains h w (e :: items)

theorem step_of_nil {t : TableId} {k : Key} (hk : (h.table t).get k = .nil) (rest : List Key) :
    (⟨t, k :: rest⟩ : EntryWalk).step h = (⟨t, rest⟩ : EntryWalk).step h := by
  simp only [step, advance_of_nil hk]

theorem step_of_ne {t : TableId} {k : Key} (hk : (h.table t).get k ≠ .nil) (rest : List Key) :
    (⟨t, k :: rest⟩ : EntryWalk).step h = (some (k.toValue, (h.table t).get k), ⟨t, rest⟩) := by
  simp only [step, advance_of_ne hk, Option.map_some]

theorem Drains.of_step_eq {items : List (Value × Value)} (hd : Drains h w' items) (hs : w.step h = w'.step h) :
    Drains h w items := by
  cases hd with
  | done hstep => exact .done (hs.trans hstep)
  | item hstep hrest => exact .item (hs.trans hstep) hrest

theorem drains_drain (w : EntryWalk) (h : Heap) : Drains h w (w.drain h).1 := by
  obtain ⟨t, pending⟩ := w
  induction pending with
  | nil => exact .done rfl
  | cons k rest ih =>
    by_cases hk : (h.table t).get k = .nil
    · have hsame : ((⟨t, k :: rest⟩ : EntryWalk).drain h).1 = ((⟨t, rest⟩ : EntryWalk).drain h).1 := by
        simp [drain, Value.isNil_iff.2 hk]
      rw [hsame]
      exact ih.of_step_eq (step_of_nil hk rest)
    · have hitem : ((⟨t, k :: rest⟩ : EntryWalk).drain h).1 =
          (k.toValue, (h.table t).get k) :: ((⟨t, rest⟩ : EntryWalk).drain h).1 := by
        simp [drain, mt Value.isNil_iff.1 hk]
      rw [hitem]
      exact .item (step_of_ne hk rest) ih

/-- A fresh walk gives the entries as they are stored, each key as the value that it shows. -/
theorem drain_start {t : TableId} (hn : (h.table t).NoNil) :
    ((start h t).drain h).1 = (h.table t).entries.toList.map fun e => (e.1.toValue, e.2) := by
  have hget : ∀ e ∈ (h.table t).entries.toList, (h.table t).get? e.1 = some e.2 := fun e he =>
    Std.ExtTreeMap.mem_toList_iff_getElem?_eq_some.1 he
  have hpresent : ∀ k ∈ (h.table t).entries.toList.map Prod.fst, (!((h.table t).get k).isNil) = true := by
    intro k hk
    obtain ⟨e, he, rfl⟩ := List.mem_map.1 hk
    rw [Bool.not_eq_true', Bool.eq_false_iff, Ne, Value.isNil_iff, hn.get_eq_nil_iff, Table.contains_eq, hget e he]
    simp
  dsimp only [start, drain]
  rw [Table.keys, ← Std.ExtTreeMap.map_fst_toList_eq_keys, List.filter_eq_self.2 hpresent, List.map_map]
  refine List.map_congr_left fun e he => ?_
  rw [Function.comp_apply, Table.get, hget e he, Option.getD_some]

end EntryWalk

namespace Table

variable {t made : Table} {k : Key} {v : Value} {entries : List (Key × Value)}

/-- Every integer key is the key of a number. -/
def Denoted (t : Table) : Prop := ∀ i, t.contains (.int i) = true → ∃ x, Key.ofNumber? x = some (.int i)

theorem Denoted.empty : ({} : Table).Denoted := by
  intro i hi
  rw [contains_eq, get?_empty] at hi
  contradiction

theorem Denoted.of_small (h : ∀ i, t.contains (.int i) = true → i.natAbs ≤ 2 ^ 53) : t.Denoted :=
  fun i hi => Key.exists_ofNumber?_eq_int (h i hi)

theorem Denoted.ofValue?_toValue (hd : t.Denoted) (hn : t.NormalKeys) (hg : t.get? k = some v) :
    Key.ofValue? k.toValue = some k := by
  cases k with
  | int i =>
    obtain ⟨x, hx⟩ := hd i (by rw [contains_eq, hg]; rfl)
    exact Key.ofValue?_toValue (v := .number x) hx
  | float x =>
    obtain ⟨hnan, hi⟩ : (Key.float x).Normal := hn _ (by simp [hg])
    exact Key.ofNumber?_eq_float_iff.2 ⟨rfl, hnan, hi⟩
  | str s => rfl

theorem foldlM_write_toValue (hk : ∀ e ∈ entries, Key.ofValue? e.1.toValue = some e.1) (start : Table) :
    (entries.map fun e => (e.1.toValue, e.2)).foldlM (fun t e => t.write e.1 e.2) start =
      .ok (entries.foldl (fun t e => t.put e.1 e.2) start) := by
  induction entries generalizing start with
  | nil => rfl
  | cons e rest ih =>
    rw [List.forall_mem_cons] at hk
    rw [List.map_cons, foldlM_write_cons]
    exact ⟨e.1, hk.1, ih hk.2 _⟩

theorem get?_foldl_put {start : Table} (hv : ∀ e ∈ entries, e.1 = k → e.2 = v)
    (hs : (k, v) ∉ entries → start.get? k = if v = .nil then none else some v) :
    (entries.foldl (fun t e => t.put e.1 e.2) start).get? k = if v = .nil then none else some v := by
  induction entries generalizing start with
  | nil => exact hs List.not_mem_nil
  | cons e rest ih =>
    rw [List.forall_mem_cons] at hv
    rw [List.foldl_cons]
    refine ih hv.2 fun hrest => ?_
    rw [get?_put]
    by_cases hk : k = e.1
    · rw [if_pos hk, hv.1 hk.symm]
    · rw [if_neg hk]
      refine hs fun hm => ?_
      rcases List.mem_cons.1 hm with rfl | hm
      · exact hk rfl
      · exact hrest hm

/-- Entries of which no two disagree are what the table holds, those with `nil` apart. -/
theorem get?_foldl_put_iff (hd : ∀ a ∈ entries, ∀ b ∈ entries, a.1 = b.1 → a.2 = b.2) :
    (entries.foldl (fun t e => t.put e.1 e.2) ({} : Table)).get? k = some v ↔ v ≠ .nil ∧ (k, v) ∈ entries := by
  by_cases hk : ∃ u, (k, u) ∈ entries
  · obtain ⟨u, hu⟩ := hk
    have hsame : (k, v) ∈ entries → v = u := fun hv => hd _ hv _ hu rfl
    rw [get?_foldl_put (fun e he hek => hd e he _ hu hek) fun hn => absurd hu hn]
    split_ifs with hnil
    · simp only [false_iff, not_and]
      exact fun hv hm => hv ((hsame hm).trans hnil)
    · rw [Option.some.injEq]
      constructor
      · rintro rfl
        exact ⟨hnil, hu⟩
      · exact fun h => (hsame h.2).symm
  · push Not at hk
    rw [get?_foldl_put (v := .nil) (fun e he hek => absurd (hek ▸ he) (hk e.2)) fun _ => get?_empty k]
    simp [hk v]

theorem pairwise_toList (t : Table) : t.entries.toList.Pairwise fun a b => a.1 ≠ b.1 := by
  refine Std.ExtTreeMap.distinct_keys_toList.imp fun hab hk => hab ?_
  rw [hk]
  exact Std.ReflCmp.compare_self

theorem mem_toList_iff : (k, v) ∈ t.entries.toList ↔ t.get? k = some v :=
  Std.ExtTreeMap.mem_toList_iff_getElem?_eq_some

theorem entries_foldl_put (hn : t.NoNil) :
    (t.entries.toList.foldl (fun t e => t.put e.1 e.2) ({} : Table)).entries = t.entries := by
  refine Std.ExtTreeMap.ext_getElem? fun k => Option.ext fun v => ?_
  have hone : ∀ a ∈ t.entries.toList, ∀ b ∈ t.entries.toList, a.1 = b.1 → a.2 = b.2 := by
    intro a ha b hb hab
    have hg := mem_toList_iff.1 ha
    rw [hab, mem_toList_iff.1 hb, Option.some.injEq] at hg
    exact hg.symm
  refine (get?_foldl_put_iff hone).trans ?_
  rw [mem_toList_iff]
  exact and_iff_right_of_imp fun hg hv => hn k (hv ▸ hg)

theorem denoted_foldlM_write {entries : List (Value × Value)} {start : Table}
    (h : entries.foldlM (fun t e => t.write e.1 e.2) start = .ok made) (hs : start.Denoted) : made.Denoted := by
  induction entries generalizing start with
  | nil =>
    obtain rfl : start = made := by simpa [pure, Except.pure] using h
    exact hs
  | cons e rest ih =>
    obtain ⟨k, hk, hrest⟩ := foldlM_write_cons.1 h
    refine ih hrest fun i hi => ?_
    rw [contains_eq, get?_put] at hi
    by_cases hik : Key.int i = k
    · subst hik
      cases he : e.1 with
      | number x => exact ⟨x, by rwa [he] at hk⟩
      | string s => rw [he] at hk; simp [Key.ofValue?] at hk
      | _ => rw [he] at hk; contradiction
    · rw [if_neg hik] at hi
      exact hs i (by rw [contains_eq, hi])

end Table

namespace Registry

/-- In every scene that events lead to, a fresh walk over a table that is left alone gives as many items as there are
keys. If every integer key is the key of a number, as all up to `2 ^ 53` are, then the keys shown are pairwise unequal,
each of them reads as the value given with it, and the items make a table with the same entries. If not, they do not
make it. -/
theorem entries_enumerated {World : Type} {s : Scene World} (hr : s.Reachable) (t : TableId) :
    ∃ items, EntryWalk.Drains s.heap (.start s.heap t) items ∧ items.length = (s.heap.table t).size ∧
      ((s.heap.table t).Denoted →
        (items.Pairwise fun a b => a.1.equal b.1 = false) ∧ ∀ e ∈ items, (s.heap.table t).read e.1 = e.2) ∧
      ((s.heap.table t).Denoted ↔
        ∃ made, Table.ofEntries items = .ok made ∧ made.entries = (s.heap.table t).entries) ∧
      ((∀ i, (s.heap.table t).contains (.int i) = true → i.natAbs ≤ 2 ^ 53) → (s.heap.table t).Denoted) := by
  have hs := hr.sound
  have hback (hd : (s.heap.table t).Denoted) :
      ∀ e ∈ (s.heap.table t).entries.toList, Key.ofValue? e.1.toValue = some e.1 := fun e he =>
    hd.ofValue?_toValue (hs.normal t) (Table.mem_toList_iff.1 he)
  refine ⟨_, EntryWalk.drains_drain _ _, ?_, fun hd => ?_, ⟨fun hd => ?_, ?_⟩, Table.Denoted.of_small⟩
  · rw [EntryWalk.drain_start (hs.noNil t), List.length_map, Std.ExtTreeMap.length_toList]
    rfl
  · rw [EntryWalk.drain_start (hs.noNil t)]
    refine ⟨?_, ?_⟩
    · rw [List.pairwise_map]
      refine (Table.pairwise_toList _).imp_of_mem fun {a b} ha hb hne => ?_
      rw [← Bool.not_eq_true, ← Key.ofValue?_eq_iff (hback hd b hb), hback hd a ha]
      simpa using hne
    · intro e he
      obtain ⟨⟨k, v⟩, hm, rfl⟩ := List.mem_map.1 he
      rw [Table.read_eq (hback hd _ hm), Table.mem_toList_iff.1 hm]
      rfl
  · rw [EntryWalk.drain_start (hs.noNil t)]
    exact ⟨_, Table.foldlM_write_toValue (hback hd) {}, Table.entries_foldl_put (hs.noNil t)⟩
  · rintro ⟨made, hmade, hsame⟩ i hi
    refine Table.denoted_foldlM_write hmade .empty i ?_
    rwa [Table.contains, hsame]

/-- The largest integers up to which there is no gap, and a field. -/
theorem entries_enumerated_limits :
    ∃ s : Scene Unit, s.Reachable ∧ ∃ items, EntryWalk.Drains s.heap (.start s.heap ⟨0⟩) items ∧ items.length = 3 ∧
      (items.Pairwise fun a b => a.1.equal b.1 = false) ∧ (∀ e ∈ items, (s.heap.table ⟨0⟩).read e.1 = e.2) ∧
      ∃ made, Table.ofEntries items = .ok made ∧ made.entries = (s.heap.table ⟨0⟩).entries := by
  let events : List (Event Unit) :=
    [.operation .create, .operation (.putItem ⟨0⟩ (2 ^ 53) (.string "a")),
      .operation (.putItem ⟨0⟩ (-2 ^ 53) (.string "b")), .operation (.putField ⟨0⟩ "x" (.boolean true))]
  have hr : (Scene.after () events).Reachable := ⟨(), events, rfl⟩
  obtain ⟨items, hdrains, hlength, hfaithful, hmade, hsmall⟩ := entries_enumerated hr ⟨0⟩
  have htable : (Scene.after () events).heap.table ⟨0⟩ = (((({} : Table).put (.int (2 ^ 53)) (.string "a")).put
      (.int (-2 ^ 53)) (.string "b")).put (.str "x") (.boolean true)) := rfl
  have hd : ((Scene.after () events).heap.table ⟨0⟩).Denoted := by
    refine hsmall fun i hi => ?_
    rw [htable, Table.contains_eq] at hi
    simp only [Table.get?_put, Table.get?_empty, Key.int.injEq, reduceCtorEq, if_false] at hi
    split_ifs at hi <;> first | omega | contradiction
  exact ⟨_, hr, items, hdrains, hlength, (hfaithful hd).1, (hfaithful hd).2, hmade.1 hd⟩

/-- The integer after `2 ^ 53` is shown as `2 ^ 53`, under which nothing is stored. -/
theorem entries_enumerated_rounded :
    ∃ s : Scene Unit, s.Reachable ∧ ∃ items, EntryWalk.Drains s.heap (.start s.heap ⟨0⟩) items ∧
      ¬ (∀ e ∈ items, (s.heap.table ⟨0⟩).read e.1 = e.2) ∧
      ¬ ∃ made, Table.ofEntries items = .ok made ∧ made.entries = (s.heap.table ⟨0⟩).entries := by
  let events : List (Event Unit) :=
    [.operation .create, .operation (.putItem ⟨0⟩ (2 ^ 53 + 1) (.string "x"))]
  let s := Scene.after () events
  refine ⟨s, ⟨(), events, rfl⟩, _, EntryWalk.drains_drain _ _, fun hread => ?_, ?_⟩
  · obtain ⟨x, hx⟩ : ∃ x, x = Binary64.ofInt (2 ^ 53 + 1) := ⟨_, rfl⟩
    have hshown : (Value.number x, Value.string "x") ∈ ((EntryWalk.start s.heap ⟨0⟩).drain s.heap).1 := by
      rw [hx]
      decide +kernel
    have hnil : (s.heap.table ⟨0⟩).read (.number x) = .nil := by
      rw [hx]
      decide +kernel
    exact absurd (hnil.symm.trans (hread _ hshown)) (by simp)
  · rintro ⟨made, hmade, hsame⟩
    have hkey : made.contains (.int (2 ^ 53 + 1)) = true := by
      rw [Table.contains, hsame]
      decide +kernel
    obtain ⟨x, hx⟩ := Table.denoted_foldlM_write hmade .empty _ hkey
    have hint := Binary64.toInt?_ofInt (Key.ofNumber?_eq_int_iff.1 hx).1
    have hround : (Binary64.ofInt (2 ^ 53 + 1)).toInt? = some (2 ^ 53) := by decide +kernel
    exact absurd (hround.symm.trans hint) (by decide)

end Registry

end Tabula
