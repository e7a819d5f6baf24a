import Tabula.Proofs.KeyEquality
import Tabula.Proofs.Lookup

/-!
Who sees a write. A write into `o` is seen by exactly the tables that have `o` on their chain with no table before it
that holds the key; every other read stays as it was, and a removal shows again what `o` inherits.
-/

namespace Tabula

namespace Table

variable {key : Value} {k : Key}

theorem put_of_ne (t : Table) (v : Value) (hk : Key.ofValue? key ≠ some k) :
    (t.put k v).holds key = t.holds key ∧ (t.put k v).read key = t.read key := by
  cases hk' : Key.ofValue? key with
  | none => simp only [holds_eq_false_of_keyless hk', read_eq_nil_of_keyless hk', and_self]
  | some k' =>
    have hne : k' ≠ k := fun h => hk (h ▸ hk')
    simp only [holds_eq hk', read_eq hk', get?_put, if_neg hne, and_self]

theorem holds_congr {key' : Value} (hk : Key.ofValue? key = Key.ofValue? key') (t : Table) :
    t.holds key = t.holds key' := by
  simp only [holds, hk]

end Table

namespace Heap

variable {h h' : Heap} {o t u x : TableId} {key key' v : Value} {k : Key} {e : Error}

theorem perform_assign_eq_ok_iff :
    (assign (.table o) key v).perform h = (.ok (), h') ↔
      ∃ k, Key.ofValue? key = some k ∧ h' = h.modify o fun content => content.put k v := by
  rw [assign, perform_write]
  cases hw : (h.table o).write key v with
  | ok content =>
    obtain ⟨k, hk, rfl⟩ := Table.write_eq_ok_iff.1 hw
    simp [hk, modify, eq_comm]
  | error e =>
    have hk : ∀ k, Key.ofValue? key ≠ some k := fun k hk => by
      rw [Table.write_eq_ok_iff.2 ⟨k, hk, rfl⟩] at hw
      contradiction
    simp [hk]

theorem perform_assign_error {container : Value} (hp : (assign container key v).perform h = (.error e, h')) :
    h' = h := by
  cases container with
  | table o =>
    rw [assign, perform_write] at hp
    cases hw : (h.table o).write key v with
    | ok content => rw [hw] at hp; simp at hp
    | error e' => rw [hw] at hp; exact (Prod.mk.inj hp).2.symm
  | _ => exact (Prod.mk.inj hp).2.symm

theorem lookup_congr (hk : Key.ofValue? key = Key.ofValue? key') (h : Heap) (t : TableId) :
    h.lookup t key = h.lookup t key' := by
  simp only [lookup, hk]

theorem table_modify_of_ne (h : Heap) (f : Table → Table) (hu : u ≠ o) : (h.modify o f).table u = h.table u := by
  rw [table_modify, if_neg fun hc => hu hc.1]

theorem next?_put (h : Heap) (o : TableId) (k : Key) (v : Value) :
    (h.modify o fun content => content.put k v).next? = h.next? :=
  next?_modify fun _ => Table.fallback_put ..

theorem Visible.refl {xs : List TableId} (c : Chain h.next? x xs) (key : Value) : Visible h key x x := by
  cases c with
  | last hn => exact ⟨[], [], .last hn, by simp⟩
  | step hn c => exact ⟨[], _, .step hn c, by simp⟩

/-- The next table does not see what falls back to it. -/
theorem not_visible_of_next? (hn : h.next? o = some u) : ¬ Visible h key u o := by
  rintro ⟨pre, post, c, -⟩
  have hnodup := (Chain.step hn c).nodup
  simp at hnodup

/-- No table before `o` is written, so `o` stays in sight. -/
theorem Visible.put (hv : Visible h key x o) (k : Key) (v : Value) :
    Visible (h.modify o fun content => content.put k v) key x o := by
  obtain ⟨pre, post, c, hpre⟩ := hv
  refine ⟨pre, post, by rwa [next?_put], fun w hw => ?_⟩
  have hne : w ≠ o := by
    rintro rfl
    have hnodup := c.nodup
    rw [List.nodup_middle, List.nodup_cons] at hnodup
    exact hnodup.1 (List.mem_append_left _ hw)
  rw [table_modify_of_ne _ _ hne, hpre w hw]

/-- Only the written table may answer otherwise, and only under the written key. -/
theorem table_put_of_not_visible {xs : List TableId} (c : Chain h.next? x xs)
    (hv : ¬ (Key.ofValue? key' = some k ∧ Visible h key x o)) :
    ((h.modify o fun content => content.put k v).table x).holds key' = (h.table x).holds key' ∧
    ((h.modify o fun content => content.put k v).table x).read key' = (h.table x).read key' := by
  by_cases hx : x = o
  · subst hx
    rw [table_modify]
    split_ifs
    · exact Table.put_of_ne _ _ fun hk' => hv ⟨hk', .refl c key⟩
    · exact ⟨rfl, rfl⟩
  · rw [table_modify_of_ne _ _ hx]
    exact ⟨rfl, rfl⟩

theorem lookup_put_of_not_visible {xs : List TableId} (c : Chain h.next? x xs) (hk : Key.ofValue? key = some k)
    (hv : ¬ (Key.ofValue? key' = some k ∧ Visible h key x o)) :
    (h.modify o fun content => content.put k v).lookup x key' = h.lookup x key' := by
  induction c with
  | @last a hn =>
    obtain ⟨hh, hr⟩ := table_put_of_not_visible (v := v) (.last hn) hv
    rw [lookup_unfold, lookup_unfold, hh, hr, next?_put, hn]
    rfl
  | @step a b bs hn c ih =>
    obtain ⟨hh, hr⟩ := table_put_of_not_visible (v := v) (.step hn c) hv
    rw [lookup_unfold, lookup_unfold h, hh, hr, next?_put, hn]
    cases ha : (h.table a).holds key' with
    | true => rfl
    | false =>
      -- a table that holds nothing under the key hides nothing from the ones before it
      refine ih fun hb => hv ⟨hb.1, hb.2.step hn ?_⟩
      rw [← ha]
      exact Table.holds_congr (hk.trans hb.1.symm) _

/-- Where the write is seen, the read gives the new value, or what `o` inherits after a removal. -/
theorem lookup_put_of_visible (he : Ends h.next?) (ho : o.index < h.size) (hk : Key.ofValue? key = some k)
    (hv : Visible h key x o) :
    (h.modify o fun content => content.put k v).lookup x key =
      if v = .nil then (h.next? o).elim .nil fun u => h.lookup u key else v := by
  have hself : (h.modify o fun content => content.put k v).table o = (h.table o).put k v := by
    rw [table_modify, if_pos ⟨rfl, ho⟩]
  have hget : ((h.table o).put k v).get? k = if v = .nil then none else some v := by
    rw [Table.get?_put, if_pos rfl]
  rw [(hv.put k v).lookup_eq, lookup_unfold, hself, Table.holds_eq hk, Table.read_eq hk, hget, next?_put]
  by_cases hnil : v = .nil
  · rw [if_pos hnil, if_pos hnil]
    cases hn : h.next? o with
    | none => rfl
    | some u =>
      obtain ⟨us, c⟩ := he u
      exact lookup_put_of_not_visible c hk fun hc => not_visible_of_next? hn hc.2
  · rw [if_neg hnil, if_neg hnil]
    rfl

/-- On every heap that a run leads to, a write into `o` succeeds exactly if the key can be one, and then a read from `x`
changes only under an equal key and only if `o` is on the chain of `x` with no table before it that holds the key.
Such a read gives the new value or, after a removal, what the read from the next table of `o` gives. No other table
and no link is touched, and a write that fails leaves the heap as it was. -/
theorem assign_seen_exactly {h : Heap} (hr : Reachable h) {o : TableId} (ho : o.index < h.size) (key v : Value) :
    (((assign (.table o) key v).perform h).1 = .ok () ↔ ¬ key.Keyless) ∧
    (∀ h', (assign (.table o) key v).perform h = (.ok (), h') →
      (∀ x key', ¬ (key'.equal key = true ∧ Visible h key x o) → h'.lookup x key' = h.lookup x key') ∧
      (∀ x key', key'.equal key = true → Visible h key x o →
        h'.lookup x key' = if v = .nil then (h.next? o).elim .nil fun u => h.lookup u key else v) ∧
      (∀ u, h.next? o = some u → h'.lookup u key = h.lookup u key) ∧
      (∀ u, u ≠ o → h'.table u = h.table u) ∧
      ∀ u, h'.next? u = h.next? u) ∧
    ∀ container e h', (assign container key v).perform h = (.error e, h') → h' = h := by
  have he := hr.sound.ends
  refine ⟨?_, fun h' hp => ?_, fun container e h' hp => perform_assign_error hp⟩
  · rw [← Key.ofValue?_eq_none_iff, ← Ne, Option.ne_none_iff_exists']
    refine ⟨fun hok => ?_, fun ⟨k, hk⟩ => by rw [perform_assign_eq_ok_iff.2 ⟨k, hk, rfl⟩]⟩
    obtain ⟨k, hk, -⟩ := perform_assign_eq_ok_iff.1 (Prod.ext hok rfl)
    exact ⟨k, hk⟩
  · obtain ⟨k, hk, rfl⟩ := perform_assign_eq_ok_iff.1 hp
    have hsame {key'} : key'.equal key = true ↔ Key.ofValue? key' = some k := (Key.ofValue?_eq_iff hk).symm
    refine ⟨fun x key' hv => ?_, fun x key' hkey hv => ?_, fun u hn => ?_, fun u hu => table_modify_of_ne _ _ hu,
      fun u => by rw [next?_put]⟩
    · obtain ⟨xs, c⟩ := he x
      rw [hsame] at hv
      exact lookup_put_of_not_visible c hk hv
    · rw [lookup_congr ((hsame.1 hkey).trans hk.symm)]
      exact lookup_put_of_visible he ho hk hv
    · obtain ⟨us, c⟩ := he u
      exact lookup_put_of_not_visible c hk fun hc => not_visible_of_next? hn hc.2

theorem assign_seen_exactly_pair :
    ∃ h', (assign (.table ⟨1⟩) (.string "x") (.boolean true)).perform pair = (.ok (), h') ∧
      h'.lookup ⟨0⟩ (.string "x") = .boolean true ∧ h'.lookup ⟨0⟩ (.string "y") = pair.lookup ⟨0⟩ (.string "y") := by
  obtain ⟨hok, hseen, -⟩ := assign_seen_exactly reachable_pair (o := ⟨1⟩) (by decide) (.string "x") (.boolean true)
  have hv : Visible pair (.string "x") ⟨0⟩ ⟨1⟩ := ⟨[⟨0⟩], [], .step rfl (.last rfl), by simp; rfl⟩
  have hp := Prod.ext_iff.2 ⟨hok.2 (by simp [Value.Keyless]), rfl⟩
  obtain ⟨hother, hnew, -⟩ := hseen _ hp
  exact ⟨_, hp, hnew _ _ rfl hv, hother _ _ (by simp [Value.equal])⟩

end Heap

end Tabula
