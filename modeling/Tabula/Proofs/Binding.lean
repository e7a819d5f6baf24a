import Tabula.Proofs.HeapRun
import Tabula.Proofs.RegistryRun

/-!
Bindings reach a table together or not at all. The calls of a loader are gathered apart from it, and what is written in
the end, one field for each name in the order of the first calls, is what the calls would have written one after the
other.
-/

namespace Tabula

namespace Table

variable {t t' : Table}

theorem ext_get? (hg : ∀ k, t.get? k = t'.get? k) (hf : t.fallback = t'.fallback) : t = t' := by
  obtain ⟨entries, fallback⟩ := t
  obtain ⟨entries', fallback'⟩ := t'
  obtain rfl : fallback = fallback' := hf
  obtain rfl : entries = entries' := Std.ExtTreeMap.ext_getElem? hg
  rfl

theorem get_put (t : Table) (k k' : Key) (v : Value) : (t.put k v).get k' = if k' = k then v else t.get k' := by
  rw [get, get?_put]
  by_cases hk : k' = k
  · by_cases hv : v = .nil
    · simp [hk, hv]
    · simp [hk, hv]
  · simp [hk, get]

theorem field_putField (t : Table) (name name' : String) (v : Value) :
    (t.putField name v).field name' = if name' = name then v else t.field name' := by
  rw [field, putField, get_put]
  simp [field]

/-- The last write to a field is the one that counts. -/
theorem field_putFields (writes : List (String × Value)) (t : Table) (name : String) :
    (writes.foldl (fun t w => t.putField w.1 w.2) t).field name =
      (writes.reverse.find? fun w => w.1 == name).elim (t.field name) Prod.snd := by
  induction writes generalizing t with
  | nil => rfl
  | cons w rest ih =>
    rw [List.foldl_cons, ih, field_putField, List.reverse_cons, List.find?_append]
    cases (rest.reverse.find? fun w => w.1 == name) with
    | some found => rfl
    | none =>
      by_cases hw : w.1 = name
      · simp [hw]
      · simp [hw, Ne.symm hw]

end Table

namespace Bindings

variable {b : Bindings}

def bindAll (b : Bindings) (calls : List (String × Value)) : Bindings :=
  calls.foldl (fun b call => b.bind call.1 call.2) b

theorem get?_writeTo (b : Bindings) (target : Table) (k : Key) :
    (b.writeTo target).get? k =
      if ∃ name ∈ b.names, k = .str name then if b.values.get k = .nil then none else some (b.values.get k)
      else target.get? k := by
  unfold writeTo
  induction b.names generalizing target with
  | nil => simp
  | cons name rest ih =>
    rw [List.foldl_cons, ih, Table.putField, Table.get?_put]
    by_cases hrest : ∃ other ∈ rest, k = .str other
    · have hall : ∃ other ∈ name :: rest, k = .str other := by
        obtain ⟨other, hmem, hk⟩ := hrest
        exact ⟨other, List.mem_cons_of_mem _ hmem, hk⟩
      rw [if_pos hrest, if_pos hall]
    · rw [if_neg hrest]
      by_cases hk : k = .str name
      · have hall : ∃ other ∈ name :: rest, k = .str other := ⟨name, List.mem_cons_self, hk⟩
        rw [if_pos hk, if_pos hall, hk]
        rfl
      · have hnone : ¬ ∃ other ∈ name :: rest, k = .str other := by
          rintro ⟨other, hmem, hother⟩
          rcases List.mem_cons.1 hmem with rfl | hmem
          · exact hk hother
          · exact hrest ⟨other, hmem, hother⟩
        rw [if_neg hk, if_neg hnone]

theorem fallback_writeTo (b : Bindings) (target : Table) : (b.writeTo target).fallback = target.fallback := by
  unfold writeTo
  refine List.foldlRecOn (motive := fun t : Table => t.fallback = target.fallback) _ _ rfl fun t ht name _ => ?_
  rw [Table.putField, Table.fallback_put, ht]

theorem mem_names_bind {name other : String} {v : Value} :
    other ∈ (b.bind name v).names ↔ other ∈ b.names ∨ other = name := by
  unfold bind
  split_ifs with hname
  · constructor
    · exact Or.inl
    · rintro (h | rfl)
      · exact h
      · exact hname
  · simp

/-- A further call shows as one more write at the end, whether its name is new or not. -/
theorem writeTo_bind (b : Bindings) (name : String) (v : Value) (target : Table) :
    (b.bind name v).writeTo target = (b.writeTo target).putField name v := by
  refine Table.ext_get? (fun k => ?_) ?_
  · rw [get?_writeTo, Table.putField, Table.get?_put, get?_writeTo]
    have hvalues : (b.bind name v).values.get k = if k = .str name then v else b.values.get k :=
      Table.get_put ..
    by_cases hk : k = .str name
    · rw [if_pos ⟨name, mem_names_bind.2 (.inr rfl), hk⟩, hvalues, if_pos hk, if_pos hk]
    · have hnames : (∃ other ∈ (b.bind name v).names, k = .str other) ↔ ∃ other ∈ b.names, k = .str other := by
        constructor
        · rintro ⟨other, hmem, rfl⟩
          rcases mem_names_bind.1 hmem with hmem | rfl
          · exact ⟨other, hmem, rfl⟩
          · exact absurd rfl hk
        · rintro ⟨other, hmem, rfl⟩
          exact ⟨other, mem_names_bind.2 (.inl hmem), rfl⟩
      rw [hvalues, if_neg hk, if_neg hk]
      simp only [hnames]
  · rw [fallback_writeTo, Table.putField, Table.fallback_put, fallback_writeTo]

theorem writeTo_bindAll (b : Bindings) (calls : List (String × Value)) (target : Table) :
    (b.bindAll calls).writeTo target =
      calls.foldl (fun t call => t.putField call.1 call.2) (b.writeTo target) := by
  induction calls generalizing b with
  | nil => rfl
  | cons call rest ih =>
    rw [List.foldl_cons, ← writeTo_bind]
    exact ih _

theorem names_bind {bound : List String} (h : b.names = bound.eraseDups) (name : String) (v : Value) :
    (b.bind name v).names = (bound ++ [name]).eraseDups := by
  have hmem : name ∈ b.names ↔ name ∈ bound := by rw [h, List.mem_eraseDups]
  rw [List.eraseDups_append, ← h]
  unfold bind
  by_cases hname : name ∈ bound
  · rw [if_pos (hmem.2 hname)]
    simp [List.removeAll, hname]
  · rw [if_neg (mt hmem.1 hname)]
    simp [List.removeAll, hname, List.eraseDups_cons]

theorem names_bindAll {bound : List String} (h : b.names = bound.eraseDups) (calls : List (String × Value)) :
    (b.bindAll calls).names = (bound ++ calls.map Prod.fst).eraseDups := by
  induction calls generalizing b bound with
  | nil =>
    rw [List.map_nil, List.append_nil]
    exact h
  | cons call rest ih =>
    rw [List.map_cons, List.append_cons]
    exact ih (names_bind h call.1 call.2)

end Bindings

namespace Heap

variable {h : Heap} {t : TableId}

theorem modify_id (h : Heap) (t : TableId) : (h.modify t fun content => content) = h := by
  obtain ⟨tables⟩ := h
  simp only [modify, replace, table, Heap.mk.injEq]
  by_cases ht : t.index < tables.size
  · simp [Array.setIfInBounds, ht]
  · exact Array.setIfInBounds_eq_of_size_le (Nat.not_lt.1 ht)

theorem modify_modify (h : Heap) (t : TableId) (f g : Table → Table) :
    (h.modify t f).modify t g = h.modify t fun content => g (f content) := by
  by_cases ht : t.index < h.size
  · have hself : (h.modify t f).table t = f (h.table t) := by rw [table_modify, if_pos ⟨rfl, ht⟩]
    rw [modify, hself]
    simp only [modify, replace, Array.setIfInBounds_setIfInBounds]
  · -- a reference that leads nowhere is written to in vain
    have hsame : ∀ f, h.modify t f = h := fun f => by
      rw [modify, replace, Array.setIfInBounds_eq_of_size_le (Nat.not_lt.1 ht)]
    rw [hsame, hsame, hsame]

theorem modify_foldl {α : Type} (edits : List α) (f : Table → α → Table) (h : Heap) (t : TableId) :
    (h.modify t fun content => edits.foldl f content) =
      edits.foldl (fun h e => h.modify t fun content => f content e) h := by
  induction edits generalizing h with
  | nil => exact h.modify_id t
  | cons e rest ih =>
    rw [List.foldl_cons, ← ih, modify_modify]
    rfl

end Heap

namespace Registry

/-- A loader that may fill the table `ffi` makes some calls, each with a name and a value, and succeeds or fails at the
end of them. The bindings list each name once, where it was bound first. If the loader succeeds, the tables are what
they are after the same calls as plain field writes: the last call of a name counts, a last `nil` removes the field, and
a field that is not named stays. If it fails, the registry and all tables are as they were. -/
theorem load_all_or_nothing {World : Type} {s : Scene World} {t : TableId} (hp : s.registry.phase = .bindable)
    (ht : s.registry.modules[foreignModule]? = some (.table t)) {l : Loader World} {calls : List (String × Value)}
    {outcome : Except Error Unit} {w : World}
    (hl : l.bind.perform ({}, s.world) = (outcome, Bindings.bindAll {} calls, w)) :
    (Bindings.bindAll {} calls).names = (calls.map Prod.fst).eraseDups ∧
    (outcome = .ok () → ∃ s', (load l).perform s = (.ok (Bindings.bindAll {} calls), s') ∧
      s'.heap = calls.foldl (fun h call => (Heap.Action.putField t call.1 call.2).apply h) s.heap ∧
      (t.index < s.heap.size → ∀ name, (s'.heap.table t).field name =
        (calls.reverse.find? fun call => call.1 == name).elim ((s.heap.table t).field name) Prod.snd)) ∧
    ∀ e, outcome = .error e → (load l).perform s = (.error e, { s with world := w }) := by
  have hload := perform_load_of_ok (foreignTable_eq_ok_iff.2 ⟨hp, ht⟩) l
  rw [perform_gather, hl] at hload
  have hnone : ({} : Bindings).names = List.eraseDups [] := rfl
  refine ⟨Bindings.names_bindAll hnone calls, ?_, ?_⟩
  · rintro rfl
    have hwrite : (Bindings.bindAll {} calls).writeTo = fun content =>
        calls.foldl (fun t call => t.putField call.1 call.2) content :=
      funext fun content => Bindings.writeTo_bindAll {} calls content
    refine ⟨_, hload, ?_, fun hin name => ?_⟩
    · dsimp only
      rw [hwrite]
      exact Heap.modify_foldl calls (fun content call => content.putField call.1 call.2) s.heap t
    · rw [Heap.table_modify, if_pos ⟨rfl, hin⟩, hwrite]
      exact Table.field_putFields calls _ name
  · rintro e rfl
    exact hload

def scripted (calls : List (String × Value)) (failure : Option Error) : Loader Unit where
  name := "scripted"
  bind := do
    for call in calls do
      modify fun p => (p.1.bind call.1 call.2, p.2)
    if let some e := failure then throw e

def awaiting : Scene Unit where
  registry := (({} : Registry).seed foreignModule (.table ⟨0⟩)).closeSeeding
  heap := ({} : Heap).push ((({} : Table).putField "kept" (.boolean true)).putField "gone" (.boolean true))
  world := ()

theorem load_all_or_nothing_rebound :
    let calls := [("new", .boolean true), ("gone", .boolean false), ("new", .nil), ("gone", .nil), ("new", .string "n")]
    (Bindings.bindAll {} calls).names = ["new", "gone"] ∧
    (∃ s', (load (scripted calls none)).perform awaiting = (.ok (Bindings.bindAll {} calls), s') ∧
      (s'.heap.table ⟨0⟩).field "new" = .string "n" ∧ (s'.heap.table ⟨0⟩).field "gone" = .nil ∧
      (s'.heap.table ⟨0⟩).field "kept" = .boolean true) ∧
    (load (scripted calls (some (.raised .nil)))).perform awaiting = (.error (.raised .nil), awaiting) := by
  intro calls
  have hdone : (scripted calls none).bind.perform ({}, awaiting.world) = (.ok (), Bindings.bindAll {} calls, ()) := rfl
  have hfail : (scripted calls (some (.raised .nil))).bind.perform ({}, awaiting.world) =
      (.error (.raised .nil), Bindings.bindAll {} calls, ()) := rfl
  obtain ⟨hnames, hok, -⟩ := load_all_or_nothing (t := ⟨0⟩) rfl rfl hdone
  obtain ⟨-, -, herr⟩ := load_all_or_nothing (t := ⟨0⟩) rfl rfl hfail
  obtain ⟨s', hload, -, hfield⟩ := hok rfl
  have hin : (⟨0⟩ : TableId).index < awaiting.heap.size := by decide
  exact ⟨hnames, ⟨s', hload, hfield hin "new", hfield hin "gone", hfield hin "kept"⟩, herr _ rfl⟩

end Registry

end Tabula
