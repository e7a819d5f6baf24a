import Tabula.Proofs.Binding
import Tabula.Proofs.Inheritance

/-!
A table is a finite map under the equality of the language, whatever has been done to it before: by the operations of
the program or by a loader of its host. What a run can do to the tables of a scene comes down to the steps of a heap.
-/

namespace Tabula

namespace Table

variable {t made : Table} {key : Value} {k : Key} {entries : List (Value × Value)}

/-- A write shows under the equal keys and under no other. -/
theorem read_put (hk : Key.ofValue? key = some k) (t : Table) (v key' : Value) :
    (t.put k v).read key' = if key'.equal key = true then v else t.read key' := by
  by_cases heq : key'.equal key = true
  · have hk' := (Key.ofValue?_eq_iff hk).2 heq
    rw [if_pos heq, read_eq hk']
    exact (get_put t k k v).trans (if_pos rfl)
  · have hk' : Key.ofValue? key' ≠ some k := mt (Key.ofValue?_eq_iff hk).1 heq
    rw [if_neg heq]
    exact (put_of_ne t v hk').2

theorem foldlM_write_ok_iff {start : Table} :
    (∃ made, entries.foldlM (fun t e => t.write e.1 e.2) start = .ok made) ↔ ∀ e ∈ entries, ¬ e.1.Keyless := by
  induction entries generalizing start with
  | nil => simp [pure, Except.pure]
  | cons e rest ih =>
    simp only [foldlM_write_cons, List.forall_mem_cons]
    constructor
    · rintro ⟨made, k, hk, hrest⟩
      refine ⟨?_, ih.1 ⟨made, hrest⟩⟩
      rw [← Key.ofValue?_eq_none_iff, hk]
      simp
    · rintro ⟨he, hrest⟩
      obtain ⟨k, hk⟩ := Option.ne_none_iff_exists'.1 (mt Key.ofValue?_eq_none_iff.1 he)
      obtain ⟨made, hmade⟩ := ih.2 hrest
      exact ⟨made, k, hk, hmade⟩

/-- Of the entries with an equal key the last one counts. -/
theorem read_foldlM_write {start : Table} (h : entries.foldlM (fun t e => t.write e.1 e.2) start = .ok made)
    (key : Value) :
    made.read key = (entries.reverse.find? fun e => key.equal e.1).elim (start.read key) Prod.snd := by
  induction entries generalizing start with
  | nil =>
    obtain rfl : start = made := by simpa [pure, Except.pure] using h
    rfl
  | cons e rest ih =>
    obtain ⟨k, hk, hrest⟩ := foldlM_write_cons.1 h
    rw [ih hrest, read_put hk, List.reverse_cons, List.find?_append]
    cases (rest.reverse.find? fun e => key.equal e.1) with
    | some found => rfl
    | none =>
      by_cases he : key.equal e.1 = true
      · simp [he]
      · simp [he]

theorem ofEntries_error_iff : (∃ e, ofEntries entries = .error e) ↔ ∃ p ∈ entries, p.1.Keyless := by
  have hok : (∃ made, ofEntries entries = .ok made) ↔ ∀ p ∈ entries, ¬ p.1.Keyless := foldlM_write_ok_iff
  cases ho : ofEntries entries with
  | ok made =>
    have hvalid := hok.1 ⟨made, ho⟩
    constructor
    · rintro ⟨e, he⟩
      contradiction
    · rintro ⟨p, hp, hk⟩
      exact absurd hk (hvalid p hp)
  | error e =>
    refine ⟨fun _ => ?_, fun _ => ⟨e, rfl⟩⟩
    by_contra hnone
    push Not at hnone
    obtain ⟨made, hmade⟩ := hok.2 hnone
    rw [hmade] at ho
    contradiction

end Table

namespace Heap

theorem Sound.of_steps {h h' : Heap} (hs : Relation.ReflTransGen Step h h') (h1 : Sound h) : Sound h' := by
  induction hs with
  | refl => exact h1
  | tail _ hstep ih => exact hstep.sound ih

theorem steps_writeTo (h : Heap) (t : TableId) (b : Bindings) :
    Relation.ReflTransGen Step h (h.modify t b.writeTo) := by
  have hfields : h.modify t b.writeTo =
      b.names.foldl (fun h name => h.modify t fun content => content.putField name (b.values.field name)) h :=
    modify_foldl b.names (fun content name => content.putField name (b.values.field name)) h t
  rw [hfields]
  refine List.foldlRecOn _ _ .refl fun h' hs name _ => ?_
  exact hs.tail (.put t _ (Key.normal_str name))

end Heap

namespace Registry

variable {World : Type} {s : Scene World}

inductive Event (World : Type) where
  | operation (a : Heap.Action)
  | call (c : Call World)

namespace Event

def run : Event World → Update (Scene World) Unit
  | operation a => a.run.within Scene.heap fun heap s => { s with heap := heap }
  | call c => c.run

def apply (e : Event World) (s : Scene World) : Scene World := (e.run.perform s).2

theorem steps (e : Event World) (s : Scene World) : Relation.ReflTransGen Heap.Step s.heap (e.apply s).heap := by
  cases e with
  | operation a => exact .single (a.step s.heap)
  | call c =>
    rw [apply, run]
    cases c with
    | register name v => exact .refl
    | closeSeeding => exact .refl
    | freeze => exact .refl
    | load l =>
      rw [Call.run, Update.perform_bind_pure]
      cases hf : s.registry.foreignTable with
      | error e =>
        rw [perform_load_of_error hf]
      | ok t =>
        rw [perform_load_of_ok hf]
        rcases l.gather.perform s.world with ⟨e | bound, w⟩
        · exact .refl
        · exact s.heap.steps_writeTo t bound

end Event

def Scene.after (w : World) (events : List (Event World)) : Scene World :=
  events.foldl (fun s e => e.apply s) { world := w }

def Scene.Reachable (s : Scene World) : Prop := ∃ w events, Scene.after w events = s

theorem Scene.Reachable.sound (hr : s.Reachable) : s.heap.Sound := by
  obtain ⟨w, events, rfl⟩ := hr
  refine List.foldlRecOn (motive := fun s : Scene World => s.heap.Sound) _ _ Heap.Sound.empty fun s h1 e _ => ?_
  exact h1.of_steps (e.steps s)

/-- In every scene that events lead to, no entry of a table is `nil`, and a number that is a key is no NaN and no
integer of 64 bits. A write fails exactly under a value that cannot be a key, and the heap is then as it was. After
any other write the table reads as the new value under the equal keys and as before under all others, and its link is
the same. Making a table from entries fails exactly if one of them has no key, and of the entries with equal keys the
last counts. -/
theorem table_is_finite_map {World : Type} {s : Scene World} (hr : s.Reachable) {t : TableId}
    (ht : t.index < s.heap.size) :
    (∀ k v, (s.heap.table t).get? k = some v → v ≠ .nil ∧
      ∀ x, k = .float x → x.isNaN = false ∧ ∀ i, x.toInt? = some i → ¬ (-2 ^ 63 ≤ i ∧ i < 2 ^ 63)) ∧
    (∀ key v : Value,
      (key.Keyless → ∃ e, (Heap.write t key v).perform s.heap = (.error e, s.heap)) ∧
      (¬ key.Keyless → ∃ h', (Heap.write t key v).perform s.heap = (.ok (), h') ∧
        (∀ key', (h'.table t).read key' = if key'.equal key = true then v else (s.heap.table t).read key') ∧
        (h'.table t).fallback = (s.heap.table t).fallback)) ∧
    ∀ entries : List (Value × Value),
      ((∃ e, Table.ofEntries entries = .error e) ↔ ∃ p ∈ entries, p.1.Keyless) ∧
      ∀ made, Table.ofEntries entries = .ok made → ∀ key : Value,
        made.read key = (entries.reverse.find? fun p => key.equal p.1).elim .nil Prod.snd := by
  have hs := hr.sound
  refine ⟨fun k v hg => ⟨?_, ?_⟩, fun key v => ⟨fun hkey => ?_, fun hkey => ?_⟩,
    fun entries => ⟨Table.ofEntries_error_iff, fun made hmade key => ?_⟩⟩
  · rintro rfl
    exact hs.noNil t k hg
  · rintro x rfl
    obtain ⟨hn, hi⟩ : (Key.float x).Normal := hs.normal t _ (by simp [hg])
    refine ⟨hn, fun i hx hrange => ?_⟩
    have hout := hi i hx
    simp only [Key.inRange, hrange, decide_true, Bool.and_self] at hout
    contradiction
  · rw [Heap.perform_write]
    cases hw : (s.heap.table t).write key v with
    | error e => exact ⟨e, rfl⟩
    | ok content =>
      obtain ⟨k, hk, -⟩ := Table.write_eq_ok_iff.1 hw
      rw [Key.ofValue?_eq_none_iff.2 hkey] at hk
      contradiction
  · obtain ⟨k, hk⟩ := Option.ne_none_iff_exists'.1 (mt Key.ofValue?_eq_none_iff.1 hkey)
    refine ⟨_, Heap.perform_assign_eq_ok_iff.2 ⟨k, hk, rfl⟩, fun key' => ?_, ?_⟩
    · rw [Heap.table_modify, if_pos ⟨rfl, ht⟩, Table.read_put hk]
    · rw [Heap.table_modify, if_pos ⟨rfl, ht⟩, Table.fallback_put]
  · rw [Table.read_foldlM_write hmade]
    cases hk : Key.ofValue? key with
    | none => rw [Table.read_eq_nil_of_keyless hk]
    | some k =>
      rw [Table.read_eq hk, Table.get?_empty]
      rfl

/-- After a loader has bound `ffi.a`, a write under `-0` shows under `0` and leaves the binding alone. -/
theorem table_is_finite_map_bound :
    ∃ s : Scene Unit, s.Reachable ∧ s.registry.loader = some "scripted" ∧
      (∃ h', (Heap.write ⟨0⟩ (.number (.zero true)) (.string "z")).perform s.heap = (.ok (), h') ∧
        (h'.table ⟨0⟩).read (.number (.zero false)) = .string "z" ∧
        (h'.table ⟨0⟩).read (.string "a") = .boolean true) ∧
      ∃ e, (Heap.write ⟨0⟩ (.boolean true) .nil).perform s.heap = (.error e, s.heap) := by
  let events : List (Event Unit) :=
    [.operation .create, .call (.register foreignModule (.table ⟨0⟩)), .call .closeSeeding,
      .call (.load (scripted [("a", .boolean true)] none))]
  have hr : (Scene.after () events).Reachable := ⟨(), events, rfl⟩
  obtain ⟨-, hwrite, -⟩ := table_is_finite_map hr (t := ⟨0⟩) (by decide)
  obtain ⟨h', hp, hread, -⟩ := (hwrite (.number (.zero true)) (.string "z")).2 (by simp [Value.Keyless]; rfl)
  exact ⟨_, hr, rfl, ⟨h', hp, hread _, hread _⟩, (hwrite (.boolean true) .nil).1 trivial⟩

end Registry

end Tabula
