import Tabula.Proofs.HeapRun

/-!
Reading through fallback links. A read gives what the first table on the way holds under the key, and `nil` only where
no table on the way holds it.
-/

namespace Tabula

namespace Table

variable {t : Table} {key : Value} {k : Key}

theorem holds_eq (hk : Key.ofValue? key = some k) (t : Table) : t.holds key = (t.get? k).isSome := by
  simp only [holds, hk, contains_eq]

theorem read_eq (hk : Key.ofValue? key = some k) (t : Table) : t.read key = (t.get? k).getD .nil := by
  simp only [read, hk, Table.get]

theorem holds_eq_false_of_keyless (hk : Key.ofValue? key = none) (t : Table) : t.holds key = false := by
  simp only [holds, hk]

theorem read_eq_nil_of_keyless (hk : Key.ofValue? key = none) (t : Table) : t.read key = .nil := by
  simp only [read, hk]

theorem NoNil.read_eq_nil_iff (hn : t.NoNil) : t.read key = .nil ↔ t.holds key = false := by
  cases hk : Key.ofValue? key with
  | none => simp only [holds_eq_false_of_keyless hk, read_eq_nil_of_keyless hk]
  | some k =>
    rw [holds_eq hk, read_eq hk]
    cases hg : t.get? k with
    | none => simp
    | some v =>
      have hv : v ≠ .nil := fun h => hn k (h ▸ hg)
      simpa using hv

end Table

namespace Heap

variable {h : Heap} {t u o : TableId} {key : Value}

/-- A read looks at the table itself first and goes on with the next one if the key is absent. -/
theorem lookup_unfold (h : Heap) (t : TableId) (key : Value) :
    h.lookup t key =
      if (h.table t).holds key = true then (h.table t).read key
      else (h.next? t).elim .nil fun u => h.lookup u key := by
  cases hk : Key.ofValue? key with
  | none =>
    have hnil : ∀ u, h.lookup u key = .nil := fun u => by simp only [lookup, hk]
    rw [if_neg (by rw [Table.holds_eq_false_of_keyless hk]; simp), hnil t]
    cases h.next? t with
    | none => rfl
    | some u => exact (hnil u).symm
  | some k =>
    rw [Table.read_eq hk, Table.holds_eq hk]
    simp only [lookup, hk]
    rw [walk]
    cases (h.table t).get? k with
    | some v => rfl
    | none => cases h.next? t <;> rfl

/-- `o` is on the chain of `t`, and no table before it holds the key. -/
def Visible (h : Heap) (key : Value) (t o : TableId) : Prop :=
  ∃ pre post, Chain h.next? t (pre ++ o :: post) ∧ ∀ w ∈ pre, (h.table w).holds key = false

theorem Visible.step (hn : h.next? t = some u) (ht : (h.table t).holds key = false) (hv : Visible h key u o) :
    Visible h key t o := by
  obtain ⟨pre, post, c, hpre⟩ := hv
  refine ⟨t :: pre, post, .step hn c, ?_⟩
  simpa using ⟨ht, hpre⟩

/-- A read from `t` is a read from any table that `t` sees. -/
theorem Visible.lookup_eq (hv : Visible h key t o) : h.lookup t key = h.lookup o key := by
  obtain ⟨pre, post, c, hpre⟩ := hv
  induction pre generalizing t with
  | nil => rw [c.head_eq]
  | cons p pre ih =>
    rw [List.forall_mem_cons] at hpre
    have hp := c.head_eq
    obtain ⟨u, hn, c⟩ := c.tail
    rw [lookup_unfold, ← hp, hpre.1, if_neg (by simp), hp, hn]
    exact ih c hpre.2

theorem lookup_eq_nil_iff {ts : List TableId} (hs : Sound h) (c : Chain h.next? t ts) :
    h.lookup t key = .nil ↔ ∀ u ∈ ts, (h.table u).holds key = false := by
  induction c with
  | @last a hn =>
    rw [lookup_unfold, hn, List.forall_mem_singleton]
    cases hh : (h.table a).holds key with
    | false => simp
    | true => simp [(hs.noNil a).read_eq_nil_iff, hh]
  | @step a b bs hn c ih =>
    rw [lookup_unfold, hn, List.forall_mem_cons, ← ih]
    cases hh : (h.table a).holds key with
    | false => simp
    | true => simp [(hs.noNil a).read_eq_nil_iff, hh]

/-- On every heap that a run leads to, a read from `t` ends and gives what is stored under the key in the first table
of the chain that holds it. It gives `nil` exactly if no table of the chain holds the key or the value is no key at
all. So a read is the raw read where that is not `nil`, and the read from the next table otherwise. -/
theorem lookup_first_holder {h : Heap} (hr : Reachable h) (t : TableId) (key : Value) :
    ∃ ts, Chain h.next? t ts ∧
      (∀ k, ∃ found, h.walk (fun u => (h.table u).get? k) t = some found) ∧
      (∀ k o v, Key.ofValue? key = some k → Visible h key t o → (h.table o).get? k = some v →
        h.lookup t key = v) ∧
      (h.lookup t key = .nil ↔ key.Keyless ∨ ∀ u ∈ ts, (h.table u).holds key = false) ∧
      h.index (.table t) key = .ok (h.lookup t key) ∧
      ((h.table t).read key ≠ .nil → h.lookup t key = (h.table t).read key) ∧
      ((h.table t).read key = .nil → h.lookup t key = (h.next? t).elim .nil fun u => h.lookup u key) := by
  have hs := hr.sound
  obtain ⟨ts, c⟩ := hs.ends t
  refine ⟨ts, c, fun k => ⟨_, walk_eq c _⟩, fun k o v hk hv hg => ?_, ?_, rfl, fun hn => ?_, fun hn => ?_⟩
  · rw [hv.lookup_eq, lookup_unfold, Table.holds_eq hk, Table.read_eq hk, hg]
    rfl
  · rw [lookup_eq_nil_iff hs c]
    refine ⟨Or.inr, fun hor => hor.elim (fun hk u _ => ?_) id⟩
    exact Table.holds_eq_false_of_keyless (Key.ofValue?_eq_none_iff.2 hk) _
  · rw [Ne, (hs.noNil t).read_eq_nil_iff, Bool.not_eq_false] at hn
    rw [lookup_unfold, if_pos hn]
  · rw [(hs.noNil t).read_eq_nil_iff] at hn
    rw [lookup_unfold, if_neg (by simp [hn])]

theorem lookup_first_holder_inherited :
    ∃ h, Reachable h ∧ h.next? ⟨0⟩ = some ⟨1⟩ ∧ (h.table ⟨0⟩).read (.string "x") = .nil ∧
      h.lookup ⟨0⟩ (.string "x") = .boolean true := by
  let h := pair.modify ⟨1⟩ fun content => content.putField "x" (.boolean true)
  have hr : Reachable h := reachable_pair.apply (.putField ⟨1⟩ "x" (.boolean true))
  have hstored : (h.table ⟨1⟩).get? (.str "x") = some (.boolean true) := by
    rw [show h.table ⟨1⟩ = (pair.table ⟨1⟩).put (.str "x") (.boolean true) from rfl, Table.get?_put]
    rfl
  have hv : Visible h (.string "x") ⟨0⟩ ⟨1⟩ := ⟨[⟨0⟩], [], .step rfl (.last rfl), by simp; rfl⟩
  obtain ⟨ts, -, -, hfirst, -⟩ := lookup_first_holder hr ⟨0⟩ (.string "x")
  exact ⟨h, hr, rfl, rfl, hfirst _ _ _ rfl hv hstored⟩

end Heap

end Tabula
