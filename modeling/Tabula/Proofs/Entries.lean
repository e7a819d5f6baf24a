import Tabula.Proofs.KeyEquality
import Tabula.Table

/-!
What a table holds after a write. It never holds `nil`, so that an absent key and a key that reads as `nil` are one and
the same, and its keys are those that values have.
-/

namespace Tabula

def Value.Keyless : Value → Prop
  | .number x => x.isNaN = true
  | .string _ => False
  | .nil | .boolean _ | .table _ | .function _ => True

theorem Value.isNil_iff {v : Value} : v.isNil = true ↔ v = .nil := by
  cases v <;> simp [Value.isNil]

namespace Key

theorem ofNumber?_eq_none_iff {x : Binary64} : ofNumber? x = none ↔ x.isNaN = true := by
  unfold ofNumber?
  split_ifs with hx
  · simp [hx]
  · rw [Bool.not_eq_true] at hx
    rw [hx]
    split
    · split_ifs <;> simp
    · simp

theorem ofValue?_eq_none_iff {v : Value} : ofValue? v = none ↔ v.Keyless := by
  cases v <;> simp [ofValue?, Value.Keyless, ofNumber?_eq_none_iff]

theorem ofValue_eq_ok_iff {v : Value} {k : Key} : ofValue v = .ok k ↔ ofValue? v = some k := by
  unfold ofValue
  cases hk : ofValue? v with
  | some k' => simp
  | none => cases v <;> simp

end Key

namespace Table

variable {t : Table} {k k' : Key} {v : Value}

theorem get?_empty (k : Key) : ({} : Table).get? k = none := by
  simp [get?]

theorem get?_erase (t : Table) (k k' : Key) : (t.erase k).get? k' = if k' = k then none else t.get? k' := by
  simp only [get?, erase, Std.ExtTreeMap.getElem?_erase, Std.LawfulEqOrd.compare_eq_iff_eq, eq_comm (a := k)]

theorem get?_put (t : Table) (k k' : Key) (v : Value) :
    (t.put k v).get? k' = if k' = k then (if v = .nil then none else some v) else t.get? k' := by
  by_cases hv : v = .nil
  · rw [put, if_pos (Value.isNil_iff.2 hv), get?_erase, if_pos hv]
  · rw [put, if_neg (mt Value.isNil_iff.1 hv), if_neg hv]
    simp only [get?, Std.ExtTreeMap.getElem?_insert, Std.LawfulEqOrd.compare_eq_iff_eq, eq_comm (a := k)]

@[simp] theorem fallback_erase (t : Table) (k : Key) : (t.erase k).fallback = t.fallback := rfl

@[simp] theorem fallback_put (t : Table) (k : Key) (v : Value) : (t.put k v).fallback = t.fallback := by
  unfold put
  split_ifs <;> rfl

theorem contains_eq (t : Table) (k : Key) : t.contains k = (t.get? k).isSome :=
  Std.ExtTreeMap.contains_eq_isSome_getElem?

theorem write_eq_ok_iff {t' : Table} {key : Value} :
    t.write key v = .ok t' ↔ ∃ k, Key.ofValue? key = some k ∧ t' = t.put k v := by
  unfold write
  cases hk : Key.ofValue key with
  | ok k =>
    have hk' := Key.ofValue_eq_ok_iff.1 hk
    simp [bind, Except.bind, pure, Except.pure, hk', eq_comm]
  | error e =>
    have hk' : ∀ k, Key.ofValue? key ≠ some k := fun k h => by
      rw [Key.ofValue_eq_ok_iff.2 h] at hk
      contradiction
    simp [bind, Except.bind, hk']

def NoNil (t : Table) : Prop := ∀ k, t.get? k ≠ some .nil

/-- Where no entry is `nil`, only an absent key reads as `nil`. -/
theorem NoNil.get_eq_nil_iff (hn : t.NoNil) : t.get k = .nil ↔ t.contains k = false := by
  rw [get, contains_eq]
  cases hg : t.get? k with
  | none => simp
  | some v =>
    have hv : v ≠ .nil := fun h => hn k (h ▸ hg)
    simpa using hv

theorem NoNil.empty : ({} : Table).NoNil := by
  intro k
  simp [get?_empty]

theorem NoNil.erase (h : t.NoNil) (k : Key) : (t.erase k).NoNil := by
  intro k'
  rw [get?_erase]
  split_ifs
  · simp
  · exact h k'

theorem NoNil.put (h : t.NoNil) (k : Key) (v : Value) : (t.put k v).NoNil := by
  intro k'
  rw [get?_put]
  split_ifs with hk hv
  · simp
  · simpa using hv
  · exact h k'

def NormalKeys (t : Table) : Prop := ∀ k, t.get? k ≠ none → k.Normal

theorem NormalKeys.empty : ({} : Table).NormalKeys := by
  intro k
  simp [get?_empty]

theorem NormalKeys.erase (h : t.NormalKeys) (k : Key) : (t.erase k).NormalKeys := by
  intro k'
  rw [get?_erase]
  split_ifs
  · simp
  · exact h k'

theorem NormalKeys.put (h : t.NormalKeys) (hk : k.Normal) (v : Value) : (t.put k v).NormalKeys := by
  intro k'
  rw [get?_put]
  split_ifs with he
  · simp
  · exact fun _ => he ▸ hk
  · exact h k'

/-- A table as it is made: without `nil`, under normal keys and without a link. -/
structure Plain (t : Table) : Prop where
  noNil : t.NoNil
  normal : t.NormalKeys
  unlinked : t.fallback = none

theorem Plain.empty : ({} : Table).Plain := ⟨NoNil.empty, NormalKeys.empty, rfl⟩

theorem Plain.put (h : t.Plain) (hk : k.Normal) (v : Value) : (t.put k v).Plain :=
  ⟨h.noNil.put k v, h.normal.put hk v, by rw [fallback_put, h.unlinked]⟩

theorem Plain.ofList (values : List Value) : (ofList values).Plain := by
  refine List.foldlRecOn _ _ Plain.empty fun t ht e _ => ?_
  exact ht.put (Key.normal_int _) _

theorem foldlM_write_cons {start : Table} {e : Value × Value} {rest : List (Value × Value)} :
    (e :: rest).foldlM (fun t e => t.write e.1 e.2) start = .ok t ↔
      ∃ k, Key.ofValue? e.1 = some k ∧ rest.foldlM (fun t e => t.write e.1 e.2) (start.put k e.2) = .ok t := by
  rw [List.foldlM_cons]
  cases hw : start.write e.1 e.2 with
  | error err =>
    have hk : ∀ k, Key.ofValue? e.1 ≠ some k := fun k hk => by
      rw [write_eq_ok_iff.2 ⟨k, hk, rfl⟩] at hw
      contradiction
    simp [bind, Except.bind, hk]
  | ok mid =>
    obtain ⟨k, hk, rfl⟩ := write_eq_ok_iff.1 hw
    simp [bind, Except.bind, hk]

theorem Plain.ofEntries {entries : List (Value × Value)} (h : ofEntries entries = .ok t) : t.Plain := by
  have run : ∀ (entries : List (Value × Value)) (start : Table), start.Plain →
      entries.foldlM (fun t e => t.write e.1 e.2) start = .ok t → t.Plain := by
    intro entries
    induction entries with
    | nil =>
      intro start hs hok
      obtain rfl : start = t := by simpa [pure, Except.pure] using hok
      exact hs
    | cons e rest ih =>
      intro start hs hok
      obtain ⟨k, hk, hok⟩ := foldlM_write_cons.1 hok
      exact ih _ (hs.put (Key.normal_of_ofValue? hk) e.2) hok
  exact run entries {} Plain.empty h

end Table

end Tabula
