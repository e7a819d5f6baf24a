import Tabula.Proofs.Enumeration
import Tabula.Proofs.Sequence

/-!
The table of a list of values, as it is made of the arguments of a call. A `nil` among them leaves a hole and takes no
place from the values after it. Main statement: reading by index, counting, both walks and the making of a table from
its entries all give the list back.
-/

namespace Tabula

namespace Table

variable {vs : List Value} {pairs : List (ℤ × Value)} {k : Key} {v : Value} {i : ℤ}

def numbered (vs : List Value) : List (ℤ × Value) := (vs.zipIdx 1).map fun e => ((e.2 : ℤ), e.1)

theorem mem_numbered : (i, v) ∈ numbered vs ↔ ∃ j : ℕ, i = j + 1 ∧ vs[j]? = some v := by
  rw [numbered, List.mem_map]
  constructor
  · rintro ⟨⟨u, n⟩, hm, he⟩
    obtain ⟨rfl, rfl⟩ := Prod.mk.injEq .. ▸ he
    obtain ⟨hn, hu⟩ := List.mk_mem_zipIdx_iff_le_and_getElem?_sub.1 hm
    exact ⟨n - 1, by omega, hu⟩
  · rintro ⟨j, rfl, hj⟩
    exact ⟨(v, 1 + j), List.mk_add_mem_zipIdx_iff_getElem?.2 hj, by simp [add_comm]⟩

theorem numbered_unique {u : Value} (hv : (i, v) ∈ numbered vs) (hu : (i, u) ∈ numbered vs) : v = u := by
  obtain ⟨j, rfl, hj⟩ := mem_numbered.1 hv
  obtain ⟨j', he, hj'⟩ := mem_numbered.1 hu
  obtain rfl : j = j' := by omega
  rw [hj, Option.some.injEq] at hj'
  exact hj'

theorem nodup_numbered (vs : List Value) : (numbered vs).Nodup := by
  have hindices : ((vs.zipIdx 1).map Prod.snd).Nodup := by
    rw [List.zipIdx_map_snd]
    exact List.nodup_range'
  refine (List.Nodup.of_map _ hindices).map fun a b hab => ?_
  simpa [Prod.ext_iff, and_comm] using hab

theorem numbered_eq (vs : List Value) :
    numbered vs = (List.range vs.length).map fun j : ℕ => ((j + 1 : ℤ), vs[j]?.getD .nil) := by
  refine List.ext_getElem (by simp [numbered]) fun j hj hj' => ?_
  have hlt : j < vs.length := by simpa using hj'
  simp [numbered, hlt, add_comm]

/-- The pairs are those of the values with their indices, in any order and any number of times. Only such with `nil` may
be missing. -/
structure Lists (pairs : List (ℤ × Value)) (vs : List Value) : Prop where
  sound : ∀ e ∈ pairs, e ∈ numbered vs
  complete : ∀ e ∈ numbered vs, e.2 ≠ .nil → e ∈ pairs

theorem Lists.refl (vs : List Value) : Lists (numbered vs) vs := ⟨fun _ he => he, fun _ he _ => he⟩

/-- Whatever the order in which they are written, the values are found under their indices. -/
theorem Lists.get?_iff (hl : Lists pairs vs) :
    ((pairs.map fun e => (Key.int e.1, e.2)).foldl (fun t e => t.put e.1 e.2) ({} : Table)).get? k = some v ↔
      v ≠ .nil ∧ ∃ i, k = .int i ∧ (i, v) ∈ numbered vs := by
  rw [get?_foldl_put_iff]
  · refine and_congr_right fun hv => ?_
    rw [List.mem_map]
    constructor
    · rintro ⟨⟨i, u⟩, hm, he⟩
      obtain ⟨rfl, rfl⟩ := Prod.mk.injEq .. ▸ he
      exact ⟨i, rfl, hl.sound _ hm⟩
    · rintro ⟨i, rfl, hm⟩
      exact ⟨(i, v), hl.complete _ hm hv, rfl⟩
  · intro a ha b hb hab
    obtain ⟨⟨i, u⟩, hu, rfl⟩ := List.mem_map.1 ha
    obtain ⟨⟨j, w⟩, hw, rfl⟩ := List.mem_map.1 hb
    obtain rfl : i = j := by simpa using hab
    exact numbered_unique (hl.sound _ hu) (hl.sound _ hw)

theorem ofList_eq (vs : List Value) :
    ofList vs = ((numbered vs).map fun e => (Key.int e.1, e.2)).foldl (fun t e => t.put e.1 e.2) {} := by
  rw [numbered, List.map_map, List.foldl_map]
  rfl

theorem get?_ofList_iff : (ofList vs).get? k = some v ↔ v ≠ .nil ∧ ∃ i, k = .int i ∧ (i, v) ∈ numbered vs := by
  rw [ofList_eq]
  exact (Lists.refl vs).get?_iff

theorem item_ofList (vs : List Value) (j : ℕ) : (ofList vs).item (j + 1) = vs[j]?.getD .nil := by
  have hget (v : Value) : (ofList vs).get? (.int (j + 1)) = some v ↔ v ≠ .nil ∧ vs[j]? = some v := by
    simp [get?_ofList_iff, mem_numbered]
  rw [item, get]
  cases hg : (ofList vs).get? (.int (j + 1)) with
  | some v =>
    rw [((hget v).1 hg).2]
  | none =>
    cases hj : vs[j]? with
    | none => rfl
    | some v =>
      have hv : v = .nil := by
        by_contra hv
        rw [(hget v).2 ⟨hv, hj⟩] at hg
        contradiction
      rw [hv]
      rfl

theorem item_ofList_eq_nil (hi : i < 1 ∨ vs.length < i) : (ofList vs).item i = .nil := by
  rw [item, get]
  cases hg : (ofList vs).get? (.int i) with
  | none => rfl
  | some v =>
    obtain ⟨-, i', he, hm⟩ := get?_ofList_iff.1 hg
    obtain rfl : i = i' := by simpa using he
    obtain ⟨j, rfl, hj⟩ := mem_numbered.1 hm
    have hlt := (List.getElem?_eq_some_iff.1 hj).1
    omega

theorem toList_ofList_perm (vs : List Value) :
    (ofList vs).entries.toList.Perm
      (((numbered vs).filter fun e => !e.2.isNil).map fun e => (Key.int e.1, e.2)) := by
  have hstored : (ofList vs).entries.toList.Nodup := (pairwise_toList _).imp fun hab he => hab (congrArg Prod.fst he)
  have hlisted : (((numbered vs).filter fun e => !e.2.isNil).map fun e => (Key.int e.1, e.2)).Nodup := by
    refine ((nodup_numbered vs).filter _).map fun a b hab => ?_
    simpa [Prod.ext_iff] using hab
  rw [List.perm_ext_iff_of_nodup hstored hlisted]
  rintro ⟨k, v⟩
  rw [mem_toList_iff, get?_ofList_iff]
  simp only [List.mem_map, List.mem_filter, Bool.not_eq_true', Bool.eq_false_iff, Ne, Value.isNil_iff, Prod.mk.injEq,
    Prod.exists]
  constructor
  · rintro ⟨hv, i, rfl, hm⟩
    exact ⟨i, v, ⟨hm, hv⟩, rfl, rfl⟩
  · rintro ⟨i, u, ⟨hm, hv⟩, rfl, rfl⟩
    exact ⟨hv, i, rfl, hm⟩

theorem size_ofList (vs : List Value) : (ofList vs).size = vs.countP fun v => !v.isNil := by
  have hvalues : (numbered vs).map Prod.snd = vs := by
    rw [numbered, List.map_map]
    exact List.zipIdx_map_fst 1 vs
  calc (ofList vs).size
      = (ofList vs).entries.toList.length := Std.ExtTreeMap.length_toList.symm
    _ = (numbered vs).countP fun e => !e.2.isNil := by
        rw [(toList_ofList_perm vs).length_eq, List.length_map, List.countP_eq_length_filter]
    _ = ((numbered vs).map Prod.snd).countP fun v => !v.isNil := by
        rw [List.countP_map]
        rfl
    _ = vs.countP fun v => !v.isNil := by rw [hvalues]

def leading (vs : List Value) : List Value := vs.takeWhile fun v => !v.isNil

theorem exists_leading_append (vs : List Value) :
    ∃ rest, vs = leading vs ++ rest ∧ (∀ v ∈ leading vs, v ≠ .nil) ∧ rest[0]?.getD .nil = .nil := by
  induction vs with
  | nil => exact ⟨[], rfl, by simp [leading], rfl⟩
  | cons v vs ih =>
    by_cases hv : v = .nil
    · have hnone : leading (v :: vs) = [] := by simp [leading, hv, Value.isNil]
      rw [hnone]
      exact ⟨v :: vs, rfl, by simp, hv⟩
    · have hpresent : (!v.isNil) = true := by simpa [← Value.isNil_iff] using hv
      have hsome : leading (v :: vs) = v :: leading vs := List.takeWhile_cons_of_pos hpresent
      obtain ⟨rest, hvs, hall, hrest⟩ := ih
      rw [hsome, List.forall_mem_cons]
      exact ⟨rest, congrArg (v :: ·) hvs, ⟨hv, hall⟩, hrest⟩

theorem getElem?_leading {j : ℕ} (hj : j < (leading vs).length) :
    vs[j]? = (leading vs)[j]? ∧ vs[j]?.getD .nil ≠ .nil := by
  obtain ⟨rest, hvs, hall, -⟩ := exists_leading_append vs
  have hsame : vs[j]? = (leading vs)[j]? :=
    (congrArg (·[j]?) hvs).trans (List.getElem?_append_left hj)
  refine ⟨hsame, ?_⟩
  rw [hsame, List.getElem?_eq_getElem hj]
  exact hall _ (List.getElem_mem hj)

theorem getElem?_length_leading (vs : List Value) : vs[(leading vs).length]?.getD .nil = .nil := by
  obtain ⟨rest, hvs, -, hrest⟩ := exists_leading_append vs
  have hfirst : vs[(leading vs).length]? = rest[0]? := by
    rw [← Nat.sub_self (leading vs).length, ← List.getElem?_append_right le_rfl]
    exact congrArg (·[(leading vs).length]?) hvs
  rw [hfirst, hrest]

theorem contains_ofList (vs : List Value) (j : ℕ) :
    (ofList vs).contains (.int (1 + j)) = false ↔ vs[j]?.getD .nil = .nil := by
  rw [← item_ofList, add_comm (1 : ℤ)]
  exact (Plain.ofList vs).noNil.get_eq_nil_iff.symm

theorem run_ofList (vs : List Value) : (ofList vs).Run 1 (leading vs).length where
  present := by
    intro j hj
    rw [← Bool.not_eq_false, contains_ofList]
    exact (getElem?_leading hj).2
  absent := (contains_ofList _ _).2 (getElem?_length_leading vs)

theorem sequence_ofList (vs : List Value) : (ofList vs).sequence = numbered (leading vs) := by
  rw [sequence, (run_ofList vs).length_eq, numbered_eq]
  refine List.map_congr_left fun j hj => ?_
  rw [item_ofList, (getElem?_leading (List.mem_range.1 hj)).1]

/-- Up to `2 ^ 53` the indices can be written as numbers. -/
theorem Lists.exists_ofEntries (hl : Lists pairs vs) (hvs : vs.length ≤ 2 ^ 53) :
    ∃ made, ofEntries (pairs.map fun e => (.number (.ofInt e.1), e.2)) = .ok made ∧
      made.entries = (ofList vs).entries := by
  have hback : ∀ e ∈ pairs.map fun e => (Key.int e.1, e.2), Key.ofValue? e.1.toValue = some e.1 := by
    intro e he
    obtain ⟨⟨i, v⟩, hm, rfl⟩ := List.mem_map.1 he
    obtain ⟨j, rfl, hj⟩ := mem_numbered.1 (hl.sound _ hm)
    have hlt := (List.getElem?_eq_some_iff.1 hj).1
    obtain ⟨x, hx⟩ := Key.exists_ofNumber?_eq_int (i := j + 1) (by omega)
    exact Key.ofValue?_toValue (v := .number x) hx
  have hmade := foldlM_write_toValue hback {}
  rw [List.map_map] at hmade
  refine ⟨_, hmade, Std.ExtTreeMap.ext_getElem? fun k => Option.ext fun v => ?_⟩
  exact hl.get?_iff.trans get?_ofList_iff.symm

/-- The table of a list of values reads at each index as the value there, and as `nil` at every other integer. It has as
many keys as there are values other than `nil`, and its length is that of the list before the first `nil`. A fresh walk
over the sequence gives the values before the first `nil` in order, and a fresh walk over the entries gives, in some
order, each value other than `nil` once with its index. Written under their indices as numbers, which go up to `2 ^ 53`
without a gap, the values make the same table in any order, with the `nil`s or without. -/
theorem capture_loses_nothing {h : Heap} {t : TableId} {vs : List Value} (ht : h.table t = .ofList vs) :
    (∀ (j : ℕ) (hj : j < vs.length), (h.table t).item (j + 1) = vs[j]) ∧
    (∀ i : ℤ, i < 1 ∨ vs.length < i → (h.table t).item i = .nil) ∧
    (h.table t).size = (vs.countP fun v => !v.isNil) ∧
    h.length (.table t) = .ok (leading vs).length ∧
    (∀ items, SequenceWalk.Drains h { table := t } items ↔ items = numbered (leading vs)) ∧
    (∃ items, EntryWalk.Drains h (.start h t) items ∧
      items.Perm (((numbered vs).filter fun e => !e.2.isNil).map fun e => (.number (.ofInt e.1), e.2))) ∧
    (vs.length ≤ 2 ^ 53 → ∀ pairs, Lists pairs vs →
      ∃ made, ofEntries (pairs.map fun e => (.number (.ofInt e.1), e.2)) = .ok made ∧
        made.entries = (h.table t).entries) := by
  have hwalk : SequenceWalk.Drains h { table := t } (numbered (leading vs)) := by
    rw [← sequence_ofList, ← ht]
    exact SequenceWalk.drains_sequence (ht ▸ (Plain.ofList vs).noNil)
  refine ⟨fun j hj => ?_, fun i hi => ?_, ?_, ?_, fun items => ⟨fun hd => hd.unique hwalk, ?_⟩, ?_,
    fun hvs pairs hl => ?_⟩
  · rw [ht, item_ofList, List.getElem?_eq_getElem hj]
    rfl
  · rw [ht, item_ofList_eq_nil hi]
  · rw [ht, size_ofList]
  · rw [Heap.length, ht, (run_ofList vs).length_eq]
  · rintro rfl
    exact hwalk
  · refine ⟨_, EntryWalk.drains_drain _ _, ?_⟩
    have hperm := (toList_ofList_perm vs).map fun e => (e.1.toValue, e.2)
    rw [List.map_map] at hperm
    rw [EntryWalk.drain_start (ht ▸ (Plain.ofList vs).noNil), ht]
    exact hperm
  · rw [ht]
    exact hl.exists_ofEntries hvs

/-- Holes in the middle and at the end: one value comes before the first of them and one after. -/
theorem capture_loses_nothing_holes :
    ∃ (h : Heap) (t : TableId), h.table t = .ofList [.string "a", .nil, .boolean false, .nil] ∧
      (h.table t).item 3 = .boolean false ∧ (h.table t).item 4 = .nil ∧ (h.table t).size = 2 ∧
      h.length (.table t) = .ok 1 ∧ SequenceWalk.Drains h { table := t } [(1, .string "a")] ∧
      (∃ items, EntryWalk.Drains h (.start h t) items ∧
        items.Perm [(.number (.ofInt 1), .string "a"), (.number (.ofInt 3), .boolean false)]) ∧
      ∃ made, ofEntries [(.number (.ofInt 3), .boolean false), (.number (.ofInt 2), .nil),
        (.number (.ofInt 1), .string "a")] = .ok made ∧ made.entries = (h.table t).entries := by
  let vs : List Value := [.string "a", .nil, .boolean false, .nil]
  let h : Heap := ({} : Heap).push (.ofList vs)
  obtain ⟨hitem, -, hsize, hlength, hsequence, hentries, hmade⟩ :=
    @capture_loses_nothing h ⟨0⟩ vs rfl
  refine ⟨h, ⟨0⟩, rfl, hitem 2 (by decide), hitem 3 (by decide), hsize, hlength, (hsequence _).2 rfl, hentries, ?_⟩
  exact hmade (by decide) [(3, .boolean false), (2, .nil), (1, .string "a")] ⟨by decide, by decide⟩

end Table

end Tabula
