import Tabula.Proofs.HeapRun

/-!
Fallback links never form a cycle, and a link is refused only where it would close one.
-/

namespace Tabula.Heap

/-- On a heap with finite chains, the search for a cycle ends and finds exactly the tables on the way. -/
theorem walk_seek {h : Heap} (he : Ends h.next?) (t target : TableId) :
    ∃ found, h.walk (seek t) target = some found ∧ (found.isSome = true ↔ Reaches h.next? target t) := by
  obtain ⟨ts, c⟩ := he target
  exact ⟨_, walk_eq c _, by rw [findSome?_seek_isSome, c.mem_iff]⟩

theorem perform_link_of_reaches {h : Heap} (he : Ends h.next?) {t target : TableId}
    (hr : Reaches h.next? target t) : (link t target).perform h = (.error (.fallback .cycle), h) := by
  obtain ⟨found, hw, hf⟩ := walk_seek he t target
  rw [perform_link, hw, Option.join_some, if_pos (hf.2 hr)]

theorem perform_link_of_not_reaches {h : Heap} (he : Ends h.next?) {t target : TableId}
    (hr : ¬ Reaches h.next? target t) : (link t target).perform h = (.ok (), h.linked t target) := by
  obtain ⟨found, hw, hf⟩ := walk_seek he t target
  rw [perform_link, hw, Option.join_some, if_neg (mt hf.1 hr)]

/-- On every heap that a run leads to, all chains are finite and no table is on a cycle. Linking `t` to `target`
searches a finite chain and is refused exactly if `target` leads to `t`, that is if the new link would close a cycle;
the heap is then as it was. -/
theorem links_never_cycle {h : Heap} (hr : Reachable h) :
    (∀ t, ∃ ts, Chain h.next? t ts) ∧
    (∀ t, ¬ OnCycle h.next? t) ∧
    ∀ t target : TableId,
      (∃ found, h.walk (seek t) target = some found) ∧
      ((link t target).perform h = (.error (.fallback .cycle), h) ↔ Reaches h.next? target t) ∧
      ((link t target).perform h = (.ok (), h.linked t target) ↔ ¬ Reaches h.next? target t) ∧
      (t.index < h.size → (Reaches h.next? target t ↔ ∃ u, OnCycle (h.linked t target).next? u)) := by
  have he := hr.sound.ends
  refine ⟨he, fun t => ?_, fun t target => ⟨?_, ⟨fun hp => ?_, perform_link_of_reaches he⟩,
    ⟨fun hp hr => ?_, perform_link_of_not_reaches he⟩, fun ht => ?_⟩⟩
  · obtain ⟨ts, c⟩ := he t
    exact c.not_onCycle
  · obtain ⟨found, hw, -⟩ := walk_seek he t target
    exact ⟨found, hw⟩
  · by_contra hn
    rw [perform_link_of_not_reaches he hn] at hp
    simp at hp
  · rw [perform_link_of_reaches he hr] at hp
    simp at hp
  · rw [next?_linked, if_pos ht, he.exists_onCycle_update_iff]

theorem links_never_cycle_pair :
    Reachable pair ∧ pair.next? ⟨0⟩ = some ⟨1⟩ ∧ (link ⟨1⟩ ⟨0⟩).perform pair = (.error (.fallback .cycle), pair) := by
  have hn : pair.next? ⟨0⟩ = some ⟨1⟩ := rfl
  exact ⟨reachable_pair, hn, ((links_never_cycle reachable_pair).2.2 ⟨1⟩ ⟨0⟩).2.1.2 (.single hn)⟩

end Tabula.Heap
