import Mathlib.Data.List.Nodup
import Mathlib.Logic.Function.Basic
import Mathlib.Logic.Relation

/-!
Chains of a partial successor function: a start, its successor, and so on to a place that has none. A derivation is
finite, so a start has a chain exactly if following successors from it comes to an end. The main statement says when
giving one place a new successor keeps every chain finite.
-/

namespace Tabula

variable {α : Type}

def Succeeds (next : α → Option α) (a b : α) : Prop := next a = some b

abbrev Reaches (next : α → Option α) : α → α → Prop := Relation.ReflTransGen (Succeeds next)

abbrev OnCycle (next : α → Option α) (a : α) : Prop := Relation.TransGen (Succeeds next) a a

inductive Chain (next : α → Option α) : α → List α → Prop
  | last {a : α} : next a = none → Chain next a [a]
  | step {a b : α} {bs : List α} : next a = some b → Chain next b bs → Chain next a (a :: bs)

def Ends (next : α → Option α) : Prop := ∀ a, ∃ as, Chain next a as

namespace Chain

variable {next : α → Option α} {a b : α} {as as' : List α}

theorem unique (c : Chain next a as) (c' : Chain next a as') : as = as' := by
  induction c generalizing as' with
  | last h =>
    cases c' with
    | last _ => rfl
    | step h' _ => rw [h] at h'; contradiction
  | step h _ ih =>
    cases c' with
    | last h' => rw [h] at h'; contradiction
    | step h' c' =>
      rw [h, Option.some.injEq] at h'
      subst h'
      rw [ih c']

theorem head_eq {bs : List α} (c : Chain next a (b :: bs)) : b = a := by
  cases c with
  | last _ => rfl
  | step _ _ => rfl

theorem tail {p : α} {pre post : List α} (c : Chain next a (p :: (pre ++ b :: post))) :
    ∃ u, next a = some u ∧ Chain next u (pre ++ b :: post) := by
  generalize he : pre ++ b :: post = bs at c ⊢
  cases c with
  | last _ => simp at he
  | step h c => exact ⟨_, h, c⟩

theorem suffix {pre post : List α} (c : Chain next a (pre ++ b :: post)) : Chain next b (b :: post) := by
  induction pre generalizing a with
  | nil =>
    have hb := c.head_eq
    exact hb ▸ c
  | cons p pre ih =>
    obtain ⟨u, -, c⟩ := c.tail
    exact ih c

theorem nodup (c : Chain next a as) : as.Nodup := by
  induction c with
  | last _ => simp
  | @step a b bs h c ih =>
    refine List.nodup_cons.2 ⟨fun hmem => ?_, ih⟩
    obtain ⟨pre, post, rfl⟩ := List.append_of_mem hmem
    -- the chain of `a` would end in a shorter chain of `a`
    have hlen := congrArg List.length (unique (step h c) c.suffix)
    simp only [List.length_cons, List.length_append] at hlen
    omega

theorem mem_iff (c : Chain next a as) : b ∈ as ↔ Reaches next a b := by
  induction c with
  | @last a h =>
    have hstuck : ∀ u, ¬ Succeeds next a u := by simp [Succeeds, h]
    rw [List.mem_singleton, Reaches, Relation.reflTransGen_iff_eq hstuck]
  | @step a u bs h c ih =>
    rw [List.mem_cons, ih]
    constructor
    · rintro (rfl | hr)
      · exact .refl
      · exact .head h hr
    · intro hr
      rcases hr.cases_head with hab | ⟨w, hw, hr⟩
      · exact Or.inl hab.symm
      · rw [Succeeds, h, Option.some.injEq] at hw
        exact Or.inr (hw ▸ hr)

theorem not_onCycle (c : Chain next a as) : ¬ OnCycle next a := by
  intro hc
  obtain ⟨b, hab, hba⟩ := Relation.TransGen.head'_iff.1 hc
  cases c with
  | last h => rw [Succeeds, h] at hab; contradiction
  | step h c =>
    rw [Succeeds, h, Option.some.injEq] at hab
    subst hab
    exact (List.nodup_cons.1 (nodup (step h c))).1 (c.mem_iff.2 hba)

section Update

variable [DecidableEq α] {t f : α}

/-- A chain that does not come by `t` does not see the successor of `t` change. -/
theorem update_of_notMem (c : Chain next a as) (ht : t ∉ as) (o : Option α) :
    Chain (Function.update next t o) a as := by
  induction c with
  | last h =>
    rw [List.mem_singleton] at ht
    exact last (by rw [Function.update_of_ne (Ne.symm ht), h])
  | step h _ ih =>
    rw [List.mem_cons, not_or] at ht
    exact step (by rw [Function.update_of_ne (Ne.symm ht.1), h]) (ih ht.2)

/-- A chain that comes by `t` goes on from there along the new successor. -/
theorem update_of_mem {pre post fs : List α} (c : Chain next a (pre ++ t :: post)) (cf : Chain next f fs)
    (hf : t ∉ fs) : Chain (Function.update next t (some f)) a (pre ++ t :: fs) := by
  induction pre generalizing a with
  | nil =>
    rw [← c.head_eq]
    exact step (Function.update_self ..) (cf.update_of_notMem hf _)
  | cons p pre ih =>
    have hp := c.head_eq
    have ht : p ≠ t := by
      rintro rfl
      simpa using c.nodup
    obtain ⟨u, h, c⟩ := c.tail
    rw [← hp] at h ⊢
    exact step (by rw [Function.update_of_ne ht, h]) (ih c)

end Update

end Chain

variable [DecidableEq α] {next : α → Option α} {t f : α}

/-- Giving `t` the new successor `f` is safe if `t` is not met from `f` on. -/
theorem Ends.update (he : Ends next) (hr : ¬ Reaches next f t) : Ends (Function.update next t (some f)) := by
  obtain ⟨fs, cf⟩ := he f
  have hf : t ∉ fs := fun h => hr (cf.mem_iff.1 h)
  intro a
  obtain ⟨as, c⟩ := he a
  by_cases ht : t ∈ as
  · obtain ⟨pre, post, rfl⟩ := List.append_of_mem ht
    exact ⟨_, c.update_of_mem cf hf⟩
  · exact ⟨as, c.update_of_notMem ht _⟩

theorem Reaches.update {a : α} (hr : Reaches next a t) (o : Option α) : Reaches (Function.update next t o) a t := by
  induction hr using Relation.ReflTransGen.head_induction_on with
  | refl => exact .refl
  | @head a b hab _ ih =>
    by_cases hat : a = t
    · -- a way that comes by `t` early is cut there
      rw [hat]
    · exact .head (show Function.update next t o a = some b by rw [Function.update_of_ne hat, hab]) ih

/-- The new successor closes a cycle exactly if it leads back. -/
theorem Ends.exists_onCycle_update_iff (he : Ends next) :
    (∃ a, OnCycle (Function.update next t (some f)) a) ↔ Reaches next f t := by
  constructor
  · rintro ⟨a, ha⟩
    by_contra hr
    obtain ⟨as, c⟩ := he.update hr a
    exact c.not_onCycle ha
  · exact fun hr => ⟨t, .head' (Function.update_self ..) (hr.update _)⟩

end Tabula
