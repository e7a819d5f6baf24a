import Mathlib.Data.List.Perm.Basic
import Tabula.Proofs.Arguments
import Tabula.Proofs.KeyEquality
import Tabula.Standard

/-!
The greatest and the least of the arguments. One comparison serves both: it holds on to a number until another is ahead
of it, and with a NaN nothing is ahead of anything. Main statement: without a NaN the result is one of the numbers that
comes after none of the others; a NaN counts only in the first place, and there it is the result.
-/

namespace Tabula

namespace Argument

variable {args args' : List Value} {numbers : List Binary64}

theorem Spell.perm (hs : Spell args numbers) (hp : args'.Perm args) :
    ∃ numbers', Spell args' numbers' ∧ numbers'.Perm numbers := List.perm_comp_forall₂ hp hs

def spellsNaN (v : Value) : Bool := v.toNumber?.any Binary64.isNaN

theorem Spell.filter (hs : Spell args numbers) :
    Spell (args.filter fun v => !spellsNaN v) (numbers.filter fun x => !x.isNaN) := by
  refine List.rel_filter ?_ hs
  intro v x hv
  change (!v.toNumber?.any Binary64.isNaN) = true ↔ (!x.isNaN) = true
  rw [hv]
  rfl

end Argument

namespace StandardFunction

variable {rank : Binary64 → ℤ} {ahead : Binary64 → Binary64 → Bool} {numbers numbers' others : List Binary64}
  {first x y : Binary64}

/-- One number is ahead of another by an integer that belongs to each. Equal numbers share it, and no NaN takes part. -/
structure Ranks (rank : Binary64 → ℤ) (ahead : Binary64 → Binary64 → Bool) : Prop where
  ahead_iff : ∀ x y, ahead x y = true ↔ x.isNaN = false ∧ y.isNaN = false ∧ rank y < rank x
  equal_iff : ∀ x y : Binary64, x.equal y = true ↔ x.isNaN = false ∧ y.isNaN = false ∧ rank x = rank y

theorem ranks_greater : Ranks Binary64.place fun x y => y.less x where
  ahead_iff x y := by
    rw [Binary64.less_iff_place]
    exact and_left_comm
  equal_iff x y := Binary64.equal_iff_place

theorem ranks_less : Ranks (fun x => -x.place) fun x y => x.less y where
  ahead_iff x y := by
    rw [Binary64.less_iff_place, neg_lt_neg_iff]
  equal_iff x y := by
    rw [Binary64.equal_iff_place, neg_inj]

/-- Of the numbers, `x` is one that no other is ahead of. -/
structure Leads (rank : Binary64 → ℤ) (numbers : List Binary64) (x : Binary64) : Prop where
  mem : x ∈ numbers
  isNaN_eq_false : x.isNaN = false
  rank_le : ∀ y ∈ numbers, y.isNaN = false → rank y ≤ rank x

namespace Leads

theorem perm (h : Leads rank numbers x) (hp : numbers.Perm numbers') : Leads rank numbers' x :=
  ⟨hp.mem_iff.1 h.mem, h.isNaN_eq_false, fun y hy => h.rank_le y (hp.mem_iff.2 hy)⟩

theorem cons (h : Leads rank (first :: others) x) (hf : first.isNaN = false)
    (hy : y.isNaN = false → rank y ≤ rank first) : Leads rank (y :: first :: others) x := by
  refine ⟨List.mem_cons_of_mem _ h.mem, h.isNaN_eq_false, ?_⟩
  rw [List.forall_mem_cons]
  exact ⟨fun hn => (hy hn).trans (h.rank_le first List.mem_cons_self hf), h.rank_le⟩

theorem rank_eq (h : Leads rank numbers x) (h' : Leads rank numbers y) : rank x = rank y :=
  le_antisymm (h'.rank_le x h.mem h.isNaN_eq_false) (h.rank_le y h'.mem h'.isNaN_eq_false)

end Leads

namespace Ranks

theorem ahead_eq_false (hr : Ranks rank ahead) (h : x.isNaN = true ∨ y.isNaN = true) : ahead x y = false := by
  rw [Bool.eq_false_iff, Ne, hr.ahead_iff]
  rintro ⟨hx, hy, -⟩
  rcases h with h | h
  · rw [hx] at h
    contradiction
  · rw [hy] at h
    contradiction

theorem equal_or_ahead (hr : Ranks rank ahead) (h : Leads rank numbers x) (hy : y ∈ numbers) (hn : y.isNaN = false) :
    x.equal y = true ∨ ahead x y = true := by
  rw [hr.equal_iff, hr.ahead_iff]
  rcases (h.rank_le y hy hn).lt_or_eq with hlt | heq
  · exact .inr ⟨h.isNaN_eq_false, hn, hlt⟩
  · exact .inl ⟨h.isNaN_eq_false, hn, heq.symm⟩

theorem best_of_isNaN (hr : Ranks rank ahead) (hf : first.isNaN = true) : best ahead (first, others) = first := by
  induction others with
  | nil => rfl
  | cons y others ih =>
    change best ahead (if ahead y first then y else first, others) = first
    rw [hr.ahead_eq_false (.inr hf)]
    exact ih

/-- What is held leads the numbers seen so far, so that at the end it leads them all. -/
theorem leads_best (hr : Ranks rank ahead) (hf : first.isNaN = false) :
    Leads rank (first :: others) (best ahead (first, others)) := by
  induction others generalizing first with
  | nil => exact ⟨List.mem_singleton_self _, hf, fun y hy _ => by rw [List.mem_singleton.1 hy]; rfl⟩
  | cons y others ih =>
    change Leads rank (first :: y :: others) (best ahead (if ahead y first then y else first, others))
    split_ifs with hahead
    · obtain ⟨hy, -, hlt⟩ := (hr.ahead_iff _ _).1 hahead
      exact (ih hy).cons hy fun _ => hlt.le
    · refine ((ih hf).cons hf fun hy => ?_).perm (.swap _ _ _)
      rw [hr.ahead_iff] at hahead
      exact not_lt.1 fun hlt => hahead ⟨hy, hf, hlt⟩

theorem best_filter (hr : Ranks rank ahead) :
    best ahead (first, others.filter fun x => !x.isNaN) = best ahead (first, others) := by
  induction others generalizing first with
  | nil => rfl
  | cons y others ih =>
    change _ = best ahead (if ahead y first then y else first, others)
    cases hy : y.isNaN with
    | true =>
      rw [List.filter_cons_of_neg (by simp [hy]), hr.ahead_eq_false (.inl hy)]
      exact ih
    | false =>
      rw [List.filter_cons_of_pos (by simp [hy])]
      exact ih

end Ranks

inductive Chooses : StandardFunction → (Binary64 → Binary64 → Bool) → Prop
  | max : Chooses .max fun x y => y.less x
  | min : Chooses .min fun x y => x.less y

namespace Chooses

variable {f : StandardFunction} {args args' : List Value}

theorem exists_ranks (hf : Chooses f ahead) : ∃ rank, Ranks rank ahead := by
  cases hf with
  | max => exact ⟨_, ranks_greater⟩
  | min => exact ⟨_, ranks_less⟩

theorem result_eq (hf : Chooses f ahead) (names : Naming) (args : List Value) :
    f.result names args = (Argument.several f.name args).map fun ns => .number (best ahead ns) := by
  cases hf <;> rfl

theorem result_of_spell (hf : Chooses f ahead) (names : Naming) (hs : Argument.Spell args (first :: others)) :
    f.result names args = .ok (.number (best ahead (first, others))) := by
  rw [hf.result_eq, Argument.several_eq_ok_iff.2 hs]
  rfl

theorem result_eq_error_iff (hf : Chooses f ahead) (names : Naming) :
    (∃ e, f.result names args = .error e) ↔ args = [] ∨ ∃ v ∈ args, v.toNumber? = none := by
  constructor
  · rintro ⟨e, he⟩
    by_contra hno
    push Not at hno
    obtain ⟨numbers, hs⟩ := Argument.exists_spell_iff.2 hno.2
    cases hs with
    | nil => exact hno.1 rfl
    | cons hv hs =>
      rw [hf.result_of_spell names (.cons hv hs)] at he
      contradiction
  · intro hbad
    rw [hf.result_eq]
    cases hr : Argument.several f.name args with
    | error e => exact ⟨e, rfl⟩
    | ok numbers =>
      -- all arguments have been converted
      have hs := Argument.several_eq_ok_iff.1 hr
      rcases hbad with rfl | ⟨v, hv, hnone⟩
      · contradiction
      · exact absurd hnone (Argument.exists_spell_iff.1 ⟨_, hs⟩ v hv)

theorem result_of_perm (hf : Chooses f ahead) (names : Naming) (hs : Argument.Spell args (first :: others))
    (hn : ∀ y ∈ first :: others, y.isNaN = false) (hp : args'.Perm args) :
    ∃ x, f.result names args' = .ok (.number x) ∧ x.equal (best ahead (first, others)) = true := by
  obtain ⟨rank, hr⟩ := hf.exists_ranks
  have hlead : Leads rank (first :: others) _ := hr.leads_best (hn first List.mem_cons_self)
  obtain ⟨numbers, hs', hperm⟩ := hs.perm hp
  cases numbers with
  | nil => exact absurd hperm.length_eq (by simp)
  | cons first' others' =>
    have hlead' : Leads rank (first' :: others') _ := hr.leads_best (hn first' (hperm.mem_iff.1 List.mem_cons_self))
    refine ⟨_, hf.result_of_spell names hs', (hr.equal_iff _ _).2 ?_⟩
    exact ⟨hlead'.isNaN_eq_false, hlead.isNaN_eq_false, (hlead'.perm hperm).rank_eq hlead⟩

end Chooses

/-- The greatest or the least of the arguments is refused exactly if there is none or one is neither a number nor a
numeric string, and the first such argument is the one named. Otherwise the result is one of the numbers. A NaN in the
first place is the result. Without one there, the result is equal to or ahead of every number other than NaN, and it is
that of the arguments without the NaNs. Where there is no NaN at all, every order of the arguments has an equal
result. -/
theorem extreme_of_arguments {f : StandardFunction} {ahead : Binary64 → Binary64 → Bool} (hf : Chooses f ahead)
    (names : Naming) (args : List Value) :
    ((∃ e, f.result names args = .error e) ↔ args = [] ∨ ∃ v ∈ args, v.toNumber? = none) ∧
    (args = [] → f.result names args = .error (.missing (.argument 1 f.name))) ∧
    (∀ before v after, args = before ++ v :: after → (∀ u ∈ before, u.toNumber? ≠ none) → v.toNumber? = none →
      f.result names args = .error (Argument.refusal f.name (before.length + 1) v)) ∧
    ∀ first others, Argument.Spell args (first :: others) →
      ∃ x ∈ first :: others, f.result names args = .ok (.number x) ∧
        (first.isNaN = true → x = first) ∧
        (first.isNaN = false →
          (∀ y ∈ first :: others, y.isNaN = false → x.equal y = true ∨ ahead x y = true) ∧
          f.result names (args.filter fun v => !Argument.spellsNaN v) = .ok (.number x)) ∧
        ((∀ y ∈ first :: others, y.isNaN = false) → ∀ args', args'.Perm args →
          ∃ x', f.result names args' = .ok (.number x') ∧ x'.equal x = true) := by
  refine ⟨hf.result_eq_error_iff names, ?_, ?_, ?_⟩
  · rintro rfl
    rw [hf.result_eq]
    rfl
  · rintro before v after rfl hb hv
    rw [hf.result_eq, Argument.several_eq_error hb hv]
    rfl
  · intro first others hs
    obtain ⟨rank, hr⟩ := hf.exists_ranks
    have hresult := hf.result_of_spell names hs
    have hperm := fun hn (args' : List Value) (hp : args'.Perm args) => hf.result_of_perm names hs hn hp
    cases hnan : first.isNaN with
    | true =>
      have hbest : best ahead (first, others) = first := hr.best_of_isNaN hnan
      exact ⟨_, by rw [hbest]; exact List.mem_cons_self, hresult, fun _ => hbest, fun h => (nomatch h), hperm⟩
    | false =>
      have hlead : Leads rank (first :: others) _ := hr.leads_best hnan
      have hfiltered := hs.filter
      rw [List.filter_cons_of_pos (by simp [hnan])] at hfiltered
      refine ⟨_, hlead.mem, hresult, fun h => (nomatch h), fun _ => ⟨fun y => hr.equal_or_ahead hlead, ?_⟩, hperm⟩
      rw [hf.result_of_spell names hfiltered, hr.best_filter]

/-- The greatest number comes from a string, and the NaN before it does not count; a `nil` in the second place is named
although a boolean follows. -/
theorem extreme_of_arguments_mixed :
    (∃ x, max.result {} [.number 9, .number (.nan false false), .string "0x10"] = .ok (.number x) ∧
      (x.equal 16 = true ∨ Binary64.less 16 x = true) ∧
      max.result {} [.number 9, .string "0x10"] = .ok (.number x)) ∧
      min.result {} [.number 1, .nil, .boolean true] = .error (.missing (.nilArgument 2 "min")) := by
  have hspell : Argument.Spell [.number 9, .number (.nan false false), .string "0x10"] [9, .nan false false, 16] :=
    .cons rfl (.cons rfl (.cons (by decide +kernel) .nil))
  obtain ⟨-, -, -, hfound⟩ :=
    extreme_of_arguments .max {} [.number 9, .number (.nan false false), .string "0x10"]
  obtain ⟨-, -, hnamed, -⟩ := extreme_of_arguments .min {} [.number 1, .nil, .boolean true]
  obtain ⟨x, -, hx, -, hlead, -⟩ := hfound 9 [.nan false false, 16] hspell
  obtain ⟨hahead, hfiltered⟩ := hlead (by decide +kernel)
  have hkept : [.number 9, .number (.nan false false), .string "0x10"].filter (fun v => !Argument.spellsNaN v) =
      [.number 9, .string "0x10"] := by decide +kernel
  rw [hkept] at hfiltered
  exact ⟨⟨x, hx, hahead 16 (by simp) (by decide +kernel), hfiltered⟩,
    hnamed [.number 1] .nil [.boolean true] rfl (by simp [Value.toNumber?]) rfl⟩

end StandardFunction

end Tabula
