import Mathlib.Data.List.Forall2
import Tabula.Argument

/-!
Arguments that are asked for as numbers. All of them are converted, or the error is about the first that cannot be.
-/

namespace Tabula

theorem bind_eq_ok_iff {ε α β : Type} {x : Except ε α} {f : α → Except ε β} {b : β} :
    x >>= f = .ok b ↔ ∃ a, x = .ok a ∧ f a = .ok b := by
  cases x with
  | error e => exact ⟨fun h => (nomatch h), fun ⟨_, h, _⟩ => (nomatch h)⟩
  | ok a => exact ⟨fun h => ⟨a, rfl, h⟩, fun ⟨_, h, hf⟩ => by cases h; exact hf⟩

namespace Argument

variable {function : String} {position : ℕ} {v : Value} {args before after : List Value} {first : Binary64}
  {numbers others : List Binary64}

theorem number_eq_ok_iff {x : Binary64} : number function position (some v) = .ok x ↔ v.toNumber? = some x := by
  cases v with
  | nil => simp [number, Value.toNumber?]
  | _ =>
    rw [number]
    · split <;> simp_all
    · simp

def refusal (function : String) (position : ℕ) (v : Value) : Error :=
  if v.isNil then .missing (.nilArgument position function) else .mismatch (.argument position function v.kind)

theorem number_eq_error (hv : v.toNumber? = none) :
    number function position (some v) = .error (refusal function position v) := by
  cases v with
  | nil => rfl
  | _ =>
    rw [number, hv]
    · rfl
    · simp

/-- Each argument is, or spells, the number at its place. -/
def Spell (args : List Value) (numbers : List Binary64) : Prop :=
  List.Forall₂ (fun v x => v.toNumber? = some x) args numbers

theorem exists_spell_iff : (∃ numbers, Spell args numbers) ↔ ∀ v ∈ args, v.toNumber? ≠ none := by
  induction args with
  | nil => exact ⟨fun _ => by simp, fun _ => ⟨[], .nil⟩⟩
  | cons v args ih =>
    rw [List.forall_mem_cons, ← ih]
    constructor
    · rintro ⟨_, _ | ⟨hv, hargs⟩⟩
      exact ⟨by simp [hv], _, hargs⟩
    · rintro ⟨hv, numbers, hargs⟩
      obtain ⟨x, hx⟩ := Option.ne_none_iff_exists'.1 hv
      exact ⟨x :: numbers, .cons hx hargs⟩

theorem mapM_number_eq_ok_iff :
    ((args.zipIdx position).mapM fun e => number function e.2 (some e.1)) = .ok numbers ↔ Spell args numbers := by
  induction args generalizing position numbers with
  | nil => cases numbers <;> simp [Spell, pure, Except.pure]
  | cons v args ih =>
    rw [List.zipIdx_cons, List.mapM_cons, bind_eq_ok_iff]
    simp only [bind_eq_ok_iff, number_eq_ok_iff, ih]
    constructor
    · rintro ⟨x, hx, xs, hxs, ⟨⟩⟩
      exact .cons hx hxs
    · rintro (_ | ⟨hx, hxs⟩)
      exact ⟨_, hx, _, hxs, rfl⟩

theorem mapM_number_eq_error (hb : ∀ u ∈ before, u.toNumber? ≠ none) (hv : v.toNumber? = none) :
    (((before ++ v :: after).zipIdx position).mapM fun e => number function e.2 (some e.1)) =
      .error (refusal function (position + before.length) v) := by
  induction before generalizing position with
  | nil =>
    rw [List.nil_append, List.zipIdx_cons, List.mapM_cons, number_eq_error hv]
    rfl
  | cons u before ih =>
    rw [List.forall_mem_cons] at hb
    obtain ⟨x, hx⟩ := Option.ne_none_iff_exists'.1 hb.1
    rw [List.cons_append, List.zipIdx_cons, List.mapM_cons, number_eq_ok_iff.2 hx, ih hb.2, List.length_cons,
      show position + 1 + before.length = position + (before.length + 1) by omega]
    rfl

theorem several_eq_ok_iff : several function args = .ok (first, others) ↔ Spell args (first :: others) := by
  cases args with
  | nil => exact ⟨fun h => (nomatch h), fun h => (nomatch h)⟩
  | cons v args =>
    rw [several, bind_eq_ok_iff]
    simp only [bind_eq_ok_iff, List.tail_cons, mapM_number_eq_ok_iff, List.getElem?_cons_zero, number_eq_ok_iff]
    constructor
    · rintro ⟨x, hx, xs, hxs, ⟨⟩⟩
      exact .cons hx hxs
    · rintro (_ | ⟨hx, hxs⟩)
      exact ⟨_, hx, _, hxs, rfl⟩

/-- The first argument that is no number is the one named. -/
theorem several_eq_error (hb : ∀ u ∈ before, u.toNumber? ≠ none) (hv : v.toNumber? = none) :
    several function (before ++ v :: after) = .error (refusal function (before.length + 1) v) := by
  cases before with
  | nil =>
    rw [several, List.nil_append, List.getElem?_cons_zero, number_eq_error hv]
    rfl
  | cons u before =>
    rw [List.forall_mem_cons] at hb
    obtain ⟨x, hx⟩ := Option.ne_none_iff_exists'.1 hb.1
    rw [several, List.cons_append, List.getElem?_cons_zero, number_eq_ok_iff.2 hx, List.tail_cons,
      List.length_cons, show before.length + 1 + 1 = 2 + before.length by omega]
    exact congrArg (· >>= fun others => pure (x, others)) (mapM_number_eq_error hb.2 hv)

end Argument

end Tabula
