import Mathlib.Data.List.DropRight
import Tabula.Proofs.Arguments
import Tabula.Proofs.KeyConversion
import Tabula.Proofs.RandomStreams

/-!
What the arguments of `math.random` ask for. `nil`s at the end do not count. The rest must be nothing, or one bound, or
two bounds; a bound is rounded down to an integer of 64 bits, and the interval must not be empty. All this is settled
without a word from the source.
-/

namespace Tabula

/-- `i` is the greatest integer up to the number that the value is or spells. -/
def Value.HasFloor (v : Value) (i : ℤ) : Prop :=
  ∃ x, v.toNumber? = some x ∧ x.isFinite = true ∧ ⌊x.toRat⌋ = i

theorem Value.hasFloor_iff {v : Value} {i : ℤ} :
    v.HasFloor i ↔ (v.toNumber?.bind fun x => x.floor.toInt?) = some i := by
  simp only [HasFloor, Option.bind_eq_some_iff, Binary64.toInt?_floor_eq_some_iff]

theorem Value.HasFloor.unique {v : Value} {i j : ℤ} (h : v.HasFloor i) (h' : v.HasFloor j) : i = j :=
  Option.some.inj ((hasFloor_iff.1 h).symm.trans (hasFloor_iff.1 h'))

namespace Binary64

variable {x : Binary64}

theorem exists_toInt?_floor (hx : x.floor.isFinite = true) : ∃ i, x.floor.toInt? = some i := by
  rcases x with _ | _ | _
  · contradiction
  · contradiction
  · exact ⟨_, toInt?_floor rfl⟩

/-- A number that has been rounded down has no fraction to be tested for. -/
theorem convertible_floor_iff : x.floor.Convertible ↔ x.floor.isFinite = true ∧
    x.floor.less (ofInt Int64.minValue.toInt) = false ∧ x.floor.less (ofInt Int64.maxValue.toInt) = true := by
  refine and_congr_right fun hf => and_iff_right ?_
  obtain ⟨i, hi⟩ := exists_toInt?_floor hf
  rw [(toInt?_eq_some_iff_toRat.1 hi).2, Int.floor_intCast]

end Binary64

namespace Argument

variable {function : String} {position : ℕ} {v : Value}

theorem integer_eq_ok_iff {n : Int64} : integer function position (some v) = .ok n ↔ v.HasFloor n.toInt := by
  rw [integer, bind_eq_ok_iff, Value.hasFloor_iff, Option.bind_eq_some_iff]
  simp only [number_eq_ok_iff]
  refine exists_congr fun x => and_congr_right fun _ => ?_
  cases hx : x.floor.toInt? with
  | none => simp
  | some i =>
    dsimp only
    rw [Option.some.injEq]
    split_ifs with hrange
    · constructor
      · rintro ⟨⟩
        exact (Int64.toInt_ofInt_of_le hrange.1 hrange.2).symm
      · rintro rfl
        rw [Int64.ofInt_toInt]
        rfl
    · -- an integer of 64 bits is in the range
      have hlow := n.le_toInt
      have hhigh := n.toInt_lt
      exact iff_of_false (fun h => nomatch h) (by omega)

/-- The same in steps on numbers: the argument is rounded down, compared with the ends of the range as numbers, and then
converted. -/
theorem integer_eq_toInt64 (function : String) (position : ℕ) (v : Option Value) :
    integer function position v = (do
      let n := (← number function position v).floor
      if n.isFinite = true ∧ n.less (.ofInt Int64.minValue.toInt) = false ∧
          n.less (.ofInt Int64.maxValue.toInt) = true then
        return n.toInt64
      else .error (.mismatch (.notAnInteger position function))) := by
  rw [integer]
  refine bind_congr fun x => ?_
  by_cases hx : x.floor.Convertible
  · obtain ⟨i, hi, hlow, hhigh⟩ := Binary64.convertible_iff.1 hx
    have hsame : Int64.ofInt i = x.floor.toInt64 := Int64.toInt_inj.1 <| by
      rw [Int64.toInt_ofInt_of_le hlow hhigh, Binary64.toInt_toInt64 hi hlow hhigh]
    rw [if_pos (Binary64.convertible_floor_iff.1 hx), hi]
    dsimp only
    rw [if_pos ⟨hlow, hhigh⟩, hsame]
  · rw [if_neg (mt Binary64.convertible_floor_iff.2 hx)]
    cases hi : x.floor.toInt? with
    | none => rfl
    | some i => exact if_neg fun hrange => hx (Binary64.convertible_iff.2 ⟨i, hi, hrange⟩)

/-! ### The arguments that count -/

theorem given_eq_rdropWhile (args : List Value) : given args = args.rdropWhile Value.isNil := rfl

theorem exists_eq_given_append (args : List Value) : ∃ k, args = given args ++ List.replicate k .nil := by
  refine ⟨(args.rtakeWhile Value.isNil).length, ?_⟩
  have hnils : args.rtakeWhile Value.isNil = List.replicate (args.rtakeWhile Value.isNil).length .nil :=
    List.eq_replicate_of_mem fun v hv => Value.isNil_iff.1 (List.mem_rtakeWhile_imp hv)
  rw [← hnils, given_eq_rdropWhile, List.rdropWhile_append_rtakeWhile]

theorem getLast?_given (args : List Value) : (given args).getLast? ≠ some .nil := by
  intro hlast
  obtain ⟨hne, hnil⟩ := List.mem_getLast?_eq_getLast hlast
  exact List.rdropWhile_last_not _ _ hne (Value.isNil_iff.2 hnil.symm)

theorem given_given (args : List Value) : given (given args) = given args :=
  List.rdropWhile_idempotent _ _

end Argument

namespace Random

inductive Asks : List Value → (low high : ℤ) → Prop
  | upTo {v : Value} {m : ℤ} (hv : v.HasFloor m) (hlow : 1 ≤ m) (hhigh : m < 2 ^ 63) : Asks [v] 1 m
  | between {v w : Value} {lo hi : ℤ} (hv : v.HasFloor lo) (hw : w.HasFloor hi) (hlow : -2 ^ 63 ≤ lo) (hlt : lo < hi)
      (hhigh : hi < 2 ^ 63) : Asks [v, w] lo (hi - 1)

variable {args : List Value} {v w : Value} {low high : ℤ}

theorem asks_one_iff : Asks [v] low high ↔ low = 1 ∧ v.HasFloor high ∧ 1 ≤ high ∧ high < 2 ^ 63 := by
  constructor
  · rintro ⟨hv, hlow, hhigh⟩
    exact ⟨rfl, hv, hlow, hhigh⟩
  · rintro ⟨rfl, hv, hlow, hhigh⟩
    exact .upTo hv hlow hhigh

theorem asks_two_iff :
    Asks [v, w] low high ↔ v.HasFloor low ∧ w.HasFloor (high + 1) ∧ -2 ^ 63 ≤ low ∧ low ≤ high ∧ high + 1 < 2 ^ 63 := by
  constructor
  · rintro (_ | ⟨hv, hw, hlow, hlt, hhigh⟩)
    rw [sub_add_cancel]
    exact ⟨hv, hw, hlow, by omega, hhigh⟩
  · rintro ⟨hv, hw, hlow, hle, hhigh⟩
    have h := Asks.between hv hw hlow (by omega) hhigh
    rwa [add_sub_cancel_right] at h

/-- The interval is not empty, and it is not all the integers of 64 bits. -/
theorem Asks.bounds (h : Asks args low high) :
    -2 ^ 63 ≤ low ∧ low ≤ high ∧ high < 2 ^ 63 ∧ high - low + 1 < 2 ^ 64 := by
  cases h with
  | upTo _ _ _ => omega
  | between _ _ _ _ _ => omega

theorem Asks.exists_interval (h : Asks args low high) : ∃ i : Interval, i.low.toInt = low ∧ i.high.toInt = high := by
  obtain ⟨hlow, hle, hhigh, -⟩ := h.bounds
  exact ⟨⟨.ofInt low, .ofInt high⟩, Int64.toInt_ofInt_of_le hlow (by omega), Int64.toInt_ofInt_of_le (by omega) hhigh⟩

theorem toInt_sub_one {a b : Int64} (h : a < b) : (b - 1).toInt = b.toInt - 1 := by
  have hlt := Int64.lt_iff_toInt_lt.1 h
  have hlow := a.le_toInt
  have hhigh := b.toInt_lt
  rw [Int64.toInt_sub, Int64.toInt_one]
  exact Int.bmod_eq_of_le (by omega) (by omega)

theorem toInt_add_one {a : Int64} (h : a.toInt + 1 < 2 ^ 63) : (a + 1).toInt = a.toInt + 1 := by
  have hlow := a.le_toInt
  rw [Int64.toInt_add, Int64.toInt_one]
  exact Int.bmod_eq_of_le (by omega) (by omega)

theorem request_one_eq_ok_iff {r : Request} (hargs : Argument.given args = [v]) :
    request args = .ok r ↔ ∃ i : Interval, Asks [v] i.low.toInt i.high.toInt ∧ r = .integer i := by
  simp only [request, hargs, bind_eq_ok_iff, Argument.integer_eq_ok_iff, asks_one_iff, Int64.lt_iff_toInt_lt,
    Int64.toInt_one]
  constructor
  · rintro ⟨upper, hfloor, hr⟩
    split_ifs at hr with hlt
    cases hr
    exact ⟨⟨1, upper⟩, ⟨rfl, hfloor, not_lt.1 hlt, upper.toInt_lt⟩, rfl⟩
  · rintro ⟨⟨low, high⟩, ⟨hone, hfloor, hle, -⟩, rfl⟩
    obtain rfl : low = 1 := Int64.toInt_inj.1 hone
    exact ⟨high, hfloor, if_neg (not_lt.2 hle)⟩

theorem request_two_eq_ok_iff {r : Request} (hargs : Argument.given args = [v, w]) :
    request args = .ok r ↔ ∃ i : Interval, Asks [v, w] i.low.toInt i.high.toInt ∧ r = .integer i := by
  simp only [request, hargs, bind_eq_ok_iff, Argument.integer_eq_ok_iff, asks_two_iff]
  constructor
  · rintro ⟨lower, hlower, upper, hupper, hr⟩
    split_ifs at hr with hle
    cases hr
    have hlt := Int64.not_le.1 hle
    have hpred := toInt_sub_one hlt
    rw [Int64.lt_iff_toInt_lt] at hlt
    refine ⟨⟨lower, upper - 1⟩, ⟨hlower, ?_, lower.le_toInt, ?_, ?_⟩, rfl⟩
    · rwa [hpred, sub_add_cancel]
    · rw [hpred]
      exact Int.le_sub_one_of_lt hlt
    · rw [hpred, sub_add_cancel]
      exact upper.toInt_lt
  · rintro ⟨⟨low, high⟩, ⟨hlower, hupper, hlow, hle, hhigh⟩, rfl⟩
    have hsucc := toInt_add_one hhigh
    refine ⟨low, hlower, high + 1, by rwa [hsucc], ?_⟩
    rw [if_neg, Int64.add_sub_cancel]
    · rfl
    · rw [Int64.le_iff_toInt_le, hsucc]
      exact not_le.2 (Int.lt_add_one_of_le hle)

theorem request_eq_ok_iff {r : Request} : request args = .ok r ↔
    Argument.given args = [] ∧ r = .fraction ∨
      ∃ i : Interval, Asks (Argument.given args) i.low.toInt i.high.toInt ∧ r = .integer i := by
  rcases hargs : Argument.given args with _ | ⟨v, _ | ⟨w, _ | ⟨z, rest⟩⟩⟩
  · simp only [request, hargs, true_and]
    constructor
    · rintro ⟨⟩
      exact .inl rfl
    · rintro (rfl | ⟨i, ⟨⟩, -⟩)
      rfl
  · rw [request_one_eq_ok_iff hargs]
    simp
  · rw [request_two_eq_ok_iff hargs]
    simp
  · simp only [request, hargs]
    exact iff_of_false (fun h => nomatch h) (by rintro (⟨h, -⟩ | ⟨i, ⟨⟩, -⟩); contradiction)

variable {γ : Type} [WordSource γ]

theorem perform_random_ok_iff {g rest : γ} {x : Binary64} :
    (random args).perform g = (.ok x, rest) ↔ ∃ r, request args = .ok r ∧ r.draw g = (x, rest) := by
  rw [perform_random]
  cases request args with
  | ok r => simp [Prod.ext_iff]
  | error e => simp

theorem perform_random_error_iff {g rest : γ} {e : Error} :
    (random args).perform g = (.error e, rest) ↔ request args = .error e ∧ rest = g := by
  rw [perform_random]
  cases request args with
  | ok r => simp
  | error e' => simp [eq_comm]

theorem request_congr {args' : List Value} (h : Argument.given args' = Argument.given args) :
    request args' = request args := by
  rw [request, h, ← request]

/-- A call succeeds exactly if the arguments before the last `nil`s are none or ask for an interval. Its error depends
on nothing else, and it leaves every source as it was, the generator of a machine among them. -/
theorem random_accepted_calls (args : List Value) :
    (∃ k, args = Argument.given args ++ List.replicate k .nil) ∧ (Argument.given args).getLast? ≠ some .nil ∧
    (∀ {γ : Type} [WordSource γ] (g : γ),
      ((∃ x rest, (random args).perform g = (.ok x, rest)) ↔
        Argument.given args = [] ∨ ∃ low high, Asks (Argument.given args) low high) ∧
      (∀ e rest, (random args).perform g = (.error e, rest) → rest = g) ∧
      (random args).perform g = (random (Argument.given args)).perform g) ∧
    (∀ {γ δ : Type} [WordSource γ] [WordSource δ] (g : γ) (g' : δ) (args' : List Value) (e : Error),
      Argument.given args' = Argument.given args →
        ((random args).perform g = (.error e, g) ↔ (random args').perform g' = (.error e, g'))) ∧
    ∀ {Host : Type} [HostCode Host] (m : Machine Host) (f : Callable) (g : Generator),
      m.routines[f.index]? = some (.random g) →
      (∀ e, (random args).perform g = (.error e, g) → (call (.function f) args).perform m = (.error e, m)) ∧
      ∀ x rest, (random args).perform g = (.ok x, rest) →
        (call (.function f) args).perform m = (.ok (.number x), m.setRoutine f.index (.random rest)) := by
  refine ⟨Argument.exists_eq_given_append args, Argument.getLast?_given args, ?_, ?_, ?_⟩
  · intro γ _ g
    refine ⟨⟨?_, ?_⟩, fun e rest he => (perform_random_error_iff.1 he).2, ?_⟩
    · rintro ⟨x, rest, hx⟩
      obtain ⟨r, hr, -⟩ := perform_random_ok_iff.1 hx
      exact (request_eq_ok_iff.1 hr).imp And.left fun ⟨i, hi, _⟩ => ⟨_, _, hi⟩
    · rintro (hnone | ⟨low, high, h⟩)
      · exact ⟨_, _, perform_random_ok_iff.2 ⟨_, request_eq_ok_iff.2 (.inl ⟨hnone, rfl⟩), rfl⟩⟩
      · obtain ⟨i, rfl, rfl⟩ := h.exists_interval
        exact ⟨_, _, perform_random_ok_iff.2 ⟨_, request_eq_ok_iff.2 (.inr ⟨i, h, rfl⟩), rfl⟩⟩
    · rw [perform_random, perform_random, request_congr (Argument.given_given args)]
  · intro γ δ _ _ g g' args' e hgiven
    rw [perform_random_error_iff, perform_random_error_iff, request_congr hgiven]
    simp
  · intro Host _ m f g hf
    refine ⟨fun e he => ?_, fun x rest hx => ?_⟩
    · rw [perform_call_random hf, Generator.draw, he, m.setRoutine_eq_self hf]
      rfl
    · rw [perform_call_random hf, Generator.draw, hx]
      rfl

/-- A numeral with a fraction and a negative zero are bounds; a `nil` before a bound is not. -/
theorem random_accepted_calls_nils :
    (∃ x rest, (random [.string "-2.5", .number (.zero true), .nil, .nil]).perform (⟨[]⟩ : Tape) = (.ok x, rest)) ∧
      ¬ ∃ x rest, (random [.nil, .number 5, .nil]).perform (⟨[]⟩ : Tape) = (.ok x, rest) := by
  have hlow : (Value.string "-2.5").HasFloor (-3) := Value.hasFloor_iff.2 (by decide +kernel)
  have hhigh : (Value.number (.zero true)).HasFloor 0 := Value.hasFloor_iff.2 (by decide +kernel)
  obtain ⟨-, -, haccepts, -⟩ := random_accepted_calls [.string "-2.5", .number (.zero true), .nil, .nil]
  obtain ⟨-, -, hrefuses, -⟩ := random_accepted_calls [.nil, .number 5, .nil]
  refine ⟨(haccepts _).1.2 (.inr ⟨_, _, .between hlow hhigh (by decide) (by decide) (by decide)⟩), fun h => ?_⟩
  rcases (hrefuses _).1.1 h with hnone | ⟨low, high, hasks⟩
  · contradiction
  · obtain ⟨⟨x, hx, -⟩, -⟩ := asks_two_iff.1 hasks
    contradiction

end Random

end Tabula
