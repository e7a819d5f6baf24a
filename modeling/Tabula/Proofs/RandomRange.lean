import Tabula.Proofs.RandomRequests
import Tabula.Proofs.Sampling

/-!
Where random integers lie. The integer that is drawn lies in the interval that was asked for, and no arithmetic on the
way wraps around. The result is that integer as a number. It may have been rounded, but not beyond a bound that is
itself a number. Where the interval ends before its upper bound, the result can be that bound.
-/

namespace Tabula

theorem Value.HasFloor.toInt?_ofInt {v : Value} {k : ℤ} (h : v.HasFloor k) : (Binary64.ofInt k).toInt? = some k := by
  obtain ⟨x, -, hx⟩ := h
  exact Binary64.toInt?_ofInt (Binary64.toInt?_floor_eq_some_iff.2 hx)

namespace Random

open Argument (given)

variable {args : List Value} {v w : Value} {low high : ℤ} {i : Interval} {γ : Type} [WordSource γ]

theorem Asks.proper (h : Asks args i.low.toInt i.high.toInt) : i.Proper := by
  obtain ⟨-, hle, -, hlt⟩ := h.bounds
  exact ⟨hle, hlt⟩

theorem Asks.toInt?_ofInt_low (h : Asks args low high) : (Binary64.ofInt low).toInt? = some low := by
  cases h with
  | upTo _ _ _ => exact Binary64.toInt?_ofInt_of_small (by decide)
  | between hv _ _ _ _ => exact hv.toInt?_ofInt

theorem asks_of_request (h : request args = .ok (.integer i)) : Asks (given args) i.low.toInt i.high.toInt := by
  rcases request_eq_ok_iff.1 h with ⟨-, hr⟩ | ⟨j, hj, hr⟩
  · contradiction
  · cases hr
    exact hj

theorem perform_random_of_asks (h : Asks (given args) i.low.toInt i.high.toInt) (g : γ) :
    (random args).perform g = (.ok (.ofInt (i.draw g).1.toInt), (i.draw g).2) :=
  perform_random_ok_iff.2 ⟨_, request_eq_ok_iff.2 (.inr ⟨i, h, rfl⟩), rfl⟩

theorem natAbs_toInt_le (a : Int64) : a.toInt.natAbs ≤ 2 ^ 64 := by
  have hlow := a.le_toInt
  have hhigh := a.toInt_lt
  omega

theorem exists_toInt?_ofInt (a : Int64) : ∃ n, (Binary64.ofInt a.toInt).toInt? = some n :=
  Binary64.exists_toInt?_ofInt (natAbs_toInt_le a)

/-- The result for a word: an integer, not below the interval, and not above the rounded upper end. -/
theorem Asks.exists_result (h : Asks args i.low.toInt i.high.toInt) (w : UInt64) {b : ℤ}
    (hb : (Binary64.ofInt i.high.toInt).toInt? = some b) :
    ∃ n, (Binary64.ofInt (i.select w).toInt).toInt? = some n ∧ i.low.toInt ≤ n ∧ n ≤ b := by
  obtain ⟨hlow, hhigh⟩ := Interval.select_mem h.proper w
  obtain ⟨n, hn⟩ := exists_toInt?_ofInt (i.select w)
  exact ⟨n, hn, Binary64.ofInt_mono hlow (natAbs_toInt_le _) (natAbs_toInt_le _) h.toInt?_ofInt_low hn,
    Binary64.ofInt_mono hhigh (natAbs_toInt_le _) (natAbs_toInt_le _) hn hb⟩

/-- The interval of an accepted call has the bounds that were asked for, and its width is exact. Every word selects the
exact integer, in the interval. The result is the integer of the word that is drawn, the first of the source that is
accepted if one ever is, rounded to a number: it is an integer, and it is not below the lower bound nor above a single
bound. -/
theorem random_sampling_exact (haccepted : request args = .ok (.integer i)) :
    Asks (given args) i.low.toInt i.high.toInt ∧
    (i.width.toNat : ℤ) = i.high.toInt - i.low.toInt + 1 ∧ 1 ≤ i.width.toNat ∧ i.width.toNat ≤ 2 ^ 64 - 1 ∧
    (∀ word, (i.select word).toInt = i.low.toInt + (word.toNat * i.width.toNat / 2 ^ 64 : ℕ) ∧
      i.low.toInt ≤ (i.select word).toInt ∧ (i.select word).toInt ≤ i.high.toInt) ∧
    ∀ {γ : Type} [WordSource γ] (g : γ), ∃ word rest n,
      (i.drawWord g = some (word, rest) ∧ i.accepts word = true ∨ ∀ k, i.Rejects k g) ∧
      (random args).perform g = (.ok (.ofInt (i.select word).toInt), rest) ∧
      (Binary64.ofInt (i.select word).toInt).toInt? = some n ∧ i.low.toInt ≤ n ∧
      ((given args).length = 1 → n ≤ i.high.toInt) := by
  have h := asks_of_request haccepted
  have hproper := h.proper
  refine ⟨h, Interval.toNat_width hproper, Interval.width_pos hproper, Nat.le_pred_of_lt i.width.toNat_lt,
    fun word => ⟨Interval.toInt_select hproper word, Interval.select_mem hproper word⟩, fun g => ?_⟩
  obtain ⟨b, hb⟩ := exists_toInt?_ofInt i.high
  obtain ⟨n, hn, hlow, hle⟩ := h.exists_result ((i.drawWord g).getD (0, g)).1 hb
  refine ⟨_, ((i.drawWord g).getD (0, g)).2, n, ?_, perform_random_of_asks h g, hn, hlow, fun hone => ?_⟩
  · by_cases hall : ∀ k, i.Rejects k g
    · exact .inr hall
    · obtain ⟨k, hk⟩ := not_forall.1 hall
      obtain ⟨p, hp⟩ := Interval.exists_drawWord hproper hk
      rw [hp]
      exact .inl ⟨rfl, ((Interval.drawWord_eq_some_iff hproper).1 hp).1⟩
  · -- a single bound is a number, so the upper end is not rounded
    obtain ⟨v, hv⟩ := List.length_eq_one_iff.1 hone
    rw [hv, asks_one_iff] at h
    rw [h.2.1.toInt?_ofInt, Option.some.injEq] at hb
    omega

/-- The widest interval: the bounds are the least integer of 64 bits and the greatest one that is a number. -/
theorem random_sampling_exact_widest :
    ∃ i : Interval, request [.number (.ofInt (-2 ^ 63)), .number (.ofInt (2 ^ 63 - 1024))] = .ok (.integer i) ∧
      i.low.toInt = -2 ^ 63 ∧ i.high.toInt = 2 ^ 63 - 1025 ∧ (i.width.toNat : ℤ) = 2 ^ 64 - 1024 ∧
      ∀ word, -2 ^ 63 ≤ (i.select word).toInt ∧ (i.select word).toInt ≤ 2 ^ 63 - 1025 := by
  have haccepted : request [.number (.ofInt (-2 ^ 63)), .number (.ofInt (2 ^ 63 - 1024))] =
      .ok (.integer ⟨.ofInt (-2 ^ 63), .ofInt (2 ^ 63 - 1025)⟩) := by decide +kernel
  obtain ⟨-, hwidth, -, -, hselect, -⟩ := random_sampling_exact haccepted
  exact ⟨_, haccepted, by decide, by decide, hwidth, fun word => (hselect word).2⟩

/-- The last integer before an upper bound may be rounded up to it. -/
theorem Asks.toInt?_ofInt_high_iff (h : Asks [v, w] low high) :
    (Binary64.ofInt high).toInt? = some (high + 1) ↔ 4 ∣ high + 1 ∧ (2 ^ 53 < high + 1 ∨ high + 1 ≤ -2 ^ 53) := by
  obtain ⟨-, hw, hlow, hle, hlt⟩ := asks_two_iff.1 h
  rw [← Binary64.toInt?_ofInt_pred_iff hw.toInt?_ofInt (by omega), add_sub_cancel_right]

/-- A call with two bounds gives an integer that is not below the lower one and not above the upper one. It is the
upper one only if that is a multiple of four and the integer before it has more than 53 bits. Then the integer before
it is rounded up, and there is a word with which every source gives the upper bound. -/
theorem random_between_bounds (hargs : given args = [v, w]) {r : Request} (haccepted : request args = .ok r) :
    ∃ lo hi, v.HasFloor lo ∧ w.HasFloor hi ∧ lo < hi ∧
      (∀ {γ : Type} [WordSource γ] (g : γ), ∃ x rest n, (random args).perform g = (.ok x, rest) ∧
        x.toInt? = some n ∧ lo ≤ n ∧ n ≤ hi ∧ (n = hi → 4 ∣ hi ∧ (2 ^ 53 < hi ∨ hi ≤ -2 ^ 53))) ∧
      (4 ∣ hi ∧ (2 ^ 53 < hi ∨ hi ≤ -2 ^ 53) → ∃ word, ∀ {γ : Type} [WordSource γ] (g : γ),
        (WordSource.next g).1 = word →
          ∃ x, (random args).perform g = (.ok x, (WordSource.next g).2) ∧ x.toInt? = some hi) := by
  obtain ⟨i, h, rfl⟩ := (request_two_eq_ok_iff hargs).1 haccepted
  obtain ⟨hv, hw, hlow, hle, hlt⟩ := asks_two_iff.1 h
  have hlast := h.toInt?_ofInt_high_iff
  rw [← hargs] at h
  refine ⟨_, _, hv, hw, by omega, fun g => ?_, fun hcond => ?_⟩
  · obtain ⟨b, hb⟩ := exists_toInt?_ofInt i.high
    have hbound : b ≤ i.high.toInt + 1 :=
      Binary64.ofInt_mono (by omega) (natAbs_toInt_le _) (by omega) hb hw.toInt?_ofInt
    obtain ⟨n, hn, hn', hnb⟩ := h.exists_result ((i.drawWord g).getD (0, g)).1 hb
    refine ⟨_, _, n, perform_random_of_asks h g, hn, hn', hnb.trans hbound, fun heq => ?_⟩
    apply hlast.1
    rw [hb, le_antisymm hbound (heq ▸ hnb)]
  · obtain ⟨word, haccepts, hselect⟩ := Interval.exists_select h.proper hle le_rfl
    refine ⟨word, fun g hg => ⟨_, ?_, hlast.2 hcond⟩⟩
    subst hg
    rw [perform_random_of_asks h, Interval.draw_of_accepts haccepts, hselect]

/-- The least upper bound in magnitude that is given below zero. -/
theorem random_between_bounds_negative :
    request [.number (.ofInt (-2 ^ 53 - 2)), .number (.ofInt (-2 ^ 53))] =
      .ok (.integer ⟨.ofInt (-2 ^ 53 - 2), .ofInt (-2 ^ 53 - 1)⟩) ∧
    ∃ word, ∀ {γ : Type} [WordSource γ] (g : γ), (WordSource.next g).1 = word →
      ∃ x, (random [.number (.ofInt (-2 ^ 53 - 2)), .number (.ofInt (-2 ^ 53))]).perform g =
        (.ok x, (WordSource.next g).2) ∧ x.toInt? = some (-2 ^ 53) := by
  have haccepted : request [.number (.ofInt (-2 ^ 53 - 2)), .number (.ofInt (-2 ^ 53))] =
      .ok (.integer ⟨.ofInt (-2 ^ 53 - 2), .ofInt (-2 ^ 53 - 1)⟩) := by decide +kernel
  obtain ⟨lo, hi, -, hw, -, -, hgiven⟩ := random_between_bounds rfl haccepted
  have hfloor : (Value.number (.ofInt (-2 ^ 53))).HasFloor (-2 ^ 53) := Value.hasFloor_iff.2 (by decide +kernel)
  obtain rfl := hfloor.unique hw
  exact ⟨haccepted, hgiven (by decide)⟩

/-- The upper bound is given, though the interval ends before it. -/
theorem random_upper_bound_given :
    (Value.number (.ofInt (2 ^ 53 + 2))).HasFloor (2 ^ 53 + 2) ∧
      (Value.number (.ofInt (2 ^ 53 + 4))).HasFloor (2 ^ 53 + 4) ∧
      ∃ x rest, (random [.number (.ofInt (2 ^ 53 + 2)), .number (.ofInt (2 ^ 53 + 4))]).perform
        (⟨[0x8000000000000000]⟩ : Tape) = (.ok x, rest) ∧ x.toInt? = some (2 ^ 53 + 4) := by
  let i : Interval := ⟨.ofInt (2 ^ 53 + 2), .ofInt (2 ^ 53 + 3)⟩
  have haccepted : request [.number (.ofInt (2 ^ 53 + 2)), .number (.ofInt (2 ^ 53 + 4))] = .ok (.integer i) := by
    decide +kernel
  have hword : i.accepts (WordSource.next (⟨[0x8000000000000000]⟩ : Tape)).1 = true := by decide +kernel
  refine ⟨Value.hasFloor_iff.2 (by decide +kernel), Value.hasFloor_iff.2 (by decide +kernel), _, _,
    perform_random_of_asks (asks_of_request haccepted) _, ?_⟩
  rw [Interval.draw_of_accepts hword]
  decide +kernel

end Random

end Tabula
