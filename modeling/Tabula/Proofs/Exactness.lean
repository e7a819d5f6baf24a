import Tabula.Binary64.Round
import Tabula.Proofs.KeyEquality

/-!
A count of steps that a number can store is rounded to that number. So an integer that some number stands for comes back
from its key as that number, and the key of a value is the key of what it shows.
-/

namespace Tabula

theorem roundHalfEven_mul {m d : Nat} (hd : 0 < d) : roundHalfEven (m * d) d = m := by
  unfold roundHalfEven
  rw [Nat.mul_div_cancel m hd, Nat.mul_mod_left]
  exact if_pos hd

/-- The exponent of a stored magnitude is the number of digits it has too many. -/
theorem Canonical.excessBits_eq {m e : Nat} (h : Canonical m e) : excessBits (m * 2 ^ e) = e := by
  obtain ⟨hm, -, hfull | rfl⟩ := h
  · have hpos : m * 2 ^ e ≠ 0 := by
      have := Nat.two_pow_pos e
      exact Nat.mul_ne_zero (by omega) (by omega)
    have hlog : (m * 2 ^ e).log2 = 52 + e := by
      rw [Nat.log2_eq_iff hpos, show 52 + e + 1 = 53 + e by omega, Nat.pow_add, Nat.pow_add]
      exact ⟨Nat.mul_le_mul_right _ hfull, Nat.mul_lt_mul_of_pos_right hm (Nat.two_pow_pos e)⟩
    rw [excessBits, hlog]
    omega
  · rw [Nat.pow_zero, Nat.mul_one, excessBits]
    by_cases hz : m = 0
    · rw [hz]
      rfl
    · have hlog := (Nat.log2_lt hz).2 hm
      omega

namespace Binary64

variable {x : Binary64} {i : Int}

theorem ofSteps_stored (s : Bool) {m e : Nat} (h : Canonical m e) : ofSteps s (m * 2 ^ e) 1 = finite s m e h := by
  have hne : m ≠ 2 ^ 53 := by
    have := h.1
    omega
  simp only [ofSteps, Nat.div_one, Nat.one_mul, h.excessBits_eq, roundHalfEven_mul (Nat.two_pow_pos e), if_neg hne]
  exact dif_pos h

theorem toInt?_finite {m e : Nat} (h : Canonical m e) (hm : i.natAbs * scale = m * 2 ^ e) :
    (finite (decide (i < 0)) m e h).toInt? = some i := by
  rw [toInt?_eq_some_iff, units_finite, ← hm]
  refine ⟨rfl, ?_⟩
  by_cases hi : i < 0
  · rw [if_pos (decide_eq_true hi), Nat.cast_mul, ← neg_mul, Int.natCast_natAbs, abs_of_neg hi, neg_neg]
  · rw [if_neg (by simpa using hi), Nat.cast_mul, Int.natCast_natAbs, abs_of_nonneg (not_lt.1 hi)]

/-- An integer that a number stands for is rounded to a number that stands for it. -/
theorem toInt?_ofInt (hx : x.toInt? = some i) : (ofInt i).toInt? = some i := by
  obtain ⟨hf, hu⟩ := toInt?_eq_some_iff.1 hx
  rcases x with _ | _ | ⟨s, m, e, h⟩
  · contradiction
  · contradiction
  · have hm : i.natAbs * scale = m * 2 ^ e := by
      have habs := congrArg Int.natAbs hu
      rw [natAbs_units, Int.natAbs_mul, Int.natAbs_natCast] at habs
      exact habs.symm
    rw [ofInt, ofRatio, hm, ofSteps_stored _ h]
    exact toInt?_finite h hm

/-- An integer of 53 bits is stored, and so are its multiples by powers of two. -/
theorem exists_canonical_mul_pow {n j : Nat} (hn : n ≤ 2 ^ 53) (hj : j ≤ 970) :
    ∃ m e, Canonical m e ∧ n * 2 ^ j * scale = m * 2 ^ e := by
  unfold scale
  -- the power is left unevaluated
  generalize hk : 1074 = k
  rw [Nat.mul_assoc, ← Nat.pow_add]
  rcases Nat.eq_zero_or_pos n with rfl | hpos
  · exact ⟨0, 0, by decide, by rw [Nat.zero_mul, Nat.zero_mul]⟩
  rcases Nat.lt_or_eq_of_le hn with hlt | rfl
  · -- all 53 digits are brought into use
    obtain ⟨d, hd⟩ : ∃ d, 52 = n.log2 + d := ⟨52 - n.log2, by have := (Nat.log2_lt hpos.ne').2 hlt; omega⟩
    obtain ⟨hlow, hhigh⟩ := (Nat.log2_eq_iff hpos.ne').1 rfl
    refine ⟨n * 2 ^ d, j + k - d, ⟨?_, by omega, .inl ?_⟩, ?_⟩
    · calc n * 2 ^ d < 2 ^ (n.log2 + 1) * 2 ^ d := Nat.mul_lt_mul_of_pos_right hhigh (Nat.two_pow_pos d)
        _ = 2 ^ 53 := by rw [← Nat.pow_add, show n.log2 + 1 + d = 53 by omega]
    · calc 2 ^ 52 = 2 ^ n.log2 * 2 ^ d := by rw [← Nat.pow_add, ← hd]
        _ ≤ n * 2 ^ d := Nat.mul_le_mul_right _ hlow
    · rw [Nat.mul_assoc, ← Nat.pow_add, show d + (j + k - d) = j + k by omega]
  · refine ⟨2 ^ 52, j + k + 1, ⟨by decide, by omega, .inl (Nat.le_refl _)⟩, ?_⟩
    rw [Nat.pow_succ 2 (j + k)]
    omega

theorem exists_canonical {n : Nat} (hn : n ≤ 2 ^ 53) : ∃ m e, Canonical m e ∧ n * scale = m * 2 ^ e := by
  obtain ⟨m, e, h, hm⟩ := exists_canonical_mul_pow hn (Nat.zero_le 970)
  exact ⟨m, e, h, by rw [← hm, Nat.pow_zero, Nat.mul_one]⟩

theorem exists_toInt?_eq (hi : i.natAbs ≤ 2 ^ 53) : ∃ x : Binary64, x.toInt? = some i := by
  obtain ⟨m, e, h, hm⟩ := exists_canonical hi
  exact ⟨_, toInt?_finite h hm⟩

end Binary64

namespace Key

variable {v : Value} {k : Key}

theorem ofValue?_toValue (h : ofValue? v = some k) : ofValue? k.toValue = some k := by
  cases k with
  | int i =>
    cases v with
    | number x =>
      obtain ⟨hx, hr⟩ := ofNumber?_eq_int_iff.1 h
      exact ofNumber?_eq_int_iff.2 ⟨Binary64.toInt?_ofInt hx, hr⟩
    | string s => simp [ofValue?] at h
    | _ => contradiction
  | float x =>
    obtain ⟨hn, hi⟩ := normal_of_ofValue? h
    exact ofNumber?_eq_float_iff.2 ⟨rfl, hn, hi⟩
  | str s => rfl

theorem exists_ofNumber?_eq_int {i : Int} (hi : i.natAbs ≤ 2 ^ 53) : ∃ x, ofNumber? x = some (int i) := by
  obtain ⟨x, hx⟩ := Binary64.exists_toInt?_eq hi
  have hrange : inRange i = true := by
    simp only [inRange, Bool.and_eq_true, decide_eq_true_eq]
    omega
  exact ⟨x, ofNumber?_eq_int_iff.2 ⟨hx, hrange⟩⟩

end Key

end Tabula
