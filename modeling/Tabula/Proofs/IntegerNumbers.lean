import Mathlib.Data.Rat.Floor
import Tabula.Proofs.Nearest

/-!
Numbers that stand for integers. All integers up to `2 ^ 53` have one, so a floor is exact, and so is a sum, difference
or product that is such an integer. Integers beyond are rounded to integers, and in order; an odd one between two
numbers goes to the multiple of four.
-/

namespace Tabula.Binary64

variable {x y : Binary64} {q : ℚ} {i a b : ℤ}

theorem toInt?_eq_some_iff_toRat : x.toInt? = some i ↔ x.isFinite = true ∧ x.toRat = i := by
  rw [toInt?_eq_some_iff, toRat, div_eq_iff scale_cast_pos.ne']
  exact and_congr_right fun _ => by exact_mod_cast Iff.rfl

theorem magnitude_of_toInt? (hx : x.toInt? = some i) : x.magnitude = i.natAbs * scale := by
  rw [← natAbs_units, (toInt?_eq_some_iff.1 hx).2, Int.natAbs_mul, Int.natAbs_natCast]

theorem eq_signed_natAbs (hx : x.toInt? = some i) : i = if x.negative then -(i.natAbs : ℤ) else i.natAbs := by
  have hpos : (scale : ℤ) ≠ 0 := by exact_mod_cast scale_pos.ne'
  have hu := (toInt?_eq_some_iff.1 hx).2
  rw [units, magnitude_of_toInt? hx, Nat.cast_mul, ← neg_mul, ← ite_mul] at hu
  exact (Int.eq_of_mul_eq_mul_right hpos hu).symm

theorem abs_le_of_natAbs_le {k : ℕ} (h : i.natAbs ≤ k) : |(i : ℚ)| ≤ k := by
  rw [← Int.cast_abs, Int.abs_eq_natAbs]
  exact_mod_cast h

theorem abs_lt_overflow (hi : i.natAbs ≤ 2 ^ 64) : |(i : ℚ)| < overflow := by
  have hover : overflow = (2 ^ 54 - 1) * 2 ^ 970 := by
    rw [overflow, sub_mul, one_mul, ← pow_add]
  have hpow : (2 : ℚ) ^ 64 ≤ 2 ^ 970 := pow_le_pow_right₀ one_le_two (by decide)
  have habs : |(i : ℚ)| ≤ 2 ^ 64 := by exact_mod_cast abs_le_of_natAbs_le hi
  rw [hover]
  generalize (2 : ℚ) ^ 970 = t at hpow ⊢
  linarith

theorem nearest_ofInt_of_le (hi : i.natAbs ≤ 2 ^ 64) : Nearest i (ofInt i) := nearest_ofInt (abs_lt_overflow hi)

/-! ### Exact results -/

theorem Nearest.toInt?_eq (h : Nearest i x) (hy : y.toInt? = some i) : x.toInt? = some i := by
  obtain ⟨hf, hr⟩ := toInt?_eq_some_iff_toRat.1 hy
  exact toInt?_eq_some_iff_toRat.2 ⟨h.isFinite, h.toRat_eq hf hr⟩

theorem Nearest.toInt?_of_small (h : Nearest i x) (hi : i.natAbs ≤ 2 ^ 53) : x.toInt? = some i := by
  obtain ⟨y, hy⟩ := exists_toInt?_eq hi
  exact h.toInt?_eq hy

theorem toInt?_ofInt_of_small (hi : i.natAbs ≤ 2 ^ 53) : (ofInt i).toInt? = some i :=
  (nearest_ofInt_of_le (by omega)).toInt?_of_small hi

theorem toInt?_of_nearest (h : |q| < overflow → Nearest q x) (hq : q = i) (hi : i.natAbs ≤ 2 ^ 53) :
    x.toInt? = some i := by
  subst hq
  exact (h (abs_lt_overflow (by omega))).toInt?_of_small hi

theorem toInt?_add (hx : x.toInt? = some a) (hy : y.toInt? = some b) (h : (a + b).natAbs ≤ 2 ^ 53) :
    (x.add y).toInt? = some (a + b) := by
  obtain ⟨hfx, hrx⟩ := toInt?_eq_some_iff_toRat.1 hx
  obtain ⟨hfy, hry⟩ := toInt?_eq_some_iff_toRat.1 hy
  exact toInt?_of_nearest (nearest_add hfx hfy) (by rw [hrx, hry, Int.cast_add]) h

theorem toInt?_sub (hx : x.toInt? = some a) (hy : y.toInt? = some b) (h : (a - b).natAbs ≤ 2 ^ 53) :
    (x.sub y).toInt? = some (a - b) := by
  obtain ⟨hfx, hrx⟩ := toInt?_eq_some_iff_toRat.1 hx
  obtain ⟨hfy, hry⟩ := toInt?_eq_some_iff_toRat.1 hy
  exact toInt?_of_nearest (nearest_sub hfx hfy) (by rw [hrx, hry, Int.cast_sub]) h

theorem toInt?_mul (hx : x.toInt? = some a) (hy : y.toInt? = some b) (h : (a * b).natAbs ≤ 2 ^ 53) :
    (x.mul y).toInt? = some (a * b) := by
  obtain ⟨hfx, hrx⟩ := toInt?_eq_some_iff_toRat.1 hx
  obtain ⟨hfy, hry⟩ := toInt?_eq_some_iff_toRat.1 hy
  exact toInt?_of_nearest (nearest_mul hfx hfy) (by rw [hrx, hry, Int.cast_mul]) h

/-! ### The floor -/

theorem floor_div_natCast (a : ℤ) (n : ℕ) : ⌊(a : ℚ) / n⌋ = a.fdiv n := by
  rw [Rat.floor_intCast_div_natCast, Int.fdiv_eq_ediv_of_nonneg _ (Int.natCast_nonneg _)]

theorem floor_toRat (x : Binary64) : ⌊x.toRat⌋ = x.units.fdiv scale := floor_div_natCast _ _

/-- A number with a fraction is small. -/
theorem multiple_scale_or_lt {m e : ℕ} (h : Canonical m e) :
    (∃ k, m * 2 ^ e = k * scale) ∨ m * 2 ^ e < 2 ^ 52 * scale := by
  unfold scale
  exact (h.multiple_or_lt 1074).imp_right And.right

theorem exists_canonical_floor (s : Bool) {m e : ℕ} (h : Canonical m e) :
    ∃ m' e', Canonical m' e' ∧ ((finite s m e h).units.fdiv scale).natAbs * scale = m' * 2 ^ e' := by
  have hpos : (0 : ℤ) < scale := by exact_mod_cast scale_pos
  have habs : (finite s m e h).units.natAbs = m * 2 ^ e := natAbs_units _
  generalize (finite s m e h).units = u at habs ⊢
  rw [Int.fdiv_eq_ediv_of_nonneg _ hpos.le]
  rcases multiple_scale_or_lt h with ⟨k, hk⟩ | hlt
  · have hdvd : (scale : ℤ) ∣ u := by
      rw [← Int.natAbs_dvd_natAbs, Int.natAbs_natCast, habs, hk]
      exact Nat.dvd_mul_left _ _
    have hcancel := congrArg Int.natAbs (Int.ediv_mul_cancel hdvd)
    rw [Int.natAbs_mul, Int.natAbs_natCast, habs] at hcancel
    exact ⟨m, e, h, hcancel⟩
  · have hlt' : |u| < ((2 ^ 52 * scale : ℕ) : ℤ) := by
      rw [Int.abs_eq_natAbs, habs]
      exact Int.ofNat_lt.2 hlt
    rw [Nat.cast_mul] at hlt'
    obtain ⟨hlow, hhigh⟩ := abs_lt.1 hlt'
    rw [← neg_mul] at hlow
    have hquot := Int.le_ediv_of_mul_le hpos hlow.le
    have hquot' := Int.ediv_lt_of_lt_mul hpos hhigh
    generalize u / (scale : ℤ) = n at hquot hquot' ⊢
    exact exists_canonical (by omega)

theorem toInt?_floor (hx : x.isFinite = true) : x.floor.toInt? = some ⌊x.toRat⌋ := by
  rcases x with _ | _ | ⟨s, m, e, h⟩
  · contradiction
  · contradiction
  obtain ⟨m', e', h', hm⟩ := exists_canonical_floor s h
  have hsign : if s then ⌊(finite s m e h).toRat⌋ ≤ 0 else 0 ≤ ⌊(finite s m e h).toRat⌋ := by
    have hnonneg : (0 : ℚ) ≤ (m * 2 ^ e : ℕ) / scale := div_nonneg (Nat.cast_nonneg _) scale_cast_pos.le
    rw [toRat_finite]
    cases s with
    | false => exact Int.floor_nonneg.2 hnonneg
    | true =>
      rw [if_pos rfl, if_pos rfl, neg_div]
      exact Int.floor_nonpos (neg_nonpos.2 hnonneg)
  rw [floor]
  rw [← floor_toRat] at hm ⊢
  generalize ⌊(finite s m e h).toRat⌋ = n at hm hsign ⊢
  rw [ofRatio, hm, ofSteps_stored s h', toInt?_eq_some_iff, units_finite, ← hm]
  refine ⟨rfl, ?_⟩
  cases s with
  | false => rw [if_neg Bool.false_ne_true, Nat.cast_mul, Int.natAbs_of_nonneg hsign]
  | true => rw [if_pos rfl, Nat.cast_mul, ← neg_mul, Int.ofNat_natAbs_of_nonpos hsign, neg_neg]

theorem toInt?_floor_eq_some_iff : x.floor.toInt? = some i ↔ x.isFinite = true ∧ ⌊x.toRat⌋ = i := by
  by_cases hx : x.isFinite = true
  · rw [toInt?_floor hx, Option.some.injEq]
    exact ⟨fun h => ⟨hx, h⟩, fun h => h.2⟩
  · rcases x with _ | _ | _
    · simp [floor, toInt?, isFinite]
    · simp [floor, toInt?, isFinite]
    · exact absurd rfl hx

/-! ### Integers of more than 53 bits -/

theorem toInt?_neg (hx : x.toInt? = some i) : x.neg.toInt? = some (-i) := by
  obtain ⟨hf, hr⟩ := toInt?_eq_some_iff_toRat.1 hx
  rw [toInt?_eq_some_iff_toRat, isFinite_neg, toRat_neg, hr, Int.cast_neg]
  exact ⟨hf, rfl⟩

theorem ofInt_natCast (n : ℕ) : ofInt n = ofNat n := by
  rw [ofInt, ofNat, Int.natAbs_natCast, decide_eq_false (by omega)]

theorem ofInt_neg_natCast {n : ℕ} (hn : n ≠ 0) : ofInt (-n) = (ofNat n).neg := by
  rw [ofInt, ofNat, Int.natAbs_neg, Int.natAbs_natCast, decide_eq_true (by omega), ofRatio_true]

theorem exists_toRat_eq_natAbs (hx : x.toInt? = some i) : ∃ z : Binary64, z.isFinite = true ∧ z.toRat = i.natAbs := by
  rcases Int.natAbs_eq i with hi | hi
  · rw [hi] at hx
    exact ⟨x, toInt?_eq_some_iff_toRat.1 hx⟩
  · rw [hi] at hx
    have hneg := toInt?_neg hx
    rw [neg_neg] at hneg
    exact ⟨x.neg, toInt?_eq_some_iff_toRat.1 hneg⟩

/-- With 53 bits, large integers are even, and larger ones are multiples of higher powers of two. -/
theorem two_pow_dvd_natAbs (j : ℕ) (hx : x.toInt? = some i) (hi : 2 ^ 53 * 2 ^ j ≤ i.natAbs) :
    2 ^ (j + 1) ∣ i.natAbs := by
  obtain ⟨z, hz, hr⟩ := exists_toRat_eq_natAbs hx
  obtain ⟨k, hk⟩ := exists_multiple hz (by rw [hr]; exact_mod_cast hi)
  rw [hr] at hk
  exact Dvd.intro_left k (by exact_mod_cast hk.symm)

theorem exists_toInt?_two_mul (ha : a.natAbs ≤ 2 ^ 53) : ∃ x : Binary64, x.toInt? = some (2 * a) := by
  obtain ⟨m, e, h, hm⟩ := exists_canonical_mul_pow ha (show 1 ≤ 970 by decide)
  exact ⟨_, toInt?_finite h (by rw [← hm, Int.natAbs_mul, Nat.mul_comm (Int.natAbs 2)]; rfl)⟩

theorem exists_toInt?_ofNat {n : ℕ} (hn : n ≤ 2 ^ 64) : ∃ k : ℕ, (ofNat n).toInt? = some (k : ℤ) := by
  rw [← ofInt_natCast]
  rcases Nat.le_total n (2 ^ 53) with hsmall | hlarge
  · exact ⟨n, toInt?_ofInt_of_small hsmall⟩
  · have hnear := nearest_ofInt_of_le (i := n) hn
    obtain ⟨y, hy⟩ := exists_toInt?_eq (i := 2 ^ 53) (by decide)
    obtain ⟨hfy, hry⟩ := toInt?_eq_some_iff_toRat.1 hy
    have hle := hnear.le_toRat hfy (by rw [hry]; exact_mod_cast hlarge)
    rw [hry] at hle
    obtain ⟨k, hk⟩ := exists_multiple (j := 0) hnear.isFinite (by rw [pow_zero, mul_one]; exact_mod_cast hle)
    exact ⟨k * 2, toInt?_eq_some_iff_toRat.2 ⟨hnear.isFinite, by rw [hk]; push_cast; ring⟩⟩

theorem exists_toInt?_ofInt (hi : i.natAbs ≤ 2 ^ 64) : ∃ n, (ofInt i).toInt? = some n := by
  obtain ⟨k, hk⟩ := exists_toInt?_ofNat hi
  rcases Int.natAbs_eq i with hpos | hneg
  · rw [hpos, ofInt_natCast]
    exact ⟨k, hk⟩
  · by_cases hz : i.natAbs = 0
    · exact ⟨i, toInt?_ofInt_of_small (by omega)⟩
    · rw [hneg, ofInt_neg_natCast hz]
      exact ⟨-k, toInt?_neg hk⟩

theorem ofInt_mono {j k : ℤ} (hjk : j ≤ k) (hj : j.natAbs ≤ 2 ^ 64) (hk : k.natAbs ≤ 2 ^ 64)
    (ha : (ofInt j).toInt? = some a) (hb : (ofInt k).toInt? = some b) : a ≤ b := by
  rcases hjk.eq_or_lt with rfl | hlt
  · exact (Option.some.inj (ha.symm.trans hb)).le
  · have hle := (nearest_ofInt_of_le hj).mono (nearest_ofInt_of_le hk) (by exact_mod_cast hlt)
    rw [(toInt?_eq_some_iff_toRat.1 ha).2, (toInt?_eq_some_iff_toRat.1 hb).2] at hle
    exact_mod_cast hle

theorem significand_of_toInt? {m e n : ℕ} (h : Canonical m e) (hx : (finite false m e h).toInt? = some (n : ℤ))
    (hlow : 2 ^ 53 ≤ n) (hhigh : n < 2 ^ 54) : n = 2 * m := by
  obtain ⟨k, hk⟩ : 2 ∣ n := two_pow_dvd_natAbs 0 hx hlow
  have hc : Canonical k (1 + 1074) := ⟨by omega, by decide, .inl (by omega)⟩
  have hu := (toInt?_eq_some_iff.1 hx).2
  rw [units_finite, if_neg Bool.false_ne_true, ← Nat.cast_mul, Nat.cast_inj, hk, Nat.mul_comm 2, Nat.mul_assoc] at hu
  have hscale : 2 * scale = 2 ^ (1 + 1074 : ℕ) := by
    unfold scale
    generalize 1074 = c
    rw [Nat.pow_add, Nat.pow_one]
  rw [hscale] at hu
  rw [hk, (h.unique hc hu).1]

/-- An integer beside a number is rounded to that number, unless it is a number itself or lies halfway to the next. -/
theorem Nearest.eq_or_tie {n k l : ℤ} (h : Nearest n x) (hx : x.toInt? = some l) (hy : y.toInt? = some k)
    (hnk : n = k + 1 ∨ n + 1 = k) : l = k ∨ l = n ∨ n - k = l - n := by
  obtain ⟨hfy, hry⟩ := toInt?_eq_some_iff_toRat.1 hy
  have hle := h.le y hfy
  rw [(toInt?_eq_some_iff_toRat.1 hx).2, hry] at hle
  have hle' : |n - l| ≤ |n - k| := by exact_mod_cast hle
  rw [Int.abs_eq_natAbs, Int.abs_eq_natAbs] at hle'
  omega

/-- An odd integer that lies between two numbers is rounded to the multiple of four. The other number has an odd
significand, so it is not taken in a tie. -/
theorem toInt?_ofNat_odd {n k : ℕ} (hk : 4 ∣ k) (hnk : n = k + 1 ∨ n + 1 = k) (hlow : 2 ^ 53 < n) (hhigh : n ≤ 2 ^ 64)
    (hy : y.toInt? = some (k : ℤ)) : (ofNat n).toInt? = some (k : ℤ) := by
  have hround := roundsTo_ofNat n
  have hnear := nearest_ofInt_of_le (i := n) hhigh
  obtain ⟨l, hl⟩ := exists_toInt?_ofNat hhigh
  rw [ofInt_natCast] at hnear
  generalize ofNat n = x at hround hnear hl
  rcases hnear.eq_or_tie hl hy (by omega) with heq | heq | htie
  · rw [hl, heq]
  · have heven : 2 ∣ l := two_pow_dvd_natAbs 0 hl (by omega)
    omega
  have hbelow : l < 2 ^ 54 := by
    by_contra hge
    have hfour : 4 ∣ l := two_pow_dvd_natAbs 1 hl (not_lt.1 hge)
    omega
  cases hround with
  | infinity => contradiction
  | @number m e h hq nearest even =>
    obtain ⟨hfy, hry⟩ := toInt?_eq_some_iff_toRat.1 hy
    have hrx := (toInt?_eq_some_iff_toRat.1 hl).2
    have hne : y.toRat ≠ (finite false m e h).toRat := by
      rw [hrx, hry]
      exact_mod_cast (show k ≠ l by omega)
    have hdist : |(n : ℚ) - y.toRat| = |(n : ℚ) - (finite false m e h).toRat| := by
      rw [hrx, hry, abs_sub_comm _ ((l : ℤ) : ℚ)]
      exact_mod_cast congrArg (|·|) htie
    obtain ⟨r, hr⟩ := even y hfy hne hdist
    have hm := significand_of_toInt? h hl (by omega) hbelow
    omega

theorem toInt?_ofInt_odd {k : ℤ} (hk : 4 ∣ k) (hik : i = k + 1 ∨ i + 1 = k) (hlow : 2 ^ 53 < i.natAbs)
    (hhigh : i.natAbs ≤ 2 ^ 64) (hy : y.toInt? = some k) : (ofInt i).toInt? = some k := by
  rcases Int.natAbs_eq i with hpos | hneg
  · obtain ⟨n, rfl⟩ : ∃ n : ℕ, k = n := ⟨k.natAbs, by omega⟩
    rw [hpos, ofInt_natCast]
    exact toInt?_ofNat_odd (by omega) (by omega) hlow hhigh hy
  · obtain ⟨n, rfl⟩ : ∃ n : ℕ, k = -n := ⟨k.natAbs, by omega⟩
    have hy' := toInt?_neg hy
    rw [neg_neg] at hy'
    rw [hneg, ofInt_neg_natCast (by omega)]
    exact toInt?_neg (toInt?_ofNat_odd (by omega) (by omega) hlow hhigh hy')

/-- The integer before a number is rounded up to it exactly if it has more than 53 bits and the number is a multiple
of four. -/
theorem toInt?_ofInt_pred_iff (hy : y.toInt? = some i) (hi : i.natAbs ≤ 2 ^ 63) :
    (ofInt (i - 1)).toInt? = some i ↔ 4 ∣ i ∧ (2 ^ 53 < i ∨ i ≤ -2 ^ 53) := by
  rcases le_or_gt (i - 1).natAbs (2 ^ 53) with hsmall | hlarge
  · rw [toInt?_ofInt_of_small hsmall, Option.some.injEq]
    omega
  have heven : 2 ∣ i.natAbs := two_pow_dvd_natAbs 0 hy (by omega)
  by_cases hfour : 4 ∣ i
  · exact iff_of_true (toInt?_ofInt_odd hfour (.inr (by omega)) hlarge (by omega) hy) ⟨hfour, by omega⟩
  · have hbelow : i.natAbs < 2 ^ 54 := by
      by_contra hge
      have := two_pow_dvd_natAbs 1 hy (by omega)
      omega
    obtain ⟨a, ha⟩ : ∃ a, i - 2 = 2 * a := ⟨(i - 2) / 2, by omega⟩
    obtain ⟨z, hz⟩ := exists_toInt?_two_mul (a := a) (by omega)
    rw [← ha] at hz
    rw [toInt?_ofInt_odd (by omega) (.inl (by omega)) hlarge (by omega) hz, Option.some.injEq]
    omega

end Tabula.Binary64
