import Tabula.Proofs.DecimalText

/-!
The texts of numbers in a program's output, read back. Fourteen digits do not tell all numbers apart, so another number
may come back; but it has the same text, and an integer below `10 ^ 14` comes back itself.
-/

namespace Tabula

open Binary64

/-! ### Digits -/

theorem digitCountWithin_spec {limit n : ℕ} (hn : n < 2 ^ limit) :
    n = 0 ∧ digitCountWithin limit n = 0 ∨
      n < 10 ^ digitCountWithin limit n ∧ 10 ^ digitCountWithin limit n ≤ 10 * n := by
  induction limit generalizing n with
  | zero => exact .inl ⟨Nat.lt_one_iff.1 hn, rfl⟩
  | succ limit ih =>
    rw [Nat.pow_succ] at hn
    unfold digitCountWithin
    split_ifs with hzero hlarge
    · exact .inl ⟨hzero, rfl⟩
    · right
      rw [Nat.pow_add]
      rcases ih (n := n / 10 ^ 16) (by omega) with ⟨hnone, -⟩ | ⟨hlt, hle⟩
      · omega
      · generalize 10 ^ digitCountWithin limit (n / 10 ^ 16) = t at hlt hle ⊢
        omega
    · right
      rw [Nat.pow_succ]
      rcases ih (n := n / 10) (by omega) with ⟨hnone, hcount⟩ | ⟨hlt, hle⟩
      · rw [hcount]
        omega
      · generalize 10 ^ digitCountWithin limit (n / 10) = t at hlt hle ⊢
        omega

theorem digitCount_spec {n : ℕ} (hn : n ≠ 0) : n < 10 ^ digitCount n ∧ 10 ^ digitCount n ≤ 10 * n :=
  (digitCountWithin_spec Nat.lt_log2_self).resolve_left fun h => hn h.1

theorem halfEven_roundToPlace (num : ℕ) {den : ℕ} (hd : 0 < den) (place : ℤ) :
    HalfEven ((num : ℚ) / den / 10 ^ place) (roundToPlace num den place) := by
  unfold roundToPlace
  split_ifs with hplace
  · obtain ⟨n, rfl⟩ := Int.eq_ofNat_of_zero_le hplace
    have h := halfEven_roundHalfEven num (Nat.mul_pos hd (Nat.pow_pos (by decide : 0 < 10) : 0 < 10 ^ n))
    rw [Nat.cast_mul, Nat.cast_pow, Nat.cast_ofNat, ← div_div] at h
    rwa [zpow_natCast, Int.toNat_natCast]
  · obtain ⟨n, rfl⟩ : ∃ n : ℕ, place = -n := ⟨(-place).toNat, by omega⟩
    have h := halfEven_roundHalfEven (num * 10 ^ n) hd
    rw [Nat.cast_mul, Nat.cast_pow, Nat.cast_ofNat, mul_div_right_comm] at h
    rwa [zpow_neg, zpow_natCast, div_inv_eq_mul, neg_neg, Int.toNat_natCast]

theorem halfEven_div_iff {b u : ℚ} (hu : 0 < u) {D : ℕ} :
    HalfEven (b / u) D ↔ |D * u - b| ≤ u / 2 ∧ (|D * u - b| = u / 2 → Even D) := by
  have habs : |b / u - D| = |D * u - b| / u := by
    rw [abs_sub_comm (D * u), eq_div_iff hu.ne', ← abs_of_pos hu, ← abs_mul, abs_of_pos hu, sub_mul,
      div_mul_cancel₀ _ hu.ne']
  constructor
  · rintro ⟨hnear, heven⟩
    rw [habs] at hnear heven
    refine ⟨?_, fun heq => heven (by rw [heq]; field_simp)⟩
    rw [div_le_iff₀ hu] at hnear
    linarith
  · rintro ⟨hnear, heven⟩
    refine ⟨?_, fun heq => heven ?_⟩
    · rw [habs, div_le_iff₀ hu]
      linarith
    · rw [habs, div_eq_iff hu.ne'] at heq
      linarith

/-- `a` is rounded to `n + 1` significant digits: those of `D`, the last of which stands for `10 ^ place`. -/
structure Significant (n : ℕ) (a : ℚ) (place : ℤ) (D : ℕ) : Prop where
  low : 10 ^ n * 10 ^ place ≤ a
  high : a < 10 ^ (n + 1) * 10 ^ place
  half : HalfEven (a / 10 ^ place) D

namespace Significant

variable {n D : ℕ} {a b : ℚ} {place : ℤ}

theorem pos (h : Significant n a place D) : 0 < a := lt_of_lt_of_le (by positivity) h.low

theorem le_coefficient (h : Significant n a place D) : 10 ^ n ≤ D := by
  have hlow : ((10 ^ n : ℕ) : ℚ) ≤ a / 10 ^ place := by
    rw [le_div_iff₀ (by positivity), Nat.cast_pow, Nat.cast_ofNat]
    exact h.low
  have hnear := (abs_le.1 h.half.near).2
  have hlt : ((10 ^ n : ℕ) : ℚ) < D + 1 := by linarith
  exact Nat.lt_succ_iff.1 (by exact_mod_cast hlt)

theorem coefficient_le (h : Significant n a place D) : D ≤ 10 ^ (n + 1) := by
  have hhigh : a / 10 ^ place < (10 ^ (n + 1) : ℕ) := by
    rw [div_lt_iff₀ (by positivity), Nat.cast_pow, Nat.cast_ofNat]
    exact h.high
  have hnear := (abs_le.1 h.half.near).1
  have hlt : (D : ℚ) < (10 ^ (n + 1) : ℕ) + 1 := by linarith
  exact Nat.lt_succ_iff.1 (by exact_mod_cast hlt)

theorem coefficient_ne_zero (h : Significant n a place D) : D ≠ 0 := by
  have := h.le_coefficient
  have : 0 < 10 ^ n := Nat.pow_pos (by decide)
  omega

theorem near (h : Significant n a place D) : |D * 10 ^ place - a| ≤ 10 ^ place / 2 :=
  ((halfEven_div_iff (by positivity)).1 h.half).1

/-- Just below a power of ten fourteen digits are the next power of ten, a place further down. -/
theorem of_below (hlt : b < (10 ^ 13 : ℕ) * 10 ^ place) (hclose : |(10 ^ 13 : ℕ) * 10 ^ place - b| ≤ 10 ^ place / 20) :
    Significant 13 b (place - 1) (10 ^ 14) := by
  have hu : (0 : ℚ) < 10 ^ place := by positivity
  have hdown : (10 : ℚ) ^ (place - 1) = 10 ^ place / 10 := by rw [zpow_sub_one₀ (by norm_num), div_eq_mul_inv]
  have hsame : ((10 ^ 14 : ℕ) : ℚ) * (10 ^ place / 10) = (10 ^ 13 : ℕ) * 10 ^ place := by
    push_cast
    ring
  have hnear := (abs_le.1 hclose).2
  refine ⟨?_, ?_, ?_⟩
  · rw [hdown]
    push_cast at hnear
    linarith
  · rw [hdown]
    push_cast at hlt
    linarith
  · rw [hdown, halfEven_div_iff (by positivity), hsame]
    exact ⟨by linarith, fun _ => by decide⟩

/-- From a power of ten on fourteen digits are that power, a place further up. -/
theorem of_above (hge : 10 ^ 14 * 10 ^ place ≤ b) (hclose : |(10 ^ 14 : ℕ) * 10 ^ place - b| ≤ 10 ^ place / 2) :
    Significant 13 b (place + 1) (10 ^ 13) := by
  have hu : (0 : ℚ) < 10 ^ place := by positivity
  have hup : (10 : ℚ) ^ (place + 1) = 10 * 10 ^ place := by rw [zpow_add_one₀ (by norm_num), mul_comm]
  have hnear := (abs_le.1 hclose).1
  push_cast at hnear
  refine ⟨?_, ?_, ?_⟩
  · rw [hup]
    linarith
  · change b < 10 ^ 14 * 10 ^ (place + 1)
    rw [hup]
    linarith
  · have hdist : |((10 ^ 13 : ℕ) : ℚ) * (10 * 10 ^ place) - b| < 10 * 10 ^ place / 2 := by
      push_cast
      rw [abs_lt]
      constructor <;> linarith
    rw [hup, halfEven_div_iff (by positivity)]
    exact ⟨hdist.le, fun heq => absurd heq hdist.ne⟩

/-- A point at least as near to the rounded value as the one that was rounded has the same digits. It may lie on the
other side of a power of ten, and below one the digits stand closer. -/
theorem readBack (h : Significant 13 a place D) (hnear : |D * 10 ^ place - b| ≤ |D * 10 ^ place - a|)
    (hbelow : D = 10 ^ 13 → b < D * 10 ^ place → |D * 10 ^ place - b| ≤ 10 ^ place / 20) :
    ∃ place' D', Significant 13 b place' D' ∧
      Scientific.ofCoefficient D' place' = Scientific.ofCoefficient D place := by
  have hu : (0 : ℚ) < 10 ^ place := by positivity
  have hclose := hnear.trans h.near
  obtain ⟨hb, hb'⟩ := abs_le.1 hclose
  rcases lt_or_ge b (10 ^ 13 * 10 ^ place) with hlt | hge
  · have hD : D = 10 ^ 13 := by
      have : (D : ℚ) < 10 ^ 13 + 1 := by
        rw [← mul_lt_mul_iff_left₀ hu]
        linarith
      exact le_antisymm (Nat.lt_succ_iff.1 (by exact_mod_cast this)) h.le_coefficient
    subst hD
    have hlt' : b < (10 ^ 13 : ℕ) * 10 ^ place := by exact_mod_cast hlt
    refine ⟨place - 1, 10 ^ 14, of_below hlt' (hbelow rfl hlt'), ?_⟩
    rw [show (10 ^ 14 : ℕ) = 10 ^ 13 * 10 from rfl, Scientific.ofCoefficient_mul_ten (by decide), sub_add_cancel]
  rcases lt_or_ge b (10 ^ 14 * 10 ^ place) with hlt | hge'
  · -- in the same decade a tie is one for both
    refine ⟨place, D, ⟨hge, hlt, (halfEven_div_iff hu).2 ⟨hclose, fun heq => ?_⟩⟩, rfl⟩
    exact ((halfEven_div_iff hu).1 h.half).2 (le_antisymm h.near (heq ▸ hnear))
  · have hD : D = 10 ^ 14 := by
      have : (10 : ℚ) ^ 14 < D + 1 := by
        rw [← mul_lt_mul_iff_left₀ hu]
        linarith
      exact le_antisymm h.coefficient_le (Nat.lt_succ_iff.1 (by exact_mod_cast this))
    subst hD
    refine ⟨place + 1, 10 ^ 13, of_above hge' hclose, ?_⟩
    rw [show (10 ^ 14 : ℕ) = 10 ^ 13 * 10 from rfl, Scientific.ofCoefficient_mul_ten (by decide)]

end Significant

/-! ### The digits of a number -/

namespace Binary64

variable {x y : Binary64} {n D : ℕ} {place : ℤ}

def absolute (x : Binary64) : ℚ := x.magnitude / scale

theorem toRat_eq_absolute {m e : ℕ} (h : Canonical m e) :
    (finite false m e h).toRat = (finite false m e h).absolute := by
  rw [toRat_finite, if_neg Bool.false_ne_true, absolute, magnitude]

theorem scale_le : scale ≤ 10 ^ leastPlaces := by decide +kernel

theorem decimalExponent_spec (hx : x.magnitude ≠ 0) :
    10 ^ x.decimalExponent ≤ x.absolute ∧ x.absolute < 10 ^ (x.decimalExponent + 1) := by
  have hL : (0 : ℚ) < 10 ^ leastPlaces := by positivity
  have hN : x.magnitude * 10 ^ leastPlaces / scale ≠ 0 := by
    refine (Nat.div_pos ?_ scale_pos).ne'
    exact scale_le.trans (Nat.le_mul_of_pos_left _ (Nat.pos_of_ne_zero hx))
  obtain ⟨hlt, hle⟩ := digitCount_spec hN
  have hvalue : ((x.magnitude * 10 ^ leastPlaces : ℕ) : ℚ) / scale = x.absolute * 10 ^ leastPlaces := by
    rw [absolute, Nat.cast_mul, Nat.cast_pow, Nat.cast_ofNat, mul_div_right_comm]
  have hfloor : ((x.magnitude * 10 ^ leastPlaces / scale : ℕ) : ℚ) ≤ x.absolute * 10 ^ leastPlaces :=
    hvalue ▸ Nat.cast_div_le
  have hceil : x.absolute * 10 ^ leastPlaces < (x.magnitude * 10 ^ leastPlaces / scale : ℕ) + 1 := by
    rw [← hvalue, div_lt_iff₀ scale_cast_pos]
    exact_mod_cast (Nat.div_lt_iff_lt_mul scale_pos).1 (Nat.lt_succ_self _)
  unfold decimalExponent
  generalize x.magnitude * 10 ^ leastPlaces / scale = N at *
  have hle' : (10 : ℚ) ^ digitCount N ≤ 10 * N := by exact_mod_cast hle
  have hlt' : (N : ℚ) + 1 ≤ 10 ^ digitCount N := by exact_mod_cast hlt
  constructor
  · rw [zpow_sub₀ (by norm_num), zpow_sub_one₀ (by norm_num), zpow_natCast, zpow_natCast, div_le_iff₀ hL]
    linarith
  · rw [show (digitCount N : ℤ) - 1 - leastPlaces + 1 = digitCount N - leastPlaces by ring, zpow_sub₀ (by norm_num),
      zpow_natCast, zpow_natCast, lt_div_iff₀ hL]
    linarith

theorem significant_roundToPlace (hx : x.magnitude ≠ 0) (n : ℕ) :
    Significant n x.absolute (x.decimalExponent - n) (roundToPlace x.magnitude scale (x.decimalExponent - n)) := by
  obtain ⟨hlow, hhigh⟩ := decimalExponent_spec hx
  refine ⟨?_, ?_, halfEven_roundToPlace x.magnitude scale_pos _⟩
  · rwa [← zpow_natCast, ← zpow_add₀ (by norm_num), add_sub_cancel]
  · rwa [← zpow_natCast, ← zpow_add₀ (by norm_num), Nat.cast_add, Nat.cast_one, add_right_comm, add_sub_cancel]

theorem exists_significant (hx : x.magnitude ≠ 0) (n : ℕ) : ∃ place D, Significant n x.absolute place D :=
  ⟨_, _, significant_roundToPlace hx n⟩

/-- The rounded digits of a number are the only ones that fit the description. -/
theorem toSignificant_eq (hx : x.magnitude ≠ 0) (h : Significant n x.absolute place D) :
    x.toSignificant (n + 1) = Scientific.ofCoefficient D place := by
  obtain ⟨hlow, hhigh⟩ := decimalExponent_spec hx
  have hlow' := h.low
  have hhigh' := h.high
  rw [← zpow_natCast, ← zpow_add₀ (by norm_num)] at hlow' hhigh'
  have h1 := (zpow_lt_zpow_iff_right₀ (by norm_num)).1 (hlow.trans_lt hhigh')
  have h2 := (zpow_lt_zpow_iff_right₀ (by norm_num)).1 (hlow'.trans_lt hhigh)
  have hplace : x.decimalExponent - (n + 1 : ℕ) + 1 = place := by
    push_cast at h1 h2 ⊢
    omega
  have hD : roundToPlace x.magnitude scale place = D :=
    h.half.unique (halfEven_roundToPlace x.magnitude scale_pos place)
  rw [toSignificant, isZero_eq_false hx, if_neg Bool.false_ne_true]
  dsimp only
  rw [hplace, hD]

/-! ### The ends of the range -/

theorem natCast_lt_overflow {k : ℕ} (hk : 2 * (k * scale) < (2 ^ 54 - 1) * 2 ^ 2045) : (k : ℚ) < overflow := by
  rw [← mul_lt_mul_iff_left₀ scale_cast_pos, overflow_mul_scale]
  -- the power is left unevaluated
  generalize 2045 = c at hk ⊢
  have hk' : (2 : ℚ) * (k * scale) < ((2 ^ 54 - 1 : ℕ) : ℚ) * 2 ^ c := by exact_mod_cast hk
  push_cast at hk'
  linarith

theorem magnitude_le (x : Binary64) : x.magnitude ≤ (2 ^ 53 - 1) * 2 ^ 2045 := by
  generalize hc : 2045 = c
  rcases x with _ | _ | ⟨s, m, e, h⟩
  · exact Nat.zero_le _
  · exact Nat.zero_le _
  · have hm : m ≤ 2 ^ 53 - 1 := Nat.le_pred_of_lt h.1
    exact Nat.mul_le_mul hm (Nat.pow_le_pow_right (by decide) (hc ▸ h.2.1))

theorem absolute_mul_scale (x : Binary64) : x.absolute * scale = x.magnitude := div_mul_cancel₀ _ scale_cast_pos.ne'

theorem mul_zpow_le {k : ℕ} (hD : D ≤ k) (hplace : place ≤ n) : (D : ℚ) * 10 ^ place ≤ (k * 10 ^ n : ℕ) := by
  rw [Nat.cast_mul, Nat.cast_pow, Nat.cast_ofNat, ← zpow_natCast]
  exact mul_le_mul (by exact_mod_cast hD) (zpow_le_zpow_right₀ (by norm_num) hplace) (by positivity) (by positivity)

theorem le_magnitude {k : ℕ} (h : Significant n x.absolute k D) : 10 ^ n * 10 ^ k * scale ≤ x.magnitude := by
  have hlow := mul_le_mul_of_nonneg_right h.low scale_cast_pos.le
  rw [absolute_mul_scale, zpow_natCast] at hlow
  exact_mod_cast hlow

theorem two_mul_coefficient_le {k : ℕ} (h : Significant n x.absolute k D) :
    2 * D * (10 ^ k * scale) ≤ 2 * x.magnitude + 10 ^ k * scale := by
  have hnear := mul_le_mul_of_nonneg_right (abs_le.1 h.near).2 scale_cast_pos.le
  rw [sub_mul, absolute_mul_scale, zpow_natCast] at hnear
  have hle : (2 : ℚ) * D * (10 ^ k * scale) ≤ 2 * x.magnitude + 10 ^ k * scale := by linarith
  exact_mod_cast hle

theorem coefficient_mul_lt_overflow (h : Significant 13 x.absolute place D) : D * 10 ^ place < overflow := by
  by_cases hplace : place ≤ (294 : ℕ)
  · exact (mul_zpow_le h.coefficient_le hplace).trans_lt (natCast_lt_overflow (by decide +kernel))
  obtain ⟨n, rfl⟩ : ∃ n : ℕ, place = n := ⟨place.toNat, by omega⟩
  have hmag := x.magnitude_le
  have hn : n = 295 := by
    by_contra hne
    have hpow : ∀ c ≤ n, 10 ^ c ≤ 10 ^ n := fun _ => Nat.pow_le_pow_right (by decide)
    have hbeyond : (2 ^ 53 - 1) * 2 ^ 2045 < 10 ^ (13 : ℕ) * 10 ^ (296 : ℕ) * scale := by decide +kernel
    exact absurd ((Nat.mul_le_mul_right scale (Nat.mul_le_mul_left _ (hpow 296 (by omega)))).trans
      ((le_magnitude h).trans hmag)) (not_le.2 hbeyond)
  subst hn
  have hnear := two_mul_coefficient_le h
  -- the greatest number is 1.79769313486231…e308
  have hmost : D ≤ 17976931348623 := by
    by_contra hmore
    have hbeyond : 2 * ((2 ^ 53 - 1) * 2 ^ 2045) + 10 ^ (295 : ℕ) * scale <
        2 * 17976931348624 * (10 ^ (295 : ℕ) * scale) := by
      decide +kernel
    generalize (2 ^ 53 - 1) * 2 ^ 2045 = greatest at hmag hbeyond
    generalize 10 ^ (295 : ℕ) * scale = unit at hnear hbeyond
    have hle : 2 * 17976931348624 * unit ≤ 2 * D * unit := Nat.mul_le_mul_right _ (by omega)
    omega
  have hlarge : ((17976931348623 * 10 ^ (295 : ℕ) : ℕ) : ℚ) < overflow := natCast_lt_overflow (by decide +kernel)
  exact (mul_zpow_le hmost le_rfl).trans_lt hlarge

theorem one_le_sub_mul_scale (h : y.absolute < x.absolute) : 1 ≤ (x.absolute - y.absolute) * scale := by
  rw [← mul_lt_mul_iff_left₀ scale_cast_pos, absolute_mul_scale, absolute_mul_scale] at h
  have hle : y.magnitude + 1 ≤ x.magnitude := by exact_mod_cast h
  have hle' : (y.magnitude : ℚ) + 1 ≤ x.magnitude := by exact_mod_cast hle
  rw [sub_mul, absolute_mul_scale, absolute_mul_scale]
  linarith

theorem ten_le_mul_scale {k : ℕ} (hk : 10 * 10 ^ k ≤ scale) : (10 : ℚ) ≤ 10 ^ (-(k : ℤ)) * scale := by
  rw [zpow_neg, zpow_natCast, ← div_eq_inv_mul, le_div_iff₀ (by positivity)]
  exact_mod_cast hk

theorem mul_scale_lt_one {k : ℕ} (hk : scale < 10 ^ k) : (10 : ℚ) ^ (-(k : ℤ)) * scale < 1 := by
  rw [zpow_neg, zpow_natCast, ← div_eq_inv_mul, div_lt_one (by positivity)]
  exact_mod_cast hk

theorem abs_sub_div_le {c k m : ℕ} (hc : 0 < c) (hlow : m * 10 ^ k ≤ 10 ^ 13 * c)
    (hhigh : 20 * (10 ^ 13 * c) ≤ c + 20 * (m * 10 ^ k)) :
    |(10 ^ 13 : ℕ) * (10 : ℚ) ^ (-(k : ℤ)) - m / c| ≤ 10 ^ (-(k : ℤ)) / 20 := by
  have hc' : (0 : ℚ) < c := by exact_mod_cast hc
  have hlow' : (m : ℚ) * 10 ^ k ≤ 10 ^ 13 * c := by exact_mod_cast hlow
  have hhigh' : 20 * (10 ^ 13 * (c : ℚ)) ≤ c + 20 * (m * 10 ^ k) := by exact_mod_cast hhigh
  have hpow : (0 : ℚ) < 10 ^ k := by positivity
  rw [zpow_neg, zpow_natCast]
  generalize (10 : ℚ) ^ k = t at *
  have hdiff : ((10 ^ 13 : ℕ) : ℚ) * t⁻¹ - m / c = (10 ^ 13 * c - m * t) / (t * c) := by
    field_simp
    push_cast
    ring
  rw [hdiff, abs_of_nonneg (div_nonneg (by linarith) (by positivity)), div_le_iff₀ (by positivity),
    show t⁻¹ / 20 * (t * c) = c / 20 by field_simp]
  linarith

/-- Just below a power of ten numbers are close enough for fourteen digits, as far down as there are any so close that
the question arises. -/
theorem near_of_below (h : Significant 13 x.absolute place (10 ^ 13)) (hy : RoundsTo ((10 ^ 13 : ℕ) * 10 ^ place) y)
    (hnear : |(10 ^ 13 : ℕ) * 10 ^ place - y.absolute| ≤ |(10 ^ 13 : ℕ) * 10 ^ place - x.absolute|)
    (hsame : y.toRat = y.absolute) (hlt : y.absolute < (10 ^ 13 : ℕ) * 10 ^ place) :
    |(10 ^ 13 : ℕ) * 10 ^ place - y.absolute| ≤ 10 ^ place / 20 := by
  have hs := scale_cast_pos
  have hover := coefficient_mul_lt_overflow h
  rcases lt_trichotomy place (-(323 : ℕ)) with hsmall | rfl | hlarge
  · -- a step is more than a unit of the last digit
    have hbelow : y.absolute < x.absolute := hlt.trans_le (by exact_mod_cast h.low)
    have hstep := one_le_sub_mul_scale hbelow
    have hunit : (10 : ℚ) ^ place * scale < 1 :=
      lt_of_le_of_lt (mul_le_mul_of_nonneg_right (zpow_le_zpow_right₀ (by norm_num) (by omega)) hs.le)
        (mul_scale_lt_one (k := 324) (by decide +kernel))
    have hx := abs_le.1 h.near
    have hy := abs_le.1 (hnear.trans h.near)
    have hwide : (x.absolute - y.absolute) * scale ≤ 10 ^ place * scale :=
      mul_le_mul_of_nonneg_right (by linarith) hs.le
    linarith
  · -- here a step is a fifth of the last digit's unit, and one of the numbers happens to lie close
    cases hy with
    | infinity hq => exact absurd hover (not_lt.2 hq)
    | number _ _ nearest _ =>
      have hc : Canonical 20240225330731 0 := by decide
      have hclose := nearest (finite false _ _ hc) rfl
      rw [hsame] at hclose
      refine hclose.trans ?_
      rw [toRat_finite, if_neg Bool.false_ne_true, Nat.pow_zero, Nat.mul_one]
      exact abs_sub_div_le scale_pos (by decide +kernel) (by decide +kernel)
  · have hunit : (10 : ℚ) ≤ 10 ^ place * scale :=
      (ten_le_mul_scale (k := 322) (by decide +kernel)).trans
        (mul_le_mul_of_nonneg_right (zpow_le_zpow_right₀ (by norm_num) (by omega)) hs.le)
    have hdist := hy.abs_sub_le hover (by push_cast; linarith)
    rw [hsame] at hdist
    refine hdist.trans (le_of_eq ?_)
    push_cast
    ring

/-! ### The text of a number -/

variable {s : Bool} {m e : ℕ} {h : Canonical m e}

theorem exists_parseNumber?_display (hm : (finite s m e h).magnitude ≠ 0)
    (hsig : Significant 13 (finite s m e h).absolute place D) :
    ∃ m' e', ∃ h' : Canonical m' e', RoundsTo (D * 10 ^ place) (finite false m' e' h') ∧
      parseNumber? (finite s m e h).display = some (finite s m' e' h') := by
  have hD := hsig.coefficient_ne_zero
  obtain ⟨y, hy, hparse⟩ :=
    displayLayout.exists_parseNumber?_signed s (Scientific.wellFormed_ofCoefficient hD place)
  rw [Scientific.value_ofCoefficient hD] at hy
  rw [← toSignificant_eq hm hsig] at hparse
  cases hy with
  | infinity hq => exact absurd (coefficient_mul_lt_overflow hsig) (not_lt.2 hq)
  | @number m' e' h' hq nearest even =>
    refine ⟨m', e', h', .number h' hq nearest even, ?_⟩
    rw [display, hparse]
    cases s <;> rfl

theorem toSignificant_readBack {m' e' : ℕ} {h' : Canonical m' e'} (t : Bool) (hm : (finite s m e h).magnitude ≠ 0)
    (hsig : Significant 13 (finite s m e h).absolute place D) (hy : RoundsTo (D * 10 ^ place) (finite false m' e' h')) :
    (finite t m' e' h').toSignificant 14 = (finite s m e h).toSignificant 14 := by
  have hnear : |D * 10 ^ place - (finite false m' e' h').absolute| ≤ |D * 10 ^ place - (finite s m e h).absolute| := by
    cases hy with
    | number _ _ nearest _ =>
      have := nearest (finite false m e h) rfl
      rwa [toRat_eq_absolute, toRat_eq_absolute] at this
  obtain ⟨place', D', hsig', heq⟩ := hsig.readBack hnear fun hD hlt => by
    subst hD
    exact near_of_below hsig hy hnear (toRat_eq_absolute h') hlt
  have hm' : (finite t m' e' h').magnitude ≠ 0 := by
    intro hzero
    refine hsig'.pos.ne' ?_
    rw [absolute, show (finite false m' e' h').magnitude = 0 from hzero, Nat.cast_zero, zero_div]
  exact (toSignificant_eq hm' hsig').trans (heq.trans (toSignificant_eq hm hsig).symm)

theorem absolute_of_toInt? {i : ℤ} (hi : x.toInt? = some i) : x.absolute = i.natAbs := by
  have hmag := congrArg Int.natAbs (toInt?_eq_some_iff.1 hi).2
  rw [natAbs_units, Int.natAbs_mul, Int.natAbs_natCast] at hmag
  rw [absolute, hmag, Nat.cast_mul, mul_div_cancel_right₀ _ scale_cast_pos.ne']

/-- An integer of at most fourteen digits is not rounded. -/
theorem coefficient_mul_eq {i : ℤ} (hi : x.toInt? = some i) (hsmall : i.natAbs < 10 ^ 14)
    (hsig : Significant 13 x.absolute place D) : D * 10 ^ place = x.absolute := by
  rw [absolute_of_toInt? hi] at hsig ⊢
  have hplace : place < 1 := by
    have hlt : ((i.natAbs : ℕ) : ℚ) < 10 ^ 14 := by exact_mod_cast hsmall
    have hunit : (10 : ℚ) ^ place < 10 ^ (1 : ℤ) := by
      have := hsig.low
      rw [zpow_one]
      linarith
    exact (zpow_lt_zpow_iff_right₀ (by norm_num)).1 hunit
  obtain ⟨n, rfl⟩ : ∃ n : ℕ, place = -n := ⟨(-place).toNat, by omega⟩
  have hpow : (10 : ℚ) ^ n ≠ 0 := by positivity
  have hhalf := hsig.half
  rw [zpow_neg, zpow_natCast, div_inv_eq_mul] at hhalf
  have hD : D = i.natAbs * 10 ^ n := (HalfEven.natCast _).unique (by push_cast; exact hhalf)
  rw [hD, zpow_neg, zpow_natCast, Nat.cast_mul, Nat.cast_pow, Nat.cast_ofNat, mul_inv_cancel_right₀ hpow]

theorem parseNumber?_display_zero (s : Bool) : parseNumber? (zero s).display = some (zero s) := by
  cases s <;> rfl

theorem eq_zero_of_magnitude (hm : (finite s m e h).magnitude = 0) : finite s m e h = zero s := by
  have hm0 : m = 0 := (Nat.mul_eq_zero.1 hm).resolve_right (Nat.two_pow_pos e).ne'
  subst hm0
  obtain rfl : e = 0 := h.2.2.resolve_left (by decide)
  rfl

theorem parseNumber?_display_of_not_isFinite (hx : x.isFinite = false) : parseNumber? x.display = none := by
  rcases x with ⟨s, signaling⟩ | s | _
  · cases s <;> cases signaling <;> rfl
  · cases s <;> rfl
  · contradiction

/-- The text of a number is a numeric string exactly if the number is finite. It is then read as a number with the same
text, and for an integer below `10 ^ 14` as that number itself. -/
theorem display_reads_back (x : Binary64) :
    ((parseNumber? x.display).isSome = true ↔ x.isFinite = true) ∧
    (x.isFinite = true → ∃ y, parseNumber? x.display = some y ∧ y.display = x.display) ∧
    ∀ i, x.toInt? = some i → i.natAbs < 10 ^ 14 → parseNumber? x.display = some x := by
  rcases hx : x.isFinite with _ | _
  · have hnone := parseNumber?_display_of_not_isFinite hx
    refine ⟨by rw [hnone]; decide, by simp, fun i hi _ => ?_⟩
    rw [(toInt?_eq_some_iff.1 hi).1] at hx
    contradiction
  rcases x with _ | _ | ⟨s, m, e, h⟩
  · contradiction
  · contradiction
  by_cases hm : (finite s m e h).magnitude = 0
  · rw [eq_zero_of_magnitude hm]
    have hparse := parseNumber?_display_zero s
    exact ⟨by rw [hparse]; simp, fun _ => ⟨_, hparse, rfl⟩, fun _ _ _ => hparse⟩
  obtain ⟨place, D, hsig⟩ := exists_significant hm 13
  obtain ⟨m', e', h', hy, hparse⟩ := exists_parseNumber?_display hm hsig
  refine ⟨by rw [hparse]; simp, fun _ => ⟨_, hparse, ?_⟩, fun i hi hsmall => ?_⟩
  · rw [display, display, toSignificant_readBack s hm hsig hy]
  · rw [coefficient_mul_eq hi hsmall hsig] at hy
    have hself := RoundsTo.self h
    rw [toRat_eq_absolute] at hself
    rw [hparse]
    cases hy.unique hself
    rfl

/-- The greatest number, whose text stands for less, and the negative zero. -/
theorem display_reads_back_ends :
    (∃ y, parseNumber? (finite false (2 ^ 53 - 1) 2045 (by decide)).display = some y ∧
      y.display = (finite false (2 ^ 53 - 1) 2045 (by decide)).display) ∧
    parseNumber? (zero true).display = some (zero true) :=
  ⟨(display_reads_back _).2.1 rfl, (display_reads_back _).2.2 0 (toInt?_of_isZero rfl) (by decide)⟩

end Binary64

end Tabula
