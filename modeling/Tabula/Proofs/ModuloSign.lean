import Tabula.Proofs.Differences
import Tabula.Proofs.Modulo

/-!
The sign of the remainder of the floored quotient. It is that of the divisor as long as the quotient that is floored
does not lie above the exact one. It can: a quotient just below an integer is rounded up to it. The product of that
integer and the divisor then lies beyond the dividend, and unless rounding takes it back, the remainder has the wrong
sign. It is then as small as a difference of the dividend can be.
-/

namespace Tabula.Binary64

variable {x y z p : Binary64} {n : ℤ}

/-- The quotient is rounded up to the integer `n`, and the product with it is not rounded to the dividend. -/
structure Overshoots (x y : Binary64) (n : ℤ) : Prop where
  above : x.toRat / y.toRat < n
  quotient : ∃ z, Rounds (x.toRat / y.toRat) z ∧ z.toInt? = some n
  product : ¬ Rounds (n * y.toRat) x

/-- `p` is the number right after `x`, or right before it if the sign is negative. -/
structure Follows (negative : Bool) (x p : Binary64) : Prop where
  beyond : Beyond negative x p
  next : ∀ z, z.isFinite = true → Beyond negative x z → ¬ Beyond negative z p

theorem toRat_side (hne : y.toRat ≠ 0) : if y.negative then y.toRat < 0 else 0 < y.toRat := by
  have hmag : (0 : ℚ) < y.magnitude / scale :=
    div_pos (Nat.cast_pos.2 (Nat.pos_of_ne_zero (magnitude_ne_zero hne))) scale_cast_pos
  rw [toRat_eq y]
  split_ifs
  · exact neg_lt_zero.2 hmag
  · exact hmag

/-- Seen from a number, the product with a quotient that is not greater does not lie beyond it. -/
theorem not_beyond_of_le_div {a : ℚ} (hx : x.isFinite = true) (hne : y.toRat ≠ 0) (ha : a ≤ x.toRat / y.toRat)
    (hp : Rounds (a * y.toRat) p) : ¬ Beyond y.negative x p := by
  have hside := toRat_side hne
  refine (rounds_self hx).not_beyond hp ?_
  cases hs : y.negative with
  | false =>
    rw [hs] at hside
    exact (le_div_iff₀ hside).1 ha
  | true =>
    rw [hs] at hside
    exact (le_div_iff_of_neg hside).1 ha

theorem not_beyond_of_div_le {a : ℚ} (hx : x.isFinite = true) (hne : y.toRat ≠ 0) (ha : x.toRat / y.toRat ≤ a)
    (hp : Rounds (a * y.toRat) p) : ¬ Beyond y.negative p x := by
  have hside := toRat_side hne
  refine hp.not_beyond (rounds_self hx) ?_
  cases hs : y.negative with
  | false =>
    rw [hs] at hside
    exact (div_le_iff₀ hside).1 ha
  | true =>
    rw [hs] at hside
    exact (div_le_iff_of_neg hside).1 ha

section Quotient

variable (hx : x.isFinite = true) (hy : y.isFinite = true) (hne : y.toRat ≠ 0) (hquot : |x.toRat / y.toRat| < 2 ^ 53)
include hx hy hne hquot

omit hx hy hne in
theorem abs_lt_overflow_of_lt : |x.toRat / y.toRat| < overflow := by
  have hover := abs_lt_overflow (i := 2 ^ 53) (by decide)
  exact hquot.trans (by exact_mod_cast hover)

theorem nearest_div_of_lt : Nearest (x.toRat / y.toRat) (x.div y) := by
  exact nearest_div hx hy hne (abs_lt_overflow_of_lt hquot)

theorem natAbs_floor_div_le : ⌊(x.div y).toRat⌋.natAbs ≤ 2 ^ 53 := by
  have hnear := nearest_div_of_lt hx hy hne hquot
  obtain ⟨hlow, hhigh⟩ := abs_lt.1 hquot
  obtain ⟨w, hw⟩ := exists_toInt?_eq (i := 2 ^ 53) (by decide)
  obtain ⟨hfw, hrw⟩ := toInt?_eq_some_iff_toRat.1 hw
  obtain ⟨hfw', hrw'⟩ := toInt?_eq_some_iff_toRat.1 (toInt?_neg hw)
  push_cast at hrw hrw'
  have hle := hnear.toRat_le hfw (by rw [hrw]; exact hhigh.le)
  have hge := hnear.le_toRat hfw' (by rw [hrw']; exact hlow.le)
  rw [hrw] at hle
  rw [hrw'] at hge
  refine natAbs_floor_le (k := 2 ^ 53) (abs_le.2 ?_)
  push_cast
  exact ⟨hge, hle⟩

/-- The floor of the rounded quotient is above the exact quotient only if that was rounded to an integer. -/
theorem toInt?_div_of_lt_floor (hlt : x.toRat / y.toRat < ⌊(x.div y).toRat⌋) :
    (x.div y).toInt? = some ⌊(x.div y).toRat⌋ := by
  have hnear := nearest_div_of_lt hx hy hne hquot
  obtain ⟨w, hw⟩ := exists_toInt?_eq (natAbs_floor_div_le hx hy hne hquot)
  obtain ⟨hfw, hrw⟩ := toInt?_eq_some_iff_toRat.1 hw
  have hle := hnear.toRat_le hfw (by rw [hrw]; exact hlt.le)
  rw [hrw] at hle
  exact toInt?_eq_some_iff_toRat.2 ⟨hnear.isFinite, le_antisymm hle (Int.floor_le _)⟩

theorem exists_product : ∃ p, Rounds (⌊(x.div y).toRat⌋ * y.toRat) p ∧ x.modulo y = x.sub p := by
  have hfloor := toInt?_floor (nearest_div_of_lt hx hy hne hquot).isFinite
  obtain ⟨hf, hr⟩ := toInt?_eq_some_iff_toRat.1 hfloor
  have hmul := rounds_mul hf hy
  rw [hr] at hmul
  exact ⟨_, hmul, rfl⟩

omit hquot in
theorem Overshoots.toRat_div (h : Overshoots x y n) : (x.div y).toRat = n := by
  obtain ⟨z, hz, hn⟩ := h.quotient
  rw [(rounds_div hx hy hne).toRat_unique hz, (toInt?_eq_some_iff_toRat.1 hn).2]

omit hquot in
theorem Overshoots.eq_floor (h : Overshoots x y n) : n = ⌊(x.div y).toRat⌋ := by
  rw [h.toRat_div hx hy hne, Int.floor_intCast]

omit hquot in
theorem isZero_eq_false_of_lt_floor (hlt : x.toRat / y.toRat < ⌊(x.div y).toRat⌋) : x.isZero = false := by
  by_contra hzero
  have hr := (isZero_iff_toRat hx).1 (Bool.eq_true_of_not_eq_false hzero)
  have hdiv := rounds_div hx hy hne
  rw [hr, zero_div] at hdiv hlt
  rw [hdiv.toRat_eq_zero, Int.floor_zero, Int.cast_zero] at hlt
  exact lt_irrefl 0 hlt

omit hquot in
/-- Where the floor is above the quotient, the product lies beyond the dividend unless it is rounded to it. -/
theorem beyond_iff_of_lt_floor (hlt : x.toRat / y.toRat < ⌊(x.div y).toRat⌋)
    (hp : Rounds (⌊(x.div y).toRat⌋ * y.toRat) p) :
    Beyond y.negative x p ↔ ¬ Rounds (⌊(x.div y).toRat⌋ * y.toRat) x := by
  constructor
  · intro hbeyond hround
    exact hround.not_beyond hp (by split_ifs <;> exact le_rfl) hbeyond
  · intro hround
    by_contra hbeyond
    have hback := not_beyond_of_div_le hx hne hlt.le hp
    have hzero := isZero_eq_false_of_lt_floor hx hy hne hlt
    have hxp : x = p := by
      unfold Beyond at hbeyond hback
      cases hs : y.negative <;> simp only [hs, Bool.false_eq_true, if_true, if_false, Bool.not_eq_true] at hbeyond hback
      · exact eq_of_less_eq_false (rounds_self hx).isNaN_eq_false hp.isNaN_eq_false hzero hback hbeyond
      · exact eq_of_less_eq_false (rounds_self hx).isNaN_eq_false hp.isNaN_eq_false hzero hbeyond hback
    exact hround (hxp ▸ hp)

theorem exists_overshoots_iff (hp : Rounds (⌊(x.div y).toRat⌋ * y.toRat) p) :
    (∃ n, Overshoots x y n) ↔ Beyond y.negative x p := by
  constructor
  · rintro ⟨n, h⟩
    obtain rfl := h.eq_floor hx hy hne
    exact (beyond_iff_of_lt_floor hx hy hne h.above hp).2 h.product
  · intro hbeyond
    have hlt : x.toRat / y.toRat < ⌊(x.div y).toRat⌋ := by
      by_contra hle
      exact not_beyond_of_le_div hx hne (not_lt.1 hle) hp hbeyond
    exact ⟨_, hlt, ⟨_, rounds_div hx hy hne, toInt?_div_of_lt_floor hx hy hne hquot hlt⟩,
      (beyond_iff_of_lt_floor hx hy hne hlt hp).1 hbeyond⟩

/-- The product differs from the dividend by one part in `2 ^ 53` at most. -/
theorem Overshoots.mul_abs_sub_le (h : Overshoots x y n) (hn : n ≠ 0) :
    2 ^ 53 * |x.toRat - n * y.toRat| ≤ |x.toRat| := by
  have hnear := nearest_div_of_lt hx hy hne hquot
  have hr := h.toRat_div hx hy hne
  have hhalf : 1 / 2 ≤ |x.toRat / y.toRat| := by
    -- zero is not nearer than `n`
    have hzero := hnear.le (zero false) rfl
    have hone : (1 : ℚ) ≤ |(n : ℚ)| := by exact_mod_cast Int.one_le_abs hn
    have habs := abs_sub_abs_le_abs_sub (n : ℚ) (x.toRat / y.toRat)
    rw [hr, toRat_zero, sub_zero, abs_sub_comm] at hzero
    linarith
  have hsteps : 2 ^ 52 ≤ |x.toRat / y.toRat| * scale := by
    have hscale : (2 : ℚ) ^ 53 ≤ scale := by
      rw [cast_scale]
      exact pow_le_pow_right₀ one_le_two (by decide)
    calc (2 : ℚ) ^ 52 = 1 / 2 * 2 ^ 53 := by norm_num
      _ ≤ |x.toRat / y.toRat| * scale := mul_le_mul hhalf hscale (by norm_num) (abs_nonneg _)
  have herr := hnear.abs_sub_le (abs_lt_overflow_of_lt hquot) hsteps
  rw [hr, le_div_iff₀ (by norm_num)] at herr
  calc 2 ^ 53 * |x.toRat - n * y.toRat| = |x.toRat / y.toRat - n| * 2 ^ 53 * |y.toRat| := by
        rw [mul_right_comm, ← abs_mul, sub_mul, div_mul_cancel₀ _ hne, mul_comm]
    _ ≤ |x.toRat / y.toRat| * |y.toRat| := mul_le_mul_of_nonneg_right herr (abs_nonneg _)
    _ = |x.toRat| := by rw [← abs_mul, div_mul_cancel₀ _ hne]

/-- Between the dividend and the product there is no number. -/
theorem Overshoots.follows (h : Overshoots x y n) (hn : n ≠ 0) (hp : Rounds (n * y.toRat) p) :
    Follows y.negative x p := by
  have hle := h.mul_abs_sub_le hx hy hne hquot hn
  have hbeyond : Beyond y.negative x p := by
    obtain rfl := h.eq_floor hx hy hne
    exact (beyond_iff_of_lt_floor hx hy hne h.above hp).2 h.product
  refine ⟨hbeyond, fun z hz hxz hzp => ?_⟩
  have hlow := (beyond_iff_toRat hx hz).1 hxz
  have hhigh : ¬ if y.negative then z.toRat ≤ n * y.toRat else n * y.toRat ≤ z.toRat :=
    fun hle => (rounds_self hz).not_beyond hp hle hzp
  have hbetween : x.toRat ≠ z.toRat ∧ |x.toRat - z.toRat| < |x.toRat - n * y.toRat| := by
    cases hs : y.negative with
    | false =>
      simp only [hs, Bool.false_eq_true, if_false, not_le] at hlow hhigh
      rw [abs_of_neg (sub_neg.2 hlow), abs_of_neg (sub_neg.2 (hlow.trans hhigh))]
      exact ⟨hlow.ne, by linarith⟩
    | true =>
      simp only [hs, if_true, not_le] at hlow hhigh
      rw [abs_of_pos (sub_pos.2 hlow), abs_of_pos (sub_pos.2 (hhigh.trans hlow))]
      exact ⟨hlow.ne', by linarith⟩
  have hgap := abs_toRat_le hx hz hbetween.1
  linarith [hbetween.2]

/-- What is left is the distance to that number, exactly. -/
theorem Overshoots.toRat_sub (h : Overshoots x y n) (hn : n ≠ 0) (hp : Rounds (n * y.toRat) p)
    (hfinite : p.isFinite = true) : (x.sub p).toRat = x.toRat - p.toRat := by
  have hle := h.mul_abs_sub_le hx hy hne hquot hn
  have hlt : |n * y.toRat| < overflow := by
    by_contra hge
    rw [hp.eq_infinity (not_lt.1 hge)] at hfinite
    contradiction
  have hnear := (hp.nearest hlt).le x hx
  have htriangle := abs_sub_le x.toRat (n * y.toRat) p.toRat
  have hnonneg := abs_nonneg (x.toRat - n * y.toRat)
  rw [abs_sub_comm (n * y.toRat) x.toRat] at hnear
  refine toRat_sub_of_close hx hfinite ?_
  linarith

end Quotient

theorem abs_div_lt_of_magnitude (hlt : x.magnitude < 2 ^ 53 * y.magnitude) : |x.toRat / y.toRat| < 2 ^ 53 := by
  have hpos : (0 : ℚ) < y.magnitude := Nat.cast_pos.2 (by omega)
  rw [toRat, toRat, div_div_div_cancel_right₀ scale_cast_pos.ne', abs_div, ← Int.cast_abs, ← Int.cast_abs,
    Int.abs_eq_natAbs, Int.abs_eq_natAbs, natAbs_units, natAbs_units, Int.cast_natCast, Int.cast_natCast,
    div_lt_iff₀ hpos]
  exact_mod_cast hlt

/-- The remainder of the floored quotient is zero or has the sign of the divisor, unless the quotient overshoots. If it
overshoots to zero, the remainder is the dividend, with the wrong sign. Otherwise the product is the number right after
the dividend, on the side of the divisor, and the remainder is what the dividend is short of it, or an infinity if it is
the last number. -/
theorem modulo_sign_of_divisor (hx : x.isFinite = true) (hy : y.isFinite = true) (hne : y.isZero = false)
    (hquot : |x.toRat / y.toRat| < 2 ^ 53) :
    (x.modulo y).isNaN = false ∧
    ((x.modulo y).isZero = true ∨ (x.modulo y).negative = y.negative ↔ ¬ ∃ n, Overshoots x y n) ∧
    ∀ n, Overshoots x y n →
      if n = 0 then x.modulo y = x
      else ∃ p, Rounds (n * y.toRat) p ∧ Follows y.negative x p ∧
        if p.isFinite then (x.modulo y).toRat = x.toRat - p.toRat else x.modulo y = infinity (!y.negative) := by
  have hne' : y.toRat ≠ 0 := by rwa [Ne, ← isZero_iff_toRat hy, Bool.not_eq_true]
  obtain ⟨p, hp, hmod⟩ := exists_product hx hy hne' hquot
  have hover := exists_overshoots_iff hx hy hne' hquot hp
  rw [hmod]
  refine ⟨isNaN_sub hx hp.isNaN_eq_false, ?_, fun n h => ?_⟩
  · rw [hover]
    exact isZero_sub_or_negative_iff hx hp.isNaN_eq_false _
  · obtain rfl := h.eq_floor hx hy hne'
    split_ifs with hn
    · rw [hn, Int.cast_zero, zero_mul] at hp
      exact sub_eq_of_rounds_zero hx (isZero_eq_false_of_lt_floor hx hy hne' h.above) hp
    · have hfollows := h.follows hx hy hne' hquot hn hp
      refine ⟨p, hp, hfollows, ?_⟩
      split_ifs with hfinite
      · exact h.toRat_sub hx hy hne' hquot hn hp hfinite
      · cases p with
        | nan => exact absurd hp.isNaN_eq_false (by simp [isNaN])
        | infinity t => rw [sub_infinity hx, (beyond_infinity_iff hx t).1 hfollows.beyond]
        | finite => exact absurd rfl hfinite

/-- The number nearest to a tenth goes into 1 not quite ten times. The quotient is rounded up to ten, and the product is
rounded back. -/
theorem modulo_sign_of_divisor_absorbed :
    ∃ y : Binary64, y = finite false 7205759403792794 1018 (by decide) ∧ |(ofInt 1).toRat / y.toRat| < 2 ^ 53 ∧
      (ofInt 1).units < 10 * y.units ∧ ((ofInt 1).div y).toInt? = some 10 ∧ ((ofInt 1).modulo y).isZero = true ∧
      ¬ ∃ n, Overshoots (ofInt 1) y n := by
  have hzero : ((ofInt 1).modulo (finite false 7205759403792794 1018 (by decide))).isZero = true := by decide +kernel
  have hquot : |(ofInt 1).toRat / (finite false 7205759403792794 1018 (by decide)).toRat| < 2 ^ 53 :=
    abs_div_lt_of_magnitude (by decide +kernel)
  obtain ⟨-, hsign, -⟩ := modulo_sign_of_divisor (by decide +kernel) rfl (by decide) hquot
  exact ⟨_, rfl, hquot, by decide +kernel, by decide +kernel, hzero, hsign.1 (.inl hzero)⟩

/-- Three times `2 ^ 52 + 1` is one more than the dividend here and is rounded to two more, so that the remainder of two
positive numbers is `-2`. -/
theorem modulo_sign_lost :
    ∃ x y : Binary64, x.toInt? = some (3 * 2 ^ 52 + 2) ∧ y.toInt? = some (2 ^ 52 + 1) ∧ |x.toRat / y.toRat| < 2 ^ 53 ∧
      (x.modulo y).toInt? = some (-2) ∧ ¬ ((x.modulo y).isZero = true ∨ (x.modulo y).negative = y.negative) := by
  refine ⟨ofInt (3 * 2 ^ 52 + 2), ofInt (2 ^ 52 + 1), by decide +kernel, by decide +kernel,
    abs_div_lt_of_magnitude (by decide +kernel), ?_⟩
  have hmod : (ofInt (3 * 2 ^ 52 + 2)).modulo (ofInt (2 ^ 52 + 1)) = ofInt (-2) := by decide +kernel
  rw [hmod]
  exact ⟨by decide +kernel, by decide +kernel⟩

/-- A third of what lies halfway beyond the greatest number: the product is infinite, and so is the remainder. -/
example : (finite false (2 ^ 53 - 1) 2045 (by decide)).modulo (finite false 6004799503160661 2044 (by decide)) =
    infinity true := by decide +kernel

end Tabula.Binary64
