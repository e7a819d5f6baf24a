import Tabula.Proofs.IntegerNumbers

/-!
The order of numbers and their differences. Rounding keeps the order, infinities included, and a difference has the sign
of the exact one. Two numbers differ by one part in `2 ^ 53` at least; the difference of two that are close together is
exact.
-/

namespace Tabula

/-- What has 53 bits on the grid of some exponent is stored. -/
theorem exists_canonical_eq {k f : ℕ} (hk : k < 2 ^ 53) (hf : f ≤ 2045) :
    ∃ m e, Canonical m e ∧ k * 2 ^ f = m * 2 ^ e := by
  induction f generalizing k with
  | zero => exact ⟨k, 0, ⟨hk, hf, .inr rfl⟩, rfl⟩
  | succ f ih =>
    rcases Nat.lt_or_ge k (2 ^ 52) with hlt | hge
    · obtain ⟨m, e, h, hm⟩ := ih (k := k * 2) (by omega) (by omega)
      exact ⟨m, e, h, by rw [← hm, Nat.pow_succ', Nat.mul_assoc]⟩
    · exact ⟨k, f + 1, ⟨hk, hf, .inl hge⟩, rfl⟩

namespace Canonical

variable {m e n f : ℕ}

theorem le_mul_sub_of_lt (h : Canonical m e) (h' : Canonical n f) (hlt : m * 2 ^ e < n * 2 ^ f) :
    m * 2 ^ e ≤ 2 ^ 53 * (n * 2 ^ f - m * 2 ^ e) := by
  have hm : m * 2 ^ e ≤ 2 ^ 53 * 2 ^ e := Nat.mul_le_mul_right _ h.1.le
  rcases h'.multiple_or_lt e with ⟨k, hk⟩ | ⟨he, hsmall⟩
  · rw [hk] at hlt ⊢
    have hnext := Nat.mul_le_mul_right (2 ^ e) (Nat.lt_of_mul_lt_mul_right hlt)
    rw [Nat.succ_mul] at hnext
    omega
  · have := Nat.mul_le_mul_right (2 ^ e) (h.2.2.resolve_right he)
    omega

theorem le_mul_sub_of_gt (h : Canonical m e) (h' : Canonical n f) (hlt : n * 2 ^ f < m * 2 ^ e) :
    m * 2 ^ e ≤ 2 ^ 53 * (m * 2 ^ e - n * 2 ^ f) := by
  have hm : m * 2 ^ e ≤ 2 ^ 53 * 2 ^ e := Nat.mul_le_mul_right _ h.1.le
  rcases Nat.lt_or_ge f e with hfe | hef
  · -- the other number is below all that have 53 bits on this grid
    have hfull := Nat.mul_le_mul_right (2 ^ e) (h.2.2.resolve_right (by omega))
    obtain ⟨d, rfl⟩ : ∃ d, e = f + 1 + d := ⟨e - (f + 1), by omega⟩
    have hn : n * 2 ^ f ≤ (2 ^ 53 - 1) * 2 ^ f := Nat.mul_le_mul_right _ (Nat.le_pred_of_lt h'.1)
    have hpow : 2 * 2 ^ f ≤ 2 ^ (f + 1 + d) := by
      rw [← Nat.pow_succ']
      exact Nat.pow_le_pow_right (by decide) (Nat.le_add_right _ _)
    omega
  · obtain ⟨d, rfl⟩ : ∃ d, f = e + d := ⟨f - e, by omega⟩
    rw [Nat.pow_add, ← Nat.mul_assoc, Nat.mul_right_comm] at hlt ⊢
    have hnext := Nat.mul_le_mul_right (2 ^ e) (Nat.lt_of_mul_lt_mul_right hlt)
    rw [Nat.succ_mul] at hnext
    omega

end Canonical

namespace Binary64

variable {q a b : ℚ} {x y z p : Binary64} {s : Bool}

/-- Two numbers differ by one part in `2 ^ 53` at least. -/
theorem abs_units_le (hx : x.isFinite = true) (hz : z.isFinite = true) (hne : x.units ≠ z.units) :
    |x.units| ≤ 2 ^ 53 * |x.units - z.units| := by
  obtain ⟨m, e, h, hm⟩ := exists_canonical_of_isFinite hx
  obtain ⟨n, f, h', hn⟩ := exists_canonical_of_isFinite hz
  have hlow := h.le_mul_sub_of_lt h'
  have hhigh := h.le_mul_sub_of_gt h'
  rw [← hm, ← hn] at hlow hhigh
  rw [Int.abs_eq_natAbs, Int.abs_eq_natAbs]
  unfold units at hne ⊢
  rcases lt_trichotomy x.magnitude z.magnitude with hlt | heq | hgt
  · have := hlow hlt
    split_ifs <;> omega
  · split_ifs at hne ⊢ <;> omega
  · have := hhigh hgt
    split_ifs <;> omega

theorem toRat_sub_toRat (x y : Binary64) : x.toRat - y.toRat = (x.units - y.units : ℤ) / scale := by
  rw [toRat, toRat, ← sub_div, Int.cast_sub]

theorem abs_toRat_le (hx : x.isFinite = true) (hz : z.isFinite = true) (hne : x.toRat ≠ z.toRat) :
    |x.toRat| ≤ 2 ^ 53 * |x.toRat - z.toRat| := by
  have hunits : x.units ≠ z.units := fun h => hne (by rw [toRat, toRat, h])
  have hle : |(x.units : ℚ)| ≤ 2 ^ 53 * |((x.units - z.units : ℤ) : ℚ)| := by exact_mod_cast abs_units_le hx hz hunits
  rw [toRat_sub_toRat, toRat, abs_div, abs_div, abs_of_pos scale_cast_pos, ← mul_div_assoc]
  exact div_le_div_of_nonneg_right hle scale_cast_pos.le

/-! ### Exact differences -/

theorem two_pow_dvd_units {m e g : ℕ} (h : Canonical m e) (hg : g ≤ e) : (2 ^ g : ℤ) ∣ (finite s m e h).units := by
  have hdvd : (2 ^ g : ℤ) ∣ (m * 2 ^ e : ℕ) := by
    exact_mod_cast Dvd.dvd.mul_left (Nat.pow_dvd_pow 2 hg) m
  rw [units_finite]
  split_ifs
  · exact (dvd_neg (α := ℤ)).2 hdvd
  · exact hdvd

theorem exists_units_eq {c : ℤ} {g : ℕ} (hc : c.natAbs < 2 ^ 53) (hg : g ≤ 2045) :
    ∃ z : Binary64, z.isFinite = true ∧ z.units = c * 2 ^ g := by
  obtain ⟨m, e, h, hm⟩ := exists_canonical_eq hc hg
  refine ⟨finite (decide (c < 0)) m e h, rfl, ?_⟩
  rw [units_finite, ← hm, Nat.cast_mul, Nat.cast_pow, Nat.cast_ofNat, Int.natCast_natAbs]
  by_cases hneg : c < 0
  · rw [if_pos (decide_eq_true hneg), abs_of_neg hneg, neg_mul, neg_neg]
  · rw [if_neg (by simpa using hneg), abs_of_nonneg (not_lt.1 hneg)]

/-- On the finer of the two grids the difference of numbers that are close together has 53 bits. -/
theorem exists_units_sub (hx : x.isFinite = true) (hy : y.isFinite = true)
    (hclose : 2 * |x.units - y.units| ≤ |x.units|) :
    ∃ z : Binary64, z.isFinite = true ∧ z.units = x.units - y.units := by
  rcases x with _ | _ | ⟨s, m, e, h⟩
  · contradiction
  · contradiction
  rcases y with _ | _ | ⟨t, n, f, h'⟩
  · contradiction
  · contradiction
  have hx : (finite s m e h).units.natAbs < 2 ^ 53 * 2 ^ e := by
    rw [natAbs_units]
    exact Nat.mul_lt_mul_of_pos_right h.1 (Nat.two_pow_pos e)
  have hy : (finite t n f h').units.natAbs < 2 ^ 53 * 2 ^ f := by
    rw [natAbs_units]
    exact Nat.mul_lt_mul_of_pos_right h'.1 (Nat.two_pow_pos f)
  have hdx := two_pow_dvd_units (s := s) h (min_le_left e f)
  have hdy := two_pow_dvd_units (s := t) h' (min_le_right e f)
  generalize (finite s m e h).units = u at *
  generalize (finite t n f h').units = w at *
  obtain ⟨c, hc⟩ := dvd_sub hdx hdy
  rw [mul_comm] at hc
  rw [hc]
  refine exists_units_eq (Nat.lt_of_mul_lt_mul_right (a := 2 ^ min e f) ?_) ((min_le_left e f).trans h.2.1)
  have habs : c.natAbs * 2 ^ min e f = (u - w).natAbs := by
    rw [hc, Int.natAbs_mul, Int.natAbs_pow]
    rfl
  rw [Int.abs_eq_natAbs, Int.abs_eq_natAbs] at hclose
  rw [habs]
  rcases min_choice e f with he | hf
  · rw [he]
    omega
  · rw [hf]
    omega

theorem abs_toRat_lt_overflow (hx : x.isFinite = true) : |x.toRat| < overflow := by
  by_contra hge
  rw [(rounds_self hx).eq_infinity (not_lt.1 hge)] at hx
  contradiction

/-- The difference of two numbers that are close together is exact. -/
theorem toRat_sub_of_close (hx : x.isFinite = true) (hy : y.isFinite = true)
    (hclose : 2 * |x.toRat - y.toRat| ≤ |x.toRat|) : (x.sub y).toRat = x.toRat - y.toRat := by
  have hs := scale_cast_pos
  have hlt : |x.toRat - y.toRat| < overflow := by
    have := abs_toRat_lt_overflow hx
    have := abs_nonneg (x.toRat - y.toRat)
    linarith
  have hnear := nearest_sub hx hy hlt
  have hunits : 2 * |x.units - y.units| ≤ |x.units| := by
    rw [toRat_sub_toRat, toRat, abs_div, abs_div, abs_of_pos hs, ← mul_div_assoc,
      div_le_div_iff_of_pos_right hs] at hclose
    exact_mod_cast hclose
  obtain ⟨z, hz, hu⟩ := exists_units_sub hx hy hunits
  exact hnear.toRat_eq hz (by rw [toRat_sub_toRat, ← hu, toRat])

/-! ### The order of numbers -/

theorem less_iff_toRat_lt (hx : x.isFinite = true) (hy : y.isFinite = true) :
    x.less y = true ↔ x.toRat < y.toRat := by
  rw [less, position?_eq_units hx, position?_eq_units hy, toRat, toRat, div_lt_div_iff_of_pos_right scale_cast_pos,
    Int.cast_lt]
  exact decide_eq_true_iff

theorem less_infinity (hx : x.isFinite = true) (t : Bool) : x.less (infinity t) = !t ∧ (infinity t).less x = t := by
  obtain ⟨bound, hpos, hinf, hfin⟩ := exists_bound
  rcases x with _ | _ | ⟨s, m, e, h⟩
  · contradiction
  · contradiction
  have hlt := hfin s m e h
  rw [less, less, hinf, position?_finite]
  cases t <;> simp <;> omega

/-- No number but `x` lies neither above nor below `x`, zero apart. -/
theorem eq_of_less_eq_false (hx : x.isNaN = false) (hp : p.isNaN = false) (hzero : x.isZero = false)
    (hlow : p.less x = false) (hhigh : x.less p = false) : x = p := by
  have hle : x.place ≤ p.place := not_lt.1 fun hlt => Bool.eq_false_iff.1 hlow (less_iff_place.2 ⟨hp, hx, hlt⟩)
  have hge : p.place ≤ x.place := not_lt.1 fun hlt => Bool.eq_false_iff.1 hhigh (less_iff_place.2 ⟨hx, hp, hlt⟩)
  have hxp : x.position? = p.position? := by
    rw [position?_eq_place hx, position?_eq_place hp, le_antisymm hle hge]
  rcases eq_or_isZero hx hxp with heq | ⟨hz, -⟩
  · exact heq
  · rw [hzero] at hz
    contradiction

theorem less_beyond_infinity (x : Binary64) : (infinity false).less x = false ∧ x.less (infinity true) = false := by
  obtain ⟨bound, hpos, hinf, -⟩ := exists_bound
  rcases x with _ | t | ⟨s, m, e, h⟩
  · rw [less, less, hinf, hinf]
    exact ⟨rfl, rfl⟩
  · rw [less, less, hinf, hinf, hinf]
    cases t <;> simp <;> omega
  · exact ⟨(less_infinity rfl false).2, (less_infinity rfl true).1⟩

theorem overflow_pos : 0 < overflow := by
  have hpow : (2 : ℚ) ^ 970 < 2 ^ 1024 := pow_lt_pow_right₀ one_lt_two (by decide)
  exact sub_pos.2 hpow

namespace Rounds

theorem toRat_eq_zero (h : Rounds 0 x) : x.toRat = 0 := by
  have hnear := h.nearest (by rw [abs_zero]; exact overflow_pos)
  exact hnear.toRat_eq (y := zero false) rfl (toRat_zero false)

/-- Two results for one rational differ in the sign of zero only. -/
theorem toRat_unique (hx : Rounds q x) (hy : Rounds q y) : x.toRat = y.toRat := by
  have habs : x.abs = y.abs := hx.magnitude.unique hy.magnitude
  have hmag : x.magnitude = y.magnitude := by rw [← magnitude_abs x, habs, magnitude_abs]
  by_cases hs : x.negative = y.negative
  · rw [toRat_eq x, toRat_eq y, hmag, hs]
  · have hq : q = 0 := by
      have hside := hx.side
      have hside' := hy.side
      cases hx' : x.negative <;> cases hy' : y.negative <;> simp_all <;> linarith
    subst hq
    rw [hx.toRat_eq_zero, hy.toRat_eq_zero]

/-- Rounding keeps the order. -/
theorem less_eq_false (hx : Rounds a x) (hy : Rounds b y) (hab : a ≤ b) : y.less x = false := by
  have hpos := overflow_pos
  rcases le_or_gt overflow b with hb | hb
  · rw [hy.eq_infinity (hb.trans (le_abs_self b)), hy.negative_eq_false (by linarith)]
    exact (less_beyond_infinity x).1
  rcases le_or_gt a (-overflow) with ha | ha
  · rw [hx.eq_infinity ((le_neg.1 ha).trans (neg_le_abs a)), hx.negative_eq_true (by linarith)]
    exact (less_beyond_infinity y).2
  have ha' : |a| < overflow := abs_lt.2 ⟨ha, hab.trans_lt hb⟩
  have hb' : |b| < overflow := abs_lt.2 ⟨ha.trans_le hab, hb⟩
  rw [Bool.eq_false_iff, Ne, less_iff_toRat_lt (hy.isFinite hb') (hx.isFinite ha'), not_lt]
  rcases hab.eq_or_lt with rfl | hlt
  · exact (hx.toRat_unique hy).le
  · exact (hx.nearest ha').mono (hy.nearest hb') hlt

/-- A rational is rounded to one number, zero apart. -/
theorem unique (hx : Rounds q x) (hy : Rounds q y) (hzero : x.isZero = false) : x = y :=
  eq_of_less_eq_false hx.isNaN_eq_false hy.isNaN_eq_false hzero (hx.less_eq_false hy le_rfl)
    (hy.less_eq_false hx le_rfl)

/-- A magnitude of a whole step or more is not rounded to zero: the least positive number is nearer. -/
theorem isZero_eq_false (h : Rounds q x) (hq : 1 ≤ |q| * scale) : x.isZero = false := by
  rcases lt_or_ge |q| overflow with hlt | hge
  · refine Binary64.isZero_eq_false fun hzero => ?_
    have hstep := (h.magnitude.nearest hlt).le (finite false 1 0 (by decide)) rfl
    have hx : x.abs.toRat = 0 := by
      rw [toRat_eq, magnitude_abs, hzero, Nat.cast_zero, zero_div, neg_zero, ite_self]
    have hone : (1 : ℚ) / scale ≤ |q| := (div_le_iff₀ scale_cast_pos).2 hq
    have hpos : (0 : ℚ) < 1 / scale := one_div_pos.2 scale_cast_pos
    rw [hx, sub_zero, abs_abs, toRat_finite, if_neg Bool.false_ne_true, pow_zero, mul_one, Nat.cast_one,
      abs_of_nonneg (sub_nonneg.2 hone)] at hstep
    linarith
  · rw [h.eq_infinity hge]
    rfl

end Rounds

/-! ### The sign of a difference -/

/-- `p` lies above `x`, or below it if the sign is negative. -/
def Beyond (negative : Bool) (x p : Binary64) : Prop := if negative then p.less x = true else x.less p = true

theorem Rounds.not_beyond (hx : Rounds a x) (hp : Rounds b p) (hab : if s then a ≤ b else b ≤ a) : ¬ Beyond s x p := by
  cases s with
  | false => exact Bool.eq_false_iff.1 (hp.less_eq_false hx hab)
  | true => exact Bool.eq_false_iff.1 (hx.less_eq_false hp hab)

theorem sub_infinity (hx : x.isFinite = true) (t : Bool) : x.sub (infinity t) = infinity (!t) := by
  rcases x with _ | _ | ⟨s, m, e, h⟩
  · contradiction
  · contradiction
  · rfl

theorem isNaN_sub (hx : x.isFinite = true) (hp : p.isNaN = false) : (x.sub p).isNaN = false := by
  cases p with
  | nan => contradiction
  | infinity t =>
    rw [sub_infinity hx]
    rfl
  | finite => exact (rounds_sub hx rfl).isNaN_eq_false

theorem sub_eq_of_rounds_zero (hx : x.isFinite = true) (hzero : x.isZero = false) (hp : Rounds 0 p) : x.sub p = x := by
  have hfinite := hp.isFinite (by rw [abs_zero]; exact overflow_pos)
  have hsub := rounds_sub hx hfinite
  rw [hp.toRat_eq_zero, sub_zero] at hsub
  exact ((rounds_self hx).unique hsub hzero).symm

theorem beyond_infinity_iff (hx : x.isFinite = true) (t : Bool) : Beyond s x (infinity t) ↔ t = s := by
  obtain ⟨hless, hless'⟩ := less_infinity hx t
  unfold Beyond
  rw [hless, hless']
  cases s <;> cases t <;> decide

theorem beyond_iff_toRat (hx : x.isFinite = true) (hp : p.isFinite = true) :
    Beyond s x p ↔ if s then p.toRat < x.toRat else x.toRat < p.toRat := by
  unfold Beyond
  rw [less_iff_toRat_lt hx hp, less_iff_toRat_lt hp hx]

theorem isZero_iff_toRat (hx : x.isFinite = true) : x.isZero = true ↔ x.toRat = 0 := by
  constructor
  · intro hz
    have hint := (toInt?_eq_some_iff_toRat.1 (toInt?_of_isZero hz)).2
    rwa [Int.cast_zero] at hint
  · intro hzero
    rcases x with _ | _ | ⟨s, m, e, h⟩
    · contradiction
    · contradiction
    have hunits : (finite s m e h).units = 0 := by
      rw [toRat, div_eq_zero_iff, or_iff_left scale_cast_pos.ne'] at hzero
      exact_mod_cast hzero
    have hmag : m * 2 ^ e = 0 := by
      have habs := natAbs_units (finite s m e h)
      rw [hunits] at habs
      exact habs.symm
    have hm : m = 0 := (Nat.mul_eq_zero.1 hmag).resolve_right (Nat.two_pow_pos e).ne'
    rw [isZero, hm]
    rfl

theorem isZero_sub_iff (hx : x.isFinite = true) (hp : p.isFinite = true) :
    (x.sub p).isZero = true ↔ x.toRat = p.toRat := by
  have hsub := rounds_sub hx hp
  constructor
  · intro hzero
    by_contra hne
    have hunits : x.units - p.units ≠ 0 := fun h => hne (by rw [toRat, toRat, sub_eq_zero.1 h])
    have hstep : 1 ≤ |x.toRat - p.toRat| * scale := by
      rw [toRat_sub_toRat, abs_div, abs_of_pos scale_cast_pos, div_mul_cancel₀ _ scale_cast_pos.ne']
      exact_mod_cast Int.one_le_abs hunits
    rw [hsub.isZero_eq_false hstep] at hzero
    contradiction
  · intro heq
    rw [heq, sub_self] at hsub
    have hfinite := hsub.isFinite (by rw [abs_zero]; exact overflow_pos)
    exact (isZero_iff_toRat hfinite).2 hsub.toRat_eq_zero

/-- A difference is zero or has a given sign unless what is taken away lies beyond on that side. -/
theorem isZero_sub_or_negative_iff (hx : x.isFinite = true) (hp : p.isNaN = false) (s : Bool) :
    (x.sub p).isZero = true ∨ (x.sub p).negative = s ↔ ¬ Beyond s x p := by
  rcases p with _ | t | ⟨t, n, f, h⟩
  · contradiction
  · rw [sub_infinity hx, beyond_infinity_iff hx]
    cases s <;> cases t <;> decide
  · have hsub := rounds_sub (y := finite t n f h) hx rfl
    rw [beyond_iff_toRat hx rfl, isZero_sub_iff hx rfl]
    rcases lt_trichotomy x.toRat (finite t n f h).toRat with hlt | heq | hgt
    · rw [hsub.negative_eq_true (sub_neg.2 hlt)]
      cases s <;> simp [hlt, hlt.ne, hlt.le]
    · simp [heq]
    · rw [hsub.negative_eq_false (sub_pos.2 hgt)]
      cases s <;> simp [hgt, hgt.ne', hgt.le]

end Binary64

end Tabula
