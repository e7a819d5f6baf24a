import Tabula.Proofs.IntegerNumbers
import Tabula.Session

/-!
Remainders of integers. Where both operands have 53 bits, the rounded quotient has the floor of the exact one: from the
next integer the exact quotient is one part in the divisor away, and the error of rounding is less. So the remainder of
the floored quotient is exact, and it differs from that of the truncated quotient by the divisor where their signs do.
-/

namespace Tabula.Binary64

variable {x y : Binary64} {a b n : ℤ}

/-- A quotient that is not the integer `n` is at least one part in the divisor away from it. -/
theorem one_div_le_abs_sub (hb : b ≠ 0) (hne : (a : ℚ) / b ≠ n) : 1 / |(b : ℚ)| ≤ |(a : ℚ) / b - n| := by
  have hb' : (b : ℚ) ≠ 0 := by exact_mod_cast hb
  have hrest : a - n * b ≠ 0 := by
    intro h
    refine hne ((div_eq_iff hb').2 ?_)
    exact_mod_cast sub_eq_zero.1 h
  have hone : (1 : ℚ) ≤ |((a - n * b : ℤ) : ℚ)| := by exact_mod_cast Int.one_le_abs hrest
  calc 1 / |(b : ℚ)| ≤ |((a - n * b : ℤ) : ℚ)| / |(b : ℚ)| := div_le_div_of_nonneg_right hone (abs_nonneg _)
    _ = |(a : ℚ) / b - n| := by
      rw [← abs_div, Int.cast_sub, Int.cast_mul, sub_div, mul_div_cancel_right₀ _ hb']

theorem abs_div_le (a b : ℤ) : |(a : ℚ) / b| ≤ |(a : ℚ)| := by
  rw [abs_div]
  rcases eq_or_ne b 0 with rfl | hb
  · rw [Int.cast_zero, abs_zero, div_zero]
    exact abs_nonneg _
  · exact div_le_self (abs_nonneg _) (by exact_mod_cast Int.one_le_abs hb)

theorem two_pow_le_abs_div_mul_scale (ha : a ≠ 0) (hb : b ≠ 0) (hb' : b.natAbs ≤ 2 ^ 53) :
    2 ^ 52 ≤ |(a : ℚ) / b| * scale := by
  have hscale : (2 : ℚ) ^ 105 ≤ scale := by
    rw [cast_scale]
    exact pow_le_pow_right₀ one_le_two (by decide)
  have hpos : (0 : ℚ) < |(b : ℚ)| := abs_pos.2 (by exact_mod_cast hb)
  have hone : (1 : ℚ) ≤ |(a : ℚ)| := by exact_mod_cast Int.one_le_abs ha
  have hle : |(b : ℚ)| ≤ 2 ^ 53 := by exact_mod_cast abs_le_of_natAbs_le hb'
  calc (2 : ℚ) ^ 52 = 1 / 2 ^ 53 * 2 ^ 105 := by norm_num
    _ ≤ |(a : ℚ)| / |(b : ℚ)| * scale := by
      refine mul_le_mul ?_ hscale (by positivity) (by positivity)
      exact div_le_div₀ (by positivity) hone hpos hle
    _ = |(a : ℚ) / b| * scale := by rw [abs_div]

/-- The error of a rounded quotient is less than one part in the divisor. -/
theorem abs_sub_lt_one_div (hnear : Nearest ((a : ℚ) / b) x) (hb : b ≠ 0) (ha : a.natAbs < 2 ^ 53)
    (hb' : b.natAbs ≤ 2 ^ 53) : |(a : ℚ) / b - x.toRat| < 1 / |(b : ℚ)| := by
  have hpos : (0 : ℚ) < |(b : ℚ)| := abs_pos.2 (by exact_mod_cast hb)
  rcases eq_or_ne a 0 with rfl | ha0
  · have hx : x.toRat = 0 := by
      have h := hnear.toRat_eq (y := zero false) rfl
      rw [Int.cast_zero, zero_div] at h
      exact h (toRat_zero false)
    rw [hx, Int.cast_zero, zero_div, sub_zero, abs_zero]
    exact one_div_pos.2 hpos
  have hover : |(a : ℚ) / b| < overflow := (abs_div_le a b).trans_lt (abs_lt_overflow (by omega))
  have hlt : |(a : ℚ)| < 2 ^ 53 := by
    rw [← Int.cast_abs, Int.abs_eq_natAbs]
    exact_mod_cast ha
  calc |(a : ℚ) / b - x.toRat| ≤ |(a : ℚ) / b| / 2 ^ 53 :=
        hnear.abs_sub_le hover (two_pow_le_abs_div_mul_scale ha0 hb hb')
    _ = |(a : ℚ)| / 2 ^ 53 / |(b : ℚ)| := by rw [abs_div, div_right_comm]
    _ < 1 / |(b : ℚ)| := div_lt_div_of_pos_right ((div_lt_one (by norm_num)).2 hlt) hpos

theorem natAbs_floor_le {q : ℚ} {k : ℕ} (h : |q| ≤ k) : ⌊q⌋.natAbs ≤ k := by
  obtain ⟨hlow, hhigh⟩ := abs_le.1 h
  have hlow' : -(k : ℤ) ≤ ⌊q⌋ := Int.le_floor.2 (by exact_mod_cast hlow)
  have hhigh' : ⌊q⌋ ≤ k := by exact_mod_cast (Int.floor_le q).trans hhigh
  omega

/-- Rounding a quotient does not move its floor. -/
theorem toInt?_floor_div (hx : x.toInt? = some a) (hy : y.toInt? = some b) (hb : b ≠ 0) (ha : a.natAbs < 2 ^ 53)
    (hb' : b.natAbs ≤ 2 ^ 53) : (x.div y).floor.toInt? = some ⌊(a : ℚ) / b⌋ := by
  obtain ⟨hfx, hrx⟩ := toInt?_eq_some_iff_toRat.1 hx
  obtain ⟨hfy, hry⟩ := toInt?_eq_some_iff_toRat.1 hy
  have hsmall := (abs_div_le a b).trans (abs_le_of_natAbs_le ha.le)
  have hover : |(a : ℚ) / b| < overflow := (abs_div_le a b).trans_lt (abs_lt_overflow (by omega))
  have hnear := nearest_div hfx hfy (by rw [hry]; exact_mod_cast hb) (by rwa [hrx, hry])
  rw [hrx, hry] at hnear
  rw [toInt?_floor hnear.isFinite, Option.some.injEq, Int.floor_eq_iff]
  constructor
  · -- the floor of the exact quotient is a number
    obtain ⟨z, hz⟩ := exists_toInt?_eq (natAbs_floor_le hsmall)
    obtain ⟨hfz, hrz⟩ := toInt?_eq_some_iff_toRat.1 hz
    rw [← hrz]
    exact hnear.le_toRat hfz (by rw [hrz]; exact Int.floor_le _)
  · -- and the integer above it is too far away
    by_contra hge
    have habove := Int.lt_floor_add_one ((a : ℚ) / b)
    have hgap := one_div_le_abs_sub (n := ⌊(a : ℚ) / b⌋ + 1) hb (by push_cast; exact habove.ne)
    have herr := (abs_lt.1 (abs_sub_lt_one_div hnear hb ha hb')).1
    push_cast at hgap
    rw [abs_sub_comm, abs_of_pos (sub_pos.2 habove)] at hgap
    linarith

theorem floor_div_intCast (a b : ℤ) : ⌊(a : ℚ) / b⌋ = a.fdiv b := by
  rcases le_total 0 b with hb | hb
  · lift b to ℕ using hb
    rw [Int.cast_natCast, floor_div_natCast]
  · rw [← Int.neg_fdiv_neg, ← neg_div_neg_eq, ← Int.cast_neg, ← Int.cast_neg]
    lift -b to ℕ using neg_nonneg.2 hb with c
    rw [Int.cast_natCast, floor_div_natCast]

theorem fmod_bounds (a : ℤ) (hb : b ≠ 0) :
    (a.fmod b = 0 ∨ (a.fmod b < 0 ↔ b < 0)) ∧ (a.fmod b).natAbs < b.natAbs := by
  have hnonneg := Int.emod_nonneg a hb
  have hlt := Int.emod_lt a hb
  simp only [Int.fmod_eq_emod, Int.dvd_iff_emod_eq_zero]
  split_ifs <;> omega

/-- The remainders differ by the divisor where the truncated one has the other sign. -/
theorem fmod_eq_tmod_or (a : ℤ) (hb : b ≠ 0) :
    a.fmod b = if a.tmod b ≠ 0 ∧ (a.tmod b < 0 ↔ 0 < b) then a.tmod b + b else a.tmod b := by
  have hnonneg := Int.emod_nonneg a hb
  have hlt := Int.emod_lt a hb
  simp only [Int.fmod_eq_emod, Int.tmod_eq_emod, Int.dvd_iff_emod_eq_zero]
  split_ifs <;> omega

theorem toInt?_modulo (hx : x.toInt? = some a) (hy : y.toInt? = some b) (hb : b ≠ 0)
    (hsize : a.natAbs + b.natAbs ≤ 2 ^ 53) : (x.modulo y).toInt? = some (a.fmod b) := by
  have hquot := toInt?_floor_div hx hy hb (by omega) (by omega)
  rw [floor_div_intCast] at hquot
  have hrest : a.fdiv b * b = a - a.fmod b := by rw [Int.fmod_def, mul_comm, sub_sub_cancel]
  obtain ⟨-, hsmall⟩ := fmod_bounds a hb
  have hprod := toInt?_mul hquot hy (by rw [hrest]; omega)
  have hdiff := toInt?_sub hx hprod (by rw [hrest]; omega)
  rwa [hrest, sub_sub_cancel] at hdiff

/-! ### The truncated remainder -/

theorem remainder_eq (hx : x.isFinite = true) (hy : y.isFinite = true) (hne : y.magnitude ≠ 0) :
    x.remainder y = ofSteps x.negative (x.magnitude % y.magnitude) 1 := by
  rcases x with _ | _ | ⟨s, m, e, h⟩
  · contradiction
  · contradiction
  rcases y with _ | _ | ⟨t, n, f, h'⟩
  · contradiction
  · contradiction
  simp only [remainder, isZero_eq_false hne, Bool.false_eq_true, if_false]
  rfl

theorem toInt?_remainder (hx : x.toInt? = some a) (hy : y.toInt? = some b) (hb : b ≠ 0) (ha : a.natAbs ≤ 2 ^ 53) :
    (x.remainder y).toInt? = some (a.tmod b) := by
  have hne : y.magnitude ≠ 0 := by
    rw [magnitude_of_toInt? hy]
    exact Nat.mul_ne_zero (Int.natAbs_ne_zero.2 hb) scale_pos.ne'
  have hsign := eq_signed_natAbs hx
  have habs := Int.natAbs_tmod a b
  obtain ⟨m, e, h, hm⟩ := exists_canonical ((Nat.mod_le a.natAbs b.natAbs).trans ha)
  rw [remainder_eq (toInt?_eq_some_iff.1 hx).1 (toInt?_eq_some_iff.1 hy).1 hne, magnitude_of_toInt? hx,
    magnitude_of_toInt? hy, Nat.mul_mod_mul_right, hm, ofSteps_stored _ h]
  rw [toInt?_eq_some_iff, units_finite, ← hm, ← habs]
  refine ⟨rfl, ?_⟩
  cases hneg : x.negative with
  | false =>
    rw [hneg, if_neg Bool.false_ne_true] at hsign
    rw [if_neg Bool.false_ne_true, Nat.cast_mul, Int.natAbs_of_nonneg (Int.tmod_nonneg b (by omega))]
  | true =>
    rw [hneg, if_pos rfl] at hsign
    have hnonneg := Int.tmod_nonneg b (show 0 ≤ -a by omega)
    rw [Int.neg_tmod] at hnonneg
    rw [if_pos rfl, Nat.cast_mul, ← neg_mul, Int.ofNat_natAbs_of_nonpos (by omega), neg_neg]

/-! ### All remainders of a program -/

theorem equal_iff_of_toInt? (hx : x.toInt? = some a) (hy : y.toInt? = some b) : x.equal y = true ↔ a = b := by
  obtain ⟨hfx, hux⟩ := toInt?_eq_some_iff.1 hx
  obtain ⟨hfy, huy⟩ := toInt?_eq_some_iff.1 hy
  have hnan : x.isNaN = false := by
    cases x with
    | nan => contradiction
    | infinity => contradiction
    | finite => rfl
  have hpos : (scale : ℤ) ≠ 0 := by exact_mod_cast scale_pos.ne'
  rw [equal_iff, position?_eq_units hfx, position?_eq_units hfy, hux, huy, Option.some.injEq]
  exact ⟨fun h => Int.eq_of_mul_eq_mul_right hpos h.2, fun h => ⟨hnan, by rw [h]⟩⟩

theorem trappedModulo_eq (hne : y.magnitude ≠ 0) : trappedModulo x y = .ok (x.modulo y) := by
  rw [trappedModulo, isZero_eq_false hne, if_neg Bool.false_ne_true]

/-- The settings matter for a zero divisor only. -/
theorem session_modulo_eq {Host : Type} (hne : y.magnitude ≠ 0) (s : Session Host) {v w : Value}
    (hv : v.toNumber? = some x) (hw : w.toNumber? = some y) : s.modulo v w = .ok (.number (x.modulo y)) := by
  have hx : v.operand = .ok x := by rw [Value.operand, hv]
  have hy : w.operand = .ok y := by rw [Value.operand, hw]
  rw [Session.modulo, hx, hy]
  change (if s.config.trapDivision then trappedModulo x y >>= _ else _) = _
  rw [trappedModulo_eq hne]
  exact ite_self _

/-- On integers `a` and `b` with `|a| + |b|` up to `2 ^ 53` both remainders are exact. The one of the floored quotient
is zero or has the sign of the divisor; the one of the truncated quotient has the sign of the dividend, and is the other
one unless it has the wrong sign, where the divisor is added. A trapped division makes no difference. -/
theorem modulo_exact_on_integers (hx : x.toInt? = some a) (hy : y.toInt? = some b) (hb : b ≠ 0)
    (hsize : |a| + |b| ≤ 2 ^ 53) :
    let r := a - b * ⌊(a : ℚ) / b⌋
    let t := a.tmod b
    (x.modulo y).toInt? = some r ∧ (r = 0 ∨ (r < 0 ↔ b < 0)) ∧ |r| < |b| ∧
    (x.remainder y).toInt? = some t ∧ (x.remainder y).negative = x.negative ∧
    ((x.modulo y).equal ((x.remainder y).add y) = true ↔ t ≠ 0 ∧ (t < 0 ↔ 0 < b)) ∧
    ((x.modulo y).equal (x.remainder y) = true ↔ ¬ (t ≠ 0 ∧ (t < 0 ↔ 0 < b))) ∧
    trappedModulo x y = .ok (x.modulo y) ∧
    ∀ {Host : Type} (s : Session Host) (v w : Value), v.toNumber? = some x → w.toNumber? = some y →
      s.modulo v w = .ok (.number (x.modulo y)) := by
  intro r t
  have hsize' : a.natAbs + b.natAbs ≤ 2 ^ 53 := by
    rw [Int.abs_eq_natAbs, Int.abs_eq_natAbs] at hsize
    exact_mod_cast hsize
  have hr : r = a.fmod b := by rw [Int.fmod_def, ← floor_div_intCast]
  have hmodulo : (x.modulo y).toInt? = some r := hr ▸ toInt?_modulo hx hy hb hsize'
  have hremainder : (x.remainder y).toInt? = some t := toInt?_remainder hx hy hb (by omega)
  have ht : t.natAbs ≤ a.natAbs := (Int.natAbs_tmod a b).trans_le (Nat.mod_le _ _)
  have hsum : ((x.remainder y).add y).toInt? = some (t + b) := toInt?_add hremainder hy (by omega)
  have hrt : r = if t ≠ 0 ∧ (t < 0 ↔ 0 < b) then t + b else t := hr.trans (fmod_eq_tmod_or a hb)
  have hne : y.magnitude ≠ 0 := by
    rw [magnitude_of_toInt? hy]
    exact Nat.mul_ne_zero (Int.natAbs_ne_zero.2 hb) scale_pos.ne'
  obtain ⟨hsign, hlt⟩ := fmod_bounds a hb
  rw [← hr] at hsign hlt
  refine ⟨hmodulo, hsign, ?_, hremainder, ?_, ?_, ?_, trappedModulo_eq hne, fun s v w => session_modulo_eq hne s⟩
  · rw [Int.abs_eq_natAbs, Int.abs_eq_natAbs]
    exact_mod_cast hlt
  · rw [remainder_eq (toInt?_eq_some_iff.1 hx).1 (toInt?_eq_some_iff.1 hy).1 hne, negative_ofSteps]
  · rw [equal_iff_of_toInt? hmodulo hsum, hrt]
    split_ifs with h
    · exact ⟨fun _ => h, fun _ => rfl⟩
    · exact ⟨fun heq => absurd (left_eq_add.1 heq) hb, fun h' => absurd h' h⟩
  · rw [equal_iff_of_toInt? hmodulo hremainder, hrt]
    split_ifs with h
    · exact ⟨fun heq => absurd (add_eq_left.1 heq) hb, fun h' => absurd h h'⟩
    · exact ⟨fun _ => h, fun _ => rfl⟩

/-- At the bound, with a dividend and a divisor of different signs. -/
theorem modulo_exact_on_integers_bound :
    |(-9007199254740989 : ℤ)| + |3| = 2 ^ 53 ∧
    ((ofInt (-9007199254740989)).modulo (ofInt 3)).toInt? = some 1 ∧
    ((ofInt (-9007199254740989)).remainder (ofInt 3)).toInt? = some (-2) ∧
    ((ofInt (-9007199254740989)).modulo (ofInt 3)).equal
      (((ofInt (-9007199254740989)).remainder (ofInt 3)).add (ofInt 3)) = true := by
  obtain ⟨hmodulo, -, -, hremainder, -, hadd, -⟩ :=
    modulo_exact_on_integers (toInt?_ofInt_of_small (i := -9007199254740989) (by decide))
      (toInt?_ofInt_of_small (i := 3) (by decide)) (by decide) (by decide)
  rw [floor_div_intCast] at hmodulo
  exact ⟨by decide, hmodulo, hremainder, hadd.2 (by decide)⟩

end Tabula.Binary64
