import Tabula.Binary64.Arith
import Tabula.Proofs.Hexadecimal

/-!
Rounding on both sides of zero. The result of an operation is the exact one with its magnitude rounded, or a number to
which the exact result has no nearer one. So rounding does not step over a number, it keeps the order, and its error is
small against what is rounded.
-/

namespace Tabula.Binary64

variable {q q' : ℚ} {x x' y : Binary64}

theorem isFinite_neg (x : Binary64) : x.neg.isFinite = x.isFinite := by
  cases x <;> rfl

theorem units_neg (x : Binary64) : x.neg.units = -x.units := by
  rcases x with _ | _ | ⟨s, m, e, h⟩
  · simp [units, neg, magnitude]
  · simp [units, neg, magnitude]
  · cases s <;> simp [neg, units_finite]

theorem toRat_neg (x : Binary64) : x.neg.toRat = -x.toRat := by
  rw [toRat, toRat, units_neg, Int.cast_neg, neg_div]

theorem magnitude_abs (x : Binary64) : x.abs.magnitude = x.magnitude := by
  cases x <;> rfl

theorem abs_of_negative_eq_false (h : x.negative = false) : x.abs = x := by
  cases x <;> simp_all [negative, abs]

theorem neg_abs_of_negative (h : x.negative = true) : x.abs.neg = x := by
  cases x <;> simp_all [negative, abs, neg]

theorem toRat_zero (s : Bool) : (zero s).toRat = 0 := by
  rw [zero, toRat_finite, Nat.zero_mul, Nat.cast_zero, neg_zero, ite_self, zero_div]

theorem toRat_eq (x : Binary64) :
    x.toRat = if x.negative then -((x.magnitude : ℚ) / scale) else (x.magnitude : ℚ) / scale := by
  unfold toRat units
  split_ifs
  · rw [Int.cast_neg, Int.cast_natCast, neg_div]
  · rw [Int.cast_natCast]

/-- `x` is a number, and no number is nearer to `q`. -/
structure Nearest (q : ℚ) (x : Binary64) : Prop where
  isFinite : x.isFinite = true
  le : ∀ y : Binary64, y.isFinite = true → |q - x.toRat| ≤ |q - y.toRat|

theorem RoundsTo.nearest (h : RoundsTo q x) (hq : q < overflow) : Nearest q x := by
  cases h with
  | infinity hq' => exact absurd hq (not_lt.2 hq')
  | number _ _ nearest _ => exact ⟨rfl, nearest⟩

namespace Nearest

theorem neg (h : Nearest q x) : Nearest (-q) x.neg := by
  refine ⟨(isFinite_neg x).trans h.isFinite, fun y hy => ?_⟩
  have hle := h.le y.neg ((isFinite_neg y).trans hy)
  rw [toRat_neg] at hle ⊢
  rw [← abs_neg (-q - -x.toRat), ← abs_neg (-q - y.toRat)]
  convert hle using 2 <;> ring

/-- Rounding does not step over a number. -/
theorem le_toRat (h : Nearest q x) (hy : y.isFinite = true) (hle : y.toRat ≤ q) : y.toRat ≤ x.toRat :=
  le_of_abs_sub_le hle (h.le y hy)

theorem toRat_le (h : Nearest q x) (hy : y.isFinite = true) (hle : q ≤ y.toRat) : x.toRat ≤ y.toRat := by
  have hneg := h.neg.le_toRat ((isFinite_neg y).trans hy) (by rw [toRat_neg]; exact neg_le_neg hle)
  rw [toRat_neg, toRat_neg] at hneg
  exact neg_le_neg_iff.1 hneg

theorem toRat_eq (h : Nearest q x) (hy : y.isFinite = true) (heq : y.toRat = q) : x.toRat = q :=
  heq ▸ le_antisymm (h.toRat_le hy heq.ge) (h.le_toRat hy heq.le)

/-- Of two points, the greater one is not rounded to the lesser number: the middle of the numbers would separate the
points the wrong way. -/
theorem mono (h : Nearest q x) (h' : Nearest q' x') (hlt : q < q') : x.toRat ≤ x'.toRat := by
  by_contra hgt
  rw [not_le] at hgt
  have hlow := not_lt.1 ((abs_sub_lt_iff hgt).not.1 (not_lt.2 (h.le x' h'.isFinite)))
  have hhigh := not_lt.1 ((abs_sub_lt_iff' hgt).not.1 (not_lt.2 (h'.le x h.isFinite)))
  linarith

/-- The error is half a unit in the last of 53 places at most. -/
theorem abs_sub_le (h : Nearest q x) (hq : |q| < overflow) (hlarge : 2 ^ 52 ≤ |q| * scale) :
    |q - x.toRat| ≤ |q| / 2 ^ 53 := by
  obtain ⟨y, hy, hnear⟩ := exists_near hq (by norm_num) le_rfl hlarge
  rw [show (2 : ℚ) * 2 ^ 52 = 2 ^ 53 by norm_num] at hnear
  rcases abs_cases q with ⟨habs, -⟩ | ⟨habs, -⟩
  · rw [habs] at hnear ⊢
    exact (h.le y hy).trans hnear
  · rw [habs] at hnear ⊢
    have hle := h.neg.le y hy
    rw [toRat_neg, neg_sub_neg, abs_sub_comm] at hle
    exact hle.trans hnear

end Nearest

/-- `q` is rounded to `x`: the magnitude to the magnitude, on the same side of zero. -/
structure Rounds (q : ℚ) (x : Binary64) : Prop where
  magnitude : RoundsTo |q| x.abs
  side : if x.negative then q ≤ 0 else 0 ≤ q

namespace Rounds

theorem nearest (h : Rounds q x) (hq : |q| < overflow) : Nearest q x := by
  have hnear := h.magnitude.nearest hq
  have hside := h.side
  cases hs : x.negative with
  | false =>
    rw [hs, if_neg Bool.false_ne_true] at hside
    rwa [abs_of_nonneg hside, abs_of_negative_eq_false hs] at hnear
  | true =>
    rw [hs, if_pos rfl] at hside
    have hneg := hnear.neg
    rwa [abs_of_nonpos hside, neg_neg, neg_abs_of_negative hs] at hneg

theorem isNaN_eq_false (h : Rounds q x) : x.isNaN = false := by
  have hmag := h.magnitude
  cases x with
  | nan => cases hmag
  | infinity => rfl
  | finite => rfl

theorem isFinite (h : Rounds q x) (hq : |q| < overflow) : x.isFinite = true := (h.nearest hq).isFinite

theorem eq_infinity (h : Rounds q x) (hq : overflow ≤ |q|) : x = infinity x.negative := by
  have hmag := h.magnitude
  cases x with
  | nan => cases hmag
  | infinity => rfl
  | finite =>
    cases hmag with
    | number _ hlt => exact absurd hq (not_le.2 hlt)

theorem negative_eq_false (h : Rounds q x) (hq : 0 < q) : x.negative = false := by
  by_contra hs
  have hside := h.side
  rw [Bool.not_eq_false] at hs
  rw [hs, if_pos rfl] at hside
  exact absurd hq (not_lt.2 hside)

theorem negative_eq_true (h : Rounds q x) (hq : q < 0) : x.negative = true := by
  by_contra hs
  have hside := h.side
  rw [if_neg hs] at hside
  exact absurd hq (not_lt.2 hside)

end Rounds

/-! ### The operations -/

theorem negative_ofSteps (s : Bool) (num den : ℕ) : (ofSteps s num den).negative = s := by
  unfold ofSteps pack
  dsimp only
  split_ifs <;> rfl

theorem abs_ofSteps (s : Bool) (num den : ℕ) : (ofSteps s num den).abs = ofSteps false num den := by
  have habs : (ofSteps false num den).abs = ofSteps false num den := abs_of_negative_eq_false (negative_ofSteps ..)
  cases s with
  | false => exact habs
  | true =>
    rw [ofSteps_true, ← habs]
    cases ofSteps false num den <;> rfl

theorem abs_signed (s : Bool) {a : ℚ} (ha : 0 ≤ a) : |if s then -a else a| = a := by
  cases s <;> simp [abs_of_nonneg ha]

theorem rounds_ofSteps (s : Bool) (num : ℕ) {den : ℕ} (hd : 0 < den) :
    Rounds (if s then -((num : ℚ) / den / scale) else (num : ℚ) / den / scale) (ofSteps s num den) := by
  have hnonneg : (0 : ℚ) ≤ (num : ℚ) / den / scale :=
    div_nonneg (div_nonneg (Nat.cast_nonneg _) (Nat.cast_nonneg _)) (Nat.cast_nonneg _)
  refine ⟨?_, ?_⟩
  · rw [abs_signed s hnonneg, abs_ofSteps]
    exact roundsTo_ofSteps num hd
  · rw [negative_ofSteps]
    cases s with
    | false => exact hnonneg
    | true => exact neg_nonpos.2 hnonneg

/-- A signed count of steps is rounded in its magnitude. -/
theorem rounds_ofUnits (n : ℤ) : Rounds (n / scale) (ofSteps (decide (n < 0)) n.natAbs 1) := by
  have h := rounds_ofSteps (decide (n < 0)) n.natAbs Nat.one_pos
  rw [Nat.cast_one, div_one, Nat.cast_natAbs, Int.cast_abs] at h
  by_cases hneg : n < 0
  · have hq : (n : ℚ) < 0 := by exact_mod_cast hneg
    rwa [if_pos (decide_eq_true hneg), abs_of_neg hq, neg_div, neg_neg] at h
  · have hq : (0 : ℚ) ≤ n := by exact_mod_cast not_lt.1 hneg
    rwa [if_neg (by simpa using hneg), abs_of_nonneg hq] at h

theorem nearest_ofInt {i : ℤ} (hi : |(i : ℚ)| < overflow) : Nearest i (ofInt i) := by
  have hpos : (0 : ℤ) < scale := by exact_mod_cast scale_pos
  have hcast : ((i * scale : ℤ) : ℚ) / scale = i := by
    rw [Int.cast_mul, Int.cast_natCast, mul_div_cancel_right₀ _ scale_cast_pos.ne']
  have h := (rounds_ofUnits (i * scale)).nearest (by rwa [hcast])
  rw [hcast, Int.natAbs_mul, Int.natAbs_natCast] at h
  have hsign : i * (scale : ℤ) < 0 * scale ↔ i < 0 := mul_lt_mul_iff_left₀ hpos
  rw [zero_mul] at hsign
  rwa [decide_eq_decide.2 hsign] at h

theorem rounds_self (hx : x.isFinite = true) : Rounds x.toRat x := by
  rcases x with _ | _ | ⟨s, m, e, h⟩
  · contradiction
  · contradiction
  have hnonneg : (0 : ℚ) ≤ (m * 2 ^ e : ℕ) / scale := div_nonneg (Nat.cast_nonneg _) (Nat.cast_nonneg _)
  have hself := RoundsTo.self h
  rw [toRat_finite, if_neg Bool.false_ne_true] at hself
  rw [toRat_finite]
  cases s with
  | false => exact ⟨by rwa [if_neg Bool.false_ne_true, abs_of_nonneg hnonneg], hnonneg⟩
  | true =>
    rw [if_pos rfl, neg_div]
    exact ⟨by rwa [abs_neg, abs_of_nonneg hnonneg], neg_nonpos.2 hnonneg⟩

theorem rounds_add (hx : x.isFinite = true) (hy : y.isFinite = true) : Rounds (x.toRat + y.toRat) (x.add y) := by
  have hsum : x.toRat + y.toRat = (x.units + y.units : ℤ) / scale := by rw [toRat, toRat, Int.cast_add, add_div]
  rw [hsum]
  rcases x with _ | _ | ⟨s, m, e, h⟩
  · contradiction
  · contradiction
  rcases y with _ | _ | ⟨t, n, f, h'⟩
  · contradiction
  · contradiction
  simp only [add]
  split_ifs with hzero
  · rw [hzero, Int.cast_zero, zero_div, ← toRat_zero (s && t)]
    exact rounds_self rfl
  · exact rounds_ofUnits _

theorem nearest_add (hx : x.isFinite = true) (hy : y.isFinite = true) (hlt : |x.toRat + y.toRat| < overflow) :
    Nearest (x.toRat + y.toRat) (x.add y) := (rounds_add hx hy).nearest hlt

theorem rounds_sub (hx : x.isFinite = true) (hy : y.isFinite = true) : Rounds (x.toRat - y.toRat) (x.sub y) := by
  have h := rounds_add (y := y.neg) hx ((isFinite_neg y).trans hy)
  rwa [toRat_neg, ← sub_eq_add_neg] at h

theorem nearest_sub (hx : x.isFinite = true) (hy : y.isFinite = true) (hlt : |x.toRat - y.toRat| < overflow) :
    Nearest (x.toRat - y.toRat) (x.sub y) := (rounds_sub hx hy).nearest hlt

theorem signed_mul_signed (s t : Bool) (a b : ℚ) :
    (if s then -a else a) * (if t then -b else b) = if s != t then -(a * b) else a * b := by
  cases s <;> cases t <;> simp

theorem signed_div_signed (s t : Bool) (a b : ℚ) :
    (if s then -a else a) / (if t then -b else b) = if s != t then -(a / b) else a / b := by
  cases s <;> cases t <;> simp [neg_div, div_neg]

theorem mul_eq (hx : x.isFinite = true) (hy : y.isFinite = true) :
    x.mul y = ofSteps (x.negative != y.negative) (x.magnitude * y.magnitude) scale := by
  rcases x with _ | _ | ⟨s, m, e, h⟩
  · contradiction
  · contradiction
  rcases y with _ | _ | ⟨t, n, f, h'⟩
  · contradiction
  · contradiction
  rfl

theorem rounds_mul (hx : x.isFinite = true) (hy : y.isFinite = true) : Rounds (x.toRat * y.toRat) (x.mul y) := by
  have hprod : ((x.magnitude * y.magnitude : ℕ) : ℚ) / scale / scale = x.magnitude / scale * (y.magnitude / scale) := by
    rw [Nat.cast_mul, div_mul_div_comm, div_div]
  rw [mul_eq hx hy, toRat_eq x, toRat_eq y, signed_mul_signed, ← hprod]
  exact rounds_ofSteps _ _ scale_pos

theorem nearest_mul (hx : x.isFinite = true) (hy : y.isFinite = true) (hlt : |x.toRat * y.toRat| < overflow) :
    Nearest (x.toRat * y.toRat) (x.mul y) := (rounds_mul hx hy).nearest hlt

theorem magnitude_ne_zero (hne : x.toRat ≠ 0) : x.magnitude ≠ 0 := by
  intro hzero
  rw [toRat_eq, hzero, Nat.cast_zero, zero_div, neg_zero, ite_self] at hne
  exact hne rfl

theorem div_eq (hx : x.isFinite = true) (hy : y.isFinite = true) (hne : y.magnitude ≠ 0) :
    x.div y = ofSteps (x.negative != y.negative) (x.magnitude * scale) y.magnitude := by
  rcases x with _ | _ | ⟨s, m, e, h⟩
  · contradiction
  · contradiction
  rcases y with _ | _ | ⟨t, n, f, h'⟩
  · contradiction
  · contradiction
  simp only [div, isZero_eq_false hne, Bool.false_eq_true, if_false]
  rfl

theorem rounds_div (hx : x.isFinite = true) (hy : y.isFinite = true) (hne : y.toRat ≠ 0) :
    Rounds (x.toRat / y.toRat) (x.div y) := by
  have hs := scale_cast_pos.ne'
  have hm := magnitude_ne_zero hne
  have hquot : ((x.magnitude * scale : ℕ) : ℚ) / y.magnitude / scale = x.magnitude / scale / (y.magnitude / scale) := by
    rw [Nat.cast_mul, div_div_div_cancel_right₀ hs, div_right_comm, mul_div_cancel_right₀ _ hs]
  rw [div_eq hx hy hm, toRat_eq x, toRat_eq y, signed_div_signed, ← hquot]
  exact rounds_ofSteps _ _ (Nat.pos_of_ne_zero hm)

theorem nearest_div (hx : x.isFinite = true) (hy : y.isFinite = true) (hne : y.toRat ≠ 0)
    (hlt : |x.toRat / y.toRat| < overflow) : Nearest (x.toRat / y.toRat) (x.div y) := (rounds_div hx hy hne).nearest hlt

end Tabula.Binary64
