import Mathlib.Data.Nat.Digits.Defs
import Tabula.Proofs.NumeralValue

/-!
Hexadecimal numerals. The total is rounded after each digit. From `2 ^ 53` on a further digit moves the total by less
than half the gap to the next number, so it only multiplies by 16: the digits up to the one that first takes the total
to `2 ^ 53` count, and the others stand for zeros.
-/

namespace Tabula

theorem roundHalfEven_add {m d r : ℕ} (hr : 2 * r < d) : roundHalfEven (m * d + r) d = m := by
  have hrd : r < d := by omega
  unfold roundHalfEven
  rw [Nat.add_comm, Nat.add_mul_div_right r m (by omega), Nat.div_eq_of_lt hrd, Nat.zero_add,
    Nat.add_mul_mod_self_right, Nat.mod_eq_of_lt hrd]
  exact if_pos hr

theorem roundHalfEven_mul_mul (num : ℕ) {den c : ℕ} (hd : 0 < den) (hc : 0 < c) :
    roundHalfEven (num * c) (den * c) = roundHalfEven num den := by
  refine roundHalfEven_eq (Nat.mul_pos hd hc) ?_
  rw [Nat.cast_mul, Nat.cast_mul, mul_div_mul_right _ _ (by exact_mod_cast hc.ne')]
  exact halfEven_roundHalfEven num hd

/-- Digits written after a number only move it to the left. -/
theorem log2_mul_add {n k r : ℕ} (hn : n ≠ 0) (hr : r < 2 ^ k) : (n * 2 ^ k + r).log2 = n.log2 + k := by
  obtain ⟨hlow, hhigh⟩ := (Nat.log2_eq_iff hn).1 rfl
  have hpos := Nat.mul_pos (Nat.pos_of_ne_zero hn) (Nat.two_pow_pos k)
  rw [Nat.log2_eq_iff (by omega), Nat.add_right_comm, Nat.pow_add, Nat.pow_add]
  constructor
  · exact (Nat.mul_le_mul_right _ hlow).trans (Nat.le_add_right _ _)
  · calc n * 2 ^ k + r < n * 2 ^ k + 2 ^ k := Nat.add_lt_add_left hr _
      _ = (n + 1) * 2 ^ k := (Nat.succ_mul ..).symm
      _ ≤ 2 ^ (n.log2 + 1) * 2 ^ k := Nat.mul_le_mul_right _ hhigh

theorem log2_mul_two_pow {n : ℕ} (hn : n ≠ 0) (k : ℕ) : (n * 2 ^ k).log2 = n.log2 + k :=
  log2_mul_add (r := 0) hn (Nat.two_pow_pos k)

namespace Binary64

variable {m e n d : ℕ}

theorem log2_mul_scale (hn : n ≠ 0) : (n * scale).log2 = n.log2 + 1074 := by
  unfold scale
  exact log2_mul_two_pow hn 1074

/-- What is added below half a grid step is lost. -/
theorem ofSteps_add (s : Bool) {r : ℕ} (hm : 2 ^ 52 ≤ m) (hm' : m < 2 ^ 53) (hr : 2 * r < 2 ^ e) :
    ofSteps s (m * 2 ^ e + r) 1 = pack s m e := by
  have hlog : m.log2 = 52 := (Nat.log2_eq_iff (by omega)).2 ⟨hm, hm'⟩
  have hexcess : excessBits (m * 2 ^ e + r) = e := by
    rw [excessBits, log2_mul_add (by omega) (by omega), hlog, Nat.add_sub_cancel_left]
  simp only [ofSteps, Nat.div_one, Nat.one_mul, hexcess, roundHalfEven_add hr]
  exact if_neg hm'.ne

theorem ofSteps_mul_mul (s : Bool) (num : ℕ) {den c : ℕ} (hd : 0 < den) (hc : 0 < c) :
    ofSteps s (num * c) (den * c) = ofSteps s num den := by
  simp only [ofSteps, Nat.mul_div_mul_right _ _ hc, Nat.mul_right_comm den c,
    roundHalfEven_mul_mul num (Nat.mul_pos hd (Nat.two_pow_pos _)) hc]

theorem ofNat_stored (h : Canonical m e) (hn : n * scale = m * 2 ^ e) : ofNat n = finite false m e h := by
  rw [ofNat, ofRatio, hn, ofSteps_stored]

theorem exists_ofNat_eq (hn : n ≤ 2 ^ 53) :
    ∃ m e, ∃ h : Canonical m e, n * scale = m * 2 ^ e ∧ ofNat n = finite false m e h := by
  obtain ⟨m, e, h, hm⟩ := exists_canonical hn
  exact ⟨m, e, h, hm, ofNat_stored h hm⟩

theorem finite_mul_ofNat (h : Canonical m e) (hn : n ≤ 2 ^ 53) :
    (finite false m e h).mul (ofNat n) = ofSteps false (m * 2 ^ e * n) 1 := by
  obtain ⟨k, f, h', hk, heq⟩ := exists_ofNat_eq hn
  rw [heq]
  change ofSteps false (m * 2 ^ e * (k * 2 ^ f)) scale = _
  rw [← hk, ← Nat.mul_assoc, ← ofSteps_mul_mul false _ Nat.one_pos scale_pos, Nat.one_mul]

theorem finite_add_ofNat (h : Canonical m e) (hn : n ≤ 2 ^ 53) :
    (finite false m e h).add (ofNat n) = ofSteps false (m * 2 ^ e + n * scale) 1 := by
  obtain ⟨k, f, h', hk, heq⟩ := exists_ofNat_eq hn
  have hsum : (finite false m e h).units + (finite false k f h').units = ((m * 2 ^ e + k * 2 ^ f : ℕ) : ℤ) := by
    rw [units_finite, units_finite, if_neg Bool.false_ne_true, if_neg Bool.false_ne_true, Nat.cast_add]
  rw [heq, hk]
  simp only [add, hsum]
  split_ifs with hzero
  · rw [Int.natCast_eq_zero.1 hzero]
    exact (ofSteps_stored false (by decide : Canonical 0 0)).symm
  · rw [Int.natAbs_natCast, decide_eq_false (not_lt.2 (Int.natCast_nonneg _))]

/-- Four more bits: the exponent grows by four, or there is no such number. -/
theorem pack_mul_sixteen (hm : 2 ^ 52 ≤ m) (hm' : m < 2 ^ 53) : (pack false m e).mul 16 = pack false m (e + 4) := by
  by_cases he : e ≤ 2045
  · have h : Canonical m e := ⟨hm', he, .inl hm⟩
    rw [pack, dif_pos h]
    change (finite false m e h).mul (ofNat 16) = _
    rw [finite_mul_ofNat h (by decide), ← ofSteps_add false hm hm' (r := 0) (Nat.two_pow_pos _), Nat.mul_assoc,
      Nat.pow_add]
    rfl
  · have h : ¬ Canonical m e := fun h => he h.2.1
    have h' : ¬ Canonical m (e + 4) := fun h' => he (by have := h'.2.1; omega)
    obtain ⟨k, f, hc, hk, heq⟩ := exists_ofNat_eq (n := 16) (by decide)
    have hpos : k ≠ 0 := by
      rintro rfl
      rw [Nat.zero_mul] at hk
      exact (Nat.mul_pos (by decide) scale_pos).ne' hk
    rw [pack, dif_neg h, pack, dif_neg h']
    change (infinity false).mul (ofNat 16) = _
    rw [heq]
    exact if_neg (by simpa [isZero] using hpos)

/-- Above `2 ^ 53` a digit is less than half the gap to the next number. -/
theorem pack_add_digit (hm : 2 ^ 52 ≤ m) (hm' : m < 2 ^ 53) (he : 1079 ≤ e) (hd : d < 16) :
    (pack false m e).add (ofNat d) = pack false m e := by
  by_cases he' : e ≤ 2045
  · have h : Canonical m e := ⟨hm', he', .inl hm⟩
    have hsmall : 2 * (d * scale) < 2 ^ e := by
      unfold scale
      obtain ⟨f, rfl⟩ : ∃ f, e = f + 5 + 1074 := ⟨e - 1079, by omega⟩
      generalize 1074 = c
      calc 2 * (d * 2 ^ c) < 2 ^ 5 * 2 ^ c := by
            have := Nat.two_pow_pos c
            rw [← Nat.mul_assoc]
            exact Nat.mul_lt_mul_of_pos_right (by omega) this
        _ ≤ 2 ^ (f + 5 + c) := by
            rw [← Nat.pow_add]
            exact Nat.pow_le_pow_right (by decide) (by omega)
    calc (pack false m e).add (ofNat d) = (finite false m e h).add (ofNat d) := by rw [pack, dif_pos h]
      _ = ofSteps false (m * 2 ^ e + d * scale) 1 := finite_add_ofNat h (by omega)
      _ = pack false m e := ofSteps_add false hm hm' hsmall
  · have h : ¬ Canonical m e := fun h => he' h.2.1
    obtain ⟨k, f, h', -, heq⟩ := exists_ofNat_eq (n := d) (by omega)
    rw [pack, dif_neg h, heq]
    rfl

/-- Where all 53 bits are in use, a count of steps and its multiple by 16 are rounded alike. -/
theorem ofSteps_mul_sixteen {v : ℕ} (hv : 2 ^ 53 ≤ v) : ∃ m e, 2 ^ 52 ≤ m ∧ m < 2 ^ 53 ∧ v.log2 ≤ 52 + e ∧
    ofSteps false v 1 = pack false m e ∧ ofSteps false (v * 16) 1 = pack false m (e + 4) := by
  have hlog : 53 ≤ v.log2 := (Nat.le_log2 (by omega)).2 hv
  have hexcess : excessBits (v * 16) = excessBits v + 4 := by
    have hmul : (v * 16).log2 = v.log2 + 4 := log2_mul_two_pow (by omega) 4
    unfold excessBits
    omega
  have hround : roundHalfEven (v * 16) (2 ^ (excessBits v + 4)) = roundHalfEven v (2 ^ excessBits v) := by
    rw [Nat.pow_add]
    exact roundHalfEven_mul_mul _ (Nat.two_pow_pos _) (by decide)
  have hg := onGrid_ofSteps v Nat.one_pos
  have hle := hg.significand_le
  have hge := hg.le_significand
  simp only [Nat.div_one, Nat.one_mul] at hle hge
  have hlarge : v.log2 = 52 + excessBits v := by
    unfold excessBits
    omega
  simp only [ofSteps, Nat.div_one, Nat.one_mul, hexcess, hround]
  by_cases hcarry : roundHalfEven v (2 ^ excessBits v) = 2 ^ 53
  · refine ⟨2 ^ 52, excessBits v + 1, le_rfl, by decide, by omega, if_pos hcarry, ?_⟩
    rw [if_pos hcarry, Nat.add_right_comm]
  · exact ⟨_, _, by omega, by omega, by omega, if_neg hcarry, if_neg hcarry⟩

theorem exists_pack (hn : 2 ^ 53 ≤ n) : ∃ m e, 2 ^ 52 ≤ m ∧ m < 2 ^ 53 ∧ 1075 ≤ e ∧
    ofNat n = pack false m e ∧ ofNat (n * 16) = pack false m (e + 4) := by
  have hv : 2 ^ 53 ≤ n * scale := hn.trans (Nat.le_mul_of_pos_right _ scale_pos)
  obtain ⟨m, e, hm, hm', he, hfirst, hnext⟩ := ofSteps_mul_sixteen hv
  have hlog : 53 ≤ n.log2 := (Nat.le_log2 (by omega)).2 hn
  rw [log2_mul_scale (by omega)] at he
  refine ⟨m, e, hm, hm', by omega, hfirst, ?_⟩
  rw [ofNat, ofRatio, Nat.mul_right_comm, hnext]

end Binary64

namespace Numeral

open Binary64

/-! ### The digits that count -/

/-- How many hexadecimal digits at the end of a number stand for zeros. -/
def uncounted (n : ℕ) : ℕ := (n.log2 - 53) / 4

/-- A number with zeros for the digits that do not count. -/
def counted (n : ℕ) : ℕ := n / 16 ^ uncounted n * 16 ^ uncounted n

variable {n d : ℕ}

theorem counted_of_lt (h : n < 2 ^ 57) : counted n = n := by
  have hlog : n.log2 ≤ 56 := by
    by_cases hz : n = 0
    · rw [hz]
      decide
    · exact Nat.lt_succ_iff.1 ((Nat.log2_lt hz).2 h)
  have hzero : uncounted n = 0 := by
    unfold uncounted
    omega
  rw [counted, hzero, Nat.pow_zero, Nat.div_one, Nat.mul_one]

theorem counted_le (n : ℕ) : counted n ≤ n := Nat.div_mul_le_self _ _

theorem counted_append (hn : 2 ^ 53 ≤ n) (hd : d < 16) : counted (n * 16 + d) = counted n * 16 := by
  have hlog : (n * 16 + d).log2 = n.log2 + 4 := log2_mul_add (k := 4) (by omega) hd
  have hlarge : 53 ≤ n.log2 := (Nat.le_log2 (by omega)).2 hn
  have hmore : uncounted (n * 16 + d) = uncounted n + 1 := by
    unfold uncounted
    omega
  rw [counted, hmore, Nat.pow_succ, Nat.mul_comm (16 ^ uncounted n), ← Nat.div_div_eq_div_mul,
    show (n * 16 + d) / 16 = n by omega, counted, Nat.mul_comm 16, Nat.mul_assoc]

theorem le_counted (hn : 2 ^ 53 ≤ n) : 2 ^ 53 * 16 ^ uncounted n ≤ counted n := by
  have hlarge : 53 ≤ n.log2 := (Nat.le_log2 (by omega)).2 hn
  refine Nat.mul_le_mul_right _ ((Nat.le_div_iff_mul_le (Nat.pow_pos (by decide))).2 ?_)
  calc 2 ^ 53 * 16 ^ uncounted n = 2 ^ (53 + 4 * uncounted n) := by rw [Nat.pow_add, Nat.pow_mul]
    _ ≤ 2 ^ n.log2 := Nat.pow_le_pow_right (by decide) (by unfold uncounted; omega)
    _ ≤ n := Nat.log2_self_le (by omega)

/-! ### One digit, and all of them -/

theorem step_counted (n : ℕ) (hd : d < 16) :
    ((ofNat (counted n)).mul 16).add (ofNat d) = ofNat (counted (n * 16 + d)) := by
  rcases Nat.lt_or_ge n (2 ^ 53) with hn | hn
  · obtain ⟨m, e, h, hm, heq⟩ := exists_ofNat_eq hn.le
    -- nothing is lost yet, and 16 times the total is stored as it is
    obtain ⟨m', e', h', hm'⟩ : ∃ m e, Canonical m e ∧ n * 16 * scale = m * 2 ^ e :=
      exists_canonical_mul_pow (j := 4) hn.le (by decide)
    have hmul : (ofNat n).mul 16 = finite false m' e' h' := by
      rw [heq]
      change (finite false m e h).mul (ofNat 16) = _
      rw [finite_mul_ofNat h (by decide), ← hm, Nat.mul_right_comm, hm', ofSteps_stored]
    rw [counted_of_lt (by omega), counted_of_lt (by omega), hmul, finite_add_ofNat h' (by omega), ← hm', ← Nat.add_mul,
      ofNat, ofRatio]
  · have hlarge : 2 ^ 53 ≤ counted n :=
      (Nat.le_mul_of_pos_right _ (Nat.pow_pos (by decide))).trans (le_counted hn)
    obtain ⟨m, e, hm, hm', he, hfirst, hnext⟩ := exists_pack hlarge
    rw [counted_append hn hd, hfirst, hnext, pack_mul_sixteen hm hm', pack_add_digit hm hm' (by omega) hd]

theorem foldl_counted {digits : List ℕ} (hdigits : ∀ d ∈ digits, d < 16) (n : ℕ) :
    digits.foldl (fun x d => (x.mul 16).add (ofNat d)) (ofNat (counted n)) =
      ofNat (counted (appendDigits 16 n digits)) := by
  induction digits generalizing n with
  | nil => rw [List.foldl_nil, appendDigits, List.foldl_nil]
  | cons d ds ih =>
    obtain ⟨hd, hds⟩ := List.forall_mem_cons.1 hdigits
    rw [List.foldl_cons, step_counted n hd, ih hds, appendDigits, appendDigits, List.foldl_cons]

theorem value_hexadecimal {digits : List ℕ} (hdigits : ∀ d ∈ digits, d < 16) :
    (hexadecimal digits).value false = ofNat (counted (appendDigits 16 0 digits)) := by
  have hzero : ofNat 0 = zero false := ofNat_stored (by decide) (by rw [Nat.zero_mul, Nat.zero_mul])
  rw [← foldl_counted hdigits 0, counted_of_lt (by decide), hzero, value, if_neg Bool.false_ne_true]

end Numeral

/-! ### Rounding a number and its counted part -/

namespace Binary64

variable {q a b : ℚ} {x z : Binary64} {j n N : ℕ}

theorem abs_sub_lt_iff (h : a < b) : |q - a| < |q - b| ↔ 2 * q < a + b := by
  rcases abs_cases (q - a) with ⟨ha, _⟩ | ⟨ha, _⟩ <;> rcases abs_cases (q - b) with ⟨hb, _⟩ | ⟨hb, _⟩ <;>
    rw [ha, hb] <;> constructor <;> intro _ <;> linarith

theorem abs_sub_lt_iff' (h : a < b) : |q - b| < |q - a| ↔ a + b < 2 * q := by
  have hneg := abs_sub_lt_iff (q := -q) (neg_lt_neg h)
  rw [neg_sub_neg, neg_sub_neg, abs_sub_comm b, abs_sub_comm a] at hneg
  rw [hneg]
  constructor <;> intro _ <;> linarith

theorem le_of_abs_sub_le (hle : a ≤ q) (h : |q - b| ≤ |q - a|) : a ≤ b := by
  rw [abs_of_nonneg (sub_nonneg.2 hle)] at h
  linarith [(abs_le.1 h).2]

theorem succ_mul_le {u : ℚ} (hu : 0 < u) {k : ℕ} (h : (n : ℚ) * u < k * u) : (n + 1) * u ≤ k * u := by
  have hlt : n + 1 ≤ k := by exact_mod_cast lt_of_mul_lt_mul_right h hu.le
  exact mul_le_mul_of_nonneg_right (by exact_mod_cast hlt) hu.le

/-- `q` lies halfway between `x` and a greater number. -/
def HalfwayAbove (q : ℚ) (x : Binary64) : Prop :=
  x.isFinite = true ∧ ∃ z : Binary64, z.isFinite = true ∧ x.toRat < z.toRat ∧ 2 * q = x.toRat + z.toRat

/-- With 53 bits, numbers are as far apart as they are large. -/
theorem exists_multiple (hz : z.isFinite = true) (hle : 2 ^ 53 * 2 ^ j ≤ z.toRat) :
    ∃ i : ℕ, z.toRat = i * 2 ^ (j + 1) := by
  rcases z with _ | _ | ⟨s, m, e, h⟩
  · contradiction
  · contradiction
  have hpos : (0 : ℚ) < 2 ^ 53 * 2 ^ j := by positivity
  have hscale := scale_cast_pos
  rw [toRat_finite] at hle ⊢
  cases s with
  | true =>
    have : -((m * 2 ^ e : ℕ) : ℚ) / scale ≤ 0 := div_nonpos_of_nonpos_of_nonneg (by simp) hscale.le
    rw [if_pos rfl] at hle
    linarith
  | false =>
    rw [if_neg Bool.false_ne_true, le_div_iff₀ hscale] at hle
    have hle' : 2 ^ 53 * 2 ^ j * scale ≤ m * 2 ^ e := by exact_mod_cast hle
    have hlt : 2 ^ 53 * (2 ^ j * scale) < 2 ^ 53 * 2 ^ e := by
      rw [← Nat.mul_assoc]
      exact hle'.trans_lt (Nat.mul_lt_mul_of_pos_right h.1 (Nat.two_pow_pos e))
    have he : j + 1074 < e := by
      have hlt' := Nat.lt_of_mul_lt_mul_left hlt
      unfold scale at hlt'
      generalize 1074 = c at hlt' ⊢
      rwa [← Nat.pow_add, Nat.pow_lt_pow_iff_right (by decide)] at hlt'
    obtain ⟨f, rfl⟩ : ∃ f, e = f + (j + 1) + 1074 := ⟨e - (j + 1) - 1074, by omega⟩
    refine ⟨m * 2 ^ f, ?_⟩
    rw [if_neg Bool.false_ne_true, div_eq_iff hscale.ne', cast_scale]
    generalize 1074 = c
    push_cast
    ring

theorem exists_toRat_eq (h : (2 : ℚ) ^ 53 * 2 ^ j < overflow) :
    j ≤ 970 ∧ ∃ w : Binary64, w.isFinite = true ∧ w.toRat = 2 ^ 53 * 2 ^ j := by
  have hlt : (2 : ℚ) ^ (53 + j) < 2 ^ 1024 := by
    rw [pow_add]
    exact h.trans_le (sub_le_self _ (pow_nonneg two_pos.le _))
  have hj : 53 + j < 1024 := (pow_lt_pow_iff_right₀ one_lt_two).1 hlt
  have hc : Canonical (2 ^ 52) (j + 1 + 1074) := ⟨by decide, by omega, .inl le_rfl⟩
  refine ⟨by omega, finite false _ _ hc, rfl, ?_⟩
  rw [toRat_finite, if_neg Bool.false_ne_true, div_eq_iff scale_cast_pos.ne', cast_scale]
  generalize 1074 = c
  push_cast
  ring

/-- The least magnitude that is rounded to an infinity is a multiple, too. -/
theorem succ_mul_le_overflow (hj : j ≤ 970) (h : (n : ℚ) * 2 ^ j < overflow) : ((n : ℚ) + 1) * 2 ^ j ≤ overflow := by
  obtain ⟨f, hf⟩ : ∃ f, 970 = f + j := ⟨970 - j, by omega⟩
  have hover : overflow = ((2 ^ 54 - 1) * 2 ^ f : ℕ) * 2 ^ j := by
    rw [overflow, show 1024 = 54 + 970 from rfl, hf]
    push_cast
    ring
  rw [hover] at h ⊢
  exact succ_mul_le (by positivity) h

/-- Numbers this large and the points halfway between them are multiples of `2 ^ j`, so none of them lies above
`n * 2 ^ j` and up to `q`: the number nearest to `n * 2 ^ j` is the nearest to `q`, unless there are two. -/
theorem abs_sub_lt_of_not_halfwayAbove (hlow : n * 2 ^ j < q) (hhigh : q < (n + 1) * 2 ^ j) (hx : x.isFinite = true)
    (hlarge : 2 ^ 53 * 2 ^ j ≤ x.toRat) (hmid : ¬ HalfwayAbove (n * 2 ^ j) x) (hz : z.isFinite = true)
    (hne : z.toRat ≠ x.toRat) (hnear : |n * 2 ^ j - x.toRat| ≤ |n * 2 ^ j - z.toRat|) :
    |q - x.toRat| < |q - z.toRat| := by
  rw [← not_lt] at hnear
  rcases lt_or_gt_of_ne hne with hlt | hgt
  · rw [abs_sub_lt_iff hlt] at hnear
    rw [abs_sub_lt_iff' hlt]
    linarith
  · rw [abs_sub_lt_iff' hgt, not_lt] at hnear
    rw [abs_sub_lt_iff hgt]
    have hlt := lt_of_le_of_ne hnear fun heq => hmid ⟨hx, z, hz, hgt, heq⟩
    obtain ⟨i, hi⟩ := exists_multiple hx hlarge
    obtain ⟨k, hk⟩ := exists_multiple hz (hlarge.trans hgt.le)
    have hsum : x.toRat + z.toRat = (i + k : ℕ) * 2 ^ (j + 1) := by rw [hi, hk, Nat.cast_add, add_mul]
    have hdouble : 2 * ((n : ℚ) * 2 ^ j) = n * 2 ^ (j + 1) := by rw [pow_succ]; ring
    rw [hsum, hdouble] at hlt
    have hgap := succ_mul_le (by positivity) hlt
    rw [← hsum, pow_succ] at hgap
    linarith

theorem roundsTo_iff_not_halfwayAbove (hn : 2 ^ 53 ≤ n) (hlow : n * 2 ^ j < N) (hhigh : N < (n + 1) * 2 ^ j)
    (h : RoundsTo (n * 2 ^ j : ℕ) x) : RoundsTo N x ↔ ¬ HalfwayAbove (n * 2 ^ j : ℕ) x := by
  rw [Nat.cast_mul, Nat.cast_pow, Nat.cast_ofNat] at h ⊢
  have hlow' : (n : ℚ) * 2 ^ j < N := by exact_mod_cast hlow
  have hhigh' : (N : ℚ) < (n + 1) * 2 ^ j := by exact_mod_cast hhigh
  have hlarge : (2 : ℚ) ^ 53 * 2 ^ j ≤ n * 2 ^ j := by exact_mod_cast Nat.mul_le_mul_right _ hn
  constructor
  · -- past the middle the upper number is nearer
    rintro hN ⟨hx, z, hz, hxz, hmid⟩
    cases hN with
    | infinity => contradiction
    | number _ _ nearest _ =>
      refine absurd (nearest z hz) (not_le.2 ((abs_sub_lt_iff' hxz).2 ?_))
      linarith
  intro hmid
  cases h with
  | infinity hq => exact .infinity (hq.trans hlow'.le)
  | @number m e h hq nearest even =>
    obtain ⟨hj, w, hw, hwv⟩ := exists_toRat_eq (hlarge.trans_lt hq)
    have hx : 2 ^ 53 * 2 ^ j ≤ (finite false m e h).toRat := by
      rw [← hwv] at hlarge ⊢
      exact le_of_abs_sub_le hlarge (nearest w hw)
    have hstrict : ∀ y : Binary64, y.isFinite = true → y.toRat ≠ (finite false m e h).toRat →
        |(N : ℚ) - (finite false m e h).toRat| < |N - y.toRat| := fun y hy hne =>
      abs_sub_lt_of_not_halfwayAbove hlow' hhigh' rfl hx hmid hy hne (nearest y hy)
    refine .number h (hhigh'.trans_le (succ_mul_le_overflow hj hq)) (fun y hy => ?_) fun y hy hne heq =>
      absurd heq (hstrict y hy hne).ne'
    by_cases hne : y.toRat = (finite false m e h).toRat
    · rw [hne]
    · exact (hstrict y hy hne).le

end Binary64

namespace Numeral

open Binary64

variable {digits : List Char}

def hexDigitValue (c : Char) : ℕ :=
  ['0', '1', '2', '3', '4', '5', '6', '7', '8', '9', 'a', 'b', 'c', 'd', 'e', 'f'].idxOf c.toLower

def hexNumber (digits : List Char) : ℕ := Nat.ofDigits 16 (digits.map hexDigitValue).reverse

theorem hexDigit?_eq {c : Char} (hc : c ∈ hexadecimalDigits) :
    hexDigit? c = some (hexDigitValue c) ∧ hexDigitValue c < 16 := by
  have hall : ∀ c ∈ hexadecimalDigits, hexDigit? c = some (hexDigitValue c) ∧ hexDigitValue c < 16 := by decide
  exact hall c hc

theorem appendDigits_eq_ofDigits (base : ℕ) (ds : List ℕ) : appendDigits base 0 ds = Nat.ofDigits base ds.reverse := by
  rw [Nat.ofDigits_eq_foldr, List.foldr_reverse, appendDigits]
  simp only [Nat.cast_id, Nat.mul_comm, Nat.add_comm]

theorem filterMap_hexDigit? (h : ∀ c ∈ digits, c ∈ hexadecimalDigits) :
    digits.filterMap hexDigit? = digits.map hexDigitValue := by
  induction digits with
  | nil => rfl
  | cons c cs ih =>
    obtain ⟨hc, hcs⟩ := List.forall_mem_cons.1 h
    rw [List.filterMap_cons_some (hexDigit?_eq hc).1, ih hcs, List.map_cons]

theorem parseNumber?_hexadecimal {mark : Char} (hmark : mark ∈ ['x', 'X']) (h : ∀ c ∈ digits, c ∈ hexadecimalDigits)
    (hne : digits ≠ []) :
    parseNumber? (String.ofList ('0' :: mark :: digits)) = some (ofNat (counted (hexNumber digits))) := by
  let p : Spelling := ⟨[], none, .hexadecimal mark digits hmark h hne, [], by simp, by simp, by simp⟩
  have hp : p.chars = (String.ofList ('0' :: mark :: digits)).toList := by
    rw [String.toList_ofList]
    exact List.append_nil _
  rw [parseNumber?_chars p hp]
  change some (Numeral.value false (.hexadecimal (digits.filterMap hexDigit?))) = _
  have hdigits : ∀ d ∈ digits.map hexDigitValue, d < 16 := by
    simp only [List.mem_map]
    rintro _ ⟨c, hc, rfl⟩
    exact (hexDigit?_eq (h c hc)).2
  rw [filterMap_hexDigit? h, value_hexadecimal hdigits, appendDigits_eq_ofDigits, hexNumber]

theorem exists_parseNumber?_toDigits (n : ℕ) :
    ∃ y, parseNumber? (String.ofList (Nat.toDigits 10 n)) = some y ∧ RoundsTo n y := by
  let l : Literal := .decimal (Nat.toDigits 10 n) none none (toDigits_mem n) (by simp) (.inl Nat.toDigits_ne_nil)
  let p : Spelling := ⟨[], none, l, [], by simp, by simp, by simp⟩
  have hp : p.chars = (String.ofList (Nat.toDigits 10 n)).toList := by
    rw [String.toList_ofList]
    simp [p, l, Spelling.chars, Literal.chars]
  refine ⟨_, parseNumber?_chars p hp, ?_⟩
  have hvalue : l.decimalValue? = some (n : ℚ) := by
    simp [l, Literal.decimalValue?, Nat.ofDigitChars_ten_toDigits]
  exact Literal.roundsTo_value hvalue

/-- A hexadecimal numeral is read as the number nearest to its counted part. The decimal numeral of the same number is
read as the number nearest to the whole. The two differ exactly if some digit that does not count is not zero and the
counted part lies halfway above what is read. -/
theorem hexadecimal_counted_part {mark : Char} {digits : List Char} (hmark : mark ∈ ['x', 'X'])
    (hdigits : ∀ c ∈ digits, c ∈ hexadecimalDigits) (hne : digits ≠ []) :
    ∃ x y, parseNumber? (String.ofList ('0' :: mark :: digits)) = some x ∧
      parseNumber? (String.ofList (Nat.toDigits 10 (hexNumber digits))) = some y ∧
      RoundsTo (counted (hexNumber digits)) x ∧ RoundsTo (hexNumber digits) y ∧
      (x ≠ y ↔ counted (hexNumber digits) < hexNumber digits ∧ HalfwayAbove (counted (hexNumber digits)) x) := by
  obtain ⟨y, hparse, hy⟩ := exists_parseNumber?_toDigits (hexNumber digits)
  have hx := roundsTo_ofNat (counted (hexNumber digits))
  refine ⟨_, y, parseNumber?_hexadecimal hmark hdigits hne, hparse, hx, hy, ?_⟩
  generalize hexNumber digits = N at *
  have hsame : ofNat (counted N) = y ↔ RoundsTo N (ofNat (counted N)) := ⟨fun h => h ▸ hy, fun h => h.unique hy⟩
  rcases (counted_le N).eq_or_lt with heq | hlt
  · rw [heq] at hx ⊢
    exact iff_of_false (not_not.2 (hx.unique hy)) fun h => lt_irrefl _ h.1
  · have hN : 2 ^ 53 ≤ N := by
      by_contra hsmall
      exact hlt.ne (counted_of_lt (by omega))
    have hfull : 2 ^ 53 ≤ N / 16 ^ uncounted N :=
      Nat.le_of_mul_le_mul_right (le_counted hN) (Nat.pow_pos (by decide))
    have hpow : 16 ^ uncounted N = 2 ^ (4 * uncounted N) := by rw [Nat.pow_mul]
    rw [ne_eq, hsame, and_iff_right hlt, ← not_iff_not, not_not]
    have hcounted : counted N = N / 2 ^ (4 * uncounted N) * 2 ^ (4 * uncounted N) := by rw [counted, hpow]
    rw [hcounted] at hx hlt ⊢
    refine roundsTo_iff_not_halfwayAbove (hpow ▸ hfull) hlt ?_ hx
    exact (Nat.div_lt_iff_lt_mul (Nat.two_pow_pos _)).1 (Nat.lt_succ_self _)

/-- Fifteen digits, of which the last does not count. -/
theorem hexadecimal_counted_part_tie :
    ∃ x y, parseNumber? "0x200000000000011" = some x ∧ parseNumber? "144115188075855889" = some y ∧
      RoundsTo (144115188075855888 : ℕ) x ∧ RoundsTo (144115188075855889 : ℕ) y ∧
      (x ≠ y ↔ 144115188075855888 < 144115188075855889 ∧ HalfwayAbove (144115188075855888 : ℕ) x) := by
  have hN : hexNumber ("200000000000011".toList) = 144115188075855889 := by decide
  have hcounted : counted 144115188075855889 = 144115188075855888 := by decide +kernel
  have h := @hexadecimal_counted_part 'x' "200000000000011".toList (by decide) (by decide) (by decide)
  rw [hN, hcounted] at h
  exact h

/-- The last digit of this numeral is lost, though the decimal numeral of the same number is not read so. -/
theorem hexadecimal_last_digit_lost :
    hexNumber "200000000000011".toList = 144115188075855889 ∧
      parseNumber? "0x200000000000011" = parseNumber? "0x200000000000010" ∧
      parseNumber? "0x200000000000011" ≠ parseNumber? "144115188075855889" := by
  decide +kernel

end Numeral

end Tabula
