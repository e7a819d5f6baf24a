import Mathlib.Algebra.Order.Field.Power
import Mathlib.Algebra.Order.Field.Rat
import Mathlib.Data.Nat.Cast.Order.Field
import Mathlib.Tactic.FieldSimp
import Mathlib.Tactic.Linarith
import Mathlib.Tactic.Positivity
import Tabula.Proofs.Exactness

/-!
Rounding, said without the way it is computed: the nearest whole number and the nearest binary64 number, the even one of
two that are equally near. `ofRatio` gives the one number that a quotient rounds to.
-/

namespace Tabula

/-- `n` is the whole number nearest to `v`, and the even one of two that are equally near. -/
structure HalfEven (v : ℚ) (n : ℕ) : Prop where
  near : |v - n| ≤ 1 / 2
  even : |v - n| = 1 / 2 → Even n

/-- No point is near to two whole numbers. -/
theorem one_le_abs_sub_add {n k : ℕ} (h : k ≠ n) (v : ℚ) : 1 ≤ |v - n| + |v - k| := by
  have hgap : (1 : ℤ) ≤ |(n : ℤ) - k| := Int.one_le_abs (by omega)
  calc (1 : ℚ) ≤ |(n : ℚ) - k| := by exact_mod_cast hgap
    _ = |(v - k) - (v - n)| := by congr 1; ring
    _ ≤ |v - k| + |v - n| := abs_sub _ _
    _ = |v - n| + |v - k| := add_comm _ _

namespace HalfEven

variable {v : ℚ} {n k : ℕ}

theorem nearest (h : HalfEven v n) (k : ℕ) : |v - n| ≤ |v - k| := by
  by_cases hk : k = n
  · rw [hk]
  · have := one_le_abs_sub_add hk v
    have := h.near
    linarith

theorem even_of_tie (h : HalfEven v n) (hk : k ≠ n) (heq : |v - k| = |v - n|) : Even n := by
  have := one_le_abs_sub_add hk v
  have := h.near
  exact h.even (by linarith)

theorem unique (h : HalfEven v n) (h' : HalfEven v k) : k = n := by
  by_contra hk
  have hsum := one_le_abs_sub_add hk v
  have hn := h.near
  have hk' := h'.near
  have hpn := Nat.even_iff.1 (h.even (by linarith))
  have hpk := Nat.even_iff.1 (h'.even (by linarith))
  have hle : |(n : ℚ) - k| ≤ 1 := by
    calc |(n : ℚ) - k| = |(v - k) - (v - n)| := by congr 1; ring
      _ ≤ |v - k| + |v - n| := abs_sub _ _
      _ ≤ 1 := by linarith
  have hle' : |(n : ℤ) - k| ≤ 1 := by exact_mod_cast hle
  have := abs_le.1 hle'
  omega

theorem natCast (n : ℕ) : HalfEven n n := ⟨by simp, by simp⟩

end HalfEven

theorem halfEven_roundHalfEven (num : ℕ) {den : ℕ} (hd : 0 < den) : HalfEven (num / den) (roundHalfEven num den) := by
  have hdq : (0 : ℚ) < den := by exact_mod_cast hd
  have hv : (num : ℚ) / den = (num / den : ℕ) + (num % den : ℕ) / den := by
    rw [eq_comm, ← eq_sub_iff_add_eq]
    field_simp
    have : (num : ℚ) = den * (num / den : ℕ) + (num % den : ℕ) := by exact_mod_cast (Nat.div_add_mod num den).symm
    linarith
  have hr0 : (0 : ℚ) ≤ (num % den : ℕ) / den := by positivity
  rw [hv]
  unfold roundHalfEven
  dsimp only
  generalize num / den = q at *
  generalize hr : num % den = r at *
  split_ifs with hlow hhigh
  · -- below the half the fraction is dropped
    have hhalf : (r : ℚ) / den < 1 / 2 := by
      rw [div_lt_div_iff₀ hdq two_pos]
      exact_mod_cast (by omega : r * 2 < 1 * den)
    have habs : |(q : ℚ) + r / den - q| = r / den := by rw [add_sub_cancel_left, abs_of_nonneg hr0]
    exact ⟨by rw [habs]; exact hhalf.le, fun h => absurd (habs.symm.trans h) hhalf.ne⟩
  · have hhalf : 1 / 2 < (r : ℚ) / den := by
      rw [div_lt_div_iff₀ two_pos hdq]
      exact_mod_cast (by omega : 1 * den < r * 2)
    have hone : (r : ℚ) / den ≤ 1 := by
      rw [div_le_one hdq]
      exact_mod_cast (hr ▸ Nat.mod_lt num hd).le
    have habs : |(q : ℚ) + r / den - (q + 1 : ℕ)| = 1 - r / den := by
      rw [abs_sub_comm, abs_of_nonneg] <;> push_cast <;> linarith
    exact ⟨by rw [habs]; linarith, fun h => by rw [habs] at h; linarith⟩
  · -- exactly half: `q % 2` is what the even neighbour is away
    have hhalf : (r : ℚ) / den = 1 / 2 := by
      rw [div_eq_div_iff hdq.ne' two_ne_zero]
      exact_mod_cast (by omega : r * 2 = 1 * den)
    rw [hhalf]
    rcases Nat.mod_two_eq_zero_or_one q with hq | hq
    · rw [hq]
      refine ⟨?_, fun _ => Nat.even_iff.2 hq⟩
      rw [Nat.add_zero, add_sub_cancel_left, abs_of_nonneg (by norm_num)]
    · rw [hq]
      refine ⟨?_, fun _ => Nat.even_iff.2 (by omega)⟩
      rw [abs_le]
      push_cast
      constructor <;> linarith

theorem roundHalfEven_eq {num den n : ℕ} (hd : 0 < den) (h : HalfEven (num / den) n) : roundHalfEven num den = n :=
  h.unique (halfEven_roundHalfEven num hd)

/-- A stored magnitude lies on the grid of an exponent, or is too small to have all 53 bits there. -/
theorem Canonical.multiple_or_lt {n f : ℕ} (h : Canonical n f) (e : ℕ) :
    (∃ k, n * 2 ^ f = k * 2 ^ e) ∨ e ≠ 0 ∧ n * 2 ^ f < 2 ^ 52 * 2 ^ e := by
  rcases Nat.lt_or_ge f e with hfe | hef
  · right
    refine ⟨by omega, ?_⟩
    calc n * 2 ^ f < 2 ^ 53 * 2 ^ f := Nat.mul_lt_mul_of_pos_right h.1 (Nat.two_pow_pos f)
      _ = 2 ^ 52 * 2 ^ (f + 1) := by rw [Nat.pow_succ 2 f]; omega
      _ ≤ 2 ^ 52 * 2 ^ e := Nat.mul_le_mul_left _ (Nat.pow_le_pow_right (by decide) hfe)
  · left
    refine ⟨n * 2 ^ (f - e), ?_⟩
    rw [Nat.mul_assoc, ← Nat.pow_add, Nat.sub_add_cancel hef]

/-- The result of rounding `v` steps: `m` times `2 ^ e`, where the grid is as fine as 53 bits allow. -/
structure OnGrid (v : ℚ) (m e : ℕ) : Prop where
  half : HalfEven (v / 2 ^ e) m
  full : e = 0 ∨ 2 ^ 52 * 2 ^ e ≤ v
  below : v < 2 ^ 53 * 2 ^ e

namespace OnGrid

variable {v : ℚ} {m e n f : ℕ}

theorem abs_sub_mul (v : ℚ) (k e : ℕ) : |v - (k * 2 ^ e : ℕ)| = |v / 2 ^ e - k| * 2 ^ e := by
  have hpos : (0 : ℚ) < 2 ^ e := by positivity
  rw [show v - (k * 2 ^ e : ℕ) = (v / 2 ^ e - k) * 2 ^ e by push_cast; field_simp, abs_mul, abs_of_pos hpos]

theorem near (h : OnGrid v m e) : |v - (m * 2 ^ e : ℕ)| ≤ 2 ^ e / 2 := by
  rw [abs_sub_mul]
  have := mul_le_mul_of_nonneg_right h.half.near (show (0 : ℚ) ≤ 2 ^ e by positivity)
  linarith

theorem significand_le (h : OnGrid v m e) : m ≤ 2 ^ 53 := by
  have hpos : (0 : ℚ) < 2 ^ e := by positivity
  have hv : v / 2 ^ e < 2 ^ 53 := by rw [div_lt_iff₀ hpos]; exact h.below
  have hm := (abs_le.1 h.half.near).1
  have hlt : (m : ℚ) < (2 ^ 53 + 1 : ℕ) := by push_cast; linarith
  exact Nat.lt_succ_iff.1 (by exact_mod_cast hlt)

theorem le_significand (h : OnGrid v m e) : 2 ^ 52 ≤ m ∨ e = 0 := by
  rcases h.full with he | hv
  · exact .inr he
  · left
    have hpos : (0 : ℚ) < 2 ^ e := by positivity
    have hv' : (2 : ℚ) ^ 52 ≤ v / 2 ^ e := by rw [le_div_iff₀ hpos]; exact hv
    have hm := (abs_le.1 h.half.near).2
    have hlt : ((2 ^ 52 : ℕ) : ℚ) < m + 1 := by push_cast; linarith
    exact Nat.lt_succ_iff.1 (by exact_mod_cast hlt)

/-- Where the result has 53 bits, the even neighbour `2 ^ 53` was farther away. -/
theorem lt_of_significand_lt (h : OnGrid v m e) (hm : m < 2 ^ 53) : v < (2 ^ 53 - 1 / 2) * 2 ^ e := by
  have hpos : (0 : ℚ) < 2 ^ e := by positivity
  rw [← div_lt_iff₀ hpos]
  have hnear := (abs_le.1 h.half.near).2
  rcases Nat.lt_or_ge (m + 1) (2 ^ 53) with hlt | hge
  · have : (m : ℚ) + 2 ≤ 2 ^ 53 := by exact_mod_cast hlt
    linarith
  · obtain rfl : m = 2 ^ 53 - 1 := by omega
    have hne : v / 2 ^ e - (2 ^ 53 - 1 : ℕ) ≠ 1 / 2 := by
      intro heq
      have heven := h.half.even (by rw [heq]; norm_num)
      exact absurd heven (by decide)
    have hlt := lt_of_le_of_ne hnear hne
    push_cast at hlt
    linarith

/-- What lies below the magnitudes with 53 bits on this grid is farther away than the least of them. -/
theorem closer_of_lt (h : OnGrid v m e) (he : e ≠ 0) (hlt : n < 2 ^ 52 * 2 ^ e) :
    |v - (m * 2 ^ e : ℕ)| < |v - n| := by
  have hv : (2 : ℚ) ^ 52 * 2 ^ e ≤ v := h.full.resolve_left he
  have hn : (n : ℚ) < 2 ^ 52 * 2 ^ e := by exact_mod_cast hlt
  calc |v - (m * 2 ^ e : ℕ)| ≤ |v - (2 ^ 52 * 2 ^ e : ℕ)| := by
        rw [abs_sub_mul, abs_sub_mul]
        exact mul_le_mul_of_nonneg_right (h.half.nearest _) (by positivity)
    _ = v - 2 ^ 52 * 2 ^ e := by push_cast; exact abs_of_nonneg (by linarith)
    _ < |v - n| := lt_abs.2 (.inl (by linarith))

/-- No stored magnitude is nearer. -/
theorem nearest (h : OnGrid v m e) (hc : Canonical n f) : |v - (m * 2 ^ e : ℕ)| ≤ |v - (n * 2 ^ f : ℕ)| := by
  rcases hc.multiple_or_lt e with ⟨k, hk⟩ | ⟨he, hlt⟩
  · rw [hk, abs_sub_mul, abs_sub_mul]
    exact mul_le_mul_of_nonneg_right (h.half.nearest k) (by positivity)
  · exact (h.closer_of_lt he hlt).le

theorem even_of_tie (h : OnGrid v m e) (hc : Canonical n f) (hne : n * 2 ^ f ≠ m * 2 ^ e)
    (heq : |v - (n * 2 ^ f : ℕ)| = |v - (m * 2 ^ e : ℕ)|) : Even m := by
  rcases hc.multiple_or_lt e with ⟨k, hk⟩ | ⟨he, hlt⟩
  · rw [hk, abs_sub_mul, abs_sub_mul] at heq
    refine h.half.even_of_tie (k := k) ?_ (mul_right_cancel₀ (by positivity) heq)
    rintro rfl
    exact hne hk
  · exact absurd heq (h.closer_of_lt he hlt).ne'

end OnGrid

theorem onGrid_ofSteps (num : ℕ) {den : ℕ} (hd : 0 < den) :
    OnGrid (num / den) (roundHalfEven num (den * 2 ^ excessBits (num / den))) (excessBits (num / den)) := by
  have hdq : (0 : ℚ) < den := by exact_mod_cast hd
  have hfloor : ((num / den : ℕ) : ℚ) ≤ num / den := Nat.cast_div_le
  have hceil : (num : ℚ) / den < (num / den : ℕ) + 1 := by
    rw [div_lt_iff₀ hdq]
    exact_mod_cast (Nat.div_lt_iff_lt_mul hd).1 (Nat.lt_succ_self (num / den))
  have hhalf : ∀ e, HalfEven ((num : ℚ) / den / 2 ^ e) (roundHalfEven num (den * 2 ^ e)) := by
    intro e
    have := halfEven_roundHalfEven num (Nat.mul_pos hd (Nat.two_pow_pos e))
    rwa [Nat.cast_mul, Nat.cast_pow, Nat.cast_ofNat, ← div_div] at this
  refine ⟨hhalf _, ?_, ?_⟩
  · unfold excessBits
    by_cases hlog : (num / den).log2 ≤ 52
    · left
      omega
    · right
      have hpos : num / den ≠ 0 := by
        rintro h
        rw [h] at hlog
        exact hlog (by decide)
      have hlow := Nat.log2_self_le hpos
      calc (2 : ℚ) ^ 52 * 2 ^ ((num / den).log2 - 52) = 2 ^ (num / den).log2 := by
            rw [← pow_add, show 52 + ((num / den).log2 - 52) = (num / den).log2 by omega]
        _ ≤ (num / den : ℕ) := by exact_mod_cast hlow
        _ ≤ num / den := hfloor
  · have hhigh : num / den + 1 ≤ 2 ^ 53 * 2 ^ excessBits (num / den) := by
      calc num / den + 1 ≤ 2 ^ ((num / den).log2 + 1) := Nat.lt_log2_self
        _ ≤ 2 ^ (53 + excessBits (num / den)) := Nat.pow_le_pow_right (by decide) (by unfold excessBits; omega)
        _ = 2 ^ 53 * 2 ^ excessBits (num / den) := Nat.pow_add ..
    calc (num : ℚ) / den < (num / den : ℕ) + 1 := hceil
      _ ≤ 2 ^ 53 * 2 ^ excessBits (num / den) := by exact_mod_cast hhigh

theorem exists_onGrid {v : ℚ} (hv : 0 ≤ v) : ∃ m e, OnGrid v m e := by
  have hnum : ((v.num.toNat : ℕ) : ℚ) = v.num := by exact_mod_cast Int.toNat_of_nonneg (Rat.num_nonneg.2 hv)
  have h := onGrid_ofSteps v.num.toNat v.den_pos
  rw [hnum, Rat.num_div_den] at h
  exact ⟨_, _, h⟩

namespace Binary64

def toRat (x : Binary64) : ℚ := x.units / scale

/-- Magnitudes from here on are rounded to an infinity: halfway from the greatest number to `2 ^ 1024`. -/
def overflow : ℚ := 2 ^ 1024 - 2 ^ 970

/-- `RoundsTo q x`: the magnitude `q` is rounded to `x`. No number is nearer to it, `x` is the one with the even
significand if another is equally near, and from `overflow` on there is only the infinity. -/
inductive RoundsTo (q : ℚ) : Binary64 → Prop
  | number {m e : ℕ} (h : Canonical m e) (hq : q < overflow)
      (nearest : ∀ y : Binary64, y.isFinite = true → |q - (finite false m e h).toRat| ≤ |q - y.toRat|)
      (even : ∀ y : Binary64, y.isFinite = true → y.toRat ≠ (finite false m e h).toRat →
        |q - y.toRat| = |q - (finite false m e h).toRat| → Even m) :
      RoundsTo q (finite false m e h)
  | infinity (hq : overflow ≤ q) : RoundsTo q (infinity false)

theorem scale_cast_pos : (0 : ℚ) < scale := by exact_mod_cast scale_pos

theorem toRat_finite (s : Bool) {m e : ℕ} (h : Canonical m e) :
    (finite s m e h).toRat = (if s then -((m * 2 ^ e : ℕ) : ℚ) else (m * 2 ^ e : ℕ)) / scale := by
  rw [toRat, units_finite]
  cases s with
  | false => rw [if_neg Bool.false_ne_true, if_neg Bool.false_ne_true, Int.cast_natCast]
  | true => rw [if_pos rfl, if_pos rfl, Int.cast_neg, Int.cast_natCast]

theorem cast_scale : (scale : ℚ) = 2 ^ 1074 := by
  unfold scale
  -- the power is left unevaluated
  generalize 1074 = k
  exact_mod_cast rfl

theorem overflow_mul_scale : overflow * scale = (2 ^ 53 - 1 / 2) * 2 ^ 2045 := by
  have hhigh : (2 : ℚ) ^ 1024 * 2 ^ 1074 = 2 ^ 53 * 2 ^ 2045 := by rw [← pow_add, ← pow_add]
  have hlow : (2 : ℚ) ^ 970 * 2 ^ 1074 = 1 / 2 * 2 ^ 2045 := by
    rw [← pow_add, show (2 : ℚ) ^ 2045 = 2 * 2 ^ 2044 from pow_succ' 2 2044, one_div, inv_mul_cancel_left₀ two_ne_zero]
  rw [overflow, cast_scale, sub_mul, sub_mul, hhigh, hlow]

theorem lt_overflow_iff {v : ℚ} : v / scale < overflow ↔ v < (2 ^ 53 - 1 / 2) * 2 ^ 2045 := by
  rw [div_lt_iff₀ scale_cast_pos, overflow_mul_scale]

theorem abs_sub_toRat (v : ℚ) (x : Binary64) : |v / scale - x.toRat| = |v - x.units| / scale := by
  rw [toRat, ← sub_div, abs_div, abs_of_pos scale_cast_pos]

/-- A magnitude is no nearer to a negative number than to the positive one. -/
theorem abs_sub_magnitude_le {v : ℚ} (hv : 0 ≤ v) (x : Binary64) : |v - x.magnitude| ≤ |v - x.units| := by
  have hm : (0 : ℚ) ≤ x.magnitude := by positivity
  unfold units
  split_ifs
  · push_cast
    rw [sub_neg_eq_add, abs_of_nonneg (add_nonneg hv hm), abs_le]
    constructor <;> linarith
  · push_cast
    rfl

theorem units_eq_magnitude_of_tie {v : ℚ} (hv : 0 ≤ v) {x : Binary64} (heq : |v - x.units| = |v - x.magnitude|) :
    (x.units : ℚ) = x.magnitude ∨ v = 0 := by
  have hm : (0 : ℚ) ≤ x.magnitude := by positivity
  unfold units at heq ⊢
  split_ifs at heq ⊢
  · push_cast at heq ⊢
    rw [sub_neg_eq_add, abs_of_nonneg (add_nonneg hv hm)] at heq
    rcases abs_cases (v - x.magnitude) with ⟨habs, -⟩ | ⟨habs, -⟩
    · left
      linarith
    · right
      linarith
  · left
    push_cast
    rfl

theorem exists_canonical_of_isFinite {x : Binary64} (hx : x.isFinite = true) :
    ∃ n f, Canonical n f ∧ x.magnitude = n * 2 ^ f := by
  rcases x with _ | _ | ⟨s, n, f, h⟩
  · contradiction
  · contradiction
  · exact ⟨n, f, h, rfl⟩

/-- What is rounded on its grid and stored is the nearest number. -/
theorem RoundsTo.of_onGrid {v : ℚ} {m e m' e' : ℕ} (hv : 0 ≤ v) (hg : OnGrid v m e) (h : Canonical m' e')
    (hm : m' * 2 ^ e' = m * 2 ^ e) (heven : Even m → Even m') (hlt : v < (2 ^ 53 - 1 / 2) * 2 ^ 2045) :
    RoundsTo (v / scale) (finite false m' e' h) := by
  have hx : ((finite false m' e' h).units : ℚ) = (m * 2 ^ e : ℕ) := by
    rw [← hm]
    rfl
  refine .number h (lt_overflow_iff.2 hlt) (fun y hy => ?_) fun y hy hne heq => heven ?_
  · obtain ⟨n, f, hc, hy⟩ := exists_canonical_of_isFinite hy
    rw [abs_sub_toRat, abs_sub_toRat, hx]
    refine div_le_div_of_nonneg_right ?_ scale_cast_pos.le
    exact (hg.nearest hc).trans (hy ▸ abs_sub_magnitude_le hv y)
  · obtain ⟨n, f, hc, hy⟩ := exists_canonical_of_isFinite hy
    rw [abs_sub_toRat, abs_sub_toRat, hx, div_left_inj' scale_cast_pos.ne'] at heq
    have hmag := abs_sub_magnitude_le hv y
    have hnear := hg.nearest hc
    by_cases hsame : n * 2 ^ f = m * 2 ^ e
    · rw [← hsame, ← hy] at heq
      rcases units_eq_magnitude_of_tie hv heq with hu | rfl
      · exact absurd (by rw [toRat, toRat, hu, hx, hy, hsame]) hne
      · have hhalf := hg.half
        rw [zero_div] at hhalf
        have hzero : m = 0 := (HalfEven.natCast 0).unique (by exact_mod_cast hhalf)
        rw [hzero]
        exact Even.zero
    · refine hg.even_of_tie hc hsame (le_antisymm ?_ hnear)
      rw [← heq, ← hy]
      exact hmag

/-- What is rounded on its grid is stored, or lies beyond all that can be. -/
theorem stored_or_overflow (s : Bool) {v : ℚ} {m e : ℕ} (hg : OnGrid v m e) :
    (v < (2 ^ 53 - 1 / 2) * 2 ^ 2045 ∧ ∃ m' e', ∃ h : Canonical m' e', m' * 2 ^ e' = m * 2 ^ e ∧ (Even m → Even m') ∧
      (if m = 2 ^ 53 then pack s (2 ^ 52) (e + 1) else pack s m e) = finite s m' e' h) ∨
    ((2 ^ 53 - 1 / 2) * 2 ^ 2045 ≤ v ∧ (if m = 2 ^ 53 then pack s (2 ^ 52) (e + 1) else pack s m e) = infinity s) := by
  have hle := hg.significand_le
  have hge := hg.le_significand
  have hmono : ∀ {i j : ℕ}, i ≤ j → (2 ^ 53 - 1 / 2) * (2 : ℚ) ^ i ≤ (2 ^ 53 - 1 / 2) * 2 ^ j := fun hij =>
    mul_le_mul_of_nonneg_left (pow_le_pow_right₀ one_le_two hij) (by norm_num)
  split_ifs with hm
  · -- a carry: `2 ^ 53` on this grid is `2 ^ 52` on the next
    subst hm
    by_cases he : e + 1 ≤ 2045
    · have hc : Canonical (2 ^ 52) (e + 1) := ⟨by decide, he, .inl (Nat.le_refl _)⟩
      refine .inl ⟨?_, 2 ^ 52, e + 1, hc, by rw [Nat.pow_succ 2 e]; omega, fun _ => by decide, dif_pos hc⟩
      calc v < 2 ^ 53 * 2 ^ e := hg.below
        _ ≤ (2 ^ 53 - 1 / 2) * 2 ^ (e + 1) := by
          rw [pow_succ (2 : ℚ) e]
          have : (0 : ℚ) ≤ 2 ^ e := by positivity
          linarith
        _ ≤ (2 ^ 53 - 1 / 2) * 2 ^ 2045 := hmono he
    · have hc : ¬ Canonical (2 ^ 52) (e + 1) := fun h => he h.2.1
      have hnear := (abs_le.1 hg.near).1
      push_cast at hnear
      refine .inr ⟨?_, dif_neg hc⟩
      calc (2 ^ 53 - 1 / 2) * (2 : ℚ) ^ 2045 ≤ (2 ^ 53 - 1 / 2) * 2 ^ e := hmono (by omega)
        _ ≤ v := by linarith
  · by_cases he : e ≤ 2045
    · have hlt : m < 2 ^ 53 := by omega
      have hc : Canonical m e := ⟨hlt, he, hge⟩
      exact .inl ⟨(hg.lt_of_significand_lt hlt).trans_le (hmono he), m, e, hc, rfl, id, dif_pos hc⟩
    · have hc : ¬ Canonical m e := fun h => he h.2.1
      refine .inr ⟨?_, dif_neg hc⟩
      calc (2 ^ 53 - 1 / 2) * (2 : ℚ) ^ 2045 ≤ 2 ^ 52 * 2 ^ 2046 := by
            rw [show (2 : ℚ) ^ 2046 = 2 * 2 ^ 2045 from pow_succ' 2 2045]
            have hpos : (0 : ℚ) ≤ 2 ^ 2045 := pow_nonneg two_pos.le _
            generalize (2 : ℚ) ^ 2045 = t at hpos ⊢
            linarith
        _ ≤ 2 ^ 52 * 2 ^ e := mul_le_mul_of_nonneg_left (pow_le_pow_right₀ one_le_two (by omega)) (by norm_num)
        _ ≤ v := hg.full.resolve_left (by omega)

theorem roundsTo_ofSteps (num : ℕ) {den : ℕ} (hd : 0 < den) :
    RoundsTo ((num : ℚ) / den / scale) (ofSteps false num den) := by
  have hg := onGrid_ofSteps num hd
  unfold ofSteps
  dsimp only
  obtain ⟨hlt, m', e', h, hm, heven, heq⟩ | ⟨hge, heq⟩ := stored_or_overflow false hg
  · rw [heq]
    exact .of_onGrid (by positivity) hg h hm heven hlt
  · rw [heq]
    exact .infinity (not_lt.1 (lt_overflow_iff.not.2 (not_lt.2 hge)))

theorem roundsTo_ofRatio (num : ℕ) {den : ℕ} (hd : 0 < den) : RoundsTo ((num : ℚ) / den) (ofRatio false num den) := by
  have h := roundsTo_ofSteps (num * scale) hd
  rwa [Nat.cast_mul, div_right_comm, mul_div_cancel_right₀ _ scale_cast_pos.ne'] at h

theorem roundsTo_ofNat (n : ℕ) : RoundsTo n (ofNat n) := by
  have h := roundsTo_ofRatio n Nat.one_pos
  rwa [Nat.cast_one, div_one] at h

theorem ofSteps_true (num den : ℕ) : ofSteps true num den = (ofSteps false num den).neg := by
  have hpack : ∀ m e, pack true m e = (pack false m e).neg := by
    intro m e
    unfold pack
    split_ifs <;> rfl
  unfold ofSteps
  dsimp only
  split_ifs <;> exact hpack _ _

theorem ofRatio_true (num den : ℕ) : ofRatio true num den = (ofRatio false num den).neg := ofSteps_true _ _

/-- What has at least `c` steps, and `c` at most `2 ^ 52`, differs from some number by one part in `2 * c` at most. -/
theorem exists_near {q c : ℚ} (hq : q < overflow) (hpos : 0 < c) (hc : c ≤ 2 ^ 52) (hlarge : c ≤ q * scale) :
    ∃ y : Binary64, y.isFinite = true ∧ |q - y.toRat| ≤ q / (2 * c) := by
  have hs := scale_cast_pos
  obtain ⟨m, e, hg⟩ := exists_onGrid (hpos.le.trans hlarge)
  have hstep : (2 : ℚ) ^ e ≤ q * scale / c := by
    rw [le_div_iff₀ hpos]
    rcases hg.full with rfl | hfull
    · rw [pow_zero, one_mul]
      exact hlarge
    · rw [mul_comm]
      exact (mul_le_mul_of_nonneg_right hc (by positivity)).trans hfull
  have hlt : q * scale < (2 ^ 53 - 1 / 2) * 2 ^ 2045 := by
    refine lt_overflow_iff.1 ?_
    rw [mul_div_cancel_right₀ _ hs.ne']
    exact hq
  obtain ⟨-, m', e', h, hm, -⟩ | ⟨hge, -⟩ := stored_or_overflow false hg
  · refine ⟨finite false m' e' h, rfl, ?_⟩
    have habs := abs_sub_toRat (q * scale) (finite false m' e' h)
    rw [mul_div_cancel_right₀ _ hs.ne'] at habs
    rw [habs, div_le_iff₀ hs, show ((finite false m' e' h).units : ℚ) = (m' * 2 ^ e' : ℕ) from rfl, hm]
    refine hg.near.trans ?_
    calc (2 : ℚ) ^ e / 2 ≤ q * scale / c / 2 := by linarith
      _ = q / (2 * c) * scale := by ring
  · exact absurd hlt (not_lt.2 hge)

/-- Between two points that are equally near to `q` all are nearer. -/
theorem abs_sub_lt_of_between {q a b c : ℚ} (heq : |q - a| = |q - b|) (hac : a < c) (hcb : c < b) :
    |q - c| < |q - a| := by
  rcases abs_eq_abs.1 heq with hab | hab
  · linarith
  · rw [abs_of_nonneg (by linarith : 0 ≤ q - a), abs_lt]
    constructor <;> linarith

namespace RoundsTo

variable {q : ℚ} {x y : Binary64}

/-- Two nearest numbers with even significands are the same: from an even significand the next one up is stored. -/
theorem not_lt_of_even {m e n f : ℕ} (h : Canonical m e) (h' : Canonical n f) (hm : Even m) (hn : Even n)
    (hnear : ∀ y : Binary64, y.isFinite = true → |q - (finite false m e h).toRat| ≤ |q - y.toRat|)
    (heq : |q - (finite false m e h).toRat| = |q - (finite false n f h').toRat|) : ¬ m * 2 ^ e < n * 2 ^ f := by
  intro hlt
  rw [Nat.even_iff] at hm hn
  have hnext : Canonical (m + 1) e := by
    obtain ⟨h1, h2, h3⟩ := h
    exact ⟨by omega, h2, by omega⟩
  have hle : (m + 1) * 2 ^ e < n * 2 ^ f := by
    refine lt_of_le_of_ne ?_ fun heq => ?_
    · rcases h'.multiple_or_lt e with ⟨k, hk⟩ | ⟨he, hsmall⟩
      · rw [hk] at hlt ⊢
        exact Nat.mul_le_mul_right _ (Nat.lt_of_mul_lt_mul_right hlt)
      · have := Nat.mul_le_mul_right (2 ^ e) (h.2.2.resolve_right he)
        omega
    · have := (hnext.unique h' heq).1
      omega
  -- the next number lies strictly between the two, so it is nearer
  have hclose := hnear (finite false (m + 1) e hnext) rfl
  have hs := scale_cast_pos
  have hx : (finite false m e h).toRat < (finite false (m + 1) e hnext).toRat := by
    simp only [toRat_finite, Bool.false_eq_true, if_false]
    refine div_lt_div_of_pos_right ?_ hs
    exact_mod_cast Nat.mul_lt_mul_of_pos_right (Nat.lt_succ_self m) (Nat.two_pow_pos e)
  have hy : (finite false (m + 1) e hnext).toRat < (finite false n f h').toRat := by
    simp only [toRat_finite, Bool.false_eq_true, if_false]
    refine div_lt_div_of_pos_right ?_ hs
    exact_mod_cast hle
  exact absurd (abs_sub_lt_of_between heq hx hy) (not_lt.2 hclose)

theorem unique (hx : RoundsTo q x) (hy : RoundsTo q y) : x = y := by
  cases hx with
  | infinity hq =>
    cases hy with
    | infinity _ => rfl
    | number _ hq' => exact absurd hq (not_le.2 hq')
  | @number m e h hq hnear heven =>
    cases hy with
    | infinity hq' => exact absurd hq' (not_le.2 hq)
    | @number n f h' _ hnear' heven' =>
      have heq := le_antisymm (hnear _ rfl) (hnear' _ rfl)
      by_cases hne : (finite false m e h).toRat = (finite false n f h').toRat
      · simp only [toRat_finite, Bool.false_eq_true, if_false, div_left_inj' scale_cast_pos.ne'] at hne
        obtain ⟨rfl, rfl⟩ := h.unique h' (by exact_mod_cast hne)
        rfl
      · have hm := heven _ rfl (Ne.symm hne) heq.symm
        have hn := heven' _ rfl hne heq
        have h1 := not_lt_of_even h h' hm hn hnear heq
        have h2 := not_lt_of_even h' h hn hm hnear' heq.symm
        exact absurd (by rw [toRat_finite, toRat_finite, le_antisymm (not_lt.1 h2) (not_lt.1 h1)]) hne

theorem self {m e : ℕ} (h : Canonical m e) : RoundsTo (finite false m e h).toRat (finite false m e h) := by
  have hpos : (0 : ℚ) < 2 ^ e := by positivity
  have hg : OnGrid (m * 2 ^ e : ℕ) m e := by
    refine ⟨?_, ?_, ?_⟩
    · rw [Nat.cast_mul, Nat.cast_pow, Nat.cast_ofNat, mul_div_cancel_right₀ _ hpos.ne']
      exact .natCast m
    · rcases h.2.2 with hm | he
      · exact .inr (by exact_mod_cast Nat.mul_le_mul_right _ hm)
      · exact .inl he
    · exact_mod_cast Nat.mul_lt_mul_of_pos_right h.1 (Nat.two_pow_pos e)
  rw [toRat_finite, if_neg Bool.false_ne_true]
  refine .of_onGrid (by positivity) hg h rfl id ?_
  calc ((m * 2 ^ e : ℕ) : ℚ) < (2 ^ 53 - 1 / 2) * 2 ^ e := hg.lt_of_significand_lt h.1
    _ ≤ (2 ^ 53 - 1 / 2) * 2 ^ 2045 := mul_le_mul_of_nonneg_left (pow_le_pow_right₀ one_le_two h.2.1) (by norm_num)

theorem zero_of_lt (hq : 0 ≤ q) (hlt : q * scale < 1 / 2) : RoundsTo q (zero false) := by
  have hv : 0 ≤ q * scale := mul_nonneg hq scale_cast_pos.le
  have hg : OnGrid (q * scale) 0 0 := by
    refine ⟨⟨?_, fun _ => Even.zero⟩, .inl rfl, by linarith⟩
    rw [pow_zero, div_one, Nat.cast_zero, sub_zero, abs_of_nonneg hv]
    exact hlt.le
  rw [← mul_div_cancel_right₀ q scale_cast_pos.ne']
  refine .of_onGrid hv hg (by decide) rfl id (hlt.trans_le ?_)
  have hpow : (1 : ℚ) ≤ 2 ^ 2045 := one_le_pow₀ one_le_two
  generalize (2 : ℚ) ^ 2045 = t at hpow ⊢
  linarith

/-- From `10 ^ 14` steps on, fourteen significant decimal digits are told apart. -/
theorem abs_sub_le (h : RoundsTo q x) (hq : q < overflow) (hlarge : 10 ^ 14 ≤ q * scale) :
    |q - x.toRat| ≤ q / (2 * 10 ^ 14) := by
  obtain ⟨y, hy, hnear⟩ := exists_near hq (by norm_num) (by norm_num) hlarge
  cases h with
  | infinity hq' => exact absurd hq (not_lt.2 hq')
  | number _ _ nearest _ => exact (nearest y hy).trans hnear

end RoundsTo

end Binary64

end Tabula
