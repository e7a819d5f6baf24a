import Tabula.Proofs.NumeralGrammar
import Tabula.Proofs.Rounding

/-!
The numbers that numeric strings stand for. A decimal is the rational that it spells, rounded once, however many digits
it has and however large its exponent is.
-/

namespace Tabula.Numeral

open Binary64

/-! ### Powers of two and of ten -/

theorem two_pow_le_ten_pow {m n : ℕ} (h : m ≤ 3 * n) : (2 : ℚ) ^ m ≤ 10 ^ n :=
  calc (2 : ℚ) ^ m ≤ 2 ^ (3 * n) := pow_le_pow_right₀ one_le_two h
    _ = 8 ^ n := by rw [pow_mul]; norm_num
    _ ≤ 10 ^ n := pow_le_pow_left₀ (by norm_num) (by norm_num) n

theorem overflow_le : overflow ≤ 10 ^ 400 :=
  calc overflow ≤ 2 ^ 1024 := sub_le_self _ (pow_nonneg two_pos.le _)
    _ ≤ 10 ^ 400 := two_pow_le_ten_pow (by decide)

theorem two_mul_scale_le : 2 * (scale : ℚ) ≤ 10 ^ 400 :=
  calc 2 * (scale : ℚ) = 2 ^ 1075 := by rw [cast_scale]; exact (pow_succ' 2 1074).symm
    _ ≤ 10 ^ 400 := two_pow_le_ten_pow (by decide)

/-! ### Decimals -/

/-- The range that is not computed is rounded to what computing it would give. -/
theorem roundsTo_ofDecimal {coefficient size : ℕ} (hsize : coefficient < 10 ^ size) (exponent : ℤ) :
    RoundsTo (coefficient * 10 ^ exponent) (ofDecimal false coefficient size exponent) := by
  have hten : (0 : ℚ) < 10 ^ exponent := by positivity
  unfold ofDecimal
  split_ifs with hzero hlarge hsmall hnonneg
  · rw [hzero, Nat.cast_zero, zero_mul]
    exact .zero_of_lt le_rfl (by rw [zero_mul]; exact one_half_pos)
  · -- the coefficient is `1` at least
    have hone : (1 : ℚ) ≤ coefficient := by exact_mod_cast Nat.pos_of_ne_zero hzero
    refine .infinity ?_
    calc overflow ≤ 10 ^ 400 := overflow_le
      _ = 10 ^ (400 : ℤ) := (zpow_natCast 10 400).symm
      _ ≤ 10 ^ exponent := zpow_le_zpow_right₀ (by norm_num) hlarge.le
      _ ≤ coefficient * 10 ^ exponent := le_mul_of_one_le_left hten.le hone
  · have hcoefficient : (coefficient : ℚ) < 10 ^ (size : ℤ) := by
      rw [zpow_natCast]
      exact_mod_cast hsize
    have hlt : (coefficient : ℚ) * 10 ^ exponent < 10 ^ (-400 : ℤ) :=
      calc (coefficient : ℚ) * 10 ^ exponent < 10 ^ (size : ℤ) * 10 ^ exponent :=
            mul_lt_mul_of_pos_right hcoefficient hten
        _ = 10 ^ (size + exponent) := (zpow_add₀ (by norm_num) _ _).symm
        _ ≤ 10 ^ (-400 : ℤ) := zpow_le_zpow_right₀ (by norm_num) (by omega)
    refine .zero_of_lt (by positivity) ?_
    rw [lt_div_iff₀ two_pos, mul_assoc, mul_comm _ (2 : ℚ)]
    calc (coefficient : ℚ) * 10 ^ exponent * (2 * scale) ≤ coefficient * 10 ^ exponent * 10 ^ 400 :=
          mul_le_mul_of_nonneg_left two_mul_scale_le (by positivity)
      _ < 10 ^ (-400 : ℤ) * 10 ^ 400 := mul_lt_mul_of_pos_right hlt (pow_pos (by norm_num) _)
      _ = 1 := by
        rw [zpow_neg, ← zpow_natCast]
        exact inv_mul_cancel₀ (zpow_ne_zero _ (by norm_num))
  · obtain ⟨n, rfl⟩ := Int.eq_ofNat_of_zero_le hnonneg
    have h := roundsTo_ofRatio (coefficient * 10 ^ n) Nat.one_pos
    rw [Nat.cast_one, div_one, Nat.cast_mul, Nat.cast_pow, Nat.cast_ofNat] at h
    rwa [zpow_natCast, Int.toNat_natCast]
  · obtain ⟨n, rfl⟩ : ∃ n : ℕ, exponent = -n := ⟨(-exponent).toNat, by omega⟩
    have h := roundsTo_ofRatio coefficient (Nat.pow_pos (by norm_num : 0 < 10) : 0 < 10 ^ n)
    rw [Nat.cast_pow, Nat.cast_ofNat, div_eq_mul_inv, ← zpow_natCast, ← zpow_neg] at h
    rwa [neg_neg, Int.toNat_natCast]

theorem mem_decimalDigits_of_isDigit {c : Char} (h : c.isDigit = true) : c ∈ decimalDigits := by
  simp only [Char.isDigit, Bool.and_eq_true, decide_eq_true_eq] at h
  exact mem_of_le_of_le (a := '0') (b := '9') h.1 h.2 (by decide)

theorem toDigits_mem (n : ℕ) : ∀ c ∈ Nat.toDigits 10 n, c ∈ decimalDigits := fun _ hc =>
  mem_decimalDigits_of_isDigit (Nat.isDigit_of_mem_toDigits (b := 10) (by decide) (by decide) hc)

theorem ofDigitChars_lt {cs : List Char} (hcs : ∀ c ∈ cs, c ∈ decimalDigits) :
    Nat.ofDigitChars 10 cs 0 < 10 ^ cs.length := by
  induction cs with
  | nil => decide
  | cons c cs ih =>
    obtain ⟨hc, hcs⟩ := List.forall_mem_cons.1 hcs
    have hall : ∀ c ∈ decimalDigits, c.toNat - '0'.toNat ≤ 9 := by decide
    rw [Nat.ofDigitChars_cons, Nat.ofDigitChars_eq_ofDigitChars_zero, Nat.mul_zero, Nat.zero_add, List.length_cons,
      Nat.pow_succ]
    calc 10 ^ cs.length * (c.toNat - '0'.toNat) + Nat.ofDigitChars 10 cs 0
        < 10 ^ cs.length * (c.toNat - '0'.toNat) + 10 ^ cs.length := Nat.add_lt_add_left (ih hcs) _
      _ = 10 ^ cs.length * (c.toNat - '0'.toNat + 1) := (Nat.mul_succ ..).symm
      _ ≤ 10 ^ cs.length * 10 := Nat.mul_le_mul_left _ (by have := hall c hc; omega)

def Literal.decimalValue? : Literal → Option ℚ
  | hexadecimal .. => none
  | decimal whole fraction exponent .. =>
    some (Nat.ofDigitChars 10 (whole ++ fraction.getD []) 0 *
      10 ^ (exponent.elim 0 ExponentPart.value - (fraction.getD []).length))

theorem ofDecimal_true (coefficient size : ℕ) (exponent : ℤ) :
    ofDecimal true coefficient size exponent = (ofDecimal false coefficient size exponent).neg := by
  unfold ofDecimal
  split_ifs
  · rfl
  · rfl
  · rfl
  · exact ofRatio_true _ _
  · exact ofRatio_true _ _

/-- A sign only turns the number over. -/
theorem value_eq (n : Numeral) (negative : Bool) :
    n.value negative = if negative then (n.value false).neg else n.value false := by
  cases negative with
  | false => rfl
  | true =>
    cases n with
    | hexadecimal digits => rfl
    | decimal whole fraction exponent => exact ofDecimal_true _ _ _

theorem Literal.roundsTo_value {l : Literal} {q : ℚ} (hq : l.decimalValue? = some q) :
    RoundsTo q (l.numeral.value false) := by
  cases l with
  | hexadecimal => contradiction
  | decimal whole fraction exponent hwhole hfraction _ =>
    obtain rfl := Option.some.inj hq
    have hfraction' : ∀ c ∈ fraction.getD [], c ∈ decimalDigits := by
      cases fraction with
      | none => simp
      | some f => exact hfraction f rfl
    have hall : ∀ c ∈ whole ++ fraction.getD [], c ∈ decimalDigits := fun c hc =>
      (List.mem_append.1 hc).elim (hwhole c) (hfraction' c)
    simp only [Literal.numeral, value, ← List.filterMap_append, natOfDigits_filterMap hall,
      length_filterMap (forall_digit?_isSome_iff.2 hall), length_filterMap (forall_digit?_isSome_iff.2 hfraction')]
    exact roundsTo_ofDecimal (ofDigitChars_lt hall) _

/-- A text is read exactly if it is spelled as a numeric string, and then it is spelled in one way only. A decimal is
read as the number nearest to the rational it spells, of two equally near the one with the even significand, an infinity
where that is too large; a minus turns the result over. -/
theorem numeric_string_exact (s : String) :
    ((parseNumber? s).isSome = true ↔ ∃ p : Spelling, p.chars = s.toList) ∧
    (∀ p p' : Spelling, p.chars = s.toList → p'.chars = s.toList → p = p') ∧
    ∀ p : Spelling, p.chars = s.toList → ∀ q, p.literal.decimalValue? = some q →
      ∃ x, RoundsTo q x ∧ parseNumber? s = some (if p.sign = some '-' then x.neg else x) := by
  refine ⟨⟨fun h => ?_, ?_⟩, fun p p' hp hp' => Spelling.chars_injective (hp.trans hp'.symm), fun p hp q hq => ?_⟩
  · obtain ⟨x, hx⟩ := Option.isSome_iff_exists.1 h
    exact exists_spelling hx
  · rintro ⟨p, hp⟩
    rw [parseNumber?_chars p hp]
    rfl
  · refine ⟨_, Literal.roundsTo_value hq, ?_⟩
    rw [parseNumber?_chars p hp, value_eq]
    simp only [decide_eq_true_eq]

/-- A text near the least positive number, with blanks, a sign, no whole part and an exponent. -/
theorem numeric_string_exact_underflow :
    ∃ x, RoundsTo (25 * 10 ^ (-325 : ℤ)) x ∧ parseNumber? " -.25e-323\n" = some x.neg := by
  let p : Spelling := {
    before := [' ']
    sign := some '-'
    literal := .decimal [] (some ['2', '5'])
      (some ⟨'e', some '-', ['3', '2', '3'], by decide, by decide, by decide, by decide⟩)
      (by decide) (by decide) (by decide)
    after := ['\n']
    before_mem := by decide
    sign_mem := by decide
    after_mem := by decide }
  exact (numeric_string_exact _).2.2 p (by decide) _ rfl

end Tabula.Numeral
