import Tabula.NumberText
import Tabula.Proofs.NumeralValue

/-!
The texts of decimals. What a layout writes is a decimal numeral, and it spells the value of the decimal whatever the
layout: reading the text rounds that value.
-/

namespace Tabula

open Binary64 Numeral

theorem ofDigitChars_append_zeros (cs : List Char) (k : ℕ) :
    Nat.ofDigitChars 10 (cs ++ List.replicate k '0') 0 = Nat.ofDigitChars 10 cs 0 * 10 ^ k := by
  rw [Nat.ofDigitChars_append, Nat.ofDigitChars_replicate_zero, Nat.mul_comm]

theorem ofDigitChars_zeros_append (k : ℕ) (cs : List Char) :
    Nat.ofDigitChars 10 (List.replicate k '0' ++ cs) 0 = Nat.ofDigitChars 10 cs 0 := by
  rw [Nat.ofDigitChars_append, Nat.ofDigitChars_replicate_zero, Nat.mul_zero]

theorem zeros_mem (k : ℕ) : ∀ c ∈ List.replicate k '0', c ∈ decimalDigits := by
  intro c hc
  rw [(List.mem_replicate.1 hc).2]
  decide

namespace Scientific

def value (d : Scientific) : ℚ := Nat.ofDigitChars 10 d.digits 0 * 10 ^ (d.exponent + 1 - d.digits.length)

structure WellFormed (d : Scientific) : Prop where
  digits_mem : ∀ c ∈ d.digits, c ∈ decimalDigits
  digits_ne_nil : d.digits ≠ []

end Scientific

/-! ### What a layout writes -/

namespace Layout

variable {d : Scientific} {whole fraction : List Char}

/-- A point that is written for no digit still is part of a numeral, and of the same one. -/
theorem exists_literal_joinPoint (keepsPoint : Bool) (hwhole : ∀ c ∈ whole, c ∈ decimalDigits) (hne : whole ≠ [])
    (hfraction : ∀ c ∈ fraction, c ∈ decimalDigits) (exponent : Option ExponentPart) :
    ∃ l : Literal, l.chars = joinPoint keepsPoint whole fraction ++ exponent.elim [] ExponentPart.chars ∧
      l.decimalValue? = some ((Nat.ofDigitChars 10 (whole ++ fraction) 0 : ℚ) *
        10 ^ (exponent.elim 0 ExponentPart.value - fraction.length)) := by
  cases fraction with
  | nil =>
    cases keepsPoint with
    | false =>
      refine ⟨.decimal whole none exponent hwhole (by simp) (.inl hne), ?_, rfl⟩
      rw [Literal.chars, Option.elim_none, List.nil_append]
      rfl
    | true =>
      refine ⟨.decimal whole (some ['0']) exponent hwhole ?_ (.inl hne), ?_, ?_⟩
      · rintro _ ⟨⟩
        decide
      · rw [Literal.chars, ← List.append_assoc]
        rfl
      · have hzero := ofDigitChars_append_zeros whole 1
        rw [List.replicate_one, pow_one] at hzero
        simp only [Literal.decimalValue?, Option.getD_some, hzero, List.append_nil, List.length_singleton,
          List.length_nil, Nat.cast_mul, Nat.cast_ofNat, Nat.cast_one, Nat.cast_zero, sub_zero]
        rw [zpow_sub_one₀ (by norm_num), mul_assoc, mul_comm (10 : ℚ), inv_mul_cancel_right₀ (by norm_num)]
  | cons c cs =>
    refine ⟨.decimal whole (some (c :: cs)) exponent hwhole ?_ (.inl hne), ?_, rfl⟩
    · rintro _ ⟨⟩
      exact hfraction
    · rw [Literal.chars, ← List.append_assoc]
      cases keepsPoint <;> rfl

theorem exists_literal_positional (layout : Layout) (hd : d.WellFormed) :
    ∃ l : Literal, l.chars = layout.positional d ∧ l.decimalValue? = some d.value := by
  obtain ⟨hdigits, hne⟩ := hd
  have hlength := List.length_pos_iff.2 hne
  unfold positional
  split_ifs with hexponent
  · obtain ⟨n, hn⟩ := Int.eq_ofNat_of_zero_le hexponent
    have hwhole : ∀ c ∈ d.digits.take (n + 1) ++ List.replicate (n + 1 - d.digits.length) '0', c ∈ decimalDigits :=
      fun c hc => (List.mem_append.1 hc).elim (fun hc => hdigits c (List.mem_of_mem_take hc)) (zeros_mem _ c)
    have hne' : d.digits.take (n + 1) ++ List.replicate (n + 1 - d.digits.length) '0' ≠ [] := by
      simp [hne]
    obtain ⟨l, hl, hvalue⟩ := exists_literal_joinPoint layout.keepsPoint hwhole hne'
      (fun c hc => hdigits c (List.mem_of_mem_drop hc)) none
    rw [hn, Int.toNat_natCast]
    refine ⟨l, by rw [hl, Option.elim_none, List.append_nil], hvalue.trans (congrArg some ?_)⟩
    rw [Scientific.value, hn, Option.elim_none, List.length_drop]
    rcases Nat.le_total d.digits.length (n + 1) with hle | hle
    · -- the last digits before the point are zeros
      rw [List.take_of_length_le hle, List.drop_of_length_le hle, List.append_nil, ofDigitChars_append_zeros,
        Nat.sub_eq_zero_of_le hle, Nat.cast_zero, sub_zero, zpow_zero, mul_one, Nat.cast_mul, Nat.cast_pow,
        Nat.cast_ofNat, ← zpow_natCast, Nat.cast_sub hle, Nat.cast_add, Nat.cast_one]
    · rw [Nat.sub_eq_zero_of_le hle, List.replicate_zero, List.append_nil, List.take_append_drop, Nat.cast_sub hle]
      congr 2
      push_cast
      ring
  · obtain ⟨n, hn⟩ : ∃ n : ℕ, d.exponent = -(n + 1) := ⟨(-d.exponent - 1).toNat, by omega⟩
    have hfraction : ∀ c ∈ List.replicate ((-d.exponent).toNat - 1) '0' ++ d.digits, c ∈ decimalDigits :=
      fun c hc => (List.mem_append.1 hc).elim (zeros_mem _ c) (hdigits c)
    have hzero : ∀ c ∈ ['0'], c ∈ decimalDigits := by decide
    obtain ⟨l, hl, hvalue⟩ := exists_literal_joinPoint layout.keepsPoint hzero (by decide) hfraction none
    refine ⟨l, by rw [hl, Option.elim_none, List.append_nil], hvalue.trans (congrArg some ?_)⟩
    have hzeros := ofDigitChars_zeros_append ((-d.exponent).toNat - 1 + 1) d.digits
    rw [List.replicate_succ] at hzeros
    rw [List.singleton_append, ← List.cons_append, hzeros, Scientific.value, Option.elim_none, List.length_append,
      List.length_replicate, show (-d.exponent).toNat - 1 = n by omega, hn]
    congr 2
    push_cast
    ring

theorem exists_exponentPart (layout : Layout) (exponent : ℤ) :
    ∃ x : ExponentPart, x.chars = 'e' :: layout.exponentText exponent ∧ x.value = exponent := by
  let zeros := List.replicate (layout.exponentWidth - (Nat.toDigits 10 exponent.natAbs).length) '0'
  have hmem : ∀ c ∈ zeros ++ Nat.toDigits 10 exponent.natAbs, c ∈ decimalDigits := fun c hc =>
    (List.mem_append.1 hc).elim (zeros_mem _ c) (toDigits_mem _ c)
  have hne : zeros ++ Nat.toDigits 10 exponent.natAbs ≠ [] := List.append_ne_nil_of_right_ne_nil _ Nat.toDigits_ne_nil
  have hvalue : Nat.ofDigitChars 10 (zeros ++ Nat.toDigits 10 exponent.natAbs) 0 = exponent.natAbs := by
    rw [ofDigitChars_zeros_append, Nat.ofDigitChars_ten_toDigits]
  let sign := if exponent < 0 then some '-' else if layout.exponentPlus then some '+' else none
  have hsign : ∀ c ∈ sign, c ∈ ['-', '+'] := by
    simp only [sign]
    split_ifs <;> decide
  have hminus : sign = some '-' ↔ exponent < 0 := by
    simp only [sign]
    split_ifs with hneg <;> simp [hneg]
  refine ⟨⟨'e', sign, _, by decide, hsign, hmem, hne⟩, ?_, ?_⟩
  · simp only [ExponentPart.chars, exponentText, sign, zeros]
    split_ifs <;> simp
  · rw [ExponentPart.value, hvalue, if_congr hminus rfl rfl]
    split_ifs <;> omega

theorem exists_literal_exponential (layout : Layout) (hd : d.WellFormed) :
    ∃ l : Literal, l.chars = layout.exponential d ∧ l.decimalValue? = some d.value := by
  obtain ⟨hdigits, hne⟩ := hd
  have hlength := List.length_pos_iff.2 hne
  obtain ⟨x, hx, hvalue⟩ := exists_exponentPart layout d.exponent
  obtain ⟨l, hl, hl'⟩ := exists_literal_joinPoint false
    (fun c hc => hdigits c (List.mem_of_mem_take (i := 1) hc)) (by simp [hne])
    (fun c hc => hdigits c (List.mem_of_mem_drop (i := 1) hc)) (some x)
  refine ⟨l, by rw [hl, Option.elim_some, hx, exponential], hl'.trans (congrArg some ?_)⟩
  rw [Option.elim_some, hvalue, List.take_append_drop, List.length_drop, Nat.cast_sub hlength, Scientific.value]
  congr 2
  push_cast
  ring

/-- Every layout writes a numeral for the value of the decimal. -/
theorem exists_literal_write (layout : Layout) (hd : d.WellFormed) :
    ∃ l : Literal, l.chars = layout.write d ∧ l.decimalValue? = some d.value := by
  unfold write
  split_ifs
  · exact exists_literal_positional layout hd
  · exact exists_literal_exponential layout hd

/-- A text that a layout has written is read as the value of the decimal, rounded. -/
theorem exists_parseNumber?_signed (layout : Layout) (s : Bool) (hd : d.WellFormed) :
    ∃ y, RoundsTo d.value y ∧ parseNumber? (signed s (layout.write d)) = some (if s then y.neg else y) := by
  obtain ⟨l, hl, hvalue⟩ := exists_literal_write layout hd
  let p : Spelling := ⟨[], if s then some '-' else none, l, [], by simp, by cases s <;> decide, by simp⟩
  have hp : p.chars = (signed s (layout.write d)).toList := by
    rw [signed, String.toList_ofList, ← hl]
    cases s <;> simp [p, Spelling.chars]
  refine ⟨_, Literal.roundsTo_value hvalue, ?_⟩
  rw [parseNumber?_chars p hp, value_eq]
  cases s <;> rfl

end Layout

/-! ### The digits of a coefficient -/

namespace Scientific

theorem exists_trimZeros (cs : List Char) : ∃ k, cs = trimZeros cs ++ List.replicate k '0' := by
  refine ⟨(cs.reverse.takeWhile (· == '0')).length, ?_⟩
  have hzeros : cs.reverse.takeWhile (· == '0') =
      List.replicate (cs.reverse.takeWhile (· == '0')).length '0' :=
    List.eq_replicate_of_mem fun c hc => beq_iff_eq.1 (List.mem_takeWhile_imp (p := (· == '0')) hc)
  rw [trimZeros, ← List.reverse_replicate, ← hzeros, ← List.reverse_append, List.takeWhile_append_dropWhile,
    List.reverse_reverse]

theorem trimZeros_append_zero (cs : List Char) : trimZeros (cs ++ ['0']) = trimZeros cs := by
  simp [trimZeros]

variable {n : ℕ}

theorem ofCoefficient_eq (hn : n ≠ 0) (place : ℤ) :
    trimZeros (Nat.toDigits 10 n) ≠ [] ∧
      ofCoefficient n place = ⟨trimZeros (Nat.toDigits 10 n), place + (Nat.toDigits 10 n).length - 1⟩ := by
  have hne : trimZeros (Nat.toDigits 10 n) ≠ [] := by
    intro hnil
    obtain ⟨k, hk⟩ := exists_trimZeros (Nat.toDigits 10 n)
    have hvalue := ofDigitChars_append_zeros [] k
    rw [← hnil, ← hk, Nat.ofDigitChars_ten_toDigits, hnil] at hvalue
    exact hn (hvalue.trans (Nat.zero_mul _))
  refine ⟨hne, ?_⟩
  unfold ofCoefficient
  dsimp only
  split
  · contradiction
  · rfl

theorem wellFormed_ofCoefficient (hn : n ≠ 0) (place : ℤ) : (ofCoefficient n place).WellFormed := by
  obtain ⟨hne, heq⟩ := ofCoefficient_eq hn place
  obtain ⟨k, hk⟩ := exists_trimZeros (Nat.toDigits 10 n)
  rw [heq]
  refine ⟨fun c hc => toDigits_mem n c ?_, hne⟩
  rw [hk]
  exact List.mem_append_left _ hc

theorem value_ofCoefficient (hn : n ≠ 0) (place : ℤ) : (ofCoefficient n place).value = n * 10 ^ place := by
  obtain ⟨hne, heq⟩ := ofCoefficient_eq hn place
  obtain ⟨k, hk⟩ := exists_trimZeros (Nat.toDigits 10 n)
  have hlength := congrArg List.length hk
  have hvalue := congrArg (Nat.ofDigitChars 10 · 0) hk
  simp only [List.length_append, List.length_replicate] at hlength
  simp only [Nat.ofDigitChars_ten_toDigits, ofDigitChars_append_zeros] at hvalue
  rw [heq, value, hlength]
  dsimp only
  generalize trimZeros (Nat.toDigits 10 n) = kept at *
  rw [hvalue, Nat.cast_mul, Nat.cast_pow, Nat.cast_ofNat, mul_assoc, ← zpow_natCast, ← zpow_add₀ (by norm_num)]
  congr 2
  push_cast
  ring

/-- Trailing zeros do not show. -/
theorem ofCoefficient_mul_ten (hn : n ≠ 0) (place : ℤ) :
    ofCoefficient (n * 10) place = ofCoefficient n (place + 1) := by
  have hdigits : Nat.toDigits 10 (n * 10) = Nat.toDigits 10 n ++ ['0'] := by
    have h := Nat.toDigits_append_toDigits (b := 10) (n := n) (d := 0) (by decide) (Nat.pos_of_ne_zero hn) (by decide)
    rw [Nat.add_zero, Nat.mul_comm] at h
    exact h.symm
  rw [(ofCoefficient_eq (by omega) place).2, (ofCoefficient_eq hn (place + 1)).2, hdigits, trimZeros_append_zero,
    List.length_append, List.length_singleton]
  congr 1
  push_cast
  ring

end Scientific

end Tabula
