import Mathlib.Algebra.Group.Int.Defs
import Mathlib.Algebra.Order.Group.Nat
import Tabula.Binary64.Basic
import Tabula.Random.Interval

/-!
Drawing from an interval does not leave it. The width is exact, though it is computed in words; a word selects the lower
end and the exact offset; and every integer of the interval is selected by a word that is accepted.
-/

namespace Tabula.Interval

/-- An interval that is neither empty nor all the integers of 64 bits. -/
structure Proper (i : Interval) : Prop where
  le : i.low.toInt ≤ i.high.toInt
  lt : i.high.toInt - i.low.toInt + 1 < 2 ^ 64

theorem toNat_toUInt64 (a : Int64) : (a.toUInt64.toNat : ℤ) = a.toInt % 2 ^ 64 := by
  have hcond := BitVec.toInt_eq_toNat_cond a.toBitVec
  have hlt := a.toBitVec.isLt
  change (a.toBitVec.toNat : ℤ) = a.toBitVec.toInt % 2 ^ 64
  split_ifs at hcond <;> omega

theorem toInt_toInt64 (n : ℕ) : n.toUInt64.toInt64.toInt = (n : ℤ).bmod (2 ^ 64) := by
  change (BitVec.ofNat 64 n).toInt = _
  exact BitVec.toInt_ofNat n

variable {i : Interval}

theorem toNat_width (h : i.Proper) : (i.width.toNat : ℤ) = i.high.toInt - i.low.toInt + 1 := by
  have hlow := toNat_toUInt64 i.low
  have hhigh := toNat_toUInt64 i.high
  have hle := h.le
  have hlt := h.lt
  rw [width, UInt64.toNat_add, UInt64.toNat_sub]
  simp only [UInt64.toNat_one]
  omega

theorem width_pos (h : i.Proper) : 0 < i.width.toNat := by
  have hwidth := toNat_width h
  have hle := h.le
  omega

theorem width_ne_zero (h : i.Proper) : i.width ≠ 0 := by
  intro hzero
  have hpos := width_pos h
  rw [hzero] at hpos
  exact absurd hpos (by decide)

theorem offset_lt (h : i.Proper) (w : UInt64) : i.product w / 2 ^ 64 < i.width.toNat := by
  apply Nat.div_lt_of_lt_mul
  exact Nat.mul_lt_mul_of_pos_right w.toNat_lt (width_pos h)

/-- A word selects the lower end and its offset, with nothing lost to wrapping. -/
theorem toInt_select (h : i.Proper) (w : UInt64) :
    (i.select w).toInt = i.low.toInt + (w.toNat * i.width.toNat / 2 ^ 64 : ℕ) := by
  have hwidth := toNat_width h
  have hoffset := offset_lt h w
  have hlow := i.low.le_toInt
  have hhigh := i.high.toInt_lt
  rw [select, if_neg (width_ne_zero h), Int64.toInt_add, toInt_toInt64, Int.add_bmod_bmod]
  rw [product] at hoffset ⊢
  generalize w.toNat * i.width.toNat / 2 ^ 64 = k at hoffset ⊢
  exact Int.bmod_eq_of_le (by omega) (by omega)

theorem select_mem (h : i.Proper) (w : UInt64) :
    i.low.toInt ≤ (i.select w).toInt ∧ (i.select w).toInt ≤ i.high.toInt := by
  have hwidth := toNat_width h
  have hoffset := offset_lt h w
  rw [product] at hoffset
  rw [toInt_select h]
  omega

/-- The width is shifted until it has 64 bits, and no further. -/
theorem toNat_shiftLeft_width (h : i.Proper) :
    (i.width <<< (63 - i.width.log2)).toNat = i.width.toNat * 2 ^ (63 - i.width.toNat.log2) := by
  have hpos := width_pos h
  have hlog : i.width.toNat.log2 < 64 := (Nat.log2_lt hpos.ne').2 i.width.toNat_lt
  have hshift : (63 - i.width.log2).toNat = 63 - i.width.toNat.log2 :=
    UInt64.toNat_sub_of_le _ _ (UInt64.le_iff_toNat_le.2 (Nat.le_of_lt_succ hlog))
  have hfits : i.width.toNat * 2 ^ (63 - i.width.toNat.log2) < 2 ^ 64 := by
    calc i.width.toNat * 2 ^ (63 - i.width.toNat.log2)
        < 2 ^ (i.width.toNat.log2 + 1) * 2 ^ (63 - i.width.toNat.log2) :=
          Nat.mul_lt_mul_of_pos_right Nat.lt_log2_self (Nat.two_pow_pos _)
      _ = 2 ^ 64 := by rw [← Nat.pow_add, show i.width.toNat.log2 + 1 + (63 - i.width.toNat.log2) = 64 by omega]
  have hmod : (63 - i.width.toNat.log2) % 64 = 63 - i.width.toNat.log2 := Nat.mod_eq_of_lt (by omega)
  rw [UInt64.toNat_shiftLeft, hshift, hmod, Nat.shiftLeft_eq, Nat.mod_eq_of_lt hfits]

theorem width_le_zone (h : i.Proper) : i.width.toNat ≤ i.zone.toNat + 1 := by
  have hpos := width_pos h
  have hle := Nat.le_mul_of_pos_right i.width.toNat (Nat.two_pow_pos (63 - i.width.toNat.log2))
  rw [← toNat_shiftLeft_width h] at hle
  have hone : (1 : UInt64) ≤ i.width <<< (63 - i.width.log2) := UInt64.le_iff_toNat_le.2 (hpos.trans_le hle)
  rw [zone, UInt64.toNat_sub_of_le _ _ hone, UInt64.toNat_one]
  omega

/-- The first of the words with an offset leaves a low half that is less than the width. -/
theorem exists_word {width d : ℕ} (hd : d < width) (hwidth : width ≤ 2 ^ 64) :
    ∃ n < 2 ^ 64, n * width / 2 ^ 64 = d ∧ n * width % 2 ^ 64 < width := by
  have hpos : 0 < width := Nat.zero_lt_of_lt hd
  obtain ⟨n, hle, hlt⟩ : ∃ n, d * 2 ^ 64 ≤ n * width ∧ n * width < d * 2 ^ 64 + width := by
    have hle := Nat.div_mul_le_self (d * 2 ^ 64 + width - 1) width
    have hlt := Nat.lt_div_mul_add hpos (a := d * 2 ^ 64 + width - 1)
    exact ⟨(d * 2 ^ 64 + width - 1) / width, by omega, by omega⟩
  have hn : n * width < 2 ^ 64 * width := by omega
  exact ⟨n, Nat.lt_of_mul_lt_mul_right hn, by omega, by omega⟩

/-- Every integer of the interval is selected by a word that is accepted. -/
theorem exists_select (h : i.Proper) {k : ℤ} (hlow : i.low.toInt ≤ k) (hhigh : k ≤ i.high.toInt) :
    ∃ w, i.accepts w = true ∧ (i.select w).toInt = k := by
  have hwidth := toNat_width h
  have hzone := width_le_zone h
  obtain ⟨d, rfl⟩ : ∃ d : ℕ, k = i.low.toInt + d := ⟨(k - i.low.toInt).toNat, by omega⟩
  obtain ⟨n, hn, hoffset, hrest⟩ := exists_word (show d < i.width.toNat by omega) i.width.toNat_lt.le
  have hword : (UInt64.ofNat n).toNat = n := UInt64.toNat_ofNat_of_lt' hn
  refine ⟨UInt64.ofNat n, ?_, ?_⟩
  · rw [accepts, product, hword, decide_eq_true_eq, UInt64.le_iff_toNat_le]
    change n * i.width.toNat % 2 ^ 64 ≤ _
    omega
  · rw [toInt_select h, hword, hoffset]

/-! ### The loop -/

section Loop

variable {γ : Type} [WordSource γ] {g : γ}

def skip : ℕ → γ → γ
  | 0, g => g
  | n + 1, g => skip n (WordSource.next g).2

def Rejects (i : Interval) : ℕ → γ → Prop
  | 0, _ => True
  | n + 1, g => i.accepts (WordSource.next g).1 = false ∧ i.Rejects n (WordSource.next g).2

theorem drawWord_of_accepts (hw : i.accepts (WordSource.next g).1 = true) :
    i.drawWord g = some (WordSource.next g) := by
  rw [drawWord]
  simp only [hw, Bool.or_true, if_true]

theorem drawWord_of_rejects (h : i.Proper) (hw : i.accepts (WordSource.next g).1 = false) :
    i.drawWord g = i.drawWord (WordSource.next g).2 := by
  rw [drawWord]
  simp only [width_ne_zero h, hw, decide_false, Bool.or_false, Bool.false_eq_true, if_false]

/-- The loop ends with the first word that is accepted. -/
theorem drawWord_eq_some_iff (h : i.Proper) {p : UInt64 × γ} :
    i.drawWord g = some p ↔ i.accepts p.1 = true ∧ ∃ n, i.Rejects n g ∧ WordSource.next (skip n g) = p := by
  constructor
  · refine drawWord.partial_correctness i
      (fun g p => i.accepts p.1 = true ∧ ∃ n, i.Rejects n g ∧ WordSource.next (skip n g) = p) ?_ g p
    intro loop hloop g p hp
    simp only [width_ne_zero h, decide_false, Bool.false_or] at hp
    cases hw : i.accepts (WordSource.next g).1 with
    | true =>
      obtain rfl : WordSource.next g = p := by simpa [hw] using hp
      exact ⟨hw, 0, trivial, rfl⟩
    | false =>
      obtain ⟨haccepted, n, hn, hp'⟩ := hloop (WordSource.next g).2 p (by simpa [hw] using hp)
      exact ⟨haccepted, n + 1, ⟨hw, hn⟩, hp'⟩
  · rintro ⟨hw, n, hn, rfl⟩
    induction n generalizing g with
    | zero => exact drawWord_of_accepts hw
    | succ n ih =>
      rw [drawWord_of_rejects h hn.1]
      exact ih hn.2 hw

/-- The loop ends unless all words are rejected. -/
theorem exists_drawWord (h : i.Proper) {n : ℕ} (hn : ¬ i.Rejects n g) : ∃ p, i.drawWord g = some p := by
  induction n generalizing g with
  | zero => exact absurd trivial hn
  | succ n ih =>
    cases hw : i.accepts (WordSource.next g).1 with
    | true => exact ⟨_, drawWord_of_accepts hw⟩
    | false =>
      rw [drawWord_of_rejects h hw]
      exact ih fun hrest => hn ⟨hw, hrest⟩

theorem draw_of_accepts (hw : i.accepts (WordSource.next g).1 = true) :
    i.draw g = (i.select (WordSource.next g).1, (WordSource.next g).2) := by
  rw [draw, drawWord_of_accepts hw]
  rfl

end Loop

end Tabula.Interval
