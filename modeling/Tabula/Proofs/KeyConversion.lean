import Tabula.Proofs.Differences
import Tabula.Proofs.Entries

/-!
Keys are values up to equality. Two values that have keys have the same key exactly if a program sees them as equal, and
the value that a key shows is equal to the one that it came from. A number becomes an integer key under a test that lets
through only what the conversion to 64 bits leaves as it is.
-/

namespace Tabula

namespace Binary64

variable {x : Binary64} {i : ℤ}

/-- The conversion to an integer of 64 bits. The fraction is dropped, what lies beyond the range goes to the end of the
range, and a NaN goes to zero. -/
def toInt64 : Binary64 → Int64
  | nan .. => 0
  | infinity negative => if negative then .minValue else .maxValue
  | x => .ofIntClamp (x.units.tdiv scale)

theorem toInt64_eq (hx : x.isFinite = true) : x.toInt64 = .ofIntClamp (x.units.tdiv scale) := by
  rcases x with _ | _ | ⟨s, m, e, h⟩
  · contradiction
  · contradiction
  · rfl

theorem toInt_toInt64 (hx : x.toInt? = some i) (hlow : -2 ^ 63 ≤ i) (hhigh : i < 2 ^ 63) : x.toInt64.toInt = i := by
  obtain ⟨hf, hu⟩ := toInt?_eq_some_iff.1 hx
  have hpos : (scale : ℤ) ≠ 0 := by exact_mod_cast scale_pos.ne'
  rw [toInt64_eq hf, hu, Int.mul_tdiv_cancel _ hpos, Int64.toInt_ofIntClamp]
  · exact hlow
  · exact Int.le_sub_one_of_lt hhigh

/-- The least integer of 64 bits is a number; the greatest one is rounded up to the next power of two. -/
theorem toRat_ofInt_ends :
    (ofInt Int64.minValue.toInt).isFinite = true ∧ (ofInt Int64.minValue.toInt).toRat = -2 ^ 63 ∧
      (ofInt Int64.maxValue.toInt).isFinite = true ∧ (ofInt Int64.maxValue.toInt).toRat = 2 ^ 63 := by
  have hmin : (ofInt Int64.minValue.toInt).toInt? = some (-2 ^ 63) := by decide +kernel
  have hmax : (ofInt Int64.maxValue.toInt).toInt? = some (2 ^ 63) := by decide +kernel
  obtain ⟨hf, hr⟩ := toInt?_eq_some_iff_toRat.1 hmin
  obtain ⟨hf', hr'⟩ := toInt?_eq_some_iff_toRat.1 hmax
  exact ⟨hf, by rw [hr]; norm_num, hf', by rw [hr']; norm_num⟩

/-- A number without fraction that is not below the least integer of 64 bits and below the greatest one, both taken as
numbers. -/
def Convertible (x : Binary64) : Prop :=
  x.isFinite = true ∧ x.toRat = ⌊x.toRat⌋ ∧ x.less (ofInt Int64.minValue.toInt) = false ∧
    x.less (ofInt Int64.maxValue.toInt) = true

theorem convertible_iff : x.Convertible ↔ ∃ i, x.toInt? = some i ∧ -2 ^ 63 ≤ i ∧ i < 2 ^ 63 := by
  obtain ⟨hmin, hminr, hmax, hmaxr⟩ := toRat_ofInt_ends
  constructor
  · rintro ⟨hf, hwhole, hlow, hhigh⟩
    rw [less_iff_toRat_lt hf hmax, hmaxr, hwhole] at hhigh
    rw [← Bool.not_eq_true, less_iff_toRat_lt hf hmin, hminr, hwhole, not_lt] at hlow
    exact ⟨⌊x.toRat⌋, toInt?_eq_some_iff_toRat.2 ⟨hf, hwhole⟩, by exact_mod_cast hlow, by exact_mod_cast hhigh⟩
  · rintro ⟨i, hi, hlow, hhigh⟩
    obtain ⟨hf, hr⟩ := toInt?_eq_some_iff_toRat.1 hi
    refine ⟨hf, by rw [hr, Int.floor_intCast], ?_, ?_⟩
    · rw [← Bool.not_eq_true, less_iff_toRat_lt hf hmin, hminr, hr, not_lt]
      exact_mod_cast hlow
    · rw [less_iff_toRat_lt hf hmax, hmaxr, hr]
      exact_mod_cast hhigh

end Binary64

namespace Key

variable {a b v : Value} {k l : Key} {x : Binary64}

theorem ofNumber?_eq_int_iff_range {i : ℤ} :
    ofNumber? x = some (int i) ↔ x.toInt? = some i ∧ -2 ^ 63 ≤ i ∧ i < 2 ^ 63 := by
  rw [ofNumber?_eq_int_iff, inRange, Bool.and_eq_true, decide_eq_true_iff, decide_eq_true_iff]

theorem convertible_iff_int (hx : ofNumber? x = some k) : x.Convertible ↔ ∃ i, k = .int i := by
  rw [Binary64.convertible_iff]
  constructor
  · rintro ⟨i, hi⟩
    rw [ofNumber?_eq_int_iff_range.2 hi, Option.some.injEq] at hx
    exact ⟨i, hx.symm⟩
  · rintro ⟨i, rfl⟩
    exact ⟨i, ofNumber?_eq_int_iff_range.1 hx⟩

theorem isSome_ofValue?_iff :
    (ofValue? v).isSome = true ↔ (∃ s, v = .string s) ∨ ∃ x, v = .number x ∧ x.isNaN = false := by
  rw [← Option.not_isNone, Bool.not_eq_true', Bool.eq_false_iff, Ne, Option.isNone_iff_eq_none, ofValue?_eq_none_iff]
  cases v <;> simp [Value.Keyless]

/-- Strings and the numbers other than NaN have keys. Of two values that have keys, the keys are the same exactly if the
values are equal to a program. A key shows a value that is equal to the one it came from and that has the same key. The
key of a number is an integer exactly if the number passes the test for the conversion to 64 bits, and then the number,
what it is converted to and the key are the same integer; otherwise it is the number itself. -/
theorem key_normalisation_exact (ha : ofValue? a = some k) (hb : ofValue? b = some l) :
    (∀ v, (ofValue? v).isSome = true ↔ (∃ s, v = .string s) ∨ ∃ x, v = .number x ∧ x.isNaN = false) ∧
    (k = l ↔ a.equal b = true) ∧ k.toValue.equal a = true ∧ ofValue? k.toValue = some k ∧
    ∀ x, a = .number x → (x.Convertible ↔ ∃ i, k = .int i) ∧ (¬ x.Convertible ↔ k = .float x) ∧
      ∀ i, k = .int i → x.toRat = i ∧ x.toInt64.toInt = i ∧ (Binary64.ofInt x.toInt64.toInt).equal x = true := by
  have hback := ofValue?_toValue ha
  refine ⟨fun v => isSome_ofValue?_iff, ?_, (ofValue?_eq_iff ha).1 hback, hback, ?_⟩
  · rw [← ofValue?_eq_iff hb, ha, Option.some.injEq]
  · rintro x rfl
    have hx : ofNumber? x = some k := ha
    have hint := convertible_iff_int hx
    refine ⟨hint, ?_, ?_⟩
    · rw [hint]
      cases k with
      | int i => simp
      | float y => simp [(ofNumber?_eq_float_iff.1 hx).1]
      | str s => exact absurd hx (ofNumber?_ne_str x s)
    · rintro i rfl
      obtain ⟨hi, hlow, hhigh⟩ := ofNumber?_eq_int_iff_range.1 hx
      have hcast := Binary64.toInt_toInt64 hi hlow hhigh
      rw [hcast]
      exact ⟨(Binary64.toInt?_eq_some_iff_toRat.1 hi).2, rfl, (ofNumber?_eq_iff hx).1 hback⟩

/-- The least integer of 64 bits is converted; the power of two after the greatest one stays a number. -/
theorem key_normalisation_exact_ends :
    ofValue? (.number (.ofInt (-2 ^ 63))) = some (.int (-2 ^ 63)) ∧
      ofValue? (.number (.ofInt (2 ^ 63))) = some (.float (.ofInt (2 ^ 63))) ∧
      (Binary64.ofInt (-2 ^ 63)).toInt64.toInt = -2 ^ 63 ∧ ¬ (Binary64.ofInt (2 ^ 63)).Convertible ∧
      (Value.number (.ofInt (-2 ^ 63))).equal (.number (.ofInt (2 ^ 63))) = false := by
  have hlow : ofValue? (.number (.ofInt (-2 ^ 63))) = some (.int (-2 ^ 63)) := by decide +kernel
  have hhigh : ofValue? (.number (.ofInt (2 ^ 63))) = some (.float (.ofInt (2 ^ 63))) := by decide +kernel
  obtain ⟨-, hsame, -, -, hconvert⟩ := key_normalisation_exact hlow hhigh
  obtain ⟨-, -, -, -, hkeep⟩ := key_normalisation_exact hhigh hlow
  refine ⟨hlow, hhigh, ((hconvert _ rfl).2.2 _ rfl).2.1, (hkeep _ rfl).2.1.2 rfl, ?_⟩
  rw [Bool.eq_false_iff, Ne, ← hsame]
  simp

end Key

end Tabula
