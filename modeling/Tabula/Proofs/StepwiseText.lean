import Tabula.Proofs.GeneralNotation
import Tabula.Proofs.KeyConversion

/-!
The text of a number in steps. An integer below `10 ^ 14` is converted to 64 bits and written out. Any other number is
first rounded to fourteen significant digits, which settles the exponent and with it the notation. For fixed notation it
is rounded once more, at the last place that is written. Main statement: these steps give the text of the number; the
second rounding finds the digits of the first.
-/

namespace Tabula.Binary64

variable {x : Binary64}

def signChars (x : Binary64) : List Char := if x.negative then ['-'] else []

/-- Fourteen significant digits, and the power of ten of the first one. Rounding up can carry into a fifteenth. -/
def toScientific (x : Binary64) : ℕ × ℤ :=
  let D := roundToPlace x.magnitude scale (x.decimalExponent - 13)
  if D = 10 ^ 14 then (10 ^ 13, x.decimalExponent + 1) else (D, x.decimalExponent)

def fixedText (x : Binary64) (k : ℕ) : List Char :=
  x.signChars ++ fixedNotation (roundToPlace x.magnitude scale (-k)) k

def integerText (x : Binary64) : String :=
  if x.isZero && x.negative then "-0" else toString x.toInt64.toInt

def digitsText (x : Binary64) : String :=
  let D := x.toScientific.1
  let X := x.toScientific.2
  if X < -4 ∨ 14 ≤ X then
    String.ofList (trimFraction (x.signChars ++ fixedNotation D 13) ++ exponentNotation X)
  else String.ofList (trimFraction (x.fixedText (13 - X).toNat))

def stepwiseText (x : Binary64) : String :=
  if x.isNaN then if x.negative then "-nan" else "nan"
  else if !x.isFinite then if (zero false).less x then "inf" else "-inf"
  else if x.toInt?.isSome && x.abs.less (ofNat (10 ^ 14)) then x.integerText
  else x.digitsText

/-! ### The two roundings -/

theorem nearestDecimal_toScientific (hx : x.magnitude ≠ 0) :
    NearestDecimal 13 x.absolute x.toScientific.1 x.toScientific.2 := by
  have hsig := significant_roundToPlace hx 13
  rw [toScientific]
  split_ifs with hcarry
  · rw [Nat.cast_ofNat, hcarry] at hsig
    have h := hsig.nearestDecimal_of_carry (by decide)
    rwa [show x.decimalExponent - 13 + 1 + (13 : ℕ) = x.decimalExponent + 1 by push_cast; ring] at h
  · have h := hsig.nearestDecimal_of_lt (lt_of_le_of_ne hsig.coefficient_le hcarry)
    rwa [sub_add_cancel] at h

/-- Rounded at the place of the last of its digits, a number has these digits again. -/
theorem fixedText_eq {D : ℕ} {X : ℤ} (hX : X < 14) (hhalf : HalfEven (x.absolute / 10 ^ (X - (13 : ℕ))) D) :
    x.fixedText (13 - X).toNat = x.signChars ++ fixedNotation D (13 - X).toNat := by
  have hplace : -((13 - X).toNat : ℤ) = X - (13 : ℕ) := by
    push_cast
    omega
  rw [fixedText, hplace, hhalf.unique (halfEven_roundToPlace x.magnitude scale_pos _)]

theorem signed_append (x : Binary64) (text : List Char) :
    signed x.negative text = String.ofList (x.signChars ++ text) := signed_eq _ _

theorem point_notMem_signChars (x : Binary64) : '.' ∉ x.signChars := by
  rw [signChars]
  split_ifs <;> decide

/-! ### Integers -/

theorem abs_spec (hx : x.isFinite = true) : x.abs.isFinite = true ∧ x.abs.toRat = x.absolute := by
  rcases x with _ | _ | ⟨s, m, e, h⟩
  · contradiction
  · contradiction
  · exact ⟨rfl, toRat_eq_absolute h⟩

theorem less_ofNat_iff {i : ℤ} (hi : x.toInt? = some i) :
    x.abs.less (ofNat (10 ^ 14)) = true ↔ i.natAbs < 10 ^ 14 := by
  have hbound : (ofNat (10 ^ 14)).toInt? = some (10 ^ 14) := by decide +kernel
  obtain ⟨hf, hr⟩ := toInt?_eq_some_iff_toRat.1 hbound
  obtain ⟨hf', hr'⟩ := abs_spec (toInt?_eq_some_iff.1 hi).1
  rw [less_iff_toRat_lt hf' hf, hr', hr, absolute_of_toInt? hi, ← Int.cast_natCast, Int.cast_lt]
  omega

theorem toString_of_toInt? {i : ℤ} (hi : x.toInt? = some i) (hzero : ¬ (x.isZero && x.negative) = true) :
    toString i = signed x.negative (Nat.toDigits 10 i.natAbs) := by
  have hsign := eq_signed_natAbs hi
  cases hneg : x.negative with
  | false =>
    rw [hneg, if_neg Bool.false_ne_true] at hsign
    rw [hsign, Int.natAbs_natCast]
    rfl
  | true =>
    rw [hneg, if_pos rfl] at hsign
    cases hn : i.natAbs with
    | zero =>
      obtain rfl := Int.natAbs_eq_zero.1 hn
      obtain ⟨hf, hr⟩ := toInt?_eq_some_iff_toRat.1 hi
      rw [(isZero_iff_toRat hf).2 (by rw [hr, Int.cast_zero]), hneg] at hzero
      contradiction
    | succ n =>
      rw [hn] at hsign
      obtain rfl : i = Int.negSucc n := hsign
      rw [signed, if_pos rfl, String.ofList_cons]
      rfl

theorem integerText_eq {i : ℤ} (hi : x.toInt? = some i) (hsmall : i.natAbs < 10 ^ 14) :
    x.integerText = signed x.negative (Nat.toDigits 10 i.natAbs) := by
  rw [integerText]
  split_ifs with hzero
  · obtain ⟨hz, hneg⟩ := Bool.and_eq_true_iff.1 hzero
    rw [toInt?_of_isZero hz] at hi
    cases hi
    rw [hneg]
    rfl
  · rw [toInt_toInt64 hi (by omega) (by omega), toString_of_toInt? hi hzero]

/-! ### All numbers -/

section Finite

variable {s : Bool} {m e : ℕ} {h : Canonical m e}

theorem digitsText_eq (hx : (finite s m e h).magnitude ≠ 0) :
    (finite s m e h).digitsText = (finite s m e h).display := by
  obtain ⟨htext, hhalf⟩ := display_of_nearestDecimal hx (nearestDecimal_toScientific hx)
  have hsign := point_notMem_signChars (finite s m e h)
  rw [htext, digitsText]
  refine Eq.trans ?_ (signed_append (finite s m e h) _).symm
  split_ifs with hexponent
  · rw [generalNotation, if_neg (by omega), trimFraction_sign hsign, List.append_assoc]
  · rw [generalNotation, if_pos (by omega), fixedText_eq (by omega) hhalf, trimFraction_sign hsign]

/-- Zero is an integer below the bound, so that it has no digits to round. -/
theorem magnitude_ne_zero_of_long
    (hlong : ¬ ((finite s m e h).toInt?.isSome && (finite s m e h).abs.less (ofNat (10 ^ 14))) = true) :
    (finite s m e h).magnitude ≠ 0 := by
  intro hzero
  have hint : (finite s m e h).toInt? = some 0 := by
    rw [eq_zero_of_magnitude hzero]
    exact toInt?_of_isZero rfl
  exact hlong (Bool.and_eq_true_iff.2 ⟨by rw [hint]; rfl, (less_ofNat_iff hint).2 (by decide)⟩)

end Finite

/-- The text of a number is what its steps write. -/
theorem display_eq_stepwiseText (x : Binary64) : x.display = x.stepwiseText := by
  rcases x with ⟨s, _⟩ | s | ⟨s, m, e, h⟩
  · cases s <;> rfl
  · rw [stepwiseText, if_neg (show ¬ (infinity s).isNaN = true from Bool.false_ne_true),
      if_pos (show (!(infinity s).isFinite) = true from rfl), (less_infinity rfl s).1]
    cases s <;> rfl
  rw [stepwiseText, if_neg (show ¬ (finite s m e h).isNaN = true from Bool.false_ne_true),
    if_neg (show ¬ (!(finite s m e h).isFinite) = true from Bool.false_ne_true)]
  split_ifs with hshort
  · obtain ⟨hsome, hless⟩ := Bool.and_eq_true_iff.1 hshort
    obtain ⟨i, hi⟩ := Option.isSome_iff_exists.1 hsome
    have hsmall := (less_ofNat_iff hi).1 hless
    rw [integerText_eq hi hsmall, display_integer hi hsmall]
  · exact (digitsText_eq (magnitude_ne_zero_of_long hshort)).symm

end Tabula.Binary64
