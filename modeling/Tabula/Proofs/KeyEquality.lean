import Mathlib.Tactic.Common
import Mathlib.Tactic.Ring
import Tabula.Key

/-!
Two values have the same key exactly if a program sees them as equal. Numbers carry the argument: a number is fixed by
its place on the line but for the sign of zero, and both zeros have the key `0`.
-/

namespace Tabula

theorem Canonical.unique {m e n f : Nat} (h : Canonical m e) (h' : Canonical n f) (heq : m * 2 ^ e = n * 2 ^ f) :
    m = n ∧ e = f := by
  -- the form with the larger exponent has all 53 bits in use, which leaves no room for the other
  have less : ∀ {m e n f : Nat}, Canonical m e → Canonical n f → m * 2 ^ e = n * 2 ^ f → ¬ e < f := by
    intro m e n f h h' heq hef
    obtain ⟨d, rfl⟩ : ∃ d, f = e + 1 + d := ⟨f - (e + 1), by omega⟩
    have hm : m = 2 * (n * 2 ^ d) := by
      apply Nat.eq_of_mul_eq_mul_right (Nat.two_pow_pos e)
      rw [heq]
      ring
    have hn : 2 ^ 52 ≤ n := by
      have := h'.2.2
      omega
    have hd : n ≤ n * 2 ^ d := Nat.le_mul_of_pos_right n (Nat.two_pow_pos d)
    have := h.1
    omega
  have hef : e = f := by
    have h1 := less h h' heq
    have h2 := less h' h heq.symm
    omega
  subst hef
  exact ⟨Nat.eq_of_mul_eq_mul_right (Nat.two_pow_pos e) heq, rfl⟩

namespace Binary64

variable {x y : Binary64}

theorem position?_eq_none_iff : x.position? = none ↔ x.isNaN = true := by
  rcases x with ⟨s, q⟩ | s | ⟨s, m, e, h⟩
  · exact ⟨fun _ => rfl, fun _ => rfl⟩
  · cases s <;> simp only [position?, isNaN, reduceCtorEq, Bool.false_eq_true]
  · simp only [position?, isNaN, reduceCtorEq, Bool.false_eq_true]

theorem equal_iff : x.equal y = true ↔ x.isNaN = false ∧ x.position? = y.position? := by
  have hx := @position?_eq_none_iff x
  unfold equal
  cases hp : x.position? with
  | none => simp_all
  | some a =>
    cases hq : y.position? with
    | none => simp
    | some b => simp_all

/-- The place on the line. A NaN has none, and zero stands for it. -/
def place (x : Binary64) : Int := x.position?.getD 0

theorem position?_eq_place (hx : x.isNaN = false) : x.position? = some x.place := by
  have hsome : x.position? ≠ none := by
    rw [Ne, position?_eq_none_iff, hx]
    exact Bool.false_ne_true
  obtain ⟨a, ha⟩ := Option.ne_none_iff_exists'.1 hsome
  rw [place, ha]
  rfl

theorem less_iff_place : x.less y = true ↔ x.isNaN = false ∧ y.isNaN = false ∧ x.place < y.place := by
  unfold less
  cases hx : x.isNaN with
  | true => simp [position?_eq_none_iff.2 hx]
  | false =>
    cases hy : y.isNaN with
    | true => simp [position?_eq_none_iff.2 hy]
    | false => simp [position?_eq_place hx, position?_eq_place hy]

theorem equal_iff_place : x.equal y = true ↔ x.isNaN = false ∧ y.isNaN = false ∧ x.place = y.place := by
  rw [equal_iff]
  constructor
  · rintro ⟨hx, hp⟩
    have hy : y.isNaN = false := by
      rw [← Bool.not_eq_true, ← position?_eq_none_iff, ← hp, position?_eq_place hx]
      simp
    exact ⟨hx, hy, by rw [place, place, hp]⟩
  · rintro ⟨hx, hy, hp⟩
    exact ⟨hx, by rw [position?_eq_place hx, position?_eq_place hy, hp]⟩

theorem natAbs_units (x : Binary64) : x.units.natAbs = x.magnitude := by
  unfold units
  split_ifs <;> simp

theorem position?_finite (s : Bool) {m e : Nat} (h : Canonical m e) :
    (finite s m e h).position? = some (finite s m e h).units := rfl

theorem units_finite (s : Bool) {m e : Nat} (h : Canonical m e) :
    (finite s m e h).units = if s then -((m * 2 ^ e : Nat) : Int) else (m * 2 ^ e : Nat) := rfl

theorem magnitude_lt (s : Bool) {m e bits : Nat} (h : Canonical m e) (he : 53 + e ≤ bits) :
    (finite s m e h).magnitude < 2 ^ bits :=
  calc m * 2 ^ e < 2 ^ 53 * 2 ^ e := Nat.mul_lt_mul_of_pos_right h.1 (Nat.two_pow_pos e)
    _ = 2 ^ (53 + e) := (Nat.pow_add ..).symm
    _ ≤ 2 ^ bits := Nat.pow_le_pow_right (by decide) he

theorem natAbs_units_lt (s : Bool) {m e bits : Nat} (h : Canonical m e) (he : 53 + e ≤ bits) :
    ((finite s m e h).units.natAbs : Int) < 2 ^ bits := by
  rw [natAbs_units]
  exact_mod_cast magnitude_lt s h he

/-- The infinities lie beyond a bound that no finite number reaches. -/
theorem exists_bound : ∃ bound : Int, 0 < bound ∧
    (∀ s, (infinity s).position? = some (if s then -bound else bound)) ∧
    ∀ s m e h, (finite s m e h).units.natAbs < bound := by
  refine ⟨2 ^ 2098, Int.pow_pos (by decide), fun s => by cases s <;> rfl, fun s m e h => ?_⟩
  have he := h.2.1
  exact natAbs_units_lt s h (by omega)

/-- The place of a number fixes the number, but for the sign of zero. -/
theorem eq_or_isZero (hx : x.isNaN = false) (hp : x.position? = y.position?) :
    x = y ∨ x.isZero = true ∧ y.isZero = true := by
  obtain ⟨bound, hpos, hinf, hfin⟩ := exists_bound
  rcases x with ⟨s, q⟩ | s | ⟨s, m, e, h⟩
  · contradiction
  · rcases y with ⟨t, r⟩ | t | ⟨t, n, f, h'⟩
    · rw [hinf] at hp
      contradiction
    · left
      rw [hinf, hinf, Option.some.injEq] at hp
      cases s <;> cases t <;> first | rfl | (simp at hp; omega)
    · have hlt := hfin t n f h'
      rw [hinf, position?_finite, Option.some.injEq] at hp
      split_ifs at hp <;> omega
  · rcases y with ⟨t, r⟩ | t | ⟨t, n, f, h'⟩
    · contradiction
    · have hlt := hfin s m e h
      rw [hinf, position?_finite, Option.some.injEq] at hp
      split_ifs at hp <;> omega
    · have hu : (finite s m e h).units = (finite t n f h').units := Option.some.inj hp
      have hm : m * 2 ^ e = n * 2 ^ f := by
        have := congrArg Int.natAbs hu
        rwa [natAbs_units, natAbs_units] at this
      obtain ⟨rfl, rfl⟩ := h.unique h' hm
      by_cases hz : m = 0
      · right
        simp [isZero, hz]
      · left
        have hmag : 0 < m * 2 ^ e := Nat.mul_pos (Nat.pos_of_ne_zero hz) (Nat.two_pow_pos e)
        rw [units_finite, units_finite] at hu
        generalize m * 2 ^ e = steps at hu hmag
        have hst : s = t := by
          cases s <;> cases t <;> simp only [Bool.false_eq_true, if_false, if_true] at hu <;> first | rfl | omega
        rw [hst]

theorem scale_pos : 0 < scale := by
  unfold scale
  -- the power is left unevaluated
  generalize 1074 = e
  exact Nat.two_pow_pos e

theorem toInt?_eq_some_iff {i : Int} : x.toInt? = some i ↔ x.isFinite = true ∧ x.units = i * scale := by
  have hs := scale_pos
  have habs := x.natAbs_units
  unfold toInt?
  generalize scale = unit at hs ⊢
  constructor
  · intro h
    by_cases hc : (x.isFinite && x.magnitude % unit == 0) = true
    · rw [if_pos hc, Option.some.injEq] at h
      rw [Bool.and_eq_true, beq_iff_eq] at hc
      have hm := Nat.div_mul_cancel (Nat.dvd_of_mod_eq_zero hc.2)
      refine ⟨hc.1, ?_⟩
      rw [← h, units]
      split_ifs
      · rw [neg_mul, ← Nat.cast_mul, hm]
      · rw [← Nat.cast_mul, hm]
    · rw [if_neg hc] at h
      contradiction
  · rintro ⟨hf, hu⟩
    have hm : x.magnitude = i.natAbs * unit := by rw [← habs, hu, Int.natAbs_mul, Int.natAbs_natCast]
    have hunit : (unit : Int) ≠ 0 := by omega
    rw [units, hm, Nat.cast_mul] at hu
    rw [if_pos (by simp [hf, hm]), hm, Nat.mul_div_cancel _ hs, Option.some.injEq]
    split_ifs at hu ⊢
    · rw [← neg_mul] at hu
      exact Int.eq_of_mul_eq_mul_right hunit hu
    · exact Int.eq_of_mul_eq_mul_right hunit hu

theorem toInt?_of_isZero (hz : x.isZero = true) : x.toInt? = some 0 := by
  rcases x with _ | _ | ⟨s, m, e, h⟩
  · contradiction
  · contradiction
  · obtain rfl : m = 0 := by simpa [isZero] using hz
    rw [toInt?_eq_some_iff, units_finite, Nat.zero_mul, Nat.cast_zero, neg_zero, ite_self, zero_mul]
    exact ⟨rfl, rfl⟩

theorem isZero_eq_false (hx : x.magnitude ≠ 0) : x.isZero = false := by
  rcases x with _ | _ | ⟨s, m, e, h⟩
  · rfl
  · rfl
  · have hm : m ≠ 0 := by
      rintro rfl
      exact hx (Nat.zero_mul _)
    simpa [isZero] using hm

theorem position?_eq_units (hf : x.isFinite = true) : x.position? = some x.units := by
  rcases x with _ | _ | ⟨s, m, e, h⟩
  · contradiction
  · contradiction
  · rfl

end Binary64

namespace Key

variable {x y : Binary64}

theorem ofNumber?_eq_int_iff {i : Int} :
    ofNumber? x = some (int i) ↔ x.toInt? = some i ∧ inRange i = true := by
  have hnan : x.isNaN = true → x.toInt? = none := by
    intro hx
    rcases x with _ | _ | _
    · rfl
    · contradiction
    · contradiction
  unfold ofNumber?
  split_ifs with hx
  · simp [hnan hx]
  · cases hi : x.toInt? with
    | none => simp
    | some j => by_cases hj : inRange j = true <;> simp [hj] <;> rintro rfl <;> simp [hj]

theorem ofNumber?_eq_float_iff :
    ofNumber? x = some (float y) ↔
      x = y ∧ x.isNaN = false ∧ ∀ i, x.toInt? = some i → inRange i = false := by
  unfold ofNumber?
  split_ifs with hx
  · simp [hx]
  · cases hi : x.toInt? with
    | none => simp [hx]
    | some j => by_cases hj : inRange j = true <;> simp [hj, hx]

theorem ofNumber?_ne_str (x : Binary64) (s : String) : ofNumber? x ≠ some (str s) := by
  unfold ofNumber?
  split_ifs
  · simp
  · cases x.toInt? with
    | none => simp
    | some i => dsimp only; split_ifs <;> simp

/-- A number that is kept as a number is no NaN and no integer of 64 bits. -/
def Normal : Key → Prop
  | float x => x.isNaN = false ∧ ∀ i, x.toInt? = some i → inRange i = false
  | _ => True

theorem normal_int (i : Int) : (int i).Normal := trivial

theorem normal_str (s : String) : (str s).Normal := trivial

theorem normal_of_ofValue? {v : Value} {k : Key} (h : ofValue? v = some k) : k.Normal := by
  cases k with
  | float x =>
    cases v with
    | number y =>
      obtain ⟨rfl, hx⟩ := ofNumber?_eq_float_iff.1 h
      exact hx
    | string s => simp [ofValue?] at h
    | _ => contradiction
  | _ => trivial

theorem ofNumber?_eq_iff {k : Key} (hx : ofNumber? x = some k) : ofNumber? y = some k ↔ y.equal x = true := by
  rw [Binary64.equal_iff]
  constructor
  · intro hy
    cases k with
    | int i =>
      obtain ⟨hxf, hxu⟩ := Binary64.toInt?_eq_some_iff.1 (ofNumber?_eq_int_iff.1 hx).1
      obtain ⟨hyf, hyu⟩ := Binary64.toInt?_eq_some_iff.1 (ofNumber?_eq_int_iff.1 hy).1
      have hp : y.position? = x.position? := by
        rw [Binary64.position?_eq_units hxf, Binary64.position?_eq_units hyf, hxu, hyu]
      refine ⟨?_, hp⟩
      rw [← Bool.not_eq_true, ← Binary64.position?_eq_none_iff, Binary64.position?_eq_units hyf]
      simp
    | float z =>
      obtain ⟨rfl, hn, -⟩ := ofNumber?_eq_float_iff.1 hy
      obtain ⟨rfl, -, -⟩ := ofNumber?_eq_float_iff.1 hx
      exact ⟨hn, rfl⟩
    | str s => exact absurd hx (ofNumber?_ne_str x s)
  · rintro ⟨hn, hp⟩
    rcases Binary64.eq_or_isZero hn hp with rfl | ⟨hyz, hxz⟩
    · exact hx
    · -- both zeros have the key `0`
      have zero : ∀ {z : Binary64}, z.isZero = true → ofNumber? z = some (int 0) := fun hz =>
        ofNumber?_eq_int_iff.2 ⟨Binary64.toInt?_of_isZero hz, rfl⟩
      rw [zero hyz, ← zero hxz, hx]

/-- Two values have the same key exactly if they are equal to a program. -/
theorem ofValue?_eq_iff {a b : Value} {k : Key} (ha : ofValue? a = some k) :
    ofValue? b = some k ↔ b.equal a = true := by
  cases a with
  | number x =>
    cases b with
    | number y => exact ofNumber?_eq_iff ha
    | string s =>
      have hk : k ≠ str s := fun h => ofNumber?_ne_str x s (h ▸ ha)
      simpa [ofValue?, Value.equal] using hk.symm
    | _ => simp [ofValue?, Value.equal]
  | string s =>
    obtain rfl : str s = k := Option.some.inj ha
    cases b with
    | number y => simpa [ofValue?, Value.equal] using ofNumber?_ne_str y s
    | string s' => simp [ofValue?, Value.equal]
    | _ => simp [ofValue?, Value.equal]
  | _ => contradiction

end Key

end Tabula
