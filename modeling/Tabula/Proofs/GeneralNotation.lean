import Mathlib.Data.List.DropRight
import Tabula.Proofs.ReadBack

/-!
Fourteen significant digits in general notation. The text of a number is held to a description that says nothing of how
the digits are found or laid out: the nearest decimal of fourteen digits, written with all its digits in fixed or in
exponent notation, and then the zeros that end the fraction taken off.
-/

namespace Tabula

open Binary64 Numeral Scientific

/-! ### Digits by their places -/

/-- The last `k` decimal digits of `n`, with zeros in front if it has fewer. -/
def lastDigits : ℕ → ℕ → List Char
  | 0, _ => []
  | k + 1, n => lastDigits k (n / 10) ++ [Nat.digitChar (n % 10)]

@[simp] theorem lastDigits_nil (n : ℕ) : lastDigits 0 n = [] := rfl

theorem lastDigits_succ (k n : ℕ) : lastDigits (k + 1) n = lastDigits k (n / 10) ++ [Nat.digitChar (n % 10)] := rfl

@[simp] theorem length_lastDigits (k n : ℕ) : (lastDigits k n).length = k := by
  induction k generalizing n with
  | zero => rfl
  | succ k ih => simp [lastDigits_succ, ih]

theorem lastDigits_add (j k n : ℕ) : lastDigits (j + k) n = lastDigits j (n / 10 ^ k) ++ lastDigits k n := by
  induction k generalizing n with
  | zero => simp
  | succ k ih =>
    rw [← Nat.add_assoc, lastDigits_succ, lastDigits_succ, ih, Nat.div_div_eq_div_mul, ← Nat.pow_succ',
      List.append_assoc]

theorem lastDigits_zero (k : ℕ) : lastDigits k 0 = List.replicate k '0' := by
  induction k with
  | zero => rfl
  | succ k ih =>
    rw [lastDigits_succ, List.replicate_succ', Nat.zero_div, ih]
    rfl

theorem lastDigits_mul (k n : ℕ) : lastDigits k (n * 10 ^ k) = List.replicate k '0' := by
  induction k with
  | zero => rfl
  | succ k ih =>
    rw [lastDigits_succ, List.replicate_succ', Nat.pow_succ, ← Nat.mul_assoc, Nat.mul_div_cancel _ (by decide), ih,
      Nat.mul_mod_left]
    rfl

theorem lastDigits_mem (k n : ℕ) : ∀ c ∈ lastDigits k n, c ∈ decimalDigits := by
  induction k generalizing n with
  | zero => simp
  | succ k ih =>
    intro c hc
    rcases List.mem_append.1 hc with hc | hc
    · exact ih _ c hc
    · refine toDigits_mem (n % 10) c ?_
      rwa [Nat.toDigits_of_lt_base (Nat.mod_lt _ (by decide))]

theorem toDigits_eq_append {n k : ℕ} (h : n / 10 ^ k ≠ 0) :
    Nat.toDigits 10 n = Nat.toDigits 10 (n / 10 ^ k) ++ lastDigits k n := by
  induction k generalizing n with
  | zero => simp
  | succ k ih =>
    have hdiv : n / 10 / 10 ^ k = n / 10 ^ (k + 1) := by rw [Nat.div_div_eq_div_mul, ← Nat.pow_succ']
    have hten : ¬ n < 10 := by
      intro hlt
      rw [← hdiv, Nat.div_eq_of_lt hlt, Nat.zero_div] at h
      contradiction
    rw [Nat.toDigits_eq_if (by decide), if_neg hten, ih (by rwa [hdiv]), hdiv, lastDigits_succ, List.append_assoc]

theorem toDigits_eq_lastDigits {n k : ℕ} (hlow : 10 ^ k ≤ n) (hhigh : n < 10 ^ (k + 1)) :
    Nat.toDigits 10 n = lastDigits (k + 1) n := by
  have hfirst : n / 10 ^ k < 10 := by
    rw [Nat.div_lt_iff_lt_mul (Nat.pow_pos (by decide)), ← Nat.pow_succ']
    exact hhigh
  have hne : n / 10 ^ k ≠ 0 := (Nat.div_pos hlow (Nat.pow_pos (by decide))).ne'
  rw [toDigits_eq_append hne, Nat.add_comm, lastDigits_add, Nat.toDigits_of_lt_base hfirst, lastDigits_succ,
    Nat.mod_eq_of_lt hfirst]
  rfl

/-! ### Zeros at the end -/

theorem trimZeros_append (whole fraction : List Char) :
    trimZeros (whole ++ fraction) =
      if trimZeros fraction = [] then trimZeros whole else whole ++ trimZeros fraction := by
  rw [trimZeros, List.reverse_append, List.dropWhile_append, trimZeros, trimZeros]
  by_cases h : fraction.reverse.dropWhile (· == '0') = []
  · simp [h]
  · simp [h]

theorem trimZeros_append_zeros (cs : List Char) :
    trimZeros cs ++ List.replicate (cs.length - (trimZeros cs).length) '0' = cs := by
  obtain ⟨k, hk⟩ := exists_trimZeros cs
  have hlength := congrArg List.length hk
  rw [List.length_append, List.length_replicate] at hlength
  rw [show cs.length - (trimZeros cs).length = k by omega, ← hk]

/-- Cut somewhere, a trimmed list has all of the first part, with its zeros, and the second part trimmed. -/
theorem trimZeros_cut (whole fraction : List Char) :
    (trimZeros (whole ++ fraction)).take whole.length ++
        List.replicate (whole.length - (trimZeros (whole ++ fraction)).length) '0' = whole ∧
      (trimZeros (whole ++ fraction)).drop whole.length = trimZeros fraction := by
  have hle : (trimZeros whole).length ≤ whole.length := by
    have := congrArg List.length (trimZeros_append_zeros whole)
    rw [List.length_append] at this
    omega
  rw [trimZeros_append]
  split_ifs with h
  · rw [List.take_of_length_le hle, List.drop_of_length_le hle, h]
    exact ⟨trimZeros_append_zeros whole, rfl⟩
  · rw [List.take_left, List.drop_left, List.length_append, Nat.sub_eq_zero_of_le (Nat.le_add_right _ _)]
    exact ⟨List.append_nil _, rfl⟩

/-! ### General notation -/

/-- `n / 10 ^ k` with all its `k` digits after the point. -/
def fixedNotation (n k : ℕ) : List Char :=
  Nat.toDigits 10 (n / 10 ^ k) ++ if k = 0 then [] else '.' :: lastDigits k n

/-- A text with a point loses the zeros at its end, and then the point if it has come to the end. -/
def trimFraction (text : List Char) : List Char :=
  if '.' ∈ text then (text.rdropWhile (· == '0')).rdropWhile (· == '.') else text

/-- The sign is always written, and at least two digits. -/
def exponentNotation (exponent : ℤ) : List Char :=
  'e' :: (if exponent < 0 then '-' else '+') ::
    (if exponent.natAbs < 10 then ['0'] else []) ++ Nat.toDigits 10 exponent.natAbs

/-- The decimal `D * 10 ^ (X - 13)`: in fixed notation if its first digit stands between the fourth place after the
point and the fourteenth before it, and otherwise in exponent notation. -/
def generalNotation (D : ℕ) (X : ℤ) : List Char :=
  if -4 ≤ X ∧ X < 14 then trimFraction (fixedNotation D (13 - X).toNat)
  else trimFraction (fixedNotation D 13) ++ exponentNotation X

theorem point_notMem {cs : List Char} (hcs : ∀ c ∈ cs, c ∈ decimalDigits) : '.' ∉ cs := fun hmem =>
  absurd (hcs _ hmem) (by decide)

/-- Taking off zeros stops at the point, and a point that has come to the end goes after them. -/
theorem trimFraction_append {whole fraction : List Char} (hwhole : '.' ∉ whole)
    (hfraction : ∀ c ∈ fraction, c ∈ decimalDigits) :
    trimFraction (whole ++ '.' :: fraction) = Layout.joinPoint false whole (trimZeros fraction) := by
  have hzeros : (whole ++ '.' :: fraction).rdropWhile (· == '0') = whole ++ '.' :: trimZeros fraction := by
    rw [List.append_cons]
    refine (trimZeros_append (whole ++ ['.']) fraction).trans ?_
    split_ifs with h
    · rw [h]
      exact List.rdropWhile_concat_neg _ _ _ (by decide)
    · rw [List.append_assoc, List.singleton_append]
  rw [trimFraction, if_pos (by simp), hzeros]
  cases hkept : trimZeros fraction with
  | nil =>
    rw [List.rdropWhile_concat_pos _ _ _ rfl, List.rdropWhile_eq_self_iff.2]
    · rfl
    · intro hne hlast
      exact hwhole (beq_iff_eq.1 hlast ▸ List.getLast_mem hne)
  | cons c cs =>
    have hlast : (c :: cs).getLast (List.cons_ne_nil c cs) ∈ fraction := by
      refine (List.rdropWhile_prefix (· == '0') fraction).subset ?_
      change _ ∈ trimZeros fraction
      rw [hkept]
      exact List.getLast_mem _
    rw [List.rdropWhile_eq_self_iff.2]
    · rfl
    · intro hne hpoint
      rw [List.getLast_append_of_ne_nil _ (List.cons_ne_nil _ _), List.getLast_cons (List.cons_ne_nil c cs)] at hpoint
      exact point_notMem hfraction (beq_iff_eq.1 hpoint ▸ hlast)

theorem trimFraction_append_fixedNotation {sign : List Char} (hsign : '.' ∉ sign) (n k : ℕ) :
    trimFraction (sign ++ fixedNotation n k) =
      Layout.joinPoint false (sign ++ Nat.toDigits 10 (n / 10 ^ k)) (trimZeros (lastDigits k n)) := by
  have hwhole : '.' ∉ sign ++ Nat.toDigits 10 (n / 10 ^ k) := fun hmem =>
    (List.mem_append.1 hmem).elim hsign (point_notMem (toDigits_mem _))
  cases k with
  | zero =>
    rw [fixedNotation, if_pos rfl, List.append_nil, trimFraction, if_neg hwhole]
    rfl
  | succ k =>
    rw [fixedNotation, if_neg (Nat.succ_ne_zero k), ← List.append_assoc]
    exact trimFraction_append hwhole (lastDigits_mem _ _)

theorem trimFraction_fixedNotation (n k : ℕ) :
    trimFraction (fixedNotation n k) =
      Layout.joinPoint false (Nat.toDigits 10 (n / 10 ^ k)) (trimZeros (lastDigits k n)) :=
  trimFraction_append_fixedNotation List.not_mem_nil n k

/-- A sign in front is none of what is taken off. -/
theorem trimFraction_sign {sign : List Char} (hsign : '.' ∉ sign) (n k : ℕ) :
    trimFraction (sign ++ fixedNotation n k) = sign ++ trimFraction (fixedNotation n k) := by
  rw [trimFraction_append_fixedNotation hsign, trimFraction_fixedNotation]
  cases trimZeros (lastDigits k n) with
  | nil => rfl
  | cons c cs => exact List.append_assoc _ _ _

/-! ### What the layout writes -/

section Layout

variable {D : ℕ} {X : ℤ}

theorem exponentText_eq (X : ℤ) : 'e' :: displayLayout.exponentText X = exponentNotation X := by
  have hone : (Nat.toDigits 10 X.natAbs).length ≤ 1 ↔ X.natAbs < 10 :=
    Nat.length_toDigits_le_iff (by decide) (by decide)
  have hpos := List.length_pos_iff.2 (Nat.toDigits_ne_nil (n := X.natAbs) (b := 10))
  rw [Layout.exponentText, exponentNotation]
  dsimp only [displayLayout]
  by_cases hsmall : X.natAbs < 10
  · rw [if_pos hsmall, show 2 - (Nat.toDigits 10 X.natAbs).length = 1 by omega]
    split_ifs <;> rfl
  · rw [if_neg hsmall, show 2 - (Nat.toDigits 10 X.natAbs).length = 0 by omega]
    split_ifs <;> rfl

theorem lastDigits_cut (hlow : 10 ^ 13 ≤ D) (hhigh : D < 10 ^ 14) {k : ℕ} (hk : k ≤ 13) :
    lastDigits 14 D = Nat.toDigits 10 (D / 10 ^ k) ++ lastDigits k D ∧
      (Nat.toDigits 10 (D / 10 ^ k)).length = 14 - k := by
  have hne : D / 10 ^ k ≠ 0 :=
    (Nat.div_pos ((Nat.pow_le_pow_right (by decide) hk).trans hlow) (Nat.pow_pos (by decide))).ne'
  have hcut : lastDigits 14 D = Nat.toDigits 10 (D / 10 ^ k) ++ lastDigits k D := by
    rw [← toDigits_eq_append hne, toDigits_eq_lastDigits hlow hhigh]
  have hlength := congrArg List.length hcut
  rw [List.length_append, length_lastDigits, length_lastDigits] at hlength
  exact ⟨hcut, by omega⟩

theorem positional_of_nonneg (hlow : 10 ^ 13 ≤ D) (hhigh : D < 10 ^ 14) (hX : 0 ≤ X) (hX' : X < 14) :
    displayLayout.positional ⟨trimZeros (lastDigits 14 D), X⟩ = trimFraction (fixedNotation D (13 - X).toNat) := by
  obtain ⟨hcut, hlength⟩ := lastDigits_cut hlow hhigh (k := (13 - X).toNat) (by omega)
  obtain ⟨hwhole, hfraction⟩ := trimZeros_cut (Nat.toDigits 10 (D / 10 ^ (13 - X).toNat)) (lastDigits (13 - X).toNat D)
  rw [hlength, show 14 - (13 - X).toNat = X.toNat + 1 by omega, ← hcut] at hwhole hfraction
  rw [Layout.positional, if_pos hX]
  dsimp only
  rw [hwhole, hfraction, trimFraction_fixedNotation]
  rfl

theorem positional_of_neg (hhigh : D < 10 ^ 14) (hne : trimZeros (lastDigits 14 D) ≠ [])
    (hX : X < 0) :
    displayLayout.positional ⟨trimZeros (lastDigits 14 D), X⟩ = trimFraction (fixedNotation D (13 - X).toNat) := by
  obtain ⟨j, rfl⟩ : ∃ j : ℕ, X = -(j + 1) := ⟨(-X - 1).toNat, by omega⟩
  have hbelow : D < 10 ^ (j + 14) := hhigh.trans_le (Nat.pow_le_pow_right (by decide) (by omega))
  rw [Layout.positional, if_neg (not_le.2 hX), trimFraction_fixedNotation,
    show (13 - -((j : ℤ) + 1)).toNat = j + 14 by omega, Nat.div_eq_of_lt hbelow, lastDigits_add,
    Nat.div_eq_of_lt hhigh, lastDigits_zero, trimZeros_append, if_neg hne]
  dsimp only
  rw [show (-(-((j : ℤ) + 1))).toNat - 1 = j by omega]
  rfl

theorem exponential_eq (hlow : 10 ^ 13 ≤ D) (hhigh : D < 10 ^ 14) (hne : trimZeros (lastDigits 14 D) ≠ []) :
    displayLayout.exponential ⟨trimZeros (lastDigits 14 D), X⟩ =
      trimFraction (fixedNotation D 13) ++ exponentNotation X := by
  obtain ⟨hcut, hlength⟩ := lastDigits_cut hlow hhigh (k := 13) le_rfl
  obtain ⟨hwhole, hfraction⟩ := trimZeros_cut (Nat.toDigits 10 (D / 10 ^ 13)) (lastDigits 13 D)
  rw [hlength, ← hcut] at hwhole hfraction
  rw [Nat.sub_eq_zero_of_le (List.length_pos_iff.2 hne : 14 - 13 ≤ _), List.replicate_zero, List.append_nil] at hwhole
  rw [Layout.exponential, trimFraction_fixedNotation, exponentText_eq]
  dsimp only
  rw [← hwhole, ← hfraction]

/-- The layout of output writes general notation. -/
theorem write_ofCoefficient (hlow : 10 ^ 13 ≤ D) (hhigh : D < 10 ^ 14) (X : ℤ) :
    displayLayout.write (ofCoefficient D (X - 13)) = generalNotation D X := by
  obtain ⟨hne, heq⟩ := ofCoefficient_eq (n := D) (by omega) (X - 13)
  rw [toDigits_eq_lastDigits hlow hhigh] at hne heq
  rw [heq, length_lastDigits, show X - 13 + (13 + 1 : ℕ) - 1 = X by omega, Layout.write, generalNotation]
  have hform : displayLayout.positionalFrom ≤ X ∧ X < displayLayout.positionalBelow ↔ -4 ≤ X ∧ X < 14 := Iff.rfl
  by_cases hpositional : -4 ≤ X ∧ X < 14
  · rw [if_pos (hform.2 hpositional), if_pos hpositional]
    rcases le_or_gt 0 X with hX | hX
    · exact positional_of_nonneg hlow hhigh hX hpositional.2
    · exact positional_of_neg hhigh hne hX
  · rw [if_neg (mt hform.1 hpositional), if_neg hpositional]
    exact exponential_eq hlow hhigh hne

end Layout

/-! ### The nearest decimal -/

/-- `D * 10 ^ (X - n)` is the decimal of `n + 1` significant digits that is nearest to `a`, and the one with the even
`D` of two that are equally near. -/
structure NearestDecimal (n : ℕ) (a : ℚ) (D : ℕ) (X : ℤ) : Prop where
  low : 10 ^ n ≤ D
  high : D < 10 ^ (n + 1)
  nearest : ∀ (D' : ℕ) (X' : ℤ), 10 ^ n ≤ D' → D' < 10 ^ (n + 1) →
    |a - D * 10 ^ (X - n)| ≤ |a - D' * 10 ^ (X' - n)|
  even : ∀ (D' : ℕ) (X' : ℤ), 10 ^ n ≤ D' → D' < 10 ^ (n + 1) → (D' : ℚ) * 10 ^ (X' - n) ≠ D * 10 ^ (X - n) →
    |a - D' * 10 ^ (X' - n)| = |a - D * 10 ^ (X - n)| → Even D

section Decimal

variable {n D D' : ℕ} {a u : ℚ} {place X X' : ℤ}

theorem abs_sub_mul_eq (hu : 0 < u) (a : ℚ) (k : ℕ) : |a - k * u| = |a / u - k| * u := by
  rw [show a - k * u = (a / u - k) * u by field_simp, abs_mul, abs_of_pos hu]

theorem zpow_mul_zpow_sub (n : ℕ) (X : ℤ) : (10 : ℚ) ^ n * 10 ^ (X - n) = 10 ^ X := by
  rw [← zpow_natCast, ← zpow_add₀ (by norm_num), add_sub_cancel]

theorem decimal_bounds (hlow : 10 ^ n ≤ D) (hhigh : D < 10 ^ (n + 1)) (X : ℤ) :
    (10 : ℚ) ^ X ≤ D * 10 ^ (X - n) ∧ D * 10 ^ (X - n) < (10 : ℚ) ^ (X + 1) := by
  constructor
  · rw [← zpow_mul_zpow_sub n X]
    exact mul_le_mul_of_nonneg_right (by exact_mod_cast hlow) (by positivity)
  · rw [← zpow_mul_zpow_sub (n + 1) (X + 1), Nat.cast_add_one, add_sub_add_right_eq_sub]
    exact mul_lt_mul_of_pos_right (by exact_mod_cast hhigh) (by positivity)

theorem decimal_unique (hlow : 10 ^ n ≤ D) (hhigh : D < 10 ^ (n + 1)) (hlow' : 10 ^ n ≤ D') (hhigh' : D' < 10 ^ (n + 1))
    (heq : (D : ℚ) * 10 ^ (X - n) = D' * 10 ^ (X' - n)) : D = D' ∧ X = X' := by
  obtain ⟨h1, h2⟩ := decimal_bounds hlow hhigh X
  obtain ⟨h1', h2'⟩ := decimal_bounds hlow' hhigh' X'
  have hle := (zpow_lt_zpow_iff_right₀ (by norm_num : (1 : ℚ) < 10)).1 ((heq ▸ h1).trans_lt h2')
  have hge := (zpow_lt_zpow_iff_right₀ (by norm_num : (1 : ℚ) < 10)).1 ((heq ▸ h1').trans_lt h2)
  obtain rfl : X = X' := by omega
  have hD : (D : ℚ) = D' := mul_right_cancel₀ (zpow_ne_zero _ (by norm_num)) heq
  exact ⟨by exact_mod_cast hD, rfl⟩

/-- A coarser decimal is a whole number of units, and an even one if it is coarser by a digit at least. -/
theorem exists_units (D : ℕ) (hX : place ≤ X - n) :
    ∃ k : ℕ, (D : ℚ) * 10 ^ (X - n) = k * 10 ^ place ∧ (place < X - n → Even k) ∧ (X - n = place → k = D) := by
  obtain ⟨j, hj⟩ := Int.eq_ofNat_of_zero_le (sub_nonneg.2 hX)
  refine ⟨D * 10 ^ j, ?_, fun hlt => ?_, fun heq => ?_⟩
  · rw [show X - n = j + place by omega, zpow_add₀ (by norm_num), zpow_natCast]
    push_cast
    ring
  · exact (Nat.even_pow.2 ⟨by decide, by omega⟩).mul_left D
  · rw [show j = 0 by omega, Nat.pow_zero, Nat.mul_one]

namespace Significant

theorem nearest_unit (h : Significant n a place D) (k : ℕ) : |a - D * 10 ^ place| ≤ |a - k * 10 ^ place| := by
  have hu : (0 : ℚ) < 10 ^ place := by positivity
  rw [abs_sub_mul_eq hu, abs_sub_mul_eq hu]
  exact mul_le_mul_of_nonneg_right (h.half.nearest k) hu.le

/-- A decimal with fewer digits before the point lies below all of the decade, and farther off than its start. -/
theorem farther (h : Significant n a place D) (hhigh : D' < 10 ^ (n + 1)) (hX : X - n < place) :
    |a - D * 10 ^ place| < |a - D' * 10 ^ (X - n)| := by
  have hbelow : D' * 10 ^ (X - n) < (10 : ℚ) ^ n * 10 ^ place := by
    calc (D' : ℚ) * 10 ^ (X - n) < 10 ^ (n + 1) * 10 ^ (X - n) :=
          mul_lt_mul_of_pos_right (by exact_mod_cast hhigh) (by positivity)
      _ ≤ 10 ^ (n + 1) * 10 ^ (place - 1) :=
          mul_le_mul_of_nonneg_left (zpow_le_zpow_right₀ (by norm_num) (by omega)) (by positivity)
      _ = 10 ^ n * 10 ^ place := by
          rw [zpow_sub_one₀ (by norm_num), pow_succ]
          ring
  refine (h.nearest_unit (10 ^ n)).trans_lt ?_
  have hlow := h.low
  rw [Nat.cast_pow, Nat.cast_ofNat, abs_of_nonneg (by linarith), abs_of_nonneg (by linarith)]
  linarith

/-- No decimal of as many digits is nearer. -/
theorem abs_sub_le (h : Significant n a place D) (hhigh : D' < 10 ^ (n + 1)) (X : ℤ) :
    |a - D * 10 ^ place| ≤ |a - D' * 10 ^ (X - n)| := by
  rcases lt_or_ge (X - n) place with hX | hX
  · exact (h.farther hhigh hX).le
  · obtain ⟨k, hk, -⟩ := exists_units D' hX
    rw [hk]
    exact h.nearest_unit k

theorem even_of_tie (h : Significant n a place D) (hhigh : D' < 10 ^ (n + 1))
    (hne : (D' : ℚ) * 10 ^ (X - n) ≠ D * 10 ^ place)
    (heq : |a - D' * 10 ^ (X - n)| = |a - D * 10 ^ place|) : Even D := by
  rcases lt_or_ge (X - n) place with hX | hX
  · exact absurd heq (h.farther hhigh hX).ne'
  · have hu : (0 : ℚ) < 10 ^ place := by positivity
    obtain ⟨k, hk, -⟩ := exists_units D' hX
    rw [hk, abs_sub_mul_eq hu, abs_sub_mul_eq hu] at heq
    rw [hk] at hne
    refine h.half.even_of_tie (k := k) ?_ (mul_right_cancel₀ hu.ne' heq)
    rintro rfl
    exact hne rfl

/-- Written with as many digits and not made odd, the rounded value is the nearest decimal. -/
theorem nearestDecimal (h : Significant n a place D) (hlow : 10 ^ n ≤ D') (hhigh : D' < 10 ^ (n + 1))
    (hvalue : (D' : ℚ) * 10 ^ (X - n) = D * 10 ^ place) (heven : Even D → Even D') : NearestDecimal n a D' X where
  low := hlow
  high := hhigh
  nearest := by
    intro D₁ X₁ _ hhigh₁
    rw [hvalue]
    exact h.abs_sub_le hhigh₁ X₁
  even := by
    intro D₁ X₁ _ hhigh₁ hne heq
    rw [hvalue] at hne heq
    exact heven (h.even_of_tie hhigh₁ hne heq)

theorem nearestDecimal_of_lt (h : Significant n a place D) (hlt : D < 10 ^ (n + 1)) :
    NearestDecimal n a D (place + n) :=
  h.nearestDecimal h.le_coefficient hlt (by rw [add_sub_cancel_right]) id

theorem carried_value (n : ℕ) (place : ℤ) :
    ((10 ^ n : ℕ) : ℚ) * 10 ^ (place + 1 + n - n) = (10 ^ (n + 1) : ℕ) * 10 ^ place := by
  rw [add_sub_cancel_right, zpow_add_one₀ (by norm_num), pow_succ]
  push_cast
  ring

/-- Digits that round up to a power of ten are that power, a place further up. -/
theorem nearestDecimal_of_carry (hn : 0 < n) (h : Significant n a place (10 ^ (n + 1))) :
    NearestDecimal n a (10 ^ n) (place + 1 + n) :=
  h.nearestDecimal le_rfl (Nat.pow_lt_pow_right (by decide) (Nat.lt_succ_self n)) (carried_value n place) fun _ =>
    Nat.even_pow.2 ⟨by decide, hn.ne'⟩

/-- Digits that carry are the nearest decimal a place further up, all others as they are. Rounding at the place of the
last digit gives the same digits again. -/
theorem exists_nearestDecimal (hn : 0 < n) (h : Significant n a place D) :
    ∃ D' X, NearestDecimal n a D' X ∧ (D' : ℚ) * 10 ^ (X - n) = D * 10 ^ place ∧
      Scientific.ofCoefficient D' (X - n) = Scientific.ofCoefficient D place ∧ HalfEven (a / 10 ^ (X - n)) D' := by
  rcases h.coefficient_le.lt_or_eq with hlt | rfl
  · have hplace : place + n - n = place := add_sub_cancel_right _ _
    refine ⟨D, place + n, h.nearestDecimal_of_lt hlt, by rw [hplace], by rw [hplace], ?_⟩
    rw [hplace]
    exact h.half
  · have hplace : place + 1 + n - n = place + 1 := add_sub_cancel_right _ _
    have hvalue := carried_value n place
    refine ⟨10 ^ n, place + 1 + n, nearestDecimal_of_carry hn h, hvalue, ?_, ?_⟩
    · rw [hplace, pow_succ, Scientific.ofCoefficient_mul_ten (Nat.pow_pos (by decide)).ne']
    · -- the unit is ten times as large now, so what was near is nearer
      rw [halfEven_div_iff (by positivity), hvalue]
      refine ⟨h.near.trans ?_, fun _ => Nat.even_pow.2 ⟨by decide, hn.ne'⟩⟩
      have hu : (0 : ℚ) < 10 ^ place := by positivity
      rw [hplace, zpow_add_one₀ (by norm_num)]
      linarith

theorem eq_of_nearestDecimal (hn : 0 < n) (h : Significant n a place D) (hd : NearestDecimal n a D' X) :
    (D' : ℚ) * 10 ^ (X - n) = D * 10 ^ place := by
  obtain ⟨D₁, X₁, hd₁, hvalue, -⟩ := h.exists_nearestDecimal hn
  have hu : (0 : ℚ) < 10 ^ place := by positivity
  have htie : |a - D₁ * 10 ^ (X₁ - n)| = |a - D' * 10 ^ (X - n)| :=
    le_antisymm (hd₁.nearest D' X hd.low hd.high) (hd.nearest D₁ X₁ hd₁.low hd₁.high)
  by_contra hne
  rcases lt_or_ge (X - n) place with hX | hX
  · have hfar := h.farther hd.high hX
    rw [← hvalue, htie] at hfar
    exact lt_irrefl _ hfar
  · obtain ⟨k, hk, hcoarse, hsame⟩ := exists_units D' hX
    have hdist : |a / 10 ^ place - k| = |a / 10 ^ place - D| := by
      rw [hvalue, hk, abs_sub_mul_eq hu, abs_sub_mul_eq hu] at htie
      exact (mul_right_cancel₀ hu.ne' htie).symm
    -- both would be even, and they are neighbours
    have hhalf : HalfEven (a / 10 ^ place) k := by
      refine ⟨hdist ▸ h.half.near, fun _ => ?_⟩
      rcases hX.lt_or_eq with hlt | heq
      · exact hcoarse hlt
      · rw [hsame heq.symm]
        exact hd.even D₁ X₁ hd₁.low hd₁.high (fun hv => hne (hv.symm.trans hvalue)) htie
    rw [hk, h.half.unique hhalf] at hne
    exact hne rfl

end Significant

end Decimal

/-! ### The text of a number -/

/-- The fourteen digits of `a`, of which the first stands for `10 ^ X`; zero has the digit 0 alone. -/
def FourteenDigits (a : ℚ) (D : ℕ) (X : ℤ) : Prop := if a = 0 then D = 0 ∧ X = 0 else NearestDecimal 13 a D X

namespace Binary64

variable {x : Binary64} {D : ℕ} {X : ℤ}

theorem abs_toRat (x : Binary64) : |x.toRat| = x.absolute := by
  rw [toRat, absolute, abs_div, abs_of_pos scale_cast_pos, ← natAbs_units, Nat.cast_natAbs, Int.cast_abs]

theorem generalNotation_integer {N : ℕ} (hlow : 10 ^ 13 ≤ D) (hhigh : D < 10 ^ 14)
    (heq : (D : ℚ) * 10 ^ (X - (13 : ℕ)) = N) (hN : N < 10 ^ 14) : generalNotation D X = Nat.toDigits 10 N := by
  obtain ⟨h1, h2⟩ := decimal_bounds hlow hhigh X
  rw [heq] at h1 h2
  have hX : X < (14 : ℕ) := by
    refine (zpow_lt_zpow_iff_right₀ (by norm_num : (1 : ℚ) < 10)).1 (h1.trans_lt ?_)
    rw [zpow_natCast]
    exact_mod_cast hN
  have hX' : 0 ≤ X := by
    have hpos : (0 : ℚ) < N := lt_of_lt_of_le (by positivity) h1
    have hone : (10 : ℚ) ^ (0 : ℤ) ≤ N := by
      rw [zpow_zero]
      exact_mod_cast hpos
    have := (zpow_lt_zpow_iff_right₀ (by norm_num : (1 : ℚ) < 10)).1 (hone.trans_lt h2)
    omega
  obtain ⟨k, hk⟩ : ∃ k : ℕ, X - (13 : ℕ) = -k := ⟨(13 - X).toNat, by omega⟩
  have hD : D = N * 10 ^ k := by
    rw [hk, zpow_neg, zpow_natCast, ← div_eq_mul_inv, div_eq_iff (by positivity)] at heq
    exact_mod_cast heq
  rw [generalNotation, if_pos ⟨by omega, by omega⟩, show (13 - X).toNat = k by omega, trimFraction_fixedNotation, hD,
    lastDigits_mul, Nat.mul_div_cancel _ (Nat.pow_pos (by decide))]
  simp [trimZeros, Layout.joinPoint]

variable {s : Bool} {m e : ℕ} {h : Canonical m e}

/-- The digits that are shown are those of the nearest decimal. -/
theorem display_of_nearestDecimal (hm : (finite s m e h).magnitude ≠ 0)
    (hd : NearestDecimal 13 (finite s m e h).absolute D X) :
    (finite s m e h).display = signed s (generalNotation D X) ∧
      HalfEven ((finite s m e h).absolute / 10 ^ (X - (13 : ℕ))) D := by
  obtain ⟨place, D₀, hsig⟩ := exists_significant hm 13
  obtain ⟨D₁, X₁, hd₁, hvalue, hdigits, hhalf⟩ := hsig.exists_nearestDecimal (by decide)
  obtain ⟨rfl, rfl⟩ := decimal_unique hd.low hd.high hd₁.low hd₁.high
    ((hsig.eq_of_nearestDecimal (by decide) hd).trans hvalue.symm)
  refine ⟨?_, hhalf⟩
  rw [display, toSignificant_eq hm hsig, ← hdigits]
  exact congrArg (signed s) (write_ofCoefficient hd.low hd.high X)

theorem signed_eq (s : Bool) (body : List Char) :
    signed s body = String.ofList ((if s then ['-'] else []) ++ body) := by
  cases s <;> rfl

theorem display_zero (s : Bool) : (zero s).display = signed s ['0'] := rfl

theorem generalNotation_zero : generalNotation 0 0 = ['0'] := by decide

theorem absolute_eq_zero (hx : x.magnitude = 0) : x.absolute = 0 := by
  rw [absolute, hx, Nat.cast_zero, zero_div]

theorem display_integer {i : ℤ} (hi : x.toInt? = some i) (hsmall : i.natAbs < 10 ^ 14) :
    x.display = signed x.negative (Nat.toDigits 10 i.natAbs) := by
  obtain ⟨hf, -⟩ := toInt?_eq_some_iff.1 hi
  rcases x with _ | _ | ⟨s, m, e, h⟩
  · contradiction
  · contradiction
  by_cases hm : (finite s m e h).magnitude = 0
  · rw [eq_zero_of_magnitude hm] at hi ⊢
    rw [toInt?_of_isZero rfl] at hi
    cases hi
    exact display_zero s
  · obtain ⟨place, D₀, hsig⟩ := exists_significant hm 13
    obtain ⟨D, X, hd, hvalue, -⟩ := hsig.exists_nearestDecimal (by decide)
    have hinteger : (D : ℚ) * 10 ^ (X - (13 : ℕ)) = i.natAbs := by
      rw [hvalue, coefficient_mul_eq hi hsmall hsig, absolute_of_toInt? hi]
    rw [(display_of_nearestDecimal hm hd).1, generalNotation_integer hd.low hd.high hinteger hsmall]
    rfl

/-- The text of a finite number is that of its fourteen digits in general notation, after a `-` if the sign bit is set.
The digits are also what rounding at the place of the last of them gives, and an integer below `10 ^ 14` is written out
as it is. -/
theorem display_general_notation (x : Binary64) (hx : x.isFinite = true) :
    (∃ D X, FourteenDigits |x.toRat| D X) ∧
    (∀ D X, FourteenDigits |x.toRat| D X →
      x.display = String.ofList ((if x.negative then ['-'] else []) ++ generalNotation D X) ∧
      HalfEven (|x.toRat| / 10 ^ (X - 13)) D) ∧
    ∀ i, x.toInt? = some i → i.natAbs < 10 ^ 14 →
      x.display = String.ofList ((if x.negative then ['-'] else []) ++ Nat.toDigits 10 i.natAbs) := by
  simp only [← signed_eq, abs_toRat]
  refine ⟨?_, ?_, fun i hi hsmall => display_integer hi hsmall⟩
  · by_cases hm : x.magnitude = 0
    · exact ⟨0, 0, by rw [FourteenDigits, if_pos (absolute_eq_zero hm)]; exact ⟨rfl, rfl⟩⟩
    · obtain ⟨place, D₀, hsig⟩ := exists_significant hm 13
      obtain ⟨D, X, hd, -⟩ := hsig.exists_nearestDecimal (by decide)
      exact ⟨D, X, by rwa [FourteenDigits, if_neg hsig.pos.ne']⟩
  · intro D X hdigits
    rcases x with _ | _ | ⟨s, m, e, h⟩
    · contradiction
    · contradiction
    by_cases hm : (finite s m e h).magnitude = 0
    · rw [FourteenDigits, if_pos (absolute_eq_zero hm)] at hdigits
      obtain ⟨rfl, rfl⟩ := hdigits
      rw [absolute_eq_zero hm, eq_zero_of_magnitude hm, generalNotation_zero, zero_div]
      exact ⟨display_zero s, by exact_mod_cast HalfEven.natCast 0⟩
    · obtain ⟨place, D₀, hsig⟩ := exists_significant hm 13
      rw [FourteenDigits, if_neg hsig.pos.ne'] at hdigits
      exact display_of_nearestDecimal hm hdigits

/-- Half a unit of the last digit below `10 ^ 14`, where the digits carry into the other notation. -/
theorem display_general_notation_carried :
    let x := finite true 6399999999999968 1068 (by decide)
    x.toInt? = none ∧ x.display = "-1e+14" ∧
      ∃ D X, FourteenDigits |x.toRat| D X ∧ x.display = String.ofList (['-'] ++ generalNotation D X) := by
  intro x
  obtain ⟨⟨D, X, hd⟩, htext, -⟩ := display_general_notation x rfl
  exact ⟨by decide +kernel, by decide +kernel, D, X, hd, (htext D X hd).1⟩

end Binary64

end Tabula
