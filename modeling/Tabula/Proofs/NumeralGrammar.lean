import Mathlib.Data.List.TakeWhile
import Mathlib.Tactic.Common
import Tabula.Numeral

/-!
The language of numeric strings, written down part by part, and the reader held to it. The reader accepts a text exactly
if it can be put together from such parts, and there is only one way to do so.
-/

namespace Tabula.Numeral

-- what is said of all members of a list or option of characters is decided on these, not on all characters
attribute [scoped instance (high)] List.decidableBAll Option.decidableForallMem

/-! ### Characters -/

def blanks : List Char := [' ', '\t', '\n', '\r', '\x0b', '\x0c']

def decimalDigits : List Char := ['0', '1', '2', '3', '4', '5', '6', '7', '8', '9']

def hexadecimalDigits : List Char :=
  decimalDigits ++ ['a', 'b', 'c', 'd', 'e', 'f', 'A', 'B', 'C', 'D', 'E', 'F']

theorem mem_of_le_of_le {a b c : Char} {cs : List Char} (ha : a ≤ c) (hb : c ≤ b)
    (hall : ∀ n ∈ List.range' a.toNat (b.toNat + 1 - a.toNat), Char.ofNat n ∈ cs) : c ∈ cs := by
  have hlow : a.toNat ≤ c.toNat := UInt32.le_iff_toNat_le.1 (Char.le_def.1 ha)
  have hhigh : c.toNat ≤ b.toNat := UInt32.le_iff_toNat_le.1 (Char.le_def.1 hb)
  rw [← Char.ofNat_toNat c]
  refine hall _ (List.mem_range'_1.2 ⟨hlow, by omega⟩)

theorem isBlank_iff {c : Char} : isBlank c = true ↔ c ∈ blanks := by
  constructor
  · intro h
    simp only [isBlank, Bool.or_eq_true, beq_iff_eq, Bool.and_eq_true, decide_eq_true_eq] at h
    rcases h with rfl | ⟨hlow, hhigh⟩
    · decide
    · exact mem_of_le_of_le hlow hhigh (by decide)
  · intro h
    have hall : ∀ c ∈ blanks, isBlank c = true := by decide
    exact hall c h

theorem digit?_isSome_iff {c : Char} : (digit? c).isSome = true ↔ c ∈ decimalDigits := by
  constructor
  · intro h
    unfold digit? at h
    split_ifs at h with hc
    · exact mem_of_le_of_le hc.1 hc.2 (by decide)
    · contradiction
  · intro h
    have hall : ∀ c ∈ decimalDigits, (digit? c).isSome = true := by decide
    exact hall c h

theorem forall_digit?_isSome_iff {run : List Char} :
    (∀ c ∈ run, (digit? c).isSome = true) ↔ ∀ c ∈ run, c ∈ decimalDigits := by
  simp only [digit?_isSome_iff]

theorem hexDigit?_isSome_iff {c : Char} : (hexDigit? c).isSome = true ↔ c ∈ hexadecimalDigits := by
  constructor
  · intro h
    unfold hexDigit? at h
    split_ifs at h with h1 h2 h3
    · exact mem_of_le_of_le h1.1 h1.2 (by decide)
    · exact mem_of_le_of_le h2.1 h2.2 (by decide)
    · exact mem_of_le_of_le h3.1 h3.2 (by decide)
    · contradiction
  · intro h
    have hall : ∀ c ∈ hexadecimalDigits, (hexDigit? c).isSome = true := by decide
    exact hall c h

/-! ### The parts of a numeric string -/

structure ExponentPart where
  mark : Char
  sign : Option Char
  digits : List Char
  mark_mem : mark ∈ ['e', 'E']
  sign_mem : ∀ c ∈ sign, c ∈ ['-', '+']
  digits_mem : ∀ c ∈ digits, c ∈ decimalDigits
  digits_ne_nil : digits ≠ []

def ExponentPart.chars (x : ExponentPart) : List Char := x.mark :: (x.sign.toList ++ x.digits)

def ExponentPart.value (x : ExponentPart) : Int :=
  if x.sign = some '-' then -(Nat.ofDigitChars 10 x.digits 0 : Int) else Nat.ofDigitChars 10 x.digits 0

/-- An unsigned numeral as it is written. A decimal has a digit before its point or after it, and may have no point. -/
inductive Literal where
  | hexadecimal (mark : Char) (digits : List Char) (mark_mem : mark ∈ ['x', 'X'])
      (digits_mem : ∀ c ∈ digits, c ∈ hexadecimalDigits) (digits_ne_nil : digits ≠ [])
  | decimal (whole : List Char) (fraction : Option (List Char)) (exponent : Option ExponentPart)
      (whole_mem : ∀ c ∈ whole, c ∈ decimalDigits) (fraction_mem : ∀ f ∈ fraction, ∀ c ∈ f, c ∈ decimalDigits)
      (some_digit : whole ≠ [] ∨ ∃ f ∈ fraction, f ≠ [])

def Literal.chars : Literal → List Char
  | hexadecimal mark digits .. => '0' :: mark :: digits
  | decimal whole fraction exponent .. =>
    whole ++ (fraction.elim [] ('.' :: ·) ++ exponent.elim [] ExponentPart.chars)

def Literal.numeral : Literal → Numeral
  | hexadecimal _ digits .. => .hexadecimal (digits.filterMap hexDigit?)
  | decimal whole fraction exponent .. =>
    .decimal (whole.filterMap digit?) ((fraction.getD []).filterMap digit?) (exponent.elim 0 ExponentPart.value)

/-- A numeric string: a numeral, perhaps with a sign right before it, between blanks. -/
structure Spelling where
  before : List Char
  sign : Option Char
  literal : Literal
  after : List Char
  before_mem : ∀ c ∈ before, c ∈ blanks
  sign_mem : ∀ c ∈ sign, c ∈ ['-', '+']
  after_mem : ∀ c ∈ after, c ∈ blanks

def Spelling.chars (p : Spelling) : List Char := p.before ++ (p.sign.toList ++ (p.literal.chars ++ p.after))

/-! ### Runs of characters -/

/-- A text that does not go on with a character of a class. -/
def Stops (p : Char → Bool) (cs : List Char) : Prop := ∀ c ∈ cs.head?, p c = false

variable {p : Char → Bool} {run run' rest rest' : List Char}

theorem takeWhile_run (hrun : ∀ c ∈ run, p c = true) (hrest : Stops p rest) : (run ++ rest).takeWhile p = run := by
  rw [List.takeWhile_append_of_pos hrun]
  cases rest with
  | nil => simp
  | cons c cs => simp [hrest c rfl]

theorem dropWhile_run (hrun : ∀ c ∈ run, p c = true) (hrest : Stops p rest) : (run ++ rest).dropWhile p = rest := by
  rw [List.dropWhile_append_of_pos hrun]
  cases rest with
  | nil => rfl
  | cons c cs => simp [hrest c rfl]

/-- A text is cut in one way only at the end of a run. -/
theorem run_unique (hrun : ∀ c ∈ run, p c = true) (hrun' : ∀ c ∈ run', p c = true) (hrest : Stops p rest)
    (hrest' : Stops p rest') (heq : run ++ rest = run' ++ rest') : run = run' ∧ rest = rest' :=
  ⟨by rw [← takeWhile_run hrun hrest, heq, takeWhile_run hrun' hrest'],
    by rw [← dropWhile_run hrun hrest, heq, dropWhile_run hrun' hrest']⟩

theorem stops_dropWhile (p : Char → Bool) (cs : List Char) : Stops p (cs.dropWhile p) := by
  intro c hc
  have := List.head?_dropWhile_not p cs
  rw [hc] at this
  simpa using this

theorem takeDigits_run {digit? : Char → Option Nat} (hrun : ∀ c ∈ run, (digit? c).isSome = true)
    (hrest : Stops (fun c => (digit? c).isSome) rest) :
    takeDigits digit? (run ++ rest) = (run.filterMap digit?, rest) := by
  simp only [takeDigits, takeWhile_run hrun hrest, dropWhile_run hrun hrest]

theorem exists_run (digit? : Char → Option Nat) (cs : List Char) :
    ∃ run rest, cs = run ++ rest ∧ takeDigits digit? cs = (run.filterMap digit?, rest) ∧
      (∀ c ∈ run, (digit? c).isSome = true) ∧ Stops (fun c => (digit? c).isSome) rest :=
  ⟨_, _, List.takeWhile_append_dropWhile.symm, rfl,
    fun _ hc => List.mem_takeWhile_imp (p := fun c => (digit? c).isSome) hc, stops_dropWhile _ cs⟩

theorem filterMap_eq_nil_iff {digit? : Char → Option Nat} (hrun : ∀ c ∈ run, (digit? c).isSome = true) :
    run.filterMap digit? = [] ↔ run = [] := by
  cases run with
  | nil => simp
  | cons c cs =>
    obtain ⟨d, hd⟩ := Option.isSome_iff_exists.1 (hrun c List.mem_cons_self)
    simp [hd]

theorem length_filterMap {digit? : Char → Option Nat} (hrun : ∀ c ∈ run, (digit? c).isSome = true) :
    (run.filterMap digit?).length = run.length := by
  induction run with
  | nil => rfl
  | cons c cs ih =>
    obtain ⟨hc, hcs⟩ := List.forall_mem_cons.1 hrun
    obtain ⟨d, hd⟩ := Option.isSome_iff_exists.1 hc
    simp [hd, ih hcs]

theorem natOfDigits_filterMap (hrun : ∀ c ∈ run, c ∈ decimalDigits) :
    natOfDigits 10 (run.filterMap digit?) = Nat.ofDigitChars 10 run 0 := by
  rw [natOfDigits_eq]
  generalize 0 = n
  induction run generalizing n with
  | nil => rfl
  | cons c cs ih =>
    obtain ⟨hc, hcs⟩ := List.forall_mem_cons.1 hrun
    have hd : digit? c = some (c.toNat - '0'.toNat) := by
      have hsome := digit?_isSome_iff.2 hc
      unfold digit? at hsome ⊢
      split_ifs at hsome ⊢
      · rfl
      · contradiction
    rw [List.filterMap_cons_some hd, Nat.ofDigitChars_cons, ← ih hcs, Nat.mul_comm 10]
    rfl

theorem takeSign_sign {sign : Option Char} (hsign : ∀ c ∈ sign, c ∈ ['-', '+'])
    (hrest : ∀ c ∈ rest.head?, c ∉ ['-', '+']) :
    takeSign (sign.toList ++ rest) = (decide (sign = some '-'), rest) := by
  cases sign with
  | some c =>
    have hc := hsign c rfl
    simp only [List.mem_cons, List.not_mem_nil, or_false] at hc
    rcases hc with rfl | rfl <;> rfl
  | none =>
    rw [Option.toList_none, List.nil_append]
    cases rest with
    | nil => rfl
    | cons c cs =>
      have hc := hrest c rfl
      simp only [List.mem_cons, List.not_mem_nil, or_false, not_or] at hc
      unfold takeSign
      split
      · simp_all
      · simp_all
      · rfl

theorem exists_sign (cs : List Char) :
    ∃ (sign : Option Char) (rest : List Char), cs = sign.toList ++ rest ∧ (∀ c ∈ sign, c ∈ ['-', '+']) ∧
      takeSign cs = (decide (sign = some '-'), rest) := by
  unfold takeSign
  split
  · exact ⟨some '-', _, rfl, by simp, rfl⟩
  · exact ⟨some '+', _, rfl, by simp, rfl⟩
  · exact ⟨none, _, rfl, by simp, rfl⟩

/-! ### Exponents -/

/-- After a numeral there is nothing or a blank, and no part of a numeral can follow. -/
theorem not_mem_of_head?_mem_blanks (hrest : ∀ c ∈ rest.head?, c ∈ blanks) :
    Stops (fun c => (digit? c).isSome) rest ∧ Stops (fun c => (hexDigit? c).isSome) rest ∧
      ∀ c ∈ rest.head?, c ∉ ['.', 'e', 'E', 'x', 'X'] := by
  have hall : ∀ c ∈ blanks, (digit? c).isSome = false ∧ (hexDigit? c).isSome = false ∧
      c ∉ ['.', 'e', 'E', 'x', 'X'] := by decide
  exact ⟨fun c hc => (hall c (hrest c hc)).1, fun c hc => (hall c (hrest c hc)).2.1,
    fun c hc => (hall c (hrest c hc)).2.2⟩

theorem head?_not_sign (hrun : ∀ c ∈ run, c ∈ decimalDigits) (hne : run ≠ []) (rest : List Char) :
    ∀ c ∈ (run ++ rest).head?, c ∉ ['-', '+'] := by
  have hall : ∀ c ∈ decimalDigits, c ∉ ['-', '+'] := by decide
  cases run with
  | nil => contradiction
  | cons c cs =>
    intro d hd
    obtain rfl : c = d := by simpa using hd
    exact hall c (hrun c List.mem_cons_self)

theorem takeExponent_part (x : Option ExponentPart) (hrest : ∀ c ∈ rest.head?, c ∈ blanks) :
    takeExponent (x.elim [] ExponentPart.chars ++ rest) = (x.elim 0 ExponentPart.value, rest) := by
  obtain ⟨hdigit, -, hother⟩ := not_mem_of_head?_mem_blanks hrest
  cases x with
  | none =>
    rw [Option.elim_none, Option.elim_none, List.nil_append]
    cases rest with
    | nil => rfl
    | cons c cs =>
      have hc := hother c rfl
      simp only [List.mem_cons, List.not_mem_nil, or_false, not_or] at hc
      simp [takeExponent, hc]
  | some x =>
    obtain ⟨mark, sign, digits, hmark, hsign, hdigits, hne⟩ := x
    have hrun := forall_digit?_isSome_iff.2 hdigits
    have hmark' : (mark == 'e' || mark == 'E') = true := by simpa using hmark
    obtain ⟨d, ds, hds⟩ := List.exists_cons_of_ne_nil ((filterMap_eq_nil_iff hrun).not.2 hne)
    simp only [Option.elim_some, ExponentPart.chars, List.cons_append, List.append_assoc, takeExponent, hmark', if_true,
      takeSign_sign hsign (head?_not_sign hdigits hne rest), takeDigits_run hrun hdigit, hds, ExponentPart.value,
      decide_eq_true_eq]
    rw [← hds, natOfDigits_filterMap hdigits]

theorem exists_exponent (cs : List Char) :
    ∃ (x : Option ExponentPart) (rest : List Char), cs = x.elim [] ExponentPart.chars ++ rest ∧
      takeExponent cs = (x.elim 0 ExponentPart.value, rest) := by
  cases cs with
  | nil => exact ⟨none, [], rfl, rfl⟩
  | cons mark tail =>
    by_cases hmark : (mark == 'e' || mark == 'E') = true
    · obtain ⟨sign, afterSign, rfl, hsign, htake⟩ := exists_sign tail
      obtain ⟨digits, rest, rfl, hdigits, hrun, -⟩ := exists_run digit? afterSign
      have hmem := forall_digit?_isSome_iff.1 hrun
      by_cases hne : digits = []
      · refine ⟨none, _, rfl, ?_⟩
        simp only [takeExponent, hmark, if_true, htake, hdigits, (filterMap_eq_nil_iff hrun).2 hne, Option.elim_none]
      · obtain ⟨d, ds, hds⟩ := List.exists_cons_of_ne_nil ((filterMap_eq_nil_iff hrun).not.2 hne)
        refine ⟨some ⟨mark, sign, digits, by simpa using hmark, hsign, hmem, hne⟩, rest, ?_, ?_⟩
        · simp [ExponentPart.chars]
        · simp only [takeExponent, hmark, if_true, htake, hdigits, hds, Option.elim_some, ExponentPart.value,
            decide_eq_true_eq]
          rw [← hds, natOfDigits_filterMap hmem]
    · refine ⟨none, _, rfl, ?_⟩
      simp only [takeExponent, if_neg hmark, Option.elim_none]

/-! ### Numerals -/

theorem stops_point (cs : List Char) : Stops (fun c => (digit? c).isSome) ('.' :: cs) := by
  intro c hc
  obtain rfl : '.' = c := by simpa using hc
  rfl

theorem takeMantissa?_parts {whole : List Char} {fraction : Option (List Char)}
    (hwhole : ∀ c ∈ whole, c ∈ decimalDigits) (hfraction : ∀ f ∈ fraction, ∀ c ∈ f, c ∈ decimalDigits)
    (hsome : whole ≠ [] ∨ ∃ f ∈ fraction, f ≠ []) (hdigit : Stops (fun c => (digit? c).isSome) rest)
    (hpoint : ∀ c ∈ rest.head?, c ≠ '.') :
    takeMantissa? (whole ++ (fraction.elim [] ('.' :: ·) ++ rest)) =
      some ((whole.filterMap digit?, (fraction.getD []).filterMap digit?), rest) := by
  have hw := forall_digit?_isSome_iff.2 hwhole
  cases fraction with
  | some f =>
    have hf := forall_digit?_isSome_iff.2 (hfraction f rfl)
    rw [Option.elim_some, List.cons_append, takeMantissa?, takeDigits_run hw (stops_point _)]
    cases hws : whole.filterMap digit? with
    | nil =>
      have hne : f ≠ [] := by
        rcases hsome with h | ⟨f', hf', h⟩
        · exact absurd ((filterMap_eq_nil_iff hw).1 hws) h
        · rwa [Option.some.inj hf']
      obtain ⟨d, ds, hds⟩ := List.exists_cons_of_ne_nil ((filterMap_eq_nil_iff hf).not.2 hne)
      simp only [takeDigits_run hf hdigit, hds, Option.getD_some]
    | cons d ds => simp only [takeDigits_run hf hdigit, Option.getD_some]
  | none =>
    have hne : whole ≠ [] := by
      rcases hsome with h | ⟨f', hf', -⟩
      · exact h
      · contradiction
    obtain ⟨d, ds, hds⟩ := List.exists_cons_of_ne_nil ((filterMap_eq_nil_iff hw).not.2 hne)
    rw [Option.elim_none, List.nil_append, takeMantissa?, takeDigits_run hw hdigit, hds]
    cases rest with
    | nil => rfl
    | cons c cs =>
      have hc := hpoint c rfl
      split <;> simp_all

theorem exists_mantissa {cs : List Char} {w f : List Nat} (h : takeMantissa? cs = some ((w, f), rest)) :
    ∃ (whole : List Char) (fraction : Option (List Char)), cs = whole ++ (fraction.elim [] ('.' :: ·) ++ rest) ∧
      (∀ c ∈ whole, c ∈ decimalDigits) ∧ (∀ f ∈ fraction, ∀ c ∈ f, c ∈ decimalDigits) ∧
      (whole ≠ [] ∨ ∃ f ∈ fraction, f ≠ []) ∧
      w = whole.filterMap digit? ∧ f = (fraction.getD []).filterMap digit? := by
  obtain ⟨whole, afterWhole, rfl, hwhole, hrun, -⟩ := exists_run digit? cs
  have hmem := forall_digit?_isSome_iff.1 hrun
  unfold takeMantissa? at h
  rw [hwhole] at h
  split at h
  · next tail heq =>
    obtain ⟨hw, rfl⟩ := Prod.mk.inj heq
    obtain ⟨digits, rest', rfl, hdigits, hrun', -⟩ := exists_run digit? tail
    rw [hdigits] at h
    split at h
    · contradiction
    · next ds rest'' hne heq' =>
      obtain ⟨rfl, rfl⟩ := Prod.mk.inj heq'
      obtain ⟨⟨rfl, rfl⟩, rfl⟩ : ([] = w ∧ digits.filterMap digit? = f) ∧ rest' = rest := by simpa using h
      refine ⟨whole, some digits, rfl, hmem, ?_, .inr ⟨digits, rfl, ?_⟩, hw.symm, rfl⟩
      · rintro _ ⟨⟩
        exact forall_digit?_isSome_iff.1 hrun'
      · exact (filterMap_eq_nil_iff hrun').not.1 hne
  · contradiction
  · next ws tail hne heq =>
    obtain ⟨rfl, rfl⟩ := Prod.mk.inj heq
    obtain ⟨digits, rest', rfl, hdigits, hrun', -⟩ := exists_run digit? tail
    rw [hdigits] at h
    obtain ⟨⟨rfl, rfl⟩, rfl⟩ : (whole.filterMap digit? = w ∧ digits.filterMap digit? = f) ∧ rest' = rest := by
      simpa using h
    refine ⟨whole, some digits, rfl, hmem, ?_, .inl ?_, rfl, rfl⟩
    · rintro _ ⟨⟩
      exact forall_digit?_isSome_iff.1 hrun'
    · exact (filterMap_eq_nil_iff hrun).not.1 hne
  · next ws rest' _ hne _ heq =>
    obtain ⟨rfl, rfl⟩ := Prod.mk.inj heq
    obtain ⟨⟨rfl, rfl⟩, rfl⟩ : (whole.filterMap digit? = w ∧ [] = f) ∧ afterWhole = rest := by simpa using h
    exact ⟨whole, none, rfl, hmem, by simp, .inl ((filterMap_eq_nil_iff hrun).not.1 hne), rfl, rfl⟩

theorem mantissa_unique {whole whole' : List Char} {fraction fraction' : Option (List Char)}
    (hwhole : ∀ c ∈ whole, c ∈ decimalDigits) (hwhole' : ∀ c ∈ whole', c ∈ decimalDigits)
    (hfraction : ∀ f ∈ fraction, ∀ c ∈ f, c ∈ decimalDigits) (hfraction' : ∀ f ∈ fraction', ∀ c ∈ f, c ∈ decimalDigits)
    (hrest : Stops (fun c => (digit? c).isSome) rest ∧ ∀ c ∈ rest.head?, c ≠ '.')
    (hrest' : Stops (fun c => (digit? c).isSome) rest' ∧ ∀ c ∈ rest'.head?, c ≠ '.')
    (h : whole ++ (fraction.elim [] ('.' :: ·) ++ rest) = whole' ++ (fraction'.elim [] ('.' :: ·) ++ rest')) :
    whole = whole' ∧ fraction = fraction' ∧ rest = rest' := by
  have hw := forall_digit?_isSome_iff.2 hwhole
  have hw' := forall_digit?_isSome_iff.2 hwhole'
  cases fraction with
  | none =>
    cases fraction' with
    | none =>
      obtain ⟨rfl, htail⟩ := run_unique hw hw' hrest.1 hrest'.1 h
      exact ⟨rfl, rfl, htail⟩
    | some f' =>
      obtain ⟨-, htail⟩ := run_unique hw hw' hrest.1 (stops_point _) h
      exact absurd rfl (hrest.2 '.' (by rw [show rest = '.' :: (f' ++ rest') from htail]; rfl))
  | some f =>
    cases fraction' with
    | none =>
      obtain ⟨-, htail⟩ := run_unique hw hw' (stops_point _) hrest'.1 h
      exact absurd rfl (hrest'.2 '.' (by rw [← show '.' :: (f ++ rest) = rest' from htail]; rfl))
    | some f' =>
      obtain ⟨rfl, htail⟩ := run_unique hw hw' (stops_point _) (stops_point _) h
      obtain ⟨rfl, rfl⟩ := run_unique (forall_digit?_isSome_iff.2 (hfraction f rfl))
        (forall_digit?_isSome_iff.2 (hfraction' f' rfl)) hrest.1 hrest'.1 (List.cons.inj htail).2
      exact ⟨rfl, rfl, rfl⟩

theorem head?_exponent (x : Option ExponentPart) (hrest : ∀ c ∈ rest.head?, c ∈ blanks) :
    Stops (fun c => (digit? c).isSome) (x.elim [] ExponentPart.chars ++ rest) ∧
      ∀ c ∈ (x.elim [] ExponentPart.chars ++ rest).head?, c ≠ '.' := by
  obtain ⟨hdigit, -, hother⟩ := not_mem_of_head?_mem_blanks hrest
  cases x with
  | none => exact ⟨hdigit, fun c hc hp => hother c hc (by simp [hp])⟩
  | some x =>
    have hall : ∀ c ∈ ['e', 'E'], (digit? c).isSome = false ∧ c ≠ '.' := by decide
    have hmark : ∀ c ∈ (x.chars ++ rest).head?, c ∈ ['e', 'E'] := by
      intro c hc
      obtain rfl : x.mark = c := by simpa [ExponentPart.chars] using hc
      exact x.mark_mem
    exact ⟨fun c hc => (hall c (hmark c hc)).1, fun c hc => (hall c (hmark c hc)).2⟩

namespace Literal

/-- A decimal has no `x` in it, so it is never taken for a hexadecimal. -/
theorem not_mark_of_decimal {whole : List Char} {fraction : Option (List Char)} {x : Option ExponentPart}
    (hwhole : ∀ c ∈ whole, c ∈ decimalDigits) (hfraction : ∀ f ∈ fraction, ∀ c ∈ f, c ∈ decimalDigits) :
    ∀ c ∈ whole ++ (fraction.elim [] ('.' :: ·) ++ x.elim [] ExponentPart.chars), c ∉ ['x', 'X'] := by
  have hall : ∀ c ∈ decimalDigits ++ ['.', 'e', 'E', '-', '+'], c ∉ ['x', 'X'] := by decide
  intro c hc
  apply hall
  rw [List.mem_append]
  rcases List.mem_append.1 hc with hc | hc
  · exact .inl (hwhole c hc)
  rcases List.mem_append.1 hc with hc | hc
  · cases fraction with
    | none => contradiction
    | some f =>
      rcases List.mem_cons.1 hc with rfl | hc
      · exact .inr (by decide)
      · exact .inl (hfraction f rfl c hc)
  · cases x with
    | none => contradiction
    | some x =>
      rcases List.mem_cons.1 hc with rfl | hc
      · have hmark : ∀ c ∈ ['e', 'E'], c ∈ ['.', 'e', 'E', '-', '+'] := by decide
        exact .inr (hmark _ x.mark_mem)
      rcases List.mem_append.1 hc with hc | hc
      · have hsign : ∀ c ∈ ['-', '+'], c ∈ ['.', 'e', 'E', '-', '+'] := by decide
        exact .inr (hsign c (x.sign_mem c (Option.mem_toList.1 hc)))
      · exact .inl (x.digits_mem c hc)

theorem takeHexadecimal?_eq_none {cs : List Char} (hne : cs ≠ []) (hcs : ∀ c ∈ cs, c ∉ ['x', 'X'])
    (hrest : ∀ c ∈ rest.head?, c ∉ ['x', 'X']) : takeHexadecimal? (cs ++ rest) = none := by
  unfold takeHexadecimal?
  split
  · next mark tail heq =>
    have hmark : mark ∉ ['x', 'X'] := by
      match cs, rest with
      | [], _ => contradiction
      | [_], [] => simp at heq
      | [_], c :: _ =>
        obtain ⟨-, rfl, -⟩ : _ ∧ c = mark ∧ _ := by simpa using heq
        exact hrest c rfl
      | _ :: c :: _, _ =>
        obtain ⟨-, rfl, -⟩ : _ ∧ c = mark ∧ _ := by simpa using heq
        exact hcs c (by simp)
    rw [if_neg (by simpa using hmark)]
  · rfl

/-- The reader takes a numeral off the text as it is written. -/
theorem take?_chars (l : Literal) (hrest : ∀ c ∈ rest.head?, c ∈ blanks) :
    take? (l.chars ++ rest) = some (l.numeral, rest) := by
  obtain ⟨-, hhex, hother⟩ := not_mem_of_head?_mem_blanks hrest
  cases l with
  | hexadecimal mark digits hmark hdigits hne =>
    have hrun : ∀ c ∈ digits, (hexDigit? c).isSome = true := fun c hc => hexDigit?_isSome_iff.2 (hdigits c hc)
    have hmark' : (mark == 'x' || mark == 'X') = true := by simpa using hmark
    obtain ⟨d, ds, hds⟩ := List.exists_cons_of_ne_nil ((filterMap_eq_nil_iff hrun).not.2 hne)
    simp only [chars, List.cons_append, take?, takeHexadecimal?, hmark', if_true, takeDigits_run hrun hhex, hds,
      numeral]
  | decimal whole fraction x hwhole hfraction hsome =>
    obtain ⟨hdigit, hpoint⟩ := head?_exponent x hrest
    have hne : whole ++ (fraction.elim [] ('.' :: ·) ++ x.elim [] ExponentPart.chars) ≠ [] := by
      rcases hsome with h | ⟨f, hf, -⟩
      · simp [h]
      · rw [Option.mem_def.1 hf]
        simp
    have hnone := takeHexadecimal?_eq_none hne (not_mark_of_decimal hwhole hfraction) fun c hc hmark =>
      hother c hc (by simp_all)
    have hmantissa := takeMantissa?_parts hwhole hfraction hsome hdigit hpoint
    rw [chars, take?, hnone]
    simp only [List.append_assoc, takeDecimal?, hmantissa, takeExponent_part x hrest, numeral]

theorem exists_of_take? {cs : List Char} {n : Numeral} (h : take? cs = some (n, rest)) :
    ∃ l : Literal, cs = l.chars ++ rest ∧ l.numeral = n := by
  unfold take? at h
  split at h
  · next result hhex =>
    obtain rfl : result = (n, rest) := by simpa using h
    unfold takeHexadecimal? at hhex
    split at hhex
    · next mark tail =>
      split_ifs at hhex with hmark
      obtain ⟨digits, rest', rfl, hdigits, hrun, -⟩ := exists_run hexDigit? tail
      rw [hdigits] at hhex
      split at hhex
      · contradiction
      · next ds rest'' hne heq =>
        obtain ⟨rfl, rfl⟩ := Prod.mk.inj heq
        obtain ⟨rfl, rfl⟩ : Numeral.hexadecimal (digits.filterMap hexDigit?) = n ∧ rest' = rest := by simpa using hhex
        refine ⟨.hexadecimal mark digits (by simpa using hmark) (fun c hc => hexDigit?_isSome_iff.1 (hrun c hc))
          ((filterMap_eq_nil_iff hrun).not.1 hne), rfl, rfl⟩
    · contradiction
  · unfold takeDecimal? at h
    split at h
    · next w f tail hmantissa =>
      obtain ⟨whole, fraction, rfl, hwhole, hfraction, hsome, rfl, rfl⟩ := exists_mantissa hmantissa
      obtain ⟨x, rest', rfl, hx⟩ := exists_exponent tail
      rw [hx] at h
      obtain ⟨rfl, rfl⟩ : Numeral.decimal (whole.filterMap digit?) ((fraction.getD []).filterMap digit?)
          (x.elim 0 ExponentPart.value) = n ∧ rest' = rest := by simpa using h
      exact ⟨.decimal whole fraction x hwhole hfraction hsome, by simp [chars], rfl⟩
    · contradiction

theorem head?_chars (l : Literal) (rest : List Char) : ∀ c ∈ (l.chars ++ rest).head?, c ∈ '.' :: decimalDigits := by
  intro c hc
  cases l with
  | hexadecimal mark digits _ _ _ =>
    obtain rfl : '0' = c := by simpa [chars] using hc
    decide
  | decimal whole fraction x hwhole _ hsome =>
    cases whole with
    | cons d ds =>
      obtain rfl : d = c := by simpa [chars] using hc
      exact List.mem_cons_of_mem _ (hwhole d List.mem_cons_self)
    | nil =>
      obtain ⟨f, rfl, -⟩ := hsome.resolve_left (by simp)
      obtain rfl : '.' = c := by simpa [chars] using hc
      decide

end Literal

theorem ExponentPart.chars_injective {x x' : Option ExponentPart}
    (h : x.elim [] ExponentPart.chars = x'.elim [] ExponentPart.chars) : x = x' := by
  cases x with
  | none =>
    cases x' with
    | none => rfl
    | some x' => simp [ExponentPart.chars] at h
  | some x =>
    cases x' with
    | none => simp [ExponentPart.chars] at h
    | some x' =>
      obtain ⟨mark, sign, digits, hmark, hsign, hdigits, hne⟩ := x
      obtain ⟨mark', sign', digits', hmark', hsign', hdigits', hne'⟩ := x'
      obtain ⟨rfl, htail⟩ : mark = mark' ∧ sign.toList ++ digits = sign'.toList ++ digits' := by
        simpa [ExponentPart.chars] using h
      -- a sign is told from the first digit
      have hs := takeSign_sign hsign (by simpa using head?_not_sign hdigits hne [])
      have hs' := takeSign_sign hsign' (by simpa using head?_not_sign hdigits' hne' [])
      rw [htail, hs'] at hs
      obtain ⟨-, rfl⟩ := Prod.mk.inj hs
      obtain rfl : sign = sign' := by
        have := List.append_cancel_right htail
        cases sign <;> cases sign' <;> simp_all
      rfl

namespace Literal

theorem chars_injective {l l' : Literal} (h : l.chars = l'.chars) : l = l' := by
  -- what is read tells hexadecimals from decimals
  have hnumeral : l.numeral = l'.numeral := by
    have h1 : take? (l.chars ++ []) = some (l.numeral, []) := l.take?_chars (by simp)
    have h2 : take? (l'.chars ++ []) = some (l'.numeral, []) := l'.take?_chars (by simp)
    rw [h, h2] at h1
    exact (Prod.mk.inj (Option.some.inj h1)).1.symm
  cases l with
  | hexadecimal mark digits _ _ _ =>
    cases l' with
    | hexadecimal mark' digits' _ _ _ =>
      obtain ⟨rfl, rfl⟩ : mark = mark' ∧ digits = digits' := by simpa [chars] using h
      rfl
    | decimal => simp [numeral] at hnumeral
  | decimal whole fraction x hwhole hfraction _ =>
    cases l' with
    | hexadecimal => simp [numeral] at hnumeral
    | decimal whole' fraction' x' hwhole' hfraction' _ =>
      have hend : ∀ x : Option ExponentPart, Stops (fun c => (digit? c).isSome) (x.elim [] ExponentPart.chars) ∧
          ∀ c ∈ (x.elim [] ExponentPart.chars).head?, c ≠ '.' := by
        intro x
        have hx := head?_exponent x (by simp : ∀ c ∈ ([] : List Char).head?, c ∈ blanks)
        rwa [List.append_nil] at hx
      obtain ⟨rfl, rfl, hx⟩ := mantissa_unique hwhole hwhole' hfraction hfraction' (hend x) (hend x') h
      obtain rfl := ExponentPart.chars_injective hx
      rfl

end Literal

namespace Spelling

theorem head?_after (p : Spelling) : ∀ c ∈ p.after.head?, c ∈ blanks := fun c hc =>
  p.after_mem c (List.mem_of_mem_head? hc)

theorem takeSign_chars (p : Spelling) :
    takeSign (p.sign.toList ++ (p.literal.chars ++ p.after)) =
      (decide (p.sign = some '-'), p.literal.chars ++ p.after) := by
  have hall : ∀ c ∈ '.' :: decimalDigits, c ∉ ['-', '+'] := by decide
  exact takeSign_sign p.sign_mem fun c hc => hall c (p.literal.head?_chars p.after c hc)

theorem stops_isBlank (p : Spelling) : Stops isBlank (p.sign.toList ++ (p.literal.chars ++ p.after)) := by
  have hall : ∀ c ∈ '-' :: '+' :: '.' :: decimalDigits, isBlank c = false := by decide
  intro c hc
  cases hs : p.sign with
  | none =>
    rw [hs, Option.toList_none, List.nil_append] at hc
    exact hall c (List.mem_cons_of_mem _ (List.mem_cons_of_mem _ (p.literal.head?_chars p.after c hc)))
  | some d =>
    obtain rfl : d = c := by simpa [hs] using hc
    have hd := p.sign_mem d hs
    simp only [List.mem_cons, List.not_mem_nil, or_false] at hd
    exact hall d (by simp only [List.mem_cons]; tauto)

theorem isBlank_before (p : Spelling) : ∀ c ∈ p.before, isBlank c = true := fun c hc =>
  isBlank_iff.2 (p.before_mem c hc)

/-- A text is put together in one way only. -/
theorem chars_injective {p p' : Spelling} (h : p.chars = p'.chars) : p = p' := by
  obtain ⟨hbefore, hrest⟩ := run_unique p.isBlank_before p'.isBlank_before p.stops_isBlank p'.stops_isBlank h
  have htake := p.takeSign_chars
  rw [hrest, p'.takeSign_chars] at htake
  obtain ⟨-, hbody⟩ := Prod.mk.inj htake
  have hsign : p.sign = p'.sign := by
    rw [hbody] at hrest
    have := List.append_cancel_right hrest
    cases hs : p.sign <;> cases hs' : p'.sign <;> simp_all
  have hread := p.literal.take?_chars p.head?_after
  rw [← hbody, p'.literal.take?_chars p'.head?_after] at hread
  obtain ⟨-, hafter⟩ := Prod.mk.inj (Option.some.inj hread)
  have hliteral : p.literal = p'.literal := by
    rw [hafter] at hbody
    exact Literal.chars_injective (List.append_cancel_right hbody).symm
  cases p
  cases p'
  simp_all

end Spelling

/-- A text that is spelled in parts is read as what its numeral stands for. -/
theorem parseNumber?_chars (p : Spelling) {s : String} (hs : p.chars = s.toList) :
    parseNumber? s = some (p.literal.numeral.value (decide (p.sign = some '-'))) := by
  have hafter : p.after.all isBlank = true := by
    rw [List.all_eq_true]
    exact fun c hc => isBlank_iff.2 (p.after_mem c hc)
  rw [parseNumber?, ← hs, Spelling.chars, dropWhile_run p.isBlank_before p.stops_isBlank]
  simp only [p.takeSign_chars, p.literal.take?_chars p.head?_after, hafter, if_true]

/-- What is read has been spelled in parts. -/
theorem exists_spelling {s : String} {x : Binary64} (h : parseNumber? s = some x) :
    ∃ p : Spelling, p.chars = s.toList := by
  obtain ⟨sign, body, hsign, hmem, htake⟩ := exists_sign (s.toList.dropWhile isBlank)
  simp only [parseNumber?, htake] at h
  split at h
  · next n rest hread =>
    split_ifs at h with hafter
    obtain ⟨l, rfl, -⟩ := Literal.exists_of_take? hread
    rw [List.all_eq_true] at hafter
    refine ⟨⟨s.toList.takeWhile isBlank, sign, l, rest, fun c hc => isBlank_iff.1 (List.mem_takeWhile_imp hc), hmem,
      fun c hc => isBlank_iff.1 (hafter c hc)⟩, ?_⟩
    rw [Spelling.chars, ← hsign, List.takeWhile_append_dropWhile]
  · contradiction

end Tabula.Numeral
