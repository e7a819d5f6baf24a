import Tabula.Proofs.NumeralValue
import Tabula.Toml.Document

/-!
Plain TOML documents: one header and, line by line, bare keys with decimal integers or truth values. Main statement:
such a text is read as one table with the written entries in their order, unless an integer has more than 64 bits; then
it is not TOML.
-/

namespace Tabula.Toml

open Numeral (decimalDigits digit? natOfDigits takeSign)
open scoped Numeral

/-! ### What is written -/

structure BareKey where
  name : String
  name_ne_empty : name ≠ ""
  bare : ∀ c ∈ name.toList, c.isAlphanum = true ∨ c = '-' ∨ c = '_'

inductive Literal where
  | integer (negative : Bool) (magnitude : ℕ)
  | boolean (b : Bool)

namespace Literal

def text : Literal → String
  | integer negative magnitude => (if negative then "-" else "") ++ magnitude.repr
  | boolean b => if b then "true" else "false"

def signed (negative : Bool) (magnitude : ℕ) : ℤ := if negative then -magnitude else magnitude

def toml? : Literal → Option Toml
  | integer negative magnitude =>
    let i := signed negative magnitude
    if -2 ^ 63 ≤ i ∧ i < 2 ^ 63 then some (.integer i) else none
  | boolean b => some (.boolean b)

end Literal

structure Assignment where
  key : BareKey
  value : Literal

namespace Assignment

def text (a : Assignment) : String := a.key.name ++ " = " ++ a.value.text

def pair? (a : Assignment) : Option (String × Toml) := a.value.toml?.map (a.key.name, ·)

end Assignment

inductive LineBreak where
  | lineFeed
  | returnFeed

def LineBreak.text : LineBreak → String
  | lineFeed => "\n"
  | returnFeed => "\r\n"

structure Section where
  /-- Each with the line break before it. -/
  lines : List (LineBreak × Assignment)
  /-- The line break at the end of the text, if there is one. -/
  last : Option LineBreak
  keys_nodup : (lines.map (·.2.key.name)).Nodup

namespace Section

def assignments (s : Section) : List Assignment := s.lines.map Prod.snd

def text (s : Section) (name : BareKey) : String :=
  "[" ++ name.name ++ "]" ++ String.join (s.lines.map fun l => l.1.text ++ l.2.text) ++ s.last.elim "" LineBreak.text

end Section

/-! ### Blanks and line ends -/

/-- At the end of a line, with the text after it. -/
inductive LineEnds : List Char → List Char → Prop
  | end_of_text : LineEnds [] []
  | lineFeed (rest : List Char) : LineEnds ('\n' :: rest) rest
  | returnFeed (rest : List Char) : LineEnds ('\r' :: '\n' :: rest) rest

variable {c : Char} {cs rest run left : List Char} {count low high n limit : ℕ}

theorem skipBlanks_cons (hc : isBlank c = false) : skipBlanks (c :: cs) = c :: cs :=
  List.dropWhile_cons_of_neg (by simp [hc])

theorem LineEnds.lineEnd?_eq (h : LineEnds cs rest) : lineEnd? cs = some rest := by
  cases h <;> rfl

theorem LineBreak.lineEnds (b : LineBreak) (rest : List Char) : LineEnds (b.text.toList ++ rest) rest := by
  cases b with
  | lineFeed => exact .lineFeed rest
  | returnFeed => exact .returnFeed rest

/-! ### Integers -/

theorem moreDigits?_run (hrun : ∀ c ∈ run, c ∈ decimalDigits) (hcs : LineEnds cs rest) :
    moreDigits? digit? (run ++ cs) = some (run.filterMap digit?, cs) := by
  induction run with
  | nil => cases hcs <;> rfl
  | cons c run ih =>
    obtain ⟨hc, hrun⟩ := List.forall_mem_cons.1 hrun
    obtain ⟨d, hd⟩ := Option.isSome_iff_exists.1 (Numeral.digit?_isSome_iff.2 hc)
    have hne : c ≠ '_' := by
      rintro rfl
      exact absurd hc (by decide)
    rw [List.cons_append, moreDigits?, hd, ih hrun, List.filterMap_cons_some hd]
    · rfl
    · exact fun _ _ h => absurd h hne
    · exact fun h => absurd h hne

/-- Only zero is written with a zero in front. -/
theorem head?_toDigits_ne (hn : 0 < n) : (Nat.toDigits 10 n).head? ≠ some '0' := by
  induction n using Nat.strongRecOn with
  | ind n ih =>
    by_cases hlt : n < 10
    · have hall : ∀ n < 10, 0 < n → [n.digitChar].head? ≠ some '0' := by decide
      rw [Nat.toDigits_of_lt_base hlt]
      exact hall n hlt hn
    · rw [Nat.toDigits_of_base_le (by decide) (by omega), List.head?_append_of_ne_nil _ Nat.toDigits_ne_nil]
      exact ih (n / 10) (by omega) (by omega)

theorem wholeDigits?_toDigits (n : ℕ) (hcs : LineEnds cs rest) :
    wholeDigits? (Nat.toDigits 10 n ++ cs) = some ((Nat.toDigits 10 n).filterMap digit?, cs) := by
  rcases n.eq_zero_or_pos with rfl | hn
  · rw [Nat.toDigits_zero]
    rfl
  · have hmem := Numeral.toDigits_mem n
    have hzero := head?_toDigits_ne hn
    cases hrun : Nat.toDigits 10 n with
    | nil => exact absurd hrun Nat.toDigits_ne_nil
    | cons c run =>
      rw [hrun] at hmem hzero
      obtain ⟨hc, hmem⟩ := List.forall_mem_cons.1 hmem
      obtain ⟨d, hd⟩ := Option.isSome_iff_exists.1 (Numeral.digit?_isSome_iff.2 hc)
      rw [List.cons_append, wholeDigits?, digits?, hd, moreDigits?_run hmem hcs, List.filterMap_cons_some hd]
      · rfl
      · rintro _ ⟨⟩
        exact hzero rfl

/-- A fixed number of digits does not go beyond the run that stands there. -/
theorem le_length_of_mapM_take {ds : List ℕ} (hcs : LineEnds cs rest)
    (h : ((run ++ cs).take count).mapM digit? = some ds) (hlen : ds.length = count) : count ≤ run.length := by
  induction run generalizing count ds with
  | nil =>
    cases count with
    | zero => exact Nat.le_refl 0
    | succ count =>
      -- where the run ends, the text ends or no digit follows
      cases hcs with
      | end_of_text =>
        cases h
        contradiction
      | lineFeed rest => cases h
      | returnFeed rest => cases h
  | cons c run ih =>
    cases count with
    | zero => exact Nat.zero_le _
    | succ count =>
      rw [List.cons_append, List.take_succ_cons, List.mapM_cons] at h
      obtain ⟨d, -, h⟩ := Option.bind_eq_some_iff.1 h
      obtain ⟨ds', hds, h⟩ := Option.bind_eq_some_iff.1 h
      cases h
      exact Nat.succ_le_succ (ih hds (Nat.succ.inj hlen))

theorem fixed?_run (hrun : ∀ c ∈ run, c ∈ decimalDigits) (hcs : LineEnds cs rest)
    (h : fixed? count low high (run ++ cs) = some (n, left)) :
    ∃ run', (∀ c ∈ run', c ∈ decimalDigits) ∧ left = run' ++ cs := by
  obtain ⟨ds, hds, h⟩ := Option.bind_eq_some_iff.1 h
  dsimp only at h
  split_ifs at h with hfits
  cases h
  refine ⟨run.drop count, fun c hc => hrun c (List.mem_of_mem_drop hc), ?_⟩
  exact List.drop_append_of_le_length (le_length_of_mapM_take hcs hds hfits.1)

theorem expect?_run (hrun : ∀ c ∈ run, c ∈ decimalDigits) (hcs : LineEnds cs rest)
    (hc : c ∉ '\n' :: '\r' :: decimalDigits) : expect? c (run ++ cs) = none := by
  simp only [List.mem_cons, not_or] at hc
  cases run with
  | nil =>
    cases hcs with
    | end_of_text => rfl
    | lineFeed rest => exact if_neg hc.1
    | returnFeed rest => exact if_neg hc.2.1
  | cons d run => exact if_neg (ne_of_mem_of_not_mem (hrun d List.mem_cons_self) hc.2.2).symm

/-- A run of digits is no point in time: neither a hyphen nor a colon follows. -/
theorem moment?_run (hrun : ∀ c ∈ run, c ∈ decimalDigits) (hcs : LineEnds cs rest) : moment? (run ++ cs) = none := by
  have hdate : date? (run ++ cs) = none := by
    rw [date?]
    cases h : fixed? 4 0 9999 (run ++ cs) with
    | none => rfl
    | some result =>
      obtain ⟨run', hrun', hleft⟩ := fixed?_run hrun hcs h
      simp [hleft, expect?_run hrun' hcs (c := '-') (by decide)]
  have htime : time? (run ++ cs) = none := by
    rw [time?]
    cases h : fixed? 2 0 23 (run ++ cs) with
    | none => rfl
    | some result =>
      obtain ⟨run', hrun', hleft⟩ := fixed?_run hrun hcs h
      simp [hleft, expect?_run hrun' hcs (c := ':') (by decide)]
  rw [moment?, hdate, htime]

theorem inRange_iff {i : ℤ} : inRange i = true ↔ -2 ^ 63 ≤ i ∧ i < 2 ^ 63 := by
  rw [inRange, Bool.and_eq_true, decide_eq_true_iff, decide_eq_true_iff]

theorem value?_number (hc : c ∈ '-' :: decimalDigits) : value? (c :: cs) = numberValue? (c :: cs) := by
  simp only [decimalDigits, List.mem_cons, List.not_mem_nil, or_false] at hc
  rcases hc with rfl | rfl | rfl | rfl | rfl | rfl | rfl | rfl | rfl | rfl | rfl <;> rfl

namespace Literal

def signChars (negative : Bool) : List Char := if negative then ['-'] else []

theorem toList_text_integer (negative : Bool) (n : ℕ) :
    (integer negative n).text.toList = signChars negative ++ Nat.toDigits 10 n := by
  cases negative <;> simp [text, signChars, Nat.toList_repr]

theorem takeSign_integer (negative : Bool) (n : ℕ) (cs : List Char) :
    takeSign (signChars negative ++ (Nat.toDigits 10 n ++ cs)) = (negative, Nat.toDigits 10 n ++ cs) := by
  cases negative with
  | true => rfl
  | false =>
    have hnone : ∀ c ∈ (none : Option Char), c ∈ ['-', '+'] := fun c hc => (nomatch hc)
    exact Numeral.takeSign_sign hnone (Numeral.head?_not_sign (Numeral.toDigits_mem n) Nat.toDigits_ne_nil cs)

theorem moment?_integer (negative : Bool) (n : ℕ) (hcs : LineEnds cs rest) :
    moment? (signChars negative ++ (Nat.toDigits 10 n ++ cs)) = none := by
  cases negative with
  | true => rfl
  | false =>
    change moment? (Nat.toDigits 10 n ++ cs) = none
    exact moment?_run (Numeral.toDigits_mem n) hcs

theorem float?_integer (negative : Bool) (n : ℕ) (hcs : LineEnds cs rest) :
    float? (signChars negative ++ (Nat.toDigits 10 n ++ cs)) = none := by
  have htail : floatTail? cs = none := by cases hcs <;> rfl
  have hwhole := wholeDigits?_toDigits n hcs
  rw [float?, takeSign_integer]
  dsimp only
  -- no digit begins one of the two words
  split
  · rename_i heq
    rw [heq] at hwhole
    contradiction
  · rename_i heq
    rw [heq] at hwhole
    contradiction
  · rw [hwhole]
    simp [htail]

/-- No letter follows a zero, so that there is no other base. -/
theorem integer_ne_marked (negative : Bool) (n : ℕ) (hcs : LineEnds cs rest) {mark : Char} {tail : List Char}
    (hmark : mark ∉ ['\n', '\r']) : signChars negative ++ (Nat.toDigits 10 n ++ cs) ≠ '0' :: mark :: tail := by
  intro heq
  cases negative with
  | true => cases heq
  | false =>
    have hwhole := wholeDigits?_toDigits n hcs
    change Nat.toDigits 10 n ++ cs = _ at heq
    rw [heq] at hwhole
    obtain ⟨-, rfl⟩ := Prod.mk.inj (Option.some.inj hwhole)
    cases hcs <;> exact hmark (by simp)

theorem integer?_integer (negative : Bool) (n : ℕ) (hcs : LineEnds cs rest) :
    integer? (signChars negative ++ (Nat.toDigits 10 n ++ cs)) =
      if -2 ^ 63 ≤ signed negative n ∧ signed negative n < 2 ^ 63 then some (signed negative n, cs) else none := by
  have hvalue : natOfDigits 10 ((Nat.toDigits 10 n).filterMap digit?) = n := by
    rw [Numeral.natOfDigits_filterMap (Numeral.toDigits_mem n), Nat.ofDigitChars_ten_toDigits]
  rw [integer?, takeSign_integer]
  · dsimp only
    rw [wholeDigits?_toDigits n hcs, Option.bind_eq_bind, Option.bind_some]
    dsimp only
    rw [hvalue]
    exact if_congr inRange_iff rfl rfl
  · exact fun _ => integer_ne_marked negative n hcs (by decide)
  · exact fun _ => integer_ne_marked negative n hcs (by decide)
  · exact fun _ => integer_ne_marked negative n hcs (by decide)

theorem exists_integer_eq_cons (negative : Bool) (n : ℕ) (cs : List Char) :
    ∃ c tail, signChars negative ++ (Nat.toDigits 10 n ++ cs) = c :: tail ∧ c ∈ '-' :: decimalDigits := by
  cases negative with
  | true => exact ⟨_, _, rfl, List.mem_cons_self⟩
  | false =>
    have hmem := Numeral.toDigits_mem n
    cases hrun : Nat.toDigits 10 n with
    | nil => exact absurd hrun Nat.toDigits_ne_nil
    | cons c run =>
      rw [hrun] at hmem
      exact ⟨c, run ++ cs, rfl, List.mem_cons_of_mem _ (hmem c List.mem_cons_self)⟩

/-- A literal before the end of a line is read in full. -/
theorem value?_text (l : Literal) (hcs : LineEnds cs rest) : value? (l.text.toList ++ cs) = l.toml?.map (·, cs) := by
  cases l with
  | boolean b => cases b <;> rfl
  | integer negative n =>
    obtain ⟨c, tail, heq, hc⟩ := exists_integer_eq_cons negative n cs
    rw [toList_text_integer, List.append_assoc, heq, value?_number hc, ← heq, numberValue?, momentValue?,
      moment?_integer negative n hcs, float?_integer negative n hcs, integer?_integer negative n hcs, toml?]
    split_ifs <;> rfl

theorem skipBlanks_text (l : Literal) (cs : List Char) : skipBlanks (l.text.toList ++ cs) = l.text.toList ++ cs := by
  cases l with
  | boolean b => cases b <;> rfl
  | integer negative n =>
    obtain ⟨c, tail, heq, hc⟩ := exists_integer_eq_cons negative n cs
    have hall : ∀ c ∈ '-' :: decimalDigits, isBlank c = false := by decide
    rw [toList_text_integer, List.append_assoc, heq, skipBlanks_cons (hall c hc)]

end Literal

/-! ### Keys and lines -/

/-- The characters with which a line begins that has no bare key in front. -/
def otherStarts : List Char := [' ', '\t', '\n', '\r', '#', '[', '"', '\'']

theorem isBlank_eq_false (hc : c ∉ otherStarts) : isBlank c = false := by
  simp only [otherStarts, List.mem_cons, not_or] at hc
  simp [isBlank, hc]

namespace BareKey

variable (key : BareKey)

theorem isBareChar_of_mem (hc : c ∈ key.name.toList) : isBareChar c = true := by
  rcases key.bare c hc with h | rfl | rfl
  · simp [isBareChar, h]
  · rfl
  · rfl

theorem exists_eq_cons : ∃ c cs, key.name.toList = c :: cs ∧ c ∉ otherStarts := by
  cases hname : key.name.toList with
  | nil => exact absurd (String.toList_eq_nil_iff.1 hname) key.name_ne_empty
  | cons c cs =>
    refine ⟨c, cs, rfl, fun hc => ?_⟩
    have hall : ∀ c ∈ otherStarts, isBareChar c = false := by decide
    have hbare : isBareChar c = true := key.isBareChar_of_mem (by rw [hname]; exact List.mem_cons_self)
    rw [hall c hc] at hbare
    contradiction

theorem append_ne_cons (hc : c ∈ otherStarts) : key.name.toList ++ cs ≠ c :: rest := by
  obtain ⟨d, tail, hname, hd⟩ := key.exists_eq_cons
  rw [hname]
  rintro ⟨⟩
  exact hd hc

theorem skipBlanks_name (cs : List Char) : skipBlanks (key.name.toList ++ cs) = key.name.toList ++ cs := by
  obtain ⟨c, tail, hname, hc⟩ := key.exists_eq_cons
  rw [hname, List.cons_append, skipBlanks_cons (isBlank_eq_false hc)]

theorem keyPart?_name (hcs : Numeral.Stops isBareChar cs) :
    keyPart? (key.name.toList ++ cs) = some (key.name, cs) := by
  have hrun : ∀ c ∈ key.name.toList, isBareChar c = true := fun c hc => key.isBareChar_of_mem hc
  obtain ⟨c, tail, hname, -⟩ := key.exists_eq_cons
  have hpart : String.ofList (c :: tail) = key.name := by rw [← hname, String.ofList_toList]
  rw [keyPart?, Numeral.takeWhile_run hrun hcs, Numeral.dropWhile_run hrun hcs, hname]
  · exact congrArg (fun part => some (part, cs)) hpart
  · exact fun _ => key.append_ne_cons (by decide)
  · exact fun _ => key.append_ne_cons (by decide)

theorem key?_name (hcs : Numeral.Stops isBareChar cs) (hskip : skipBlanks cs = c :: rest) (hc : c ≠ '.') :
    key? (key.name.toList ++ cs) = some ([key.name], c :: rest) := by
  rw [key?, depthLimit, keyWithin?, key.skipBlanks_name, key.keyPart?_name hcs, Option.bind_eq_bind, Option.bind_some]
  dsimp only
  rw [hskip]
  split
  · rename_i heq
    cases heq
    contradiction
  · rfl

end BareKey

theorem line?_cons (hc : c ∉ otherStarts) :
    line? (c :: cs) = do
      let (key, rest) ← key? (c :: cs)
      let (v, rest) ← value? (skipBlanks (← expect? '=' rest))
      let rest ← lineEnd? rest
      return (.entry key v, rest) := by
  have hne : ∀ d ∈ otherStarts, c ≠ d := fun d hd h => hc (h ▸ hd)
  have hnewline : newline? (c :: cs) = none := by
    rw [newline?]
    · exact fun _ h => hne '\n' (by decide) (List.cons.inj h).1
    · exact fun _ h => hne '\r' (by decide) (List.cons.inj h).1
  rw [line?, skipBlanks_cons (isBlank_eq_false hc)]
  split
  · contradiction
  · exact absurd (List.cons.inj ‹_›).1 (hne '[' (by decide))
  · exact absurd (List.cons.inj ‹_›).1 (hne '[' (by decide))
  · exact absurd (List.cons.inj ‹_›).1 (hne '#' (by decide))
  · rw [hnewline]

theorem line?_bracket (hc : c ≠ '[') :
    line? ('[' :: c :: cs) = (header? [']'] (c :: cs)).map fun r => (.header r.1, r.2) := by
  have hskip : skipBlanks ('[' :: c :: cs) = '[' :: c :: cs := rfl
  rw [line?, hskip]
  split
  · contradiction
  · rename_i heq
    cases heq
    contradiction
  · rename_i heq
    cases heq
    rfl
  · exact absurd (List.cons.inj ‹_›).1 (by decide)
  · rename_i hheader _
    exact absurd rfl (hheader (c :: cs))

namespace Assignment

variable (a : Assignment)

theorem toList_text : a.text.toList = a.key.name.toList ++ ([' ', '=', ' '] ++ a.value.text.toList) := by
  simp [text]

theorem line?_text (hcs : LineEnds cs rest) :
    line? (a.text.toList ++ cs) = a.pair?.map fun e => (.entry [e.1] e.2, rest) := by
  have hstops : Numeral.Stops isBareChar ([' ', '=', ' '] ++ (a.value.text.toList ++ cs)) := by
    rintro c ⟨⟩
    rfl
  have hskip : skipBlanks ([' ', '=', ' '] ++ (a.value.text.toList ++ cs)) =
      '=' :: ' ' :: (a.value.text.toList ++ cs) := rfl
  have hvalue : skipBlanks (' ' :: (a.value.text.toList ++ cs)) = a.value.text.toList ++ cs :=
    a.value.skipBlanks_text cs
  obtain ⟨c, tail, hname, hc⟩ := a.key.exists_eq_cons
  rw [a.toList_text, List.append_assoc, List.append_assoc, hname, List.cons_append, line?_cons hc, ← List.cons_append,
    ← hname, a.key.key?_name hstops hskip (by decide)]
  change (do
    let (v, rest) ← value? (skipBlanks (' ' :: (a.value.text.toList ++ cs)))
    let rest ← lineEnd? rest
    return (Line.entry [a.key.name] v, rest)) = _
  rw [hvalue, a.value.value?_text hcs, pair?]
  cases a.value.toml? with
  | none => rfl
  | some v => simp [hcs.lineEnd?_eq]

end Assignment

theorem line?_header (name : BareKey) (hcs : LineEnds cs rest) :
    line? ('[' :: (name.name.toList ++ ']' :: cs)) = some (.header [name.name], rest) := by
  have hstops : Numeral.Stops isBareChar (']' :: cs) := by
    rintro c ⟨⟩
    rfl
  have hheader : header? [']'] (name.name.toList ++ ']' :: cs) = some ([name.name], rest) := by
    rw [header?, name.key?_name hstops rfl (by decide)]
    simp [expect?, hcs.lineEnd?_eq]
  obtain ⟨c, tail, hname, hc⟩ := name.exists_eq_cons
  rw [hname] at hheader ⊢
  rw [List.cons_append] at hheader ⊢
  rw [line?_bracket (fun h => hc (by rw [h]; decide)), hheader]
  rfl

/-! ### Whole documents -/

namespace Section

variable {lines : List (LineBreak × Assignment)} {last : Option LineBreak}

def chars (lines : List (LineBreak × Assignment)) (last : Option LineBreak) : List Char :=
  lines.flatMap (fun l => l.1.text.toList ++ l.2.text.toList) ++ last.elim [] fun b => b.text.toList

theorem nodup_names (s : Section) : (s.assignments.map (·.key.name)).Nodup := by
  rw [assignments, List.map_map]
  exact s.keys_nodup

theorem chars_cons (l : LineBreak × Assignment) :
    chars (l :: lines) last = l.1.text.toList ++ (l.2.text.toList ++ chars lines last) := by
  simp [chars]

theorem toList_text (s : Section) (name : BareKey) :
    (s.text name).toList = '[' :: (name.name.toList ++ ']' :: chars s.lines s.last) := by
  have hlast : (s.last.elim "" LineBreak.text).toList = s.last.elim [] fun b => b.text.toList := by
    cases s.last <;> rfl
  simp [text, chars, hlast, String.toList_join, List.flatMap_map]

theorem length_le_length_chars (lines : List (LineBreak × Assignment)) (last : Option LineBreak) :
    lines.length ≤ (chars lines last).length := by
  induction lines with
  | nil => exact Nat.zero_le _
  | cons l lines ih =>
    have hbreak : 0 < l.1.text.toList.length := by cases l.1 <;> decide
    simp only [chars_cons, List.length_cons, List.length_append]
    omega

def following : List (LineBreak × Assignment) → Option LineBreak → List Char
  | [], _ => []
  | l :: lines, last => l.2.text.toList ++ chars lines last

theorem lineEnds_chars (lines : List (LineBreak × Assignment)) (last : Option LineBreak) :
    LineEnds (chars lines last) (following lines last) := by
  cases lines with
  | nil =>
    cases last with
    | none => exact .end_of_text
    | some b =>
      have hend := b.lineEnds []
      rwa [List.append_nil] at hend
  | cons l lines =>
    rw [chars_cons]
    exact l.1.lineEnds _

/-- A limit of one for each line is enough. -/
theorem linesWithin?_following (hlimit : lines.length ≤ limit) :
    linesWithin? limit (following lines last) =
      ((lines.map Prod.snd).mapM Assignment.pair?).map (List.map fun e => .entry [e.1] e.2) := by
  induction lines generalizing limit with
  | nil => cases limit <;> rfl
  | cons l lines ih =>
    cases limit with
    | zero => contradiction
    | succ limit =>
      have hline := l.2.line?_text (lineEnds_chars lines last)
      have hrest := ih (Nat.le_of_succ_le_succ hlimit)
      rw [following, linesWithin?, hline, List.map_cons, List.mapM_cons]
      · cases l.2.pair? with
        | none => rfl
        | some e =>
          simp only [Option.map_some, Option.bind_eq_bind, Option.bind_some, hrest]
          cases (lines.map Prod.snd).mapM Assignment.pair? <;> rfl
      · simp [Assignment.toList_text]

theorem lines?_text (s : Section) (name : BareKey) :
    lines? (s.text name) =
      (s.assignments.mapM Assignment.pair?).map fun es => .header [name.name] :: es.map fun e => .entry [e.1] e.2 := by
  have hlength := length_le_length_chars s.lines s.last
  -- the limit is the length of the text, of which the bracket is for the header
  have hlimit : s.lines.length ≤ (name.name.toList ++ ']' :: chars s.lines s.last).length := by
    rw [List.length_append, List.length_cons]
    omega
  rw [lines?, s.toList_text]
  change linesWithin? ((name.name.toList ++ ']' :: chars s.lines s.last).length + 1)
    ('[' :: (name.name.toList ++ ']' :: chars s.lines s.last)) = _
  rw [linesWithin?, line?_header name (lineEnds_chars s.lines s.last)]
  · rw [Option.bind_eq_bind, Option.bind_some]
    dsimp only
    rw [linesWithin?_following hlimit, ← assignments]
    cases s.assignments.mapM Assignment.pair? <;> rfl
  · simp

end Section

theorem add_entry (name : String) {key : String} {v : Toml} {entries : Entries} (hkey : key ∉ entries.map Prod.fst) :
    Document.add ⟨[name], [(name, .table .header entries)]⟩ (.entry [key] v) =
      some ⟨[name], [(name, .table .header (entries ++ [(key, v)]))]⟩ := by
  have hany : entries.any (·.1 == key) = false := by
    rw [List.any_eq_false]
    intro e he heq
    exact hkey (List.mem_map.2 ⟨e, he, by simpa using heq⟩)
  simp [Document.add, within, assign, put, hany]

theorem foldlM_add_entries (name : String) (before : Entries) {after : Entries}
    (hkeys : ((before ++ after).map Prod.fst).Nodup) :
    (after.map fun e => Line.entry [e.1] e.2).foldlM Document.add ⟨[name], [(name, .table .header before)]⟩ =
      some ⟨[name], [(name, .table .header (before ++ after))]⟩ := by
  induction after generalizing before with
  | nil => simp
  | cons e after ih =>
    have hkey : e.1 ∉ before.map Prod.fst := by
      rw [List.map_append, List.map_cons, List.nodup_middle] at hkeys
      exact fun h => hkeys.notMem (List.mem_append_left _ h)
    rw [List.append_cons] at hkeys
    rw [List.map_cons, List.foldlM_cons, add_entry name hkey, Option.bind_eq_bind, Option.bind_some, ih _ hkeys,
      ← List.append_cons]

theorem Assignment.map_fst_of_mapM {as : List Assignment} {es : Entries} (h : as.mapM pair? = some es) :
    es.map Prod.fst = as.map (·.key.name) := by
  induction as generalizing es with
  | nil =>
    cases h
    rfl
  | cons a as ih =>
    rw [List.mapM_cons] at h
    obtain ⟨e, he, h⟩ := Option.bind_eq_some_iff.1 h
    obtain ⟨es', hes, h⟩ := Option.bind_eq_some_iff.1 h
    obtain ⟨v, -, rfl⟩ := Option.map_eq_some_iff.1 he
    cases h
    rw [List.map_cons, List.map_cons, ih hes]

/-- A plain document is read as the one table with all its entries, or it has an integer of more than 64 bits. -/
theorem parse?_text (s : Section) (name : BareKey) :
    Document.parse? (s.text name) =
      (s.assignments.mapM Assignment.pair?).map fun es => [(name.name, .table .header es)] := by
  rw [Document.parse?, s.lines?_text]
  cases h : s.assignments.mapM Assignment.pair? with
  | none => rfl
  | some es =>
    have hkeys : (es.map Prod.fst).Nodup := by
      rw [Assignment.map_fst_of_mapM h]
      exact s.nodup_names
    have hheader : Document.add {} (.header [name.name]) = some ⟨[name.name], [(name.name, .table .header [])]⟩ := rfl
    simp [hheader, foldlM_add_entries name.name [] hkeys]

end Tabula.Toml
