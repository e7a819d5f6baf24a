import Mathlib.Data.List.Forall2
import Tabula.Config.Text
import Tabula.Proofs.TomlSection

/-!
Settings in a plain document. Main statement: the text is accepted exactly if each line gives one of the two settings, a
seed of at most 63 bits or a truth value, and then the result is the default configuration with these settings applied,
whatever the order of the lines.
-/

namespace Tabula.Config

open Toml (Assignment Literal)
open scoped Numeral

inductive Setting where
  | seed (n : UInt64)
  | trap (b : Bool)

namespace Setting

def key : Setting → Toml.BareKey
  | seed _ => ⟨"random_seed", by decide, by decide⟩
  | trap _ => ⟨"trap_division_by_zero", by decide, by decide⟩

def literal : Setting → Literal
  | seed n => .integer false n.toNat
  | trap b => .boolean b

def line (x : Setting) : Assignment := ⟨x.key, x.literal⟩

def on (c : Config) : Setting → Config
  | seed n => c.withSeed n
  | trap b => c.withTrap b

end Setting

/-- A line gives a setting. A seed is the very number that is written. -/
def Gives (a : Assignment) : Setting → Prop
  | .seed n => a.key.name = "random_seed" ∧ n.toNat < 2 ^ 63 ∧
      ∃ negative magnitude, a.value = .integer negative magnitude ∧ Literal.signed negative magnitude = n.toNat
  | .trap b => a.key.name = "trap_division_by_zero" ∧ a.value = .boolean b

def Admitted (a : Assignment) : Prop :=
  (a.key.name = "random_seed" ∧ ∃ negative magnitude, a.value = .integer negative magnitude ∧
    0 ≤ Literal.signed negative magnitude ∧ Literal.signed negative magnitude < 2 ^ 63) ∨
  (a.key.name = "trap_division_by_zero" ∧ ∃ b, a.value = .boolean b)

variable {c c' : Config} {a : Assignment} {as before : List Assignment} {x y : Setting} {given : List Setting}

theorem Gives.name_eq (h : Gives a x) : a.key.name = x.key.name := by
  cases x <;> exact h.1

theorem Gives.unique (hx : Gives a x) (hy : Gives a y) : x = y := by
  cases x with
  | seed n =>
    obtain ⟨hkey, -, negative, magnitude, hvalue, hn⟩ := hx
    cases y with
    | seed m =>
      obtain ⟨-, -, negative', magnitude', hvalue', hm⟩ := hy
      rw [hvalue] at hvalue'
      cases hvalue'
      exact congrArg Setting.seed (UInt64.toNat_inj.1 (by omega))
    | trap b => exact absurd (hkey.symm.trans hy.1) (by decide)
  | trap b =>
    cases y with
    | seed m => exact absurd (hx.1.symm.trans hy.1) (by decide)
    | trap b' => exact congrArg Setting.trap (Literal.boolean.inj (hx.2.symm.trans hy.2))

theorem Gives.admitted (h : Gives a x) : Admitted a := by
  cases x with
  | seed n =>
    obtain ⟨hkey, hn, negative, magnitude, hvalue, hsigned⟩ := h
    exact .inl ⟨hkey, negative, magnitude, hvalue, by omega, by omega⟩
  | trap b => exact .inr ⟨h.1, b, h.2⟩

theorem Admitted.exists_gives (h : Admitted a) : ∃ x, Gives a x := by
  rcases h with ⟨hkey, negative, magnitude, hvalue, hlow, hhigh⟩ | ⟨hkey, b, hvalue⟩
  · obtain ⟨n, hn⟩ := Int.eq_ofNat_of_zero_le hlow
    have hword : (UInt64.ofNat n).toNat = n := UInt64.toNat_ofNat_of_lt' (by rw [UInt64.size]; omega)
    exact ⟨.seed (.ofNat n), hkey, by omega, negative, magnitude, hvalue, by rw [hn, hword]⟩
  · exact ⟨.trap b, hkey, hvalue⟩

theorem exists_forall₂_gives (h : ∀ a ∈ as, Admitted a) : ∃ given, List.Forall₂ Gives as given := by
  induction as with
  | nil => exact ⟨[], .nil⟩
  | cons a as ih =>
    obtain ⟨ha, has⟩ := List.forall_mem_cons.1 h
    obtain ⟨x, hx⟩ := ha.exists_gives
    obtain ⟨given, hgiven⟩ := ih has
    exact ⟨x :: given, .cons hx hgiven⟩

/-! ### One line after the other -/

def applyLine (c : Config) (a : Assignment) : Option Config := a.pair?.bind c.apply

theorem applyLine_of_gives (c : Config) (h : Gives a x) : c.applyLine a = some (x.on c) := by
  cases x with
  | seed n =>
    obtain ⟨hkey, hn, negative, magnitude, hvalue, hsigned⟩ := h
    have hread : a.pair? = some ("random_seed", .integer n.toNat) := by
      rw [Assignment.pair?, hvalue, hkey, Literal.toml?, hsigned, if_pos (by omega)]
      rfl
    rw [applyLine, hread]
    change c.applySeed (.integer n.toNat) = some (c.withSeed n)
    rw [applySeed, if_pos (Int.natCast_nonneg _), Int.toNat_natCast, Nat.toUInt64_eq, UInt64.ofNat_toNat]
  | trap b =>
    obtain ⟨hkey, hvalue⟩ := h
    rw [applyLine, Assignment.pair?, hvalue, hkey]
    rfl

theorem admitted_of_applySeed {l : Literal} {v : Toml} (hv : l.toml? = some v) (h : c.applySeed v = some c') :
    ∃ negative magnitude, l = .integer negative magnitude ∧
      0 ≤ Literal.signed negative magnitude ∧ Literal.signed negative magnitude < 2 ^ 63 := by
  cases l with
  | boolean b =>
    cases hv
    contradiction
  | integer negative magnitude =>
    rw [Literal.toml?] at hv
    split_ifs at hv with hrange
    cases hv
    rw [applySeed] at h
    split_ifs at h with hlow
    exact ⟨negative, magnitude, rfl, hlow, hrange.2⟩

theorem admitted_of_applyTrap {l : Literal} {v : Toml} (hv : l.toml? = some v) (h : c.applyTrap v = some c') :
    ∃ b, l = .boolean b := by
  cases l with
  | boolean b => exact ⟨b, rfl⟩
  | integer negative magnitude =>
    rw [Literal.toml?] at hv
    split_ifs at hv
    cases hv
    contradiction

theorem admitted_of_applyLine (h : c.applyLine a = some c') : Admitted a := by
  obtain ⟨e, he, h⟩ := Option.bind_eq_some_iff.1 h
  obtain ⟨v, hv, rfl⟩ := Option.map_eq_some_iff.1 he
  unfold apply at h
  split at h
  · exact .inl ⟨‹_›, admitted_of_applySeed hv h⟩
  · exact .inr ⟨‹_›, admitted_of_applyTrap hv h⟩
  · contradiction

theorem foldlM_applyLine_of_gives (c : Config) (h : List.Forall₂ Gives as given) :
    as.foldlM applyLine c = some (given.foldl Setting.on c) := by
  induction h generalizing c with
  | nil => rfl
  | cons hx _ ih =>
    rw [List.foldlM_cons, applyLine_of_gives c hx]
    exact ih _

theorem admitted_of_foldlM_applyLine (h : as.foldlM applyLine c = some c') : ∀ a ∈ as, Admitted a := by
  induction as generalizing c with
  | nil => exact fun a ha => (nomatch ha)
  | cons a as ih =>
    rw [List.foldlM_cons] at h
    obtain ⟨c₁, hline, h⟩ := Option.bind_eq_some_iff.1 h
    exact List.forall_mem_cons.2 ⟨admitted_of_applyLine hline, ih h⟩

/-- Reading all entries first makes no difference. -/
theorem mapM_bind_foldlM_apply (c : Config) (as : List Assignment) :
    ((as.mapM Assignment.pair?).bind fun es => es.foldlM apply c) = as.foldlM applyLine c := by
  induction as generalizing c with
  | nil => rfl
  | cons a as ih =>
    rw [List.mapM_cons, List.foldlM_cons, applyLine]
    cases a.pair? with
    | none => rfl
    | some e =>
      -- of the next setting and of the entries after it, either may be refused first
      simp only [Option.bind_eq_bind, Option.bind_some, ← ih]
      cases as.mapM Assignment.pair? <;> cases h : c.apply e <;> simp [h]

/-! ### The configuration -/

/-- The configuration has what the lines give, and the defaults for the rest. -/
structure Reflects (c : Config) (as : List Assignment) : Prop where
  randomSeed_eq_iff : ∀ n, c.randomSeed = some n ↔ ∃ a ∈ as, Gives a (.seed n)
  trapDivision_eq_iff : c.trapDivision = true ↔ ∃ a ∈ as, Gives a (.trap true)

namespace Reflects

theorem default : Reflects {} [] := ⟨fun n => by simp, by simp⟩

theorem step (h : Reflects c before) (hx : Gives a x) (hkey : a.key.name ∉ before.map (·.key.name)) :
    Reflects (x.on c) (before ++ [a]) := by
  -- no line before is about the same setting, so that nothing is overwritten
  have hfresh : ∀ y : Setting, y.key = x.key → ¬ ∃ b ∈ before, Gives b y := by
    rintro y hy ⟨b, hb, hgives⟩
    exact hkey (List.mem_map.2 ⟨b, hb, by rw [hgives.name_eq, hy, hx.name_eq]⟩)
  have hlast : ∀ y, (∃ b ∈ before ++ [a], Gives b y) ↔ (∃ b ∈ before, Gives b y) ∨ x = y := by
    intro y
    have hiff : Gives a y ↔ x = y := ⟨hx.unique, fun h => h ▸ hx⟩
    simp only [List.mem_append, List.mem_singleton, or_and_right, exists_or, exists_eq_left, hiff]
  cases x with
  | seed n =>
    refine ⟨fun m => ?_, ?_⟩
    · rw [hlast, or_iff_right (hfresh (.seed m) rfl)]
      simp [Setting.on, withSeed]
    · rw [hlast, ← h.trapDivision_eq_iff]
      simp [Setting.on, withSeed]
  | trap b =>
    refine ⟨fun m => ?_, ?_⟩
    · rw [hlast, ← h.randomSeed_eq_iff]
      simp [Setting.on, withTrap]
    · rw [hlast, or_iff_right (hfresh (.trap true) rfl)]
      simp [Setting.on, withTrap]

theorem run (h : Reflects c before) (hgiven : List.Forall₂ Gives as given)
    (hkeys : ((before ++ as).map (·.key.name)).Nodup) : Reflects (given.foldl Setting.on c) (before ++ as) := by
  induction hgiven generalizing c before with
  | nil => rwa [List.append_nil]
  | @cons a x as given hx _ ih =>
    have hkey : a.key.name ∉ before.map (·.key.name) := by
      rw [List.map_append, List.map_cons, List.nodup_middle] at hkeys
      exact fun h => hkeys.notMem (List.mem_append_left _ h)
    rw [List.append_cons] at hkeys ⊢
    exact ih (h.step hx hkey) hkeys

theorem unique {as' : List Assignment} (h : Reflects c as) (h' : Reflects c' as') (hmem : ∀ a, a ∈ as' ↔ a ∈ as) :
    c' = c := by
  obtain ⟨seed, trap⟩ := c
  obtain ⟨seed', trap'⟩ := c'
  have hseed : seed' = seed := by
    ext n
    exact (h'.randomSeed_eq_iff n).trans (by simp only [hmem, ← h.randomSeed_eq_iff])
  have htrap : trap' = trap := by
    rw [Bool.eq_iff_iff]
    exact h'.trapDivision_eq_iff.trans (by simp only [hmem, ← h.trapDivision_eq_iff])
  rw [hseed, htrap]

end Reflects

def runtime : Toml.BareKey := ⟨"runtime", by decide, by decide⟩

theorem parse_text (s : Toml.Section) :
    parse (s.text runtime) =
      match s.assignments.foldlM applyLine {} with
      | some c => .ok c
      | none => .error .parse := by
  rw [parse, Toml.parse?_text, ← mapM_bind_foldlM_apply]
  cases s.assignments.mapM Assignment.pair? <;> rfl

theorem parse_text_of_gives {s : Toml.Section} (h : List.Forall₂ Gives s.assignments given) :
    parse (s.text runtime) = .ok (given.foldl Setting.on {}) := by
  rw [parse_text, foldlM_applyLine_of_gives _ h]

theorem parse_text_of_not_admitted {s : Toml.Section} (h : ¬ ∀ a ∈ s.assignments, Admitted a) :
    parse (s.text runtime) = .error .parse := by
  rw [parse_text]
  cases hfold : s.assignments.foldlM applyLine {} with
  | none => rfl
  | some c => exact absurd (admitted_of_foldlM_applyLine hfold) h

theorem reflects_of_gives {s : Toml.Section} (h : List.Forall₂ Gives s.assignments given) :
    Reflects (given.foldl Setting.on {}) s.assignments := Reflects.default.run h s.nodup_names

/-- The text of a section of settings is accepted exactly if every line gives a seed of at most 63 bits or says whether
to trap. The result is then the default configuration with the given settings applied: it has each seed and each truth
value that a line gives, and the default where none does. All other texts are refused. Neither the order of the lines
nor the kind of line breaks makes a difference.

Two libraries are represented here by definitions. `Toml.Document.parse?` stands for `toml`, as a reader of TOML 1.0
with integers of 64 bits. `ofEntries` and `apply` stand for `serde`, which decodes a record field by field: a missing
field has its default, an unknown one is an error. The statement holds of the libraries as far as they agree with
these. -/
theorem settings_text_exact (s : Toml.Section) :
    ((∃ c, parse (s.text runtime) = .ok c) ↔ ∀ a ∈ s.assignments, Admitted a) ∧
    (∀ c, parse (s.text runtime) = .ok c →
      (∃ given, List.Forall₂ Gives s.assignments given ∧ c = given.foldl Setting.on {}) ∧ Reflects c s.assignments) ∧
    ((¬ ∀ a ∈ s.assignments, Admitted a) → parse (s.text runtime) = .error .parse) ∧
    ∀ s' : Toml.Section, s'.assignments.Perm s.assignments → parse (s'.text runtime) = parse (s.text runtime) := by
  by_cases hall : ∀ a ∈ s.assignments, Admitted a
  · obtain ⟨given, hgiven⟩ := exists_forall₂_gives hall
    have hparse := parse_text_of_gives hgiven
    have hreflects := reflects_of_gives hgiven
    refine ⟨⟨fun _ => hall, fun _ => ⟨_, hparse⟩⟩, ?_, fun h => absurd hall h, ?_⟩
    · intro c hc
      obtain rfl : given.foldl Setting.on {} = c := Except.ok.inj (hparse.symm.trans hc)
      exact ⟨⟨given, hgiven, rfl⟩, hreflects⟩
    · intro s' hperm
      obtain ⟨given', hgiven'⟩ := exists_forall₂_gives fun a ha => hall a (hperm.mem_iff.1 ha)
      rw [parse_text_of_gives hgiven', hparse,
        hreflects.unique (reflects_of_gives hgiven') fun a => hperm.mem_iff]
  · have hparse := parse_text_of_not_admitted hall
    refine ⟨⟨?_, fun h => absurd h hall⟩, ?_, fun _ => hparse, ?_⟩
    · rintro ⟨c, hc⟩
      rw [hparse] at hc
      contradiction
    · intro c hc
      rw [hparse] at hc
      contradiction
    · intro s' hperm
      rw [hparse]
      exact parse_text_of_not_admitted fun h => hall fun a ha => h a (hperm.mem_iff.2 ha)

/-- The greatest seed stands in the second of two lines that are broken in two ways. The number after it is refused. -/
theorem settings_text_exact_limits :
    parse "[runtime]\ntrap_division_by_zero = true\r\nrandom_seed = 9223372036854775807" =
        .ok ⟨some 9223372036854775807, true⟩ ∧
      parse "[runtime]\nrandom_seed = 9223372036854775808\n" = .error .parse := by
  have htrap : Gives (Setting.trap true).line (.trap true) := ⟨rfl, rfl⟩
  have hseed : Gives (Setting.seed 9223372036854775807).line (.seed 9223372036854775807) :=
    ⟨rfl, by decide, false, _, rfl, rfl⟩
  have hbeyond : ¬ Admitted (Setting.seed 9223372036854775808).line := by
    rintro (⟨-, _, _, ⟨⟩, -, hlt⟩ | ⟨-, _, ⟨⟩⟩)
    exact absurd hlt (by decide)
  obtain ⟨haccepted, hresult, -, -⟩ := settings_text_exact
    ⟨[(.lineFeed, (Setting.trap true).line), (.returnFeed, (Setting.seed 9223372036854775807).line)], none, by decide⟩
  obtain ⟨-, -, hrefused, -⟩ := settings_text_exact
    ⟨[(.lineFeed, (Setting.seed 9223372036854775808).line)], some .lineFeed, by decide⟩
  obtain ⟨c, hc⟩ := haccepted.2 (List.forall_mem_cons.2 ⟨htrap.admitted, List.forall_mem_singleton.2 hseed.admitted⟩)
  obtain ⟨-, hreflects⟩ := hresult c hc
  have hrandomSeed := (hreflects.randomSeed_eq_iff _).2 ⟨_, .tail _ (.head _), hseed⟩
  have htrapDivision := hreflects.trapDivision_eq_iff.2 ⟨_, .head _, htrap⟩
  refine ⟨hc.trans (congrArg Except.ok ?_), hrefused fun h => hbeyond (h _ (.head _))⟩
  obtain ⟨seed, trap⟩ := c
  cases hrandomSeed
  cases htrapDivision
  rfl

end Tabula.Config
