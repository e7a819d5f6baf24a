import Mathlib.Tactic.Common
import Tabula.Registry

/-!
The life of a registry. Whatever a host calls and in whatever order, the phase only goes forward, the modules are
settled once seeding is closed, and one loader at most ever succeeds.
-/

namespace Tabula

def Phase.rank : Phase → Nat
  | .seeding => 0
  | .bindable => 1
  | .frozen => 2

theorem Phase.rank_eq_zero_iff {p : Phase} : p.rank = 0 ↔ p = .seeding := by
  cases p <;> simp [rank]

theorem Phase.rank_le_frozen (p : Phase) : p.rank ≤ Phase.frozen.rank := by
  cases p <;> simp [rank]

namespace Registry

variable {World : Type} {r r' : Registry} {s s' start : Scene World} {t : TableId} {e : Error}

theorem foreignTable_eq_ok_iff :
    r.foreignTable = .ok t ↔ r.phase = .bindable ∧ r.modules[foreignModule]? = some (.table t) := by
  unfold foreignTable
  cases r.phase with
  | seeding => simp
  | frozen => cases r.loader <;> simp
  | bindable =>
    cases r.modules[foreignModule]? with
    | none => simp
    | some v => cases v <;> simp

theorem closeSeeding_eq (r : Registry) :
    r.closeSeeding = if r.phase = .seeding then { r with phase := .bindable } else r := by
  unfold closeSeeding
  cases hp : r.phase <;> rfl

theorem perform_register (r : Registry) (name : String) (v : Value) :
    (register name v).perform r =
      if r.phase = .seeding then (.ok (), r.seed name v) else (.error (.locked (.register name)), r) := by
  simp only [register, Update.perform_bind, Update.perform_get]
  by_cases hp : r.phase = .seeding
  · rw [if_pos hp, if_neg (not_not.2 hp)]
    rfl
  · rw [if_neg hp, if_pos hp]
    rfl

/-- Where no table is open to a loader, the loader is not asked for anything. -/
theorem perform_load_of_error (hf : s.registry.foreignTable = .error e) (l : Loader World) :
    (load l).perform s = (.error e, s) := by
  rw [load, Update.perform_bind, Update.perform_get]
  dsimp only
  rw [Update.perform_bind, Update.perform_lift, hf]

theorem perform_load_of_ok (hf : s.registry.foreignTable = .ok t) (l : Loader World) :
    (load l).perform s =
      match l.gather.perform s.world with
      | (.ok bound, w) =>
        (.ok bound, { registry := { s.registry with phase := .frozen, loader := some l.name }
                      heap := s.heap.modify t bound.writeTo
                      world := w })
      | (.error e, w) => (.error e, { s with world := w }) := by
  rw [load, Update.perform_bind, Update.perform_get]
  dsimp only
  rw [Update.perform_bind, Update.perform_lift, hf]
  dsimp only
  rw [Update.perform_bind, Update.perform_within]
  rcases l.gather.perform s.world with ⟨e | bound, w⟩
  · rfl
  · rfl

theorem perform_gather (l : Loader World) (w : World) :
    l.gather.perform w =
      ((l.bind.perform ({}, w)).1.map fun _ => (l.bind.perform ({}, w)).2.1, (l.bind.perform ({}, w)).2.2) := by
  rw [Loader.gather, Update.perform_within, Update.perform_bind]
  rcases l.bind.perform (({} : Bindings), w) with ⟨e | _, p⟩
  · rfl
  · rfl

theorem perform_gather_snd (l : Loader World) (w : World) :
    (l.gather.perform w).2 = (l.bind.perform ({}, w)).2.2 := by
  rw [perform_gather]

inductive Call (World : Type) where
  | register (name : String) (v : Value)
  | closeSeeding
  | load (l : Loader World)
  | freeze

namespace Call

def run : Call World → Update (Scene World) Unit
  | register name v => (Registry.register name v).within Scene.registry fun r s => { s with registry := r }
  | closeSeeding => modify fun s => { s with registry := s.registry.closeSeeding }
  | load l => do
    let _ ← Registry.load l
  | freeze => modify fun s => { s with registry := s.registry.freeze }

end Call

/-- What a call that succeeds does to a registry. -/
inductive Step (r : Registry) : Call World → Registry → Prop
  | register {name : String} {v : Value} : r.phase = .seeding → Step r (.register name v) (r.seed name v)
  | closeSeeding : Step r .closeSeeding r.closeSeeding
  | load {l : Loader World} {t : TableId} : r.foreignTable = .ok t →
      Step r (.load l) { r with phase := .frozen, loader := some l.name }
  | freeze : Step r .freeze r.freeze

theorem Call.step {c : Call World} {outcome : Except Error Unit} (hp : c.run.perform s = (outcome, s')) :
    (outcome = .ok () ∧ Step s.registry c s'.registry) ∨
    ∃ e, outcome = .error e ∧ s'.registry = s.registry := by
  obtain ⟨rfl, rfl⟩ := Prod.ext_iff.1 hp
  cases c with
  | register name v =>
    rw [run, Update.perform_within, perform_register]
    split_ifs with hp
    · exact .inl ⟨rfl, .register hp⟩
    · exact .inr ⟨_, rfl, rfl⟩
  | closeSeeding => exact .inl ⟨rfl, .closeSeeding⟩
  | load l =>
    rw [run, Update.perform_bind_pure]
    cases hf : s.registry.foreignTable with
    | error e =>
      rw [perform_load_of_error hf]
      exact .inr ⟨e, rfl, rfl⟩
    | ok t =>
      rw [perform_load_of_ok hf]
      rcases l.gather.perform s.world with ⟨e | bound, w⟩
      · exact .inr ⟨e, rfl, rfl⟩
      · exact .inl ⟨rfl, .load hf⟩
  | freeze => exact .inl ⟨rfl, .freeze⟩

abbrev History (World : Type) := List (Call World × Except Error Unit)

inductive Run (start : Scene World) : History World → Scene World → Prop
  | nil : Run start [] start
  | cons {past : History World} {s s' : Scene World} {c : Call World} {outcome : Except Error Unit} :
      Run start past s → c.run.perform s = (outcome, s') → Run start ((c, outcome) :: past) s'

variable {past : History World} {c : Call World}

/-- A later registry of one life: no phase is gone back to, and closed modules stay. -/
structure Advances (r r' : Registry) : Prop where
  phase : r.phase.rank ≤ r'.phase.rank
  modules : r.phase ≠ .seeding → r'.modules = r.modules

namespace Advances

theorem refl (r : Registry) : Advances r r := ⟨Nat.le_refl _, fun _ => rfl⟩

theorem closed (h : Advances r r') (hp : r.phase ≠ .seeding) : r'.phase ≠ .seeding := by
  have hle := h.phase
  rw [Ne, ← Phase.rank_eq_zero_iff] at hp ⊢
  omega

theorem trans {r'' : Registry} (h1 : Advances r r') (h2 : Advances r' r'') : Advances r r'' :=
  ⟨Nat.le_trans h1.phase h2.phase, fun hp => (h2.modules (h1.closed hp)).trans (h1.modules hp)⟩

end Advances

theorem Step.advances (h : Step r c r') : Advances r r' := by
  cases h with
  | register hp => exact ⟨Nat.le_refl _, fun hn => absurd hp hn⟩
  | closeSeeding =>
    rw [closeSeeding_eq]
    split_ifs with hp
    · exact ⟨by simp [hp, Phase.rank], fun _ => rfl⟩
    · exact .refl r
  | load _ => exact ⟨Phase.rank_le_frozen _, fun _ => rfl⟩
  | freeze => exact ⟨Phase.rank_le_frozen _, fun _ => rfl⟩

theorem Run.advances (h : Run start past s) : Advances start.registry s.registry := by
  induction h with
  | nil => exact .refl _
  | cons _ hp ih =>
    rcases Call.step hp with ⟨-, hs⟩ | ⟨e, -, hs⟩
    · exact ih.trans hs.advances
    · rwa [hs]

def loadedBy : History World → List String
  | [] => []
  | (.load l, .ok _) :: past => l.name :: loadedBy past
  | _ :: past => loadedBy past

structure Records (past : History World) (r : Registry) : Prop where
  loads : r.loader.toList = loadedBy past
  frozen : r.loader ≠ none → r.phase = .frozen

theorem Records.fail (h : Records past r) (c : Call World) (e : Error) : Records ((c, .error e) :: past) r := by
  refine ⟨?_, h.frozen⟩
  rw [h.loads]
  cases c <;> rfl

theorem Records.step (h : Records past r) (hs : Step r c r') : Records ((c, .ok ()) :: past) r' := by
  cases hs with
  | register hp => exact ⟨h.loads, h.frozen⟩
  | closeSeeding =>
    rw [closeSeeding_eq]
    split_ifs with hp
    · -- a registry that knows a loader is past seeding
      refine ⟨h.loads, fun hl => ?_⟩
      rw [h.frozen hl] at hp
      contradiction
    · exact ⟨h.loads, h.frozen⟩
  | @load l t hf =>
    have hnone : r.loader = none := by
      by_contra hl
      rw [foreignTable_eq_ok_iff, h.frozen hl] at hf
      exact absurd hf.1 (by simp)
    refine ⟨?_, fun _ => rfl⟩
    rw [loadedBy, ← h.loads, hnone]
    rfl
  | freeze => exact ⟨h.loads, fun _ => rfl⟩

theorem Run.records (h : Run start past s) (hs : start.registry.loader = none) : Records past s.registry := by
  induction h with
  | nil => exact ⟨by rw [hs]; rfl, fun hl => absurd hs hl⟩
  | @cons past s s' c outcome _ hp ih =>
    rcases Call.step hp with ⟨rfl, hs⟩ | ⟨e, rfl, hs⟩
    · exact ih.step hs
    · rw [hs]
      exact ih.fail c e

inductive Initial : Registry → Prop
  | empty : Initial {}
  | standard {Host : Type} (m : Machine Host) (randomSeed : UInt64) : Initial (withStandard m randomSeed).1

theorem Initial.loader_eq_none (h : Initial r) : r.loader = none := by
  cases h with
  | empty => rfl
  | standard m randomSeed => rfl

/-- Over every run of calls on a registry: the phase never goes back; once seeding is closed the modules, and what a
program gets by requiring them, are the same for ever; one load at most succeeds; the loader known is the one that did,
and the registry is then frozen. A loader is asked only where it may fill the table `ffi`: elsewhere all loaders end
alike, with the scene as it was. A call that fails leaves the registry as it was. -/
theorem registry_life {World : Type} {start s : Scene World} {past : History World}
    (hi : Initial start.registry) (hr : Run start past s) :
    (∀ later s', Run s later s' →
      s.registry.phase.rank ≤ s'.registry.phase.rank ∧
      (s.registry.phase ≠ .seeding →
        s'.registry.modules = s.registry.modules ∧ ∀ name, s'.registry.require name = s.registry.require name)) ∧
    (loadedBy past).length ≤ 1 ∧
    (∀ n, s.registry.loader = some n ↔ n ∈ loadedBy past) ∧
    (∀ n, s.registry.loader = some n → s.registry.phase = .frozen) ∧
    (∀ t, s.registry.phase = .bindable → s.registry.modules[foreignModule]? = some (.table t) →
      ∀ l, ((load l).perform s).2.world = (l.bind.perform ({}, s.world)).2.2) ∧
    (¬ (s.registry.phase = .bindable ∧ ∃ t, s.registry.modules[foreignModule]? = some (.table t)) →
      ∃ e, ∀ l, (load l).perform s = (.error e, s)) ∧
    ∀ (c : Call World) e s', c.run.perform s = (.error e, s') → s'.registry = s.registry := by
  have hrec := hr.records hi.loader_eq_none
  refine ⟨fun later s' hlater => ?_, ?_, fun n => ?_, fun n hn => hrec.frozen (by simp [hn]), fun t hb ht l => ?_,
    fun hclosed => ?_, fun c e s' hp => ?_⟩
  · refine ⟨hlater.advances.phase, fun hp => ?_⟩
    have hsame := hlater.advances.modules hp
    exact ⟨hsame, fun name => by rw [require, require, hsame]⟩
  · rw [← hrec.loads]
    exact Option.length_toList_le
  · rw [← hrec.loads, Option.mem_toList]
  · rw [← perform_gather_snd, perform_load_of_ok (foreignTable_eq_ok_iff.2 ⟨hb, ht⟩)]
    rcases l.gather.perform s.world with ⟨e | bound, w⟩
    · rfl
    · rfl
  · cases hf : s.registry.foreignTable with
    | ok t =>
      rw [foreignTable_eq_ok_iff] at hf
      exact absurd ⟨hf.1, t, hf.2⟩ hclosed
    | error e => exact ⟨e, perform_load_of_error hf⟩
  · rcases Call.step hp with ⟨ho, -⟩ | ⟨_, -, hs⟩
    · contradiction
    · exact hs

/-- Counts how often it is asked, and fails the first time. -/
def hesitant : Loader Nat where
  name := "hesitant"
  bind := do
    modify fun p => (p.1.bind "greet" (.string "hello"), p.2 + 1)
    if (← get).2 < 2 then throw (.raised (.string "not yet"))

theorem registry_life_retried :
    ∃ past s, Run { heap := ({} : Heap).push {}, world := 0 } past s ∧
      past.map Prod.fst = [.load hesitant, .load hesitant, .load hesitant, .closeSeeding,
        .register foreignModule (.table ⟨0⟩)] ∧
      s.world = 2 ∧ s.registry.loader = some "hesitant" ∧ s.registry.phase = .frozen := by
  have hseeded : Run { heap := ({} : Heap).push {}, world := 0 }
      [(.closeSeeding, .ok ()), (.register foreignModule (.table ⟨0⟩), .ok ())] _ := .cons (.cons .nil rfl) rfl
  have hfirst := Run.cons (c := .load hesitant) hseeded rfl
  have hr := Run.cons (c := .load hesitant) (.cons (c := .load hesitant) hfirst rfl) rfl
  obtain ⟨-, -, hloader, hfrozen, -⟩ := registry_life .empty hr
  have hl := (hloader "hesitant").2 (List.mem_singleton.2 rfl)
  exact ⟨_, _, hr, rfl, rfl, hl, hfrozen _ hl⟩

end Registry

end Tabula
