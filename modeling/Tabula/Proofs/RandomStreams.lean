import Tabula.Proofs.Lookup
import Tabula.Session

/-!
Random numbers of several runtimes on one machine. Each runtime has a generator of its own, in the routine of its own
`math.random`: what it draws depends on its seed and on the calls made on it, and on nothing else.
-/

namespace Tabula

abbrev Draw := List Value × Except Error Value

variable {Host : Type}

namespace Session

variable [HostCode Host]

def random (args : List Value) : Update (Session Host) Value := do
  let s ← get
  let math ← s.require "math"
  let f ← s.machine.heap.index math (.string "random")
  (call f args).within Session.machine fun machine s => { s with machine := machine }

def draws (s : Session Host) : List (List Value) → List Draw
  | [] => []
  | args :: rest => (args, ((random args).perform s).1) :: ((random args).perform s).2.draws rest

end Session

structure Runtimes (Host : Type) where
  machine : Machine Host
  running : List (Config × Registry) := []

namespace Runtimes

inductive Event where
  | start (config : Config) (entropy : UInt64)
  /-- `math.random(args)` on a runtime. -/
  | random (n : Nat) (args : List Value)

def idle (m : Machine Host) : Runtimes Host := { machine := m }

def session? (s : Runtimes Host) (n : Nat) : Option (Session Host) :=
  s.running[n]?.map fun r => ⟨r.1, r.2, s.machine⟩

section

variable [HostCode Host]

def apply (s : Runtimes Host) : Event → Runtimes Host
  | .start config entropy =>
    let fresh := Session.renewRegistry { config := config, machine := s.machine } entropy
    { machine := fresh.machine, running := s.running ++ [(fresh.config, fresh.registry)] }
  | .random n args =>
    match s.session? n with
    | some session => { s with machine := ((Session.random args).perform session).2.machine }
    | none => s

def answer? (n : Nat) (s : Runtimes Host) : Event → Option Draw
  | .start _ _ => none
  | .random k args =>
    if k = n then (s.session? n).map fun session => (args, ((Session.random args).perform session).1) else none

def log (n : Nat) (s : Runtimes Host) : List Event → List Draw
  | [] => []
  | e :: rest => (s.answer? n e).toList ++ log n (s.apply e) rest

end

def started : List Event → List (Config × UInt64)
  | [] => []
  | .start config entropy :: rest => (config, entropy) :: started rest
  | .random _ _ :: rest => started rest

/-- The argument lists of the calls on the runtime `n` once it runs, where `count` runtimes run before the events. -/
def calls (n count : Nat) : List Event → List (List Value)
  | [] => []
  | .start _ _ :: rest => calls n (count + 1) rest
  | .random k args :: rest => if k = n ∧ n < count then args :: calls n count rest else calls n count rest

end Runtimes

/-! ### A generator by itself -/

namespace Generator

def draw (g : Generator) (args : List Value) : Except Error Value × Generator :=
  (((Random.random args).perform g).1.map .number, ((Random.random args).perform g).2)

def draws (g : Generator) : List (List Value) → List Draw
  | [] => []
  | args :: rest => (args, (g.draw args).1) :: (g.draw args).2.draws rest

theorem draw_of_error {g : Generator} {args : List Value} {e : Error} (he : (g.draw args).1 = .error e) :
    (g.draw args).2 = g := by
  rw [draw, Random.perform_random] at he ⊢
  cases hr : Random.request args with
  | ok r => simp [hr, Except.map] at he
  | error e' => rfl

end Generator

/-- `kept` is left of the calls when some that failed are deleted. -/
inductive Thinned : List Draw → List Draw → Prop
  | nil : Thinned [] []
  | keep (d : Draw) {all kept : List Draw} : Thinned all kept → Thinned (d :: all) (d :: kept)
  | delete (args : List Value) (e : Error) {all kept : List Draw} : Thinned all kept →
      Thinned ((args, .error e) :: all) kept

/-- Without calls that failed the others end as before. -/
theorem Generator.draws_thinned {g : Generator} {calls : List (List Value)} {kept : List Draw}
    (h : Thinned (g.draws calls) kept) : g.draws (kept.map Prod.fst) = kept := by
  induction calls generalizing g kept with
  | nil =>
    cases h
    rfl
  | cons args rest ih =>
    generalize hall : g.draws (args :: rest) = all at h
    rw [draws] at hall
    cases h with
    | nil => contradiction
    | keep d h =>
      obtain ⟨rfl, rfl⟩ := List.cons.inj hall
      rw [List.map_cons, draws, ih h]
    | delete args' e h =>
      obtain ⟨hd, rfl⟩ := List.cons.inj hall
      rw [draw_of_error (congrArg Prod.snd hd)] at h
      exact ih h

/-! ### The generator of a runtime -/

namespace Machine

/-- All that is on the machine stays there, and more may come. -/
structure Extends (m m' : Machine Host) : Prop where
  size_le : m.heap.size ≤ m'.heap.size
  table_eq : ∀ t : TableId, t.index < m.heap.size → m'.heap.table t = m.heap.table t
  count_le : m.routines.size ≤ m'.routines.size
  routine_eq : ∀ i < m.routines.size, m'.routines[i]? = m.routines[i]?

variable {m m' m'' : Machine Host}

theorem Extends.refl (m : Machine Host) : Extends m m := ⟨Nat.le_refl _, fun _ _ => rfl, Nat.le_refl _, fun _ _ => rfl⟩

theorem Extends.trans (h : Extends m m') (h' : Extends m' m'') : Extends m m'' where
  size_le := h.size_le.trans h'.size_le
  table_eq t ht := (h'.table_eq t (ht.trans_le h.size_le)).trans (h.table_eq t ht)
  count_le := h.count_le.trans h'.count_le
  routine_eq i hi := (h'.routine_eq i (hi.trans_le h.count_le)).trans (h.routine_eq i hi)

theorem extends_newTable (m : Machine Host) (content : Table) : Extends m (m.newTable content).2 where
  size_le := by
    simp [newTable, Heap.size, Heap.push]
  table_eq t ht := by
    rw [newTable, Heap.table_push, if_neg]
    rintro rfl
    exact Nat.lt_irrefl _ ht
  count_le := Nat.le_refl _
  routine_eq _ _ := rfl

theorem table_newTable (m : Machine Host) (content : Table) :
    (m.newTable content).2.heap.table (m.newTable content).1 = content := by
  rw [newTable, Heap.table_push, if_pos rfl]

theorem extends_define (m : Machine Host) (name : String) (isClosure : Bool) (r : Routine Host) :
    Extends m (m.define name isClosure r).2 where
  size_le := Nat.le_refl _
  table_eq _ _ := rfl
  count_le := by
    simp [define]
  routine_eq i hi := by
    rw [define, Array.getElem?_push, if_neg (Nat.ne_of_lt hi)]

theorem defineAll_spec (m : Machine Host) (fs : List StandardFunction) (content : Table) :
    Extends m (m.defineAll fs content).2 ∧ (m.defineAll fs content).1.fallback = content.fallback := by
  induction fs generalizing m content with
  | nil => exact ⟨.refl m, rfl⟩
  | cons f fs ih =>
    obtain ⟨hext, hfallback⟩ := ih (m.define f.name false (.standard f)).2
      (content.putField f.name (.function (m.define f.name false (.standard f)).1))
    exact ⟨(m.extends_define ..).trans hext, hfallback.trans (content.fallback_put ..)⟩

theorem extends_newBase (m : Machine Host) : Extends m m.newBase.2 :=
  (m.defineAll_spec StandardFunction.base {}).1.trans (extends_newTable ..)

end Machine

structure Stream where
  math : TableId
  random : Callable
  generator : Generator

namespace Stream

/-- The stream of a registry whose modules are on a machine. -/
structure Feeds (s : Stream) (r : Registry) (m : Machine Host) : Prop where
  module : r.require "math" = .ok (.table s.math)
  allocated : s.math.index < m.heap.size
  unlinked : (m.heap.table s.math).fallback = none
  field : (m.heap.table s.math).get? (.str "random") = some (.function s.random)
  routine : m.routines[s.random.index]? = some (.random s.generator)

variable {s : Stream} {r : Registry} {m m' : Machine Host}

theorem Feeds.index_lt (h : s.Feeds r m) : s.random.index < m.routines.size :=
  (Array.getElem?_eq_some_iff.1 h.routine).1

theorem Feeds.mono (h : s.Feeds r m) (hext : m.Extends m') : s.Feeds r m' where
  module := h.module
  allocated := h.allocated.trans_le hext.size_le
  unlinked := by rw [hext.table_eq _ h.allocated, h.unlinked]
  field := by rw [hext.table_eq _ h.allocated, h.field]
  routine := by rw [hext.routine_eq _ h.index_lt, h.routine]

theorem Feeds.index_eq (h : s.Feeds r m) :
    m.heap.index (.table s.math) (.string "random") = .ok (.function s.random) := by
  have hk : Key.ofValue? (.string "random") = some (.str "random") := rfl
  rw [Heap.index, Heap.lookup_unfold, Table.holds_eq hk, Table.read_eq hk, h.field]
  rfl

/-- A call on another runtime goes to another routine. -/
theorem Feeds.setRoutine_of_ne (h : s.Feeds r m) {i : Nat} (hi : i ≠ s.random.index) (routine : Routine Host) :
    s.Feeds r (m.setRoutine i routine) where
  module := h.module
  allocated := h.allocated
  unlinked := h.unlinked
  field := h.field
  routine := by rw [Machine.setRoutine, Array.getElem?_setIfInBounds_ne hi, h.routine]

theorem Feeds.setRoutine_self (h : s.Feeds r m) (g : Generator) :
    { s with generator := g : Stream }.Feeds r (m.setRoutine s.random.index (.random g)) where
  module := h.module
  allocated := h.allocated
  unlinked := h.unlinked
  field := h.field
  routine := by rw [Machine.setRoutine, Array.getElem?_setIfInBounds_self_of_lt h.index_lt]

end Stream

theorem perform_check {α : Type} (x : Except Error α) (m : Machine Host) : (Run.check x).perform m = (x, m) := by
  cases x <;> rfl

theorem Machine.setRoutine_eq_self {m : Machine Host} {i : Nat} {routine : Routine Host}
    (h : m.routines[i]? = some routine) : m.setRoutine i routine = m := by
  obtain ⟨hi, rfl⟩ := Array.getElem?_eq_some_iff.1 h
  rw [setRoutine, Array.setIfInBounds_def, dif_pos hi, Array.set_getElem_self]

/-- A call draws from the generator in the routine, and writes back what is left of it. -/
theorem perform_call_random [HostCode Host] {m : Machine Host} {f : Callable} {g : Generator}
    (hf : m.routines[f.index]? = some (.random g)) (args : List Value) :
    (call (.function f) args).perform m = ((g.draw args).1, m.setRoutine f.index (.random (g.draw args).2)) := by
  rw [call, Update.perform_bind, Update.perform_get]
  dsimp only
  rw [hf]
  dsimp only
  rw [Routine.run, Update.perform_bind, Update.perform_modify]
  exact perform_check _ _

namespace Stream

variable {s : Stream} {r : Registry} {m : Machine Host}

theorem Feeds.perform_random [HostCode Host] (h : s.Feeds r m) (config : Config) (args : List Value) :
    (Session.random args).perform ⟨config, r, m⟩ =
      ((s.generator.draw args).1, ⟨config, r, m.setRoutine s.random.index (.random (s.generator.draw args).2)⟩) := by
  rw [Session.random, Update.perform_bind, Update.perform_get]
  dsimp only
  rw [Update.perform_bind, Session.require, h.module, Update.perform_lift]
  dsimp only
  rw [Update.perform_bind, h.index_eq, Update.perform_lift]
  dsimp only
  rw [Update.perform_within, perform_call_random h.routine]

theorem Feeds.draws_eq [HostCode Host] (h : s.Feeds r m) (config : Config) (calls : List (List Value)) :
    (⟨config, r, m⟩ : Session Host).draws calls = s.generator.draws calls := by
  induction calls generalizing s m with
  | nil => rfl
  | cons args rest ih =>
    rw [Session.draws, h.perform_random, Generator.draws, ih (h.setRoutine_self _)]

theorem exists_newMath (m : Machine Host) (seed : UInt64) :
    m.Extends (m.newMath seed).2 ∧ ∃ f : Callable, m.routines.size ≤ f.index ∧
      (m.newMath seed).1.index < (m.newMath seed).2.heap.size ∧
      ((m.newMath seed).2.heap.table (m.newMath seed).1).fallback = none ∧
      ((m.newMath seed).2.heap.table (m.newMath seed).1).get? (.str "random") = some (.function f) ∧
      (m.newMath seed).2.routines[f.index]? = some (.random (.ofSeed seed)) := by
  unfold Machine.newMath
  dsimp only
  generalize hconstants : (({} : Table).putField "pi" _).putField "huge" _ = constants
  obtain ⟨hext, hfallback⟩ := m.defineAll_spec StandardFunction.math constants
  generalize m.defineAll StandardFunction.math constants = p at *
  obtain ⟨content, m'⟩ := p
  dsimp only at hext hfallback ⊢
  refine ⟨hext.trans ((m'.extends_define ..).trans (Machine.extends_newTable ..)),
    ⟨m'.routines.size, "random", true⟩, hext.count_le, ?_, ?_, ?_, ?_⟩
  · simp [Machine.newTable, Machine.define, Heap.fresh, Heap.size, Heap.push]
  · rw [Machine.table_newTable, Table.putField, Table.fallback_put, hfallback, ← hconstants, Table.putField,
      Table.fallback_put, Table.putField, Table.fallback_put]
  · rw [Machine.table_newTable, Table.putField, Table.get?_put, if_pos rfl, if_neg (by simp), Machine.define]
  · simp [Machine.newTable, Machine.define]

/-- The standard modules come with a generator in a new routine, and leave alone what was there. -/
theorem exists_feeds_withStandard (m : Machine Host) (seed : UInt64) :
    m.Extends (Registry.withStandard m seed).2 ∧
    ∃ s : Stream, s.Feeds (Registry.withStandard m seed).1 (Registry.withStandard m seed).2 ∧
      s.generator = .ofSeed seed ∧ m.routines.size ≤ s.random.index := by
  have hbase := m.extends_newBase
  obtain ⟨hmath, f, hindex, hallocated, hunlinked, hfield, hroutine⟩ := exists_newMath m.newBase.2 seed
  have hforeign := (m.newBase.2.newMath seed).2.extends_newTable {}
  refine ⟨hbase.trans (hmath.trans hforeign), ⟨(m.newBase.2.newMath seed).1, f, .ofSeed seed⟩, ?_, rfl,
    hbase.count_le.trans hindex⟩
  have hmodule : (Registry.withStandard m seed).1.modules["math"]? = some (.table (m.newBase.2.newMath seed).1) := by
    simp only [Registry.withStandard, Registry.closeSeeding, Registry.seed, Registry.foreignModule]
    rw [Std.ExtTreeMap.getElem?_insert, if_neg (by decide), Std.ExtTreeMap.getElem?_insert_self]
  exact Feeds.mono ⟨by rw [Registry.require, hmodule], hallocated, hunlinked, hfield, hroutine⟩ hforeign

end Stream

/-! ### Runtimes side by side -/

namespace Runtimes

variable {s : Runtimes Host} {streams : Nat → Stream} {n k : Nat} {config : Config} {entropy : UInt64} {r : Registry}

/-- Every runtime has a stream of its own. -/
structure Separate (s : Runtimes Host) (streams : Nat → Stream) : Prop where
  feeds : ∀ {n config r}, s.running[n]? = some (config, r) → (streams n).Feeds r s.machine
  distinct : ∀ {i j}, i < s.running.length → j < s.running.length →
    (streams i).random.index = (streams j).random.index → i = j

theorem separate_idle (m : Machine Host) (streams : Nat → Stream) : Separate (idle m) streams :=
  ⟨fun h => by simp [idle] at h, fun h => by simp [idle] at h⟩

variable [HostCode Host]

theorem apply_start (s : Runtimes Host) (config : Config) (entropy : UInt64) :
    s.apply (.start config entropy) =
      { machine := (Registry.withStandard s.machine (Session.randomSeed config entropy)).2
        running := s.running ++
          [(config, (Registry.withStandard s.machine (Session.randomSeed config entropy)).1)] } := rfl

theorem length_start (s : Runtimes Host) (config : Config) (entropy : UInt64) :
    (s.apply (.start config entropy)).running.length = s.running.length + 1 := by
  rw [apply_start, List.length_append, List.length_singleton]

/-- A new runtime gets a new stream, and the others keep theirs. -/
theorem Separate.start (h : Separate s streams) (config : Config) (entropy : UInt64) :
    ∃ fresh : Stream, fresh.generator = .ofSeed (Session.randomSeed config entropy) ∧
      Separate (s.apply (.start config entropy)) (Function.update streams s.running.length fresh) := by
  obtain ⟨hext, fresh, hfeeds, hseed, hindex⟩ :=
    Stream.exists_feeds_withStandard s.machine (Session.randomSeed config entropy)
  have hold : ∀ {i}, i < s.running.length → (streams i).random.index < fresh.random.index := fun hi =>
    (h.feeds (List.getElem?_eq_getElem hi)).index_lt.trans_le hindex
  rw [apply_start]
  refine ⟨fresh, hseed, ⟨fun {n _ _} hn => ?_, fun {i j} hi hj heq => ?_⟩⟩
  · rcases Nat.lt_or_ge n s.running.length with hlt | hge
    · rw [Function.update_of_ne (Nat.ne_of_lt hlt)]
      rw [List.getElem?_append_left hlt] at hn
      exact (h.feeds hn).mono hext
    · rw [List.getElem?_append_right hge, List.getElem?_singleton] at hn
      split_ifs at hn with hsub
      obtain ⟨rfl, rfl⟩ := Prod.mk.inj (Option.some.inj hn)
      rw [show n = s.running.length by omega, Function.update_self]
      exact hfeeds
  · rw [List.length_append, List.length_singleton] at hi hj
    rcases Nat.lt_succ_iff_lt_or_eq.1 hi with hi | rfl <;> rcases Nat.lt_succ_iff_lt_or_eq.1 hj with hj | rfl
    · rw [Function.update_of_ne (Nat.ne_of_lt hi), Function.update_of_ne (Nat.ne_of_lt hj)] at heq
      exact h.distinct hi hj heq
    · rw [Function.update_of_ne (Nat.ne_of_lt hi), Function.update_self] at heq
      exact absurd heq (Nat.ne_of_lt (hold hi))
    · rw [Function.update_of_ne (Nat.ne_of_lt hj), Function.update_self] at heq
      exact absurd heq.symm (Nat.ne_of_lt (hold hj))
    · rfl

def drawn (streams : Nat → Stream) (k : Nat) (args : List Value) : Nat → Stream :=
  Function.update streams k { streams k with generator := ((streams k).generator.draw args).2 }

theorem drawn_random (streams : Nat → Stream) (k : Nat) (args : List Value) (i : Nat) :
    (drawn streams k args i).random = (streams i).random := by
  by_cases hi : i = k
  · rw [hi, drawn, Function.update_self]
  · rw [drawn, Function.update_of_ne hi]

/-- A call takes from the stream of its runtime, and from no other. -/
theorem Separate.random (h : Separate s streams) (hk : s.running[k]? = some (config, r)) (args : List Value) :
    (s.apply (.random k args)).running = s.running ∧ Separate (s.apply (.random k args)) (drawn streams k args) := by
  have hfeeds := h.feeds hk
  have hlt : k < s.running.length := (List.getElem?_eq_some_iff.1 hk).1
  simp only [apply, session?, hk, Option.map_some, hfeeds.perform_random]
  refine ⟨trivial, ⟨fun {n _ _} hn => ?_, fun {i j} hi hj heq => ?_⟩⟩
  · by_cases hnk : n = k
    · subst hnk
      obtain ⟨rfl, rfl⟩ := Prod.mk.inj (Option.some.inj (hn.symm.trans hk))
      rw [drawn, Function.update_self]
      exact hfeeds.setRoutine_self _
    · have hn' : n < s.running.length := (List.getElem?_eq_some_iff.1 hn).1
      rw [drawn, Function.update_of_ne hnk]
      exact (h.feeds hn).setRoutine_of_ne (fun heq => hnk (h.distinct hn' hlt heq.symm)) _
  · rw [drawn_random, drawn_random] at heq
    exact h.distinct hi hj heq

theorem apply_random_of_none (hk : s.running[k]? = none) (args : List Value) : s.apply (.random k args) = s := by
  simp only [apply, session?, hk, Option.map_none]

/-- What a running runtime draws depends on its own generator and calls. -/
theorem Separate.log_eq (h : Separate s streams) (hn : n < s.running.length) (events : List Event) :
    s.log n events = (streams n).generator.draws (calls n s.running.length events) := by
  induction events generalizing s streams with
  | nil => rfl
  | cons event rest ih =>
    cases event with
    | start config entropy =>
      obtain ⟨fresh, -, hnext⟩ := h.start config entropy
      have hlength := length_start s config entropy
      rw [log, answer?, Option.toList_none, List.nil_append, calls, ← hlength]
      generalize s.apply (.start config entropy) = s' at hnext hlength ⊢
      rw [ih hnext (by omega), Function.update_of_ne (Nat.ne_of_lt hn)]
    | random k args =>
      obtain ⟨⟨config, r⟩, hr⟩ : ∃ p, s.running[n]? = some p := ⟨_, List.getElem?_eq_getElem hn⟩
      have hsession : s.session? n = some ⟨config, r, s.machine⟩ := by rw [session?, hr, Option.map_some]
      simp only [log, answer?, hsession, calls, hn, and_true, Option.map_some]
      cases hk : s.running[k]? with
      | none =>
        rw [apply_random_of_none hk, ih h hn]
        have hkn : k ≠ n := by
          rintro rfl
          rw [hr] at hk
          contradiction
        rw [if_neg hkn, if_neg hkn, Option.toList_none, List.nil_append]
      | some p =>
        obtain ⟨hrunning, hnext⟩ := h.random hk args
        rw [ih hnext (by rwa [hrunning]), hrunning]
        by_cases hkn : k = n
        · subst hkn
          rw [if_pos rfl, if_pos rfl, (h.feeds hr).perform_random, Generator.draws, drawn, Function.update_self,
            Option.toList_some, List.singleton_append]
        · rw [if_neg hkn, if_neg hkn, drawn, Function.update_of_ne (Ne.symm hkn), Option.toList_none,
            List.nil_append]

theorem Separate.log_eq_of_started (h : Separate s streams) (hn : s.running.length ≤ n) {events : List Event}
    (hstart : (started events)[n - s.running.length]? = some (config, entropy)) :
    s.log n events =
      (Generator.ofSeed (Session.randomSeed config entropy)).draws (calls n s.running.length events) := by
  induction events generalizing s streams with
  | nil => simp [started] at hstart
  | cons event rest ih =>
    cases event with
    | start config' entropy' =>
      obtain ⟨fresh, hfresh, hnext⟩ := h.start config' entropy'
      have hlength := length_start s config' entropy'
      rw [log, answer?, Option.toList_none, List.nil_append, calls, ← hlength]
      generalize s.apply (.start config' entropy') = s' at hnext hlength ⊢
      rcases Nat.eq_or_lt_of_le hn with heq | hlt
      · rw [started, heq, Nat.sub_self, List.getElem?_cons_zero] at hstart
        obtain ⟨rfl, rfl⟩ := Prod.mk.inj (Option.some.inj hstart)
        rw [hnext.log_eq (by omega), ← heq, Function.update_self, hfresh]
      · refine ih hnext (by omega) ?_
        rw [started, show n - s.running.length = n - (s.running.length + 1) + 1 by omega,
          List.getElem?_cons_succ] at hstart
        rwa [hlength]
    | random k args =>
      have hsession : s.session? n = none := by
        rw [session?, List.getElem?_eq_none hn, Option.map_none]
      simp only [log, answer?, hsession, calls, Nat.not_lt.2 hn, and_false, if_false, Option.map_none, ite_self,
        Option.toList_none, List.nil_append]
      cases hk : s.running[k]? with
      | none =>
        rw [apply_random_of_none hk]
        exact ih h hn hstart
      | some p =>
        obtain ⟨hrunning, hnext⟩ := h.random hk args
        rw [← hrunning] at hn hstart ⊢
        exact ih hnext hn hstart

theorem log_idle (m : Machine Host) {events : List Event} (hstart : (started events)[n]? = some (config, entropy)) :
    (idle m).log n events =
      (Generator.ofSeed (Session.randomSeed config entropy)).draws (calls n 0 events) :=
  (separate_idle m fun _ => ⟨⟨0⟩, ⟨0, "", true⟩, .ofSeed 0⟩).log_eq_of_started (Nat.zero_le n) hstart

theorem draws_new (config : Config) (entropy : UInt64) (calls : List (List Value)) :
    (Session.new config entropy : Session Host).draws calls =
      (Generator.ofSeed (Session.randomSeed config entropy)).draws calls := by
  obtain ⟨-, s, hfeeds, hseed, -⟩ :=
    Stream.exists_feeds_withStandard { names := ⟨entropy⟩ : Machine Host } (Session.randomSeed config entropy)
  rw [← hseed]
  exact hfeeds.draws_eq config calls

/-- What a runtime with a seed draws among others is what it draws alone, and what any runtime with that seed draws for
the same calls, on whatever machine and among whatever others; and where some calls that failed are left out, the others
end as before. -/
theorem random_streams_isolated (m : Machine Host) (events : List Event) (n : Nat) {config : Config}
    {entropy seed : UInt64} (hstart : (started events)[n]? = some (config, entropy))
    (hseed : config.randomSeed = some seed) :
    (∀ entropy', (Session.new config entropy' : Session Host).draws (calls n 0 events) = (idle m).log n events) ∧
    ∀ {Host' : Type} [HostCode Host'] (m' : Machine Host') events' n' config' entropy',
      (started events')[n']? = some (config', entropy') → config'.randomSeed = some seed →
      (calls n' 0 events' = calls n 0 events → (idle m').log n' events' = (idle m).log n events) ∧
      ∀ kept, Thinned ((idle m).log n events) kept → calls n' 0 events' = kept.map Prod.fst →
        (idle m').log n' events' = kept := by
  have hgenerator : ∀ {config' : Config} (entropy'), config'.randomSeed = some seed →
      Session.randomSeed config' entropy' = seed := fun _ h => by rw [Session.randomSeed, h, Option.getD_some]
  have hlog := log_idle m hstart
  rw [hgenerator _ hseed] at hlog
  refine ⟨fun entropy' => ?_, fun {_ _} m' events' n' config' entropy' hstart' hseed' => ?_⟩
  · rw [draws_new, hgenerator _ hseed, hlog]
  have hlog' := log_idle m' hstart'
  rw [hgenerator _ hseed'] at hlog'
  refine ⟨fun hcalls => ?_, fun kept hkept hcalls => ?_⟩
  · rw [hlog', hcalls, hlog]
  · rw [hlog] at hkept
    rw [hlog', hcalls, Generator.draws_thinned hkept]

/-- Two runtimes with one seed, of which only the first makes a call that fails. -/
theorem random_streams_isolated_failing :
    let events : List Event := [.start (Config.withSeed {} 99) 1, .random 0 [], .start {} 2, .random 1 [.number 6],
      .random 0 [.boolean true], .random 0 [.number 6]]
    let events' : List Event := [.start {} 3, .start (Config.withSeed {} 99) 4, .random 1 [], .random 0 [],
      .random 1 [.number 6]]
    ∃ x z e, (idle ({} : Machine Empty)).log 0 events = [([], x), ([.boolean true], .error e), ([.number 6], z)] ∧
      (idle ({} : Machine Empty)).log 1 events' = [([], x), ([.number 6], z)] := by
  intro events events'
  obtain ⟨e, he⟩ : ∃ e, ∀ g : Generator, g.draw [.boolean true] = (.error e, g) := ⟨_, fun _ => rfl⟩
  have hstart : (started events)[0]? = some (Config.withSeed {} 99, 1) := rfl
  have hstart' : (started events')[1]? = some (Config.withSeed {} 99, 4) := rfl
  have hcalls : calls 0 0 events = [[], [.boolean true], [.number 6]] := rfl
  have hlog := log_idle ({} : Machine Empty) hstart
  rw [hcalls, Generator.draws, Generator.draws, he, Generator.draws, Generator.draws] at hlog
  obtain ⟨-, hother⟩ := random_streams_isolated ({} : Machine Empty) events 0 hstart rfl
  refine ⟨_, _, e, hlog, (hother ({} : Machine Empty) events' 1 _ _ hstart' rfl).2 _ ?_ rfl⟩
  rw [hlog]
  exact .keep _ (.delete _ _ (.keep _ .nil))

end Runtimes

end Tabula
