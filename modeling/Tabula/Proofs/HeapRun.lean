import Tabula.Fallback
import Tabula.Proofs.Chain
import Tabula.Proofs.Entries

/-!
Runs on a heap: any number of tables made, written to and linked, with errors or without. What one operation can do to
a heap is said once, in `Step`; from it follows what holds after every run: all chains of links are finite, no entry is
`nil` and all keys are normal.
-/

namespace Tabula.Heap

theorem table_push (h : Heap) (content : Table) (u : TableId) :
    (h.push content).table u = if u = h.fresh then content else h.table u := by
  obtain ⟨i⟩ := u
  simp only [table, push, fresh, Array.getElem?_push, TableId.mk.injEq]
  split_ifs <;> rfl

theorem table_replace (h : Heap) (t u : TableId) (content : Table) :
    (h.replace t content).table u = if u = t ∧ t.index < h.size then content else h.table u := by
  obtain ⟨i⟩ := t
  obtain ⟨j⟩ := u
  simp only [table, replace, size, Array.getElem?_setIfInBounds, TableId.mk.injEq]
  by_cases hij : i = j
  · subst hij
    by_cases hi : i < h.tables.size
    · simp [hi]
    · simp [hi]
  · simp [hij, Ne.symm hij]

theorem table_modify (h : Heap) (t u : TableId) (f : Table → Table) :
    (h.modify t f).table u = if u = t ∧ t.index < h.size then f (h.table t) else h.table u :=
  h.table_replace t u (f (h.table t))

theorem next?_push {h : Heap} {content : Table} (hc : content.fallback = none) :
    (h.push content).next? = h.next? := by
  funext u
  rw [next?, next?, table_push]
  split_ifs with hu
  · rw [hc, hu]
    simp [table, fresh]
  · rfl

theorem next?_modify {h : Heap} {t : TableId} {f : Table → Table}
    (hf : ∀ content, (f content).fallback = content.fallback) : (h.modify t f).next? = h.next? := by
  funext u
  rw [next?, next?, table_modify]
  split_ifs with hu
  · rw [hf, hu.1]
  · rfl

theorem next?_linked (h : Heap) (t target : TableId) :
    (h.linked t target).next? =
      if t.index < h.size then Function.update h.next? t (some target) else h.next? := by
  funext u
  rw [next?, linked, table_modify]
  by_cases ht : t.index < h.size
  · by_cases hu : u = t
    · simp [ht, hu]
    · simp [ht, hu, next?]
  · simp [ht, next?]

/-- The walk along a chain asks its tables in turn. -/
theorem walk_eq {α : Type} {h : Heap} {t : TableId} {ts : List TableId} (c : Chain h.next? t ts)
    (ask : TableId → Option α) : h.walk ask t = some (ts.findSome? ask) := by
  induction c with
  | @last a hn =>
    rw [walk, hn, List.findSome?_cons, List.findSome?_nil]
    cases ask a <;> rfl
  | @step a b bs hn _ ih =>
    rw [walk, hn, List.findSome?_cons]
    cases ask a with
    | none => exact ih
    | some _ => rfl

theorem findSome?_seek_isSome {t : TableId} {ts : List TableId} : (ts.findSome? (seek t)).isSome = true ↔ t ∈ ts := by
  rw [List.findSome?_isSome_iff]
  simp [seek]

theorem perform_write (h : Heap) (t : TableId) (key v : Value) :
    (write t key v).perform h =
      match (h.table t).write key v with
      | .ok content => (.ok (), h.replace t content)
      | .error e => (.error e, h) := by
  simp only [write, Update.perform_bind, Update.perform_get, Update.perform_lift]
  cases (h.table t).write key v <;> rfl

theorem perform_link (h : Heap) (t target : TableId) :
    (link t target).perform h =
      if (h.walk (seek t) target).join.isSome then (.error (.fallback .cycle), h)
      else (.ok (), h.linked t target) := by
  simp only [link, Update.perform_bind, Update.perform_get]
  split_ifs <;> rfl

theorem perform_linkAs (h : Heap) (t : TableId) (description : Value) :
    (linkAs (.table t) description).perform h =
      match h.describedTarget description with
      | .ok target =>
        (((link t target).perform h).1.map fun _ => Value.table t, ((link t target).perform h).2)
      | .error e => (.error e, h) := by
  rw [linkAs, Update.perform_bind, Update.perform_get]
  dsimp only
  rw [Update.perform_bind, Update.perform_lift]
  cases h.describedTarget description with
  | error e => rfl
  | ok target => exact Update.perform_bind_pure ..

inductive Action where
  | create
  | createList (values : List Value)
  | createEntries (entries : List (Value × Value))
  | write (t : TableId) (key v : Value)
  | putField (t : TableId) (name : String) (v : Value)
  | putItem (t : TableId) (i : Int) (v : Value)
  | assign (container key v : Value)
  | erase (t : TableId) (k : Key)
  | link (t target : TableId)
  | linkAs (owner description : Value)

namespace Action

def run : Action → Update Heap Unit
  | create => do
    let _ ← make {}
  | createList values => do
    let _ ← make (.ofList values)
  | createEntries entries => do
    let content ← Table.ofEntries entries
    let _ ← make content
  | write t key v => Heap.write t key v
  | putField t name v => edit t fun content => content.putField name v
  | putItem t i v => edit t fun content => content.putItem i v
  | assign container key v => Heap.assign container key v
  | erase t k => edit t fun content => content.erase k
  | link t target => Heap.link t target
  | linkAs owner description => do
    let _ ← Heap.linkAs owner description

def apply (a : Action) (h : Heap) : Heap := (a.run.perform h).2

end Action

def after (actions : List Action) : Heap := actions.foldl (fun h a => a.apply h) {}

def Reachable (h : Heap) : Prop := ∃ actions, after actions = h

/-- All that an operation can do to a heap. -/
inductive Step (h : Heap) : Heap → Prop
  | none : Step h h
  | push {content : Table} : content.Plain → Step h (h.push content)
  | put (t : TableId) {k : Key} (v : Value) : k.Normal → Step h (h.modify t fun content => content.put k v)
  | erase (t : TableId) (k : Key) : Step h (h.modify t fun content => content.erase k)
  | link {t target : TableId} : (h.walk (seek t) target).join.isSome = false → Step h (h.linked t target)

theorem step_write (h : Heap) (t : TableId) (key v : Value) : Step h ((write t key v).perform h).2 := by
  rw [perform_write]
  cases hw : (h.table t).write key v with
  | error e => exact .none
  | ok content =>
    obtain ⟨k, hk, rfl⟩ := Table.write_eq_ok_iff.1 hw
    exact .put t v (Key.normal_of_ofValue? hk)

theorem step_link (h : Heap) (t target : TableId) : Step h ((link t target).perform h).2 := by
  rw [perform_link]
  split_ifs with hc
  · exact .none
  · exact .link (by simpa using hc)

theorem step_linkAs (h : Heap) (owner description : Value) : Step h ((linkAs owner description).perform h).2 := by
  cases owner with
  | table t =>
    rw [perform_linkAs]
    cases h.describedTarget description with
    | error e => exact .none
    | ok target => exact step_link h t target
  | _ => exact .none

theorem Action.step (a : Action) (h : Heap) : Step h (a.apply h) := by
  cases a with
  | create => exact .push Table.Plain.empty
  | createList values => exact .push (Table.Plain.ofList values)
  | createEntries entries =>
    simp only [apply, run, Update.perform_bind, Update.perform_lift]
    cases he : Table.ofEntries entries with
    | error e => exact .none
    | ok content => exact .push (Table.Plain.ofEntries he)
  | write t key v => exact step_write h t key v
  | putField t name v => exact .put t v (Key.normal_str name)
  | putItem t i v => exact .put t v (Key.normal_int i)
  | assign container key v =>
    cases container with
    | table t => exact step_write h t key v
    | _ => exact .none
  | erase t k => exact .erase t k
  | link t target => exact step_link h t target
  | linkAs owner description =>
    rw [apply, run, Update.perform_bind_pure]
    exact step_linkAs h owner description

/-- What holds of every heap that a program can make. -/
structure Sound (h : Heap) : Prop where
  ends : Ends h.next?
  noNil : ∀ t, (h.table t).NoNil
  normal : ∀ t, (h.table t).NormalKeys

theorem Sound.empty : Sound {} where
  ends := fun t => ⟨[t], .last (by simp [next?, table])⟩
  noNil := fun t => by simpa [table] using Table.NoNil.empty
  normal := fun t => by simpa [table] using Table.NormalKeys.empty

theorem Step.ends {h h' : Heap} (hs : Step h h') (he : Ends h.next?) : Ends h'.next? := by
  cases hs with
  | none => exact he
  | push hc => rwa [next?_push hc.unlinked]
  | put t v _ => rwa [next?_modify fun _ => Table.fallback_put ..]
  | erase t k => rwa [next?_modify fun _ => Table.fallback_erase ..]
  | @link t target hc =>
    rw [next?_linked]
    split_ifs with ht
    · refine he.update fun hr => ?_
      obtain ⟨ts, c⟩ := he target
      rw [walk_eq c, Option.join_some, ← Bool.not_eq_true, findSome?_seek_isSome] at hc
      exact hc (c.mem_iff.2 hr)
    · exact he

theorem forall_table_modify {P : Table → Prop} {h : Heap} {f : Table → Table} (hp : ∀ u, P (h.table u)) (t : TableId)
    (hf : P (f (h.table t))) (u : TableId) : P ((h.modify t f).table u) := by
  rw [table_modify]
  split_ifs
  · exact hf
  · exact hp u

theorem forall_table_push {P : Table → Prop} {h : Heap} {content : Table} (hp : ∀ u, P (h.table u)) (hc : P content)
    (u : TableId) : P ((h.push content).table u) := by
  rw [table_push]
  split_ifs
  · exact hc
  · exact hp u

theorem Step.noNil {h h' : Heap} (hs : Step h h') (hn : ∀ u, (h.table u).NoNil) (u : TableId) :
    (h'.table u).NoNil := by
  cases hs with
  | none => exact hn u
  | push hc => exact forall_table_push hn hc.noNil u
  | @put t k v _ => exact forall_table_modify hn t ((hn t).put k v) u
  | erase t k => exact forall_table_modify hn t ((hn t).erase k) u
  | @link t target _ => exact forall_table_modify hn t (hn t) u

theorem Step.normal {h h' : Heap} (hs : Step h h') (hn : ∀ u, (h.table u).NormalKeys) (u : TableId) :
    (h'.table u).NormalKeys := by
  cases hs with
  | none => exact hn u
  | push hc => exact forall_table_push hn hc.normal u
  | put t v hk => exact forall_table_modify hn t ((hn t).put hk v) u
  | erase t k => exact forall_table_modify hn t ((hn t).erase k) u
  | @link t target _ => exact forall_table_modify hn t (hn t) u

theorem Step.sound {h h' : Heap} (hs : Step h h') (h1 : Sound h) : Sound h' :=
  ⟨hs.ends h1.ends, hs.noNil h1.noNil, hs.normal h1.normal⟩

theorem Reachable.apply {h : Heap} (hr : Reachable h) (a : Action) : Reachable (a.apply h) := by
  obtain ⟨actions, rfl⟩ := hr
  exact ⟨actions ++ [a], by rw [after, List.foldl_append]; rfl⟩

theorem Reachable.sound {h : Heap} (hr : Reachable h) : Sound h := by
  obtain ⟨actions, rfl⟩ := hr
  exact List.foldlRecOn actions _ Sound.empty fun h h1 a _ => (a.step h).sound h1

def pair : Heap := (after [.create, .create]).linked ⟨0⟩ ⟨1⟩

theorem reachable_pair : Reachable pair := by
  refine ⟨[.create, .create, .link ⟨0⟩ ⟨1⟩], ?_⟩
  change ((link ⟨0⟩ ⟨1⟩).perform (after [.create, .create])).2 = _
  rw [perform_link, walk]
  rfl

end Tabula.Heap
