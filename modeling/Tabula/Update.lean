import Tabula.Error

/-!
Computations that change a state and may fail. What was done before an error stays done, so an operation that must
leave no trace when it fails has to check before it acts.
-/

namespace Tabula

abbrev Update (σ : Type) := ExceptT Error (StateM σ)

namespace Update

variable {σ τ α β : Type}

/-- How a computation ends from a state, and the state it leaves. -/
def perform (u : Update σ α) (s : σ) : Except Error α × σ := StateT.run (ExceptT.run u) s

def within (part : σ → τ) (put : τ → σ → σ) (u : Update τ α) : Update σ α := do
  let (outcome, p) := u.perform (part (← get))
  modify (put p)
  outcome

@[simp] theorem perform_pure (a : α) (s : σ) : perform (pure a) s = (.ok a, s) := rfl

@[simp] theorem perform_throw (e : Error) (s : σ) : perform (throw e : Update σ α) s = (.error e, s) := rfl

@[simp] theorem perform_get (s : σ) : perform get s = (.ok s, s) := rfl

@[simp] theorem perform_set (s s' : σ) : perform (set s') s = (.ok (), s') := rfl

@[simp] theorem perform_modify (f : σ → σ) (s : σ) : perform (modify f) s = (.ok (), f s) := rfl

@[simp] theorem perform_modifyGet (f : σ → α × σ) (s : σ) : perform (modifyGet f) s = (.ok (f s).1, (f s).2) := rfl

@[simp] theorem perform_lift (x : Except Error α) (s : σ) : perform (liftM x : Update σ α) s = (x, s) := rfl

theorem perform_bind (u : Update σ α) (f : α → Update σ β) (s : σ) :
    perform (u >>= f) s =
      match u.perform s with
      | (.ok a, s') => (f a).perform s'
      | (.error e, s') => (.error e, s') := by
  change StateT.run (ExceptT.bindCont f (u.perform s).1) (u.perform s).2 = _
  rcases u.perform s with ⟨e | a, s'⟩
  · rfl
  · rfl

theorem perform_bind_pure (u : Update σ α) (f : α → β) (s : σ) :
    perform (u >>= fun a => pure (f a)) s = ((u.perform s).1.map f, (u.perform s).2) := by
  rw [perform_bind]
  rcases u.perform s with ⟨e | a, s'⟩
  · rfl
  · rfl

@[simp] theorem perform_within (part : σ → τ) (put : τ → σ → σ) (u : Update τ α) (s : σ) :
    (u.within part put).perform s = ((u.perform (part s)).1, put (u.perform (part s)).2 s) := rfl

end Update

end Tabula
