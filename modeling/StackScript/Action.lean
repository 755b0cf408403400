import StackScript.Exception

/-!
# Actions

An action works on a state and ends in one of three ways (`Outcome`): it is done, with a value; it
raised an exception; or it broke an invariant.  The effects an action had before it raised stay in
the state, so both endings carry the state they leave.

* `Action σ` is a lawful monad: an exception or a breach skips what follows;
* `Action.attempt` turns an exception into a value, the state going on as it was left;
* `Action.onRaise` and `Action.ensuring` clean up after an action;
* `Action.unfailing` makes a breach of an exception that must not occur;
* `Action.zoom` lets an action on a part work on the whole.
-/

namespace StackScript

/-- How an action ends. -/
inductive Outcome (σ α : Type) where
  /-- The action succeeded. -/
  | done (value : α) (state : σ)
  /-- The action failed; `state` keeps what it had done. -/
  | raised (exception : Exception) (state : σ)
  /-- An invariant was violated. -/
  | broken (breach : Breach)
deriving Repr

/-- An action on a state of type `σ`. -/
def Action (σ α : Type) : Type := σ → Outcome σ α

namespace Action

variable {σ τ α β : Type}

@[inline] protected def pure (a : α) : Action σ α := fun s => .done a s

@[inline] protected def bind (x : Action σ α) (f : α → Action σ β) : Action σ β := fun s =>
  match x s with
  | .done a t => f a t
  | .raised e t => .raised e t
  | .broken b => .broken b

instance : Monad (Action σ) where
  pure := Action.pure
  bind := Action.bind

/-- Raise an exception. -/
def raise (e : Exception) : Action σ α := fun s => .raised e s

/-- Fail for a cause. -/
def fail (c : Cause) : Action σ α := raise c.exception

/-- Report a violated invariant. -/
def breach (b : Breach) : Action σ α := fun _ => .broken b

/-- Run an action and return its exception, if any, as a value. -/
def attempt (x : Action σ α) : Action σ (Except Exception α) := fun s =>
  match x s with
  | .done a t => .done (.ok a) t
  | .raised e t => .done (.error e) t
  | .broken b => .broken b

/-- Succeed or fail as already decided. -/
def ofExcept : Except Cause α → Action σ α
  | .ok a => Action.pure a
  | .error c => fail c

/-- End with a value or with an exception, as an attempt did. -/
def ofResult : Except Exception α → Action σ α
  | .ok a => Action.pure a
  | .error e => raise e

/-- Succeed, unless an invariant is violated. -/
def ofSound : Except Breach α → Action σ α
  | .ok a => Action.pure a
  | .error b => breach b

instance : MonadStateOf σ (Action σ) where
  get := fun s => .done s s
  set := fun t _ => .done () t
  modifyGet := fun f s => .done (f s).1 (f s).2

instance : MonadLift (Except Breach) (Action σ) where
  monadLift := ofSound

/-- Run `x` after which `clean` is run if `x` raised, the exception going on. -/
def onRaise (x : Action σ α) (clean : Action σ Unit) : Action σ α := fun s =>
  match x s with
  | .done a t => .done a t
  | .raised e t => (clean.bind fun _ => raise e) t
  | .broken b => .broken b

/-- Run `x`, then `clean` whether `x` raised or not, and end as `x` did. -/
def ensuring (x : Action σ α) (clean : Action σ Unit) : Action σ α := fun s =>
  match x s with
  | .done a t => (clean.bind fun _ => Action.pure a) t
  | .raised e t => (clean.bind fun _ => raise e) t
  | .broken b => .broken b

/-- Run `x`, which must not raise: an exception is a violated invariant. -/
def unfailing (x : Action σ α) (breach : Exception → Breach) : Action σ α := fun s =>
  match x s with
  | .done a t => .done a t
  | .raised e _ => .broken (breach e)
  | .broken b => .broken b

/-- Let an action on a part of the state, read by `get` and written by `put`, work on the whole. -/
def zoom (get : τ → σ) (put : σ → τ → τ) (x : Action σ α) : Action τ α := fun t =>
  match x (get t) with
  | .done a s => .done a (put s t)
  | .raised e s => .raised e (put s t)
  | .broken b => .broken b

/-! ### Equations -/

@[simp] theorem pure_apply (a : α) (s : σ) : (pure a : Action σ α) s = .done a s := rfl

theorem bind_apply (x : Action σ α) (f : α → Action σ β) (s : σ) :
    (x >>= f) s = match x s with
      | .done a t => f a t
      | .raised e t => .raised e t
      | .broken b => .broken b := rfl

theorem bind_done {x : Action σ α} {a : α} {s t : σ} (h : x s = .done a t)
    (f : α → Action σ β) : (x >>= f) s = f a t := by
  rw [bind_apply, h]

theorem bind_raised {x : Action σ α} {e : Exception} {s t : σ} (h : x s = .raised e t)
    (f : α → Action σ β) : (x >>= f) s = .raised e t := by
  rw [bind_apply, h]

theorem zoom_done {get : τ → σ} {put : σ → τ → τ} {x : Action σ α} {a : α} {s : σ} {t : τ}
    (h : x (get t) = .done a s) : x.zoom get put t = .done a (put s t) := by
  rw [zoom, h]

theorem ensuring_bind_done {x : Action σ α} {clean : Action σ Unit} {a : α} {s t : σ}
    (h : x s = .done a t) (f : α → Action σ β) :
    (x.ensuring clean >>= f) s = (clean >>= fun _ => f a) t := by
  have cleaned : x.ensuring clean s = (clean >>= fun _ => (pure a : Action σ α)) t := by
    rw [ensuring, h]
    rfl
  rw [bind_apply, cleaned, bind_apply, bind_apply]
  cases clean t <;> rfl

theorem ensuring_raised {x : Action σ α} {clean : Action σ Unit} {e : Exception} {s t u : σ}
    (h : x s = .raised e t) (hc : clean t = .done () u) : x.ensuring clean s = .raised e u := by
  rw [ensuring, h]
  exact bind_done hc _

@[simp] theorem raise_apply (e : Exception) (s : σ) :
    (raise e : Action σ α) s = .raised e s := rfl

@[simp] theorem fail_apply (c : Cause) (s : σ) :
    (fail c : Action σ α) s = .raised c.exception s := rfl

@[simp] theorem breach_apply (b : Breach) (s : σ) : (breach b : Action σ α) s = .broken b := rfl

instance : LawfulMonad (Action σ) :=
  LawfulMonad.mk' (Action σ)
    (fun x => by
      funext s
      change Action.bind x _ s = x s
      simp only [Action.bind]
      cases x s <;> rfl)
    (fun _ _ => rfl)
    (fun x f g => by
      funext s
      change Action.bind (Action.bind x f) g s = Action.bind x (fun a => Action.bind (f a) g) s
      simp only [Action.bind]
      cases x s <;> rfl)

end Action

end StackScript
