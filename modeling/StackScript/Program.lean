import StackScript.Action

/-!
# Programs over a set of requests

A program asks for one request after the other and decides what to do next from each answer, or
from the exception a request raised.  What a request does is not part of the program: it is given
by a handler when the program is run (`Program.run`).  Like an action, a program ends with a value,
with an exception, or with a breach.

Running a sequence of programs is running one after the other (`run_bind`), so a property kept by
every request is kept by every program.
-/

namespace StackScript

/-- A finite program over the requests `R`, where `r : R` is answered by an `Answer r`. -/
inductive Program {R : Type} (Answer : R → Type) (α : Type) : Type where
  /-- Finished with a value. -/
  | done (value : α)
  /-- Ended by an exception. -/
  | raise (exception : Exception)
  /-- Ended by the violation of an invariant. -/
  | broken (breach : Breach)
  /-- Make a request, then go on from its answer or from its exception. -/
  | ask (request : R) (next : Answer request → Program Answer α)
      (failed : Exception → Program Answer α)

namespace Program

variable {R : Type} {Answer : R → Type} {α β σ : Type}

/-- One program after the other. -/
protected def bind : Program Answer α → (α → Program Answer β) → Program Answer β
  | .done a, f => f a
  | .raise e, _ => .raise e
  | .broken b, _ => .broken b
  | .ask r next failed, f => .ask r (fun a => (next a).bind f) (fun e => (failed e).bind f)

instance : Monad (Program Answer) where
  pure := .done
  bind := Program.bind

/-- A single request. -/
def request (r : R) : Program Answer (Answer r) := .ask r .done .raise

/-- Fail for a cause. -/
def fail (c : Cause) : Program Answer α := .raise c.exception

/-- Succeed or fail as already decided. -/
def ofExcept : Except Cause α → Program Answer α
  | .ok a => .done a
  | .error c => fail c

/-- Succeed with the value of an option, or fail for a cause. -/
def ofOption (c : Cause) : Option α → Program Answer α
  | some a => .done a
  | none => fail c

/-- End with a value or with an exception, as an attempt did. -/
def ofResult : Except Exception α → Program Answer α
  | .ok a => .done a
  | .error e => .raise e

/-- Succeed, unless an invariant is violated. -/
def ofSound : Except Breach α → Program Answer α
  | .ok a => .done a
  | .error b => .broken b

instance : MonadLift (Except Breach) (Program Answer) where
  monadLift := ofSound

/-- Run a program and go on from its exception, if any. -/
def rescue : Program Answer α → (Exception → Program Answer α) → Program Answer α
  | .done a, _ => .done a
  | .raise e, h => h e
  | .broken b, _ => .broken b
  | .ask r next failed, h =>
    .ask r (fun a => (next a).rescue h) (fun e => (failed e).rescue h)

/-- Run a program and return its exception, if any, as a value. -/
def attempt : Program Answer α → Program Answer (Except Exception α)
  | .done a => .done (.ok a)
  | .raise e => .done (.error e)
  | .broken b => .broken b
  | .ask r next failed => .ask r (fun a => (next a).attempt) (fun e => (failed e).attempt)

/-- Run a program, each request being performed by the handler. -/
def run (perform : (r : R) → Action σ (Answer r)) : Program Answer α → Action σ α
  | .done a => fun s => .done a s
  | .raise e => fun s => .raised e s
  | .broken b => fun _ => .broken b
  | .ask r next failed => fun s =>
    match perform r s with
    | .done a t => (next a).run perform t
    | .raised e t => (failed e).run perform t
    | .broken b => .broken b

/-! ### Equations -/

variable (perform : (r : R) → Action σ (Answer r))

@[simp] theorem run_pure (a : α) : (pure a : Program Answer α).run perform = pure a := rfl

@[simp] theorem run_fail (c : Cause) :
    (fail c : Program Answer α).run perform = Action.fail c := rfl

@[simp] theorem run_ofSound (x : Except Breach α) :
    (ofSound x : Program Answer α).run perform = Action.ofSound x := by
  cases x <;> rfl

@[simp] theorem run_request (r : R) : (request r : Program Answer _).run perform = perform r := by
  funext s
  simp only [request, run]
  cases perform r s <;> rfl

@[simp] theorem run_bind (p : Program Answer α) (f : α → Program Answer β) :
    (p >>= f).run perform = p.run perform >>= fun a => (f a).run perform := by
  change (p.bind f).run perform = _
  funext s
  rw [Action.bind_apply]
  induction p generalizing s with
  | done a => rfl
  | raise e => rfl
  | broken b => rfl
  | ask r next failed ihn ihf =>
    simp only [Program.bind, run]
    cases perform r s with
    | done a t => exact ihn a t
    | raised e t => exact ihf e t
    | broken b => rfl

end Program

end StackScript
