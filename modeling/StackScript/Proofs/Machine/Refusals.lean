import StackScript.Machine.Run
import StackScript.Proofs.Machine.Reached

/-!
# Allocations that are refused

A host runs its errands: it queues work, does cycles and runs, and takes exceptions away.  Whatever is
allocated on the way may be refused.  Hosted code and hosts meet a refusal as an exception
(`Outcome.overflows`), and that is how it is seen where it happens: while the machine is created
(`Machine.denied`), in the step of a cycle or in the record of its exception (`Session.starves`), or while
work is queued.
-/

namespace StackScript

/-- An allocation is refused, and that ends the action. -/
def Outcome.overflows {σ α : Type} : Outcome σ α → Bool
  | .raised e _ => e.condition == .memoryOverflow
  | _ => false

/-! ### While a machine is created -/

/-- A request of the setup is refused an allocation, whatever the setup makes of it. -/
def Setup.denied {α : Type} : Setup α → Construction → Bool
  | .done _, _ | .raise _, _ | .broken _, _ => false
  | .ask r next failed, c =>
    match r.perform c with
    | .done a d => denied (next a) d
    | .raised e d => e.condition == .memoryOverflow || denied (failed e) d
    | .broken _ => false

namespace Machine

/-- What there is of a machine when its host scope is filled. -/
structure Parts where
  operands : Sequence
  calls : CallStack
  scopes : Sequence
  host : Handle

/-- Provide the stacks and the host scope. -/
def prepare : Action Memory Parts := do
  let operands ← Sequence.acquire Sequence.valueSlot .system 64 64
  let calls ← CallStack.acquire
  let scopes ← Sequence.acquire Sequence.valueSlot .system 8 8
  let host ← Memory.newDictionary .system ["host"]
  return { operands, calls, scopes, host }

/-- Provide the other scopes. -/
def furnish {α : Type} (options : Options) (parts : Parts) (provided : α) :
    Action Memory (Machine × α) := do
  let system ← Memory.newDictionary .system ["system"]
  defineBuiltins system Builtin.all
  let common ← Memory.newDictionary .system ["global"]
  let user ← Memory.newDictionary .system ["user"]
  let permanent : List Value :=
    [.dictionary parts.host false, .dictionary system false, .dictionary common true,
      .dictionary user true]
  let scopes ← (parts.scopes.exchange 0 permanent).ensuring (Memory.releaseAll permanent)
  let memory ← get
  let m : Machine :=
    { options := options, memory := memory, operands := parts.operands, calls := parts.calls,
      scopes := scopes }
  return (m, provided)

theorem assemble_eq {α : Type} (options : Options) (setup : Setup α) :
    assemble options setup = prepare >>= fun parts =>
      setup.fill parts.host >>= fun provided => furnish options parts provided := by
  unfold prepare
  simp only [bind_assoc, pure_bind]
  rfl

/-- An allocation is refused while the machine is created. -/
def denied {α : Type} (options : Options) (setup : Setup α) : Bool :=
  match prepare (Memory.empty options.maxMemory options.debugMemory) with
  | .raised e _ => e.condition == .memoryOverflow
  | .broken _ => false
  | .done parts μ => Setup.denied setup { memory := μ, scope := parts.host } ||
    match setup.fill parts.host μ with
    | .done a ν => (furnish options parts a ν).overflows
    | _ => false

/-! ### While it works -/

/-- Ask for what the record of an exception costs. -/
def chargeRecord (e : Exception) : Action Machine Unit := do
  let m ← get
  if m.isDoomed then return
  let trail ← m.trail
  discharge m.pending
  onMemory (Memory.onLedger (Ledger.allocate ({ e with trail := trail } : Exception).size .system))

end Machine

variable {χ : Type}

namespace Session

/-- An allocation is refused in the next cycle: in its step, or for the record of its exception. -/
def starves (s : Session χ) : Bool :=
  match s.machine.calls.frames with
  | [] => false
  | f :: rest =>
    match step Natives.none rest.length f s with
    | .raised e t =>
      e.condition == .memoryOverflow || (Machine.chargeRecord e t.machine).overflows
    | _ => false

/-- An allocation is refused in one of the next cycles. -/
def starvesWithin : ℕ → Session χ → Bool
  | 0, _ => false
  | budget + 1, s =>
    if s.machine.calls.isEmpty then false
    else s.starves || match cycle Natives.none s with
      | .done _ t => starvesWithin budget t
      | _ => false

end Session

/-! ### Errands -/

/-- What a host has a machine do. -/
inductive Errand where
  | execute (work : Work)
  | cycle
  | run (budget : ℕ)
  | complete
  | clearException
deriving DecidableEq, Repr

/-- What the host is told. -/
inductive Reply where
  | queued
  | worked (more : Bool)
  | counted (cycles : ℕ)
  | cleared (e : Option Exception)
deriving DecidableEq, Repr

namespace Errand

/-- Run an errand. -/
def perform : Errand → Action (Session χ) Reply
  | .execute work => do
    Session.onMachine (Machine.execute work)
    return .queued
  | .cycle => do return .worked (← Session.cycle Natives.none)
  | .run budget => do return .counted (← Session.run Natives.none budget)
  | .complete => do return .counted (← Session.runToCompletion Natives.none)
  | .clearException => do return .cleared (← Session.onMachine Machine.intercept)

/-- An allocation is refused meanwhile. -/
def refused : Errand → Session χ → Bool
  | .execute work, s => (Machine.execute work s.machine).overflows
  | .cycle, s => s.starves
  | .run budget, s => s.starvesWithin budget
  | .complete, s => s.starvesWithin (Session.completionBudget s.machine)
  | .clearException, _ => false

/-- What the host passes on is there. -/
def Fair : Errand → Session χ → Prop
  | .execute work, s => ∀ v ∈ work.passed, s.machine.Knows 0 v
  | .cycle, s => s.machine.Fed 0
  | .run budget, s => Session.FedFor Natives.none 0 budget s
  | .complete, s => Session.FedFor Natives.none 0 (Session.completionBudget s.machine) s
  | .clearException, _ => True

end Errand

namespace Session

/-- What the host is told after each errand, with what it has then.  It goes on when one fails. -/
def transcript : List Errand → Session χ → List (Except Exception Reply × Session χ)
  | [], _ => []
  | c :: rest, s =>
    match c.perform.attempt s with
    | .done r t => (r, t) :: transcript rest t
    | _ => []

/-- What the host has when it has run all its errands. -/
def after : List Errand → Session χ → Session χ
  | [], s => s
  | c :: rest, s =>
    match c.perform.attempt s with
    | .done _ t => after rest t
    | _ => s

/-- An allocation is refused in one of the errands. -/
def refused : List Errand → Session χ → Bool
  | [], _ => false
  | c :: rest, s => c.refused s ||
    match c.perform.attempt s with
    | .done _ t => refused rest t
    | _ => false

/-- What the host passes on is there each time. -/
def Fair : List Errand → Session χ → Prop
  | [], _ => True
  | c :: rest, s => c.Fair s ∧ ∀ r t, c.perform.attempt s = .done r t → Fair rest t

end Session

/-! ### Errands keep the machine sound -/

variable {Γ : Charter} {s : Session χ}

theorem Errand.perform_meets (h : s.machine.Sound Γ 0 0) (c : Errand)
    (hsupplies : ∀ p, c = .execute (.supply p) → Γ.supplies p) (hc : c.Fair s) :
    (c.perform s).Meets False (fun _ t => t.machine.Sound Γ 0 0) fun t => t.machine.Sound Γ 0 0 := by
  have works (o : Operator) : (Behaviour.ofOperator (Natives.none : Natives χ) o).Works Γ :=
    Behaviour.works_none Γ o
  cases c with
  | execute work =>
    have queued : (Machine.execute work s.machine).Meets False _ _ := Machine.execute_meets h
      (fun vs hvs v hv => hc v (by rw [hvs]; exact hv)) fun p hp => hsupplies p (hp ▸ rfl)
    exact Action.meets_bind (Session.meets_onMachine (queued.mono (fun _ _ h => h.1) fun _ h => h.1))
      fun _ _ ht => ht
  | cycle =>
    exact Action.meets_bind ((Session.cycle_meets works h hc).always fun _ _ => id) fun _ _ ht => ht
  | run budget => exact Action.meets_bind (Session.run_meets works budget h hc) fun _ _ ht => ht
  | complete => exact Action.meets_bind (Session.runToCompletion_meets works h hc) fun _ _ ht => ht
  | clearException =>
    exact Action.meets_bind (Session.meets_onMachine ((Machine.intercept_meets h).mono
      (fun _ _ h => h.1) fun _ => False.elim)) fun _ _ ht => ht

/-- The host goes on when an errand fails. -/
theorem Errand.attempt_meets (h : s.machine.Sound Γ 0 0) (c : Errand)
    (hsupplies : ∀ p, c = .execute (.supply p) → Γ.supplies p) (hc : c.Fair s) :
    (c.perform.attempt s).Meets False (fun _ t => t.machine.Sound Γ 0 0) fun _ => False :=
  Action.meets_attempt ((c.perform_meets h hsupplies hc).mono (fun _ _ => id) fun _ ht _ => ht)

/-! ### Errands with texts -/

/-- The work is a text, if any is queued. -/
def Errand.isTextual : Errand → Bool
  | .execute (.source ..) => true
  | .execute _ => false
  | _ => true

/-- A host that queues texts only passes on nothing that could be missing. -/
theorem Session.fair_of_texts (hΓ : ∀ p, ¬ Γ.supplies p) (h : s.machine.Sound Γ 0 0)
    {calls : List Errand} (htexts : ∀ c ∈ calls, c.isTextual) : Session.Fair calls s := by
  induction calls generalizing s with
  | nil => trivial
  | cons c rest ih =>
    obtain ⟨htext, hrest⟩ := List.forall_mem_cons.1 htexts
    have fed (budget : ℕ) : Session.FedFor Natives.none 0 budget s :=
      Session.fedFor_of_no_supplies (Behaviour.works_none Γ) hΓ budget h
    have fair : c.Fair s := by
      cases c with
      | execute work =>
        cases work with
        | source text origin => exact List.forall_mem_nil _
        | values vs => cases htext
        | supply p => cases htext
      | cycle => exact h.fed hΓ
      | run budget => exact fed budget
      | complete => exact fed _
      | clearException => trivial
    have none (p : Supply) (hp : c = .execute (.supply p)) : Γ.supplies p := by
      rw [hp] at htext
      cases htext
    have next := c.attempt_meets h none fair
    exact ⟨fair, fun r t ht => ih (by rw [ht] at next; exact next) hrest⟩

end StackScript
