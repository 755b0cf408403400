import StackScript.Proofs.Machine.Reached

/-!
# Hosted code violates no invariant

Whatever texts a host queues, and however it drives the machine and clears exceptions, no invariant
is violated (`hosted_code_breaks_nothing`): accounts never hold less than what is given back, no
text is given up that is not referenced, no handle leads nowhere or to a container of the other
kind, no container is checked out twice or goes while it is, no frame is missing and no stack
resists being cleared.
-/

namespace StackScript

variable {χ : Type}

/-- Calls by which a host runs hosted code. -/
inductive HostCall where
  | exec (text origin : String)
  | cycle
  | run (budget : ℕ)
  | complete
  | clearException
deriving DecidableEq, Repr

namespace HostCall

/-- What a call does. -/
def perform : HostCall → Action (Session χ) Unit
  | .exec text origin => Session.onMachine (Machine.execute (.source text origin))
  | .cycle => do
    let _ ← Session.cycle Natives.none
  | .run budget => do
    let _ ← Session.run Natives.none budget
  | .complete => do
    let _ ← Session.runToCompletion Natives.none
  | .clearException => Session.onMachine do
    let _ ← Machine.intercept

variable {Γ : Charter} {s : Session χ}

/-- A call keeps the machine sound, also when it fails. -/
theorem perform_meets (hΓ : ∀ p, ¬ Γ.supplies p) (h : s.machine.Sound Γ 0 0) (c : HostCall) :
    (c.perform s).Meets False (fun _ t => t.machine.Sound Γ 0 0)
      fun t => t.machine.Sound Γ 0 0 := by
  have works (o : Operator) : (Behaviour.ofOperator (Natives.none : Natives χ) o).Works Γ :=
    Behaviour.works_none Γ o
  cases c with
  | exec text origin =>
    have step : (Machine.execute (.source text origin) s.machine).Meets False _ _ :=
      Machine.execute_meets h (fun vs hvs => by cases hvs) fun p hp => by cases hp
    exact Session.meets_onMachine (step.mono (fun _ _ h => h.1) fun _ h => h.1)
  | cycle =>
    exact Action.meets_bind ((Session.cycle_meets works h (h.fed hΓ)).always fun _ _ => id)
      fun _ _ ht => ht
  | run budget =>
    have fed := Session.fedFor_of_no_supplies works hΓ budget h
    exact Action.meets_bind (Session.run_meets works budget h fed) fun _ _ ht => ht
  | complete =>
    have fed := Session.fedFor_of_no_supplies works hΓ (Session.completionBudget s.machine) h
    exact Action.meets_bind (Session.runToCompletion_meets works h fed) fun _ _ ht => ht
  | clearException =>
    have step : ((do let _ ← Machine.intercept : Action Machine Unit) s.machine).Meets False
        (fun _ m => m.Sound Γ 0 0) fun m => m.Sound Γ 0 0 :=
      Action.meets_bind (Machine.intercept_meets h) fun _ _ hm => hm.1
    exact Session.meets_onMachine step

end HostCall

namespace Session

/-- One call after the other; the host goes on when a call fails. -/
def drive : List HostCall → Action (Session χ) Unit
  | [] => pure ()
  | c :: rest => do
    let _ ← c.perform.attempt
    drive rest

theorem drive_meets {Γ : Charter} {s : Session χ} (hΓ : ∀ p, ¬ Γ.supplies p)
    (h : s.machine.Sound Γ 0 0) (calls : List HostCall) :
    (drive calls s).Meets False (fun _ t => t.machine.Sound Γ 0 0) fun _ => False := by
  induction calls generalizing s with
  | nil => exact h
  | cons c rest ih =>
    have step := (c.perform_meets hΓ h).mono (fun _ _ => id) fun _ ht (_ : Exception) => ht
    exact Action.meets_bind (Action.meets_attempt step) fun _ _ ht => ih ht

end Session

/-- **Hosted code violates no invariant**, from the creation of the machine on. -/
theorem hosted_code_breaks_nothing {α : Type} {options : Options} {setup : Setup α}
    (hcapacity : ∀ t, options.maxMemory = some t → t ≤ Size.limit) (hs : setup.SelfContained []) :
    (∀ b, Machine.create options setup ≠ .broken b) ∧
      ∀ m a μ, Machine.create options setup = .done (m, a) μ →
        ∀ (host : χ) (calls : List HostCall) (b : Breach),
          Session.drive calls { machine := m, host := host } ≠ .broken b := by
  have created := Machine.create_meets (fun _ => False) (fun _ _ _ h => h.elim) hcapacity hs
  constructor
  · exact fun b => created.not_broken b
  · intro m a μ hm host calls b
    rw [hm] at created
    obtain ⟨Γ, hsupplies, fresh⟩ := created
    have none (p : Supply) : ¬ Γ.supplies p := by simp [hsupplies]
    exact (Session.drive_meets none fresh.sound calls).not_broken b

/-- A machine with a table, in which a bounded memory leaves little room. -/
theorem hosted_code_breaks_nothing_with_table :
    ∃ m μ, Machine.create { maxMemory := some 6000 } Setup.table = .done (m, ()) μ ∧
      ∀ calls b, Session.drive calls { machine := m, host := () } ≠ .broken b := by
  have countable (t : ℕ) (ht : Options.maxMemory { maxMemory := some 6000 } = some t) :
      t ≤ Size.limit := Option.some.inj ht ▸ (by decide : 6000 ≤ Size.limit)
  have safe := @hosted_code_breaks_nothing Unit _ _ _ countable Setup.selfContained_table
  have done : (Machine.create { maxMemory := some 6000 } Setup.table).isDone := by decide +kernel
  cases hm : Machine.create { maxMemory := some 6000 } Setup.table with
  | done r μ => exact ⟨r.1, μ, rfl, fun calls b => safe.2 r.1 () μ hm () calls b⟩
  | raised e μ => rw [hm] at done; cases done
  | broken b => exact absurd hm (safe.1 b)

end StackScript
