import StackScript.Proofs.Comparison.Bookkeeping
import StackScript.Proofs.Comparison.Cycles

/-!
# Comparisons that are lost for good

A comparison of books is *lasting* if it is lost only when an invariant is violated, so that it is
still lost whatever is made of exceptions (`Bookkeeping.Lasting`).  Machines whose books are compared
so go together in every command of a host: in requests, in cycles and in runs, and already while they
are created.
-/

namespace StackScript

open Likeness

/-! ### Commands of a host -/

/-- What a host can have a machine do. -/
inductive Command where
  /-- Look at the machine or work on it. -/
  | request (r : Request)
  | execute (work : Work)
  | cycle
  | run (budget : ℕ)
  | complete
deriving DecidableEq, Repr

/-- What the host is told. -/
inductive Response where
  | done
  | created (v : Value)
  | cleared (e : Option Exception)
  | worked (more : Bool)
  | counted (cycles : ℕ)
deriving DecidableEq, Repr

/-- What the host is told of the answer to a request. What it sees of the machine is not in it. -/
def Request.report : (r : Request) → r.Answer → Response
  | .createArray .., v => .created v
  | .createFilledArray .., v => .created v
  | .createDictionary, v => .created v
  | .intercept, e => .cleared e
  | _, _ => .done

/-- Do what the host asks for. -/
def Command.perform {χ : Type} : Command → Action (Session χ) Response
  | .request r => do return r.report (← Session.onMachine (r.perform none))
  | .execute work => do
    Session.onMachine (Machine.execute work)
    return .done
  | .cycle => do return .worked (← Session.cycle Natives.none)
  | .run budget => do return .counted (← Session.run Natives.none budget)
  | .complete => do return .counted (← Session.runToCompletion Natives.none)

/-! ### What is lost stays lost -/

namespace Bookkeeping

/-- Only a violated invariant matters to whether the comparison is lost. -/
def Lasting (B : Bookkeeping) : Prop :=
  ∀ ⦃f g f' g' : Fate⦄, B.lost f g → (f = .broken → f' = .broken) → (g = .broken → g' = .broken) →
    B.lost f' g'

variable {B : Bookkeeping} {χ σ α β γ δ : Type} {μ ν : Memory} {m n : Machine} {s t : Session χ}

/-! ### Cycles and runs -/

/-- What is the same when a machine fails is the same when that is attempted. -/
theorem Lasting.attempt_agree (hB : B.Lasting) [Metered σ] {R : σ → σ → Prop} {x y : Action σ α} {u v : σ}
    (h : B.toLikeness.Agree Eq R (x u) (y v)) : B.toLikeness.Agree Eq R (x.attempt u) (y.attempt v) := by
  unfold Action.attempt
  generalize x u = o at h
  generalize y v = p at h
  cases h with
  | done ha h => exact .done (ha ▸ rfl) h
  | raised he h => exact .done (he.whole B.literal ▸ rfl) h
  | lost h =>
    exact .lost (hB h (fun h => by cases o <;> first | rfl | cases h) fun h => by
      cases p <;> first | rfl | cases h)

theorem Lasting.record_agree (hB : B.Lasting) (e : Exception) (h : B.Memories μ ν) :
    B.toLikeness.Agree Eq B.Memories (PendingException.record e μ) (PendingException.record e ν) := by
  have charged := works_onLedger (B.allocate e.size .system) h
  rw [record_apply, record_apply]
  generalize Memory.onLedger (Ledger.allocate e.size .system) μ = o at charged
  generalize Memory.onLedger (Ledger.allocate e.size .system) ν = p at charged
  cases charged with
  | done _ h => exact .done rfl h
  | raised _ h => exact .done rfl h
  | lost h =>
    exact .lost (hB h (fun h => by cases o <;> first | rfl | cases h) fun h => by
      cases p <;> first | rfl | cases h)

theorem Lasting.raise_agree (hB : B.Lasting) (h : B.setting.Machines m n) (e : Exception) :
    B.toLikeness.Agree (fun _ _ => True) B.setting.Machines (Machine.raise e m) (Machine.raise e n) := by
  refine Setting.raise_agree h fun trail trail' u v hr => ?_
  obtain rfl := hr.same B.literal
  refine (hB.record_agree _ hr.machines.memory).mono ?_ fun _ _ => id
  rintro p _ rfl
  exact ⟨.refl _ _, fun _ => rfl⟩

theorem isEmpty_eq (h : B.setting.Sessions s t) : s.machine.calls.isEmpty = t.machine.calls.isEmpty := by
  rw [CallStack.isEmpty, CallStack.isEmpty, h.machine.calls.frames_eq B.literal]

/-- **A cycle.** -/
theorem Lasting.cycle_agree (hB : B.Lasting) (h : B.setting.Sessions s t) :
    B.toLikeness.Agree Eq B.setting.Sessions (Session.cycle Natives.none s) (Session.cycle Natives.none t) := by
  have frames := h.machine.calls.frames_eq B.literal
  cases hframes : s.machine.calls.frames with
  | nil =>
    rw [Session.cycle_idle hframes, Session.cycle_idle (frames ▸ hframes)]
    exact .done rfl h
  | cons f rest =>
    have hframes' : t.machine.calls.frames = f :: rest := frames ▸ hframes
    have top : B.setting.Topped rest.length rest.length s.machine t.machine :=
      ⟨h.machine, ⟨rest.length, rfl, rfl⟩, by rw [CallStack.length, hframes, List.length_cons]⟩
    rcases Setting.cycle_agree h top hframes hframes' (fun e e' u v _ _ he huv =>
        he.whole B.literal ▸ hB.raise_agree huv.machine e) with lost | agreed
    · -- the cycle of a machine breaks if its step does
      have broken {s : Session χ} (hframes : s.machine.calls.frames = f :: rest)
          (h : (Session.step Natives.none rest.length f s).fate = .broken) :
          (Session.cycle Natives.none s).fate = .broken := by
        obtain ⟨b, hb⟩ := Outcome.fate_eq_broken h
        rw [Session.cycle_apply hframes, hb]
        rfl
      exact .lost (hB lost (broken hframes) (broken hframes'))
    · refine agreed.of_eq fun more more' u v hu hv _ huv => ?_
      rw [Session.more_of_cycle hu, Session.more_of_cycle hv, isEmpty_eq huv]

/-- **A run.** -/
theorem Lasting.runFrom_agree (hB : B.Lasting) (count budget : ℕ) (h : B.setting.Sessions s t) :
    B.toLikeness.Agree Eq B.setting.Sessions (Session.runFrom Natives.none count budget s)
      (Session.runFrom Natives.none count budget t) := by
  induction budget generalizing count s t with
  | zero => exact .done rfl h
  | succ budget ih =>
    have cycled := hB.cycle_agree h
    rw [Session.runFrom, Session.runFrom, ← isEmpty_eq h]
    split
    · exact .done rfl h
    · generalize Session.cycle Natives.none s = o at cycled
      generalize Session.cycle Natives.none t = p at cycled
      cases cycled with
      | done _ h => exact ih (count + 1) h
      | raised he h => exact .raised he h
      | lost h =>
        exact .lost (hB h (fun h => by cases o <;> first | rfl | cases h) fun h => by
          cases p <;> first | rfl | cases h)

theorem Lasting.run_agree (hB : B.Lasting) (budget : ℕ) : B.setting.Abreast Eq (Session.run Natives.none budget : Action (Session χ) ℕ)
    (Session.run Natives.none budget) := by
  intro s t h
  have rising (count : ℕ) := Session.rising_reported (χ := χ) count
  refine Agree.bind (Q := B.setting.Sessions) (hB.runFrom_agree 0 budget h) (fun _ _ => id) ?_
  rintro count _ u v rfl huv
  rw [Session.theMachine_bind, Session.theMachine_bind]
  have exceptions := huv.machine.exception
  generalize u.machine.exception = o at exceptions
  generalize v.machine.exception = p at exceptions
  cases exceptions with
  | none => exact .done rfl huv
  | @some e e' he =>
    obtain rfl : e = e' := he.whole B.literal
    dsimp only
    rw [huv.machine.throws]
    split
    · exact .raised (.refl _ e) huv
    · exact .done rfl huv

theorem Lasting.runToCompletion_agree (hB : B.Lasting) : B.setting.Abreast Eq
    (Session.runToCompletion Natives.none : Action (Session χ) ℕ)
    (Session.runToCompletion Natives.none) := by
  intro s t h
  unfold Session.runToCompletion
  rw [Session.theMachine_bind, Session.theMachine_bind, h.machine.budget]
  refine Agree.bind (Q := B.setting.Sessions) (hB.run_agree _ h) (fun _ _ => id) ?_
  rintro count _ u v rfl huv
  rw [Session.theMachine_bind, Session.theMachine_bind, isEmpty_eq huv]
  split
  · exact .done rfl huv
  · exact .raised (.refl _ _) huv

/-! ### Requests -/

/-- A host asks for the same. -/
theorem perform_agree (r : Request) : B.setting.Beside (fun a b => r.report a = r.report b)
    (r.perform none) (r.perform none) := by
  have same (v : Value) : B.setting.Values v v := values_refl v
  have all (vs : List Value) : List.Forall₂ B.setting.Values vs vs := all_values_refl
  have created {v w : Value} (h : B.setting.Values v w) : Response.created v = .created w :=
    congrArg _ (eq_of_values h)
  cases r with
  | observe => exact fun _ _ h => .done rfl h
  | exchange drop values => exact (Setting.exchangeOperands drop (all values)).mono fun _ _ _ => rfl
  | adopt drop v => exact (Setting.adopt drop (same v)).mono fun _ _ _ => rfl
  | release v => exact (Setting.releaseValue (same v)).mono fun _ _ _ => rfl
  | clearOperands => exact Setting.clearOperands.mono fun _ _ _ => rfl
  | createArray access items => exact (Setting.createArray access (all items)).mono fun _ _ => created
  | createFilledArray access length v =>
    exact (Setting.createFilledArray access length (same v)).mono fun _ _ => created
  | createDictionary => exact Setting.createDictionary.mono fun _ _ => created
  | setItem container index v =>
    exact (Setting.setItem (same container) index (same v)).mono fun _ _ _ => rfl
  | define container name v =>
    exact (Setting.define (same container) name (same v)).mono fun _ _ _ => rfl
  | openScope v => exact (Setting.openScope (same v)).mono fun _ _ _ => rfl
  | closeScope => exact Setting.closeScope.mono fun _ _ _ => rfl
  | call v => exact (Setting.call (same v)).mono fun _ _ _ => rfl
  | openBlock => exact Setting.openBlock.mono fun _ _ _ => rfl
  | closeBlock => exact Setting.closeBlock.mono fun _ _ _ => rfl
  | intercept =>
    refine Setting.intercept.mono fun o p h => ?_
    cases h with
    | none => rfl
    | some he => exact congrArg (Response.cleared <| some ·) (he.whole B.literal)
  | setState next => exact parallel_fail _
  | setLocal name v => exact parallel_fail _
  | stash => exact parallel_fail _
  | restore => exact parallel_fail _

/-- **A command of the host.** -/
theorem Lasting.command_agree (hB : B.Lasting) (c : Command) :
    B.setting.Abreast Eq (c.perform : Action (Session χ) Response) c.perform := by
  cases c with
  | request r =>
    exact (Setting.onMachine (perform_agree r)).bind fun _ _ h => parallel_pure h
  | execute work =>
    intro s t h
    exact Agree.bind (Q := B.setting.Sessions)
      (Setting.agree_onMachine h (execute_agree h.machine work)) (fun _ _ => id)
      fun _ _ _ _ _ huv => .done rfl huv
  | cycle =>
    intro s t h
    exact Agree.bind (Q := B.setting.Sessions) (hB.cycle_agree h) (fun _ _ => id)
      fun _ _ _ _ hab huv => .done (congrArg _ hab) huv
  | run budget => exact (hB.run_agree budget).bind fun _ _ h => parallel_pure (congrArg _ h)
  | complete => exact hB.runToCompletion_agree.bind fun _ _ h => parallel_pure (congrArg _ h)

/-! ### Creating the machine -/

/-- **A setup.** -/
theorem Lasting.setup_agree (hB : B.Lasting) (setup : Setup α) {c d : Construction} (h : B.Constructions c d) :
    B.toLikeness.Agree Eq B.Constructions (setup.run Provision.perform c)
      (setup.run Provision.perform d) := by
  induction setup generalizing c d with
  | done a => exact .done rfl h
  | raise e => exact .raised (.refl _ e) h
  | broken b => exact agree_broken b b
  | ask r next failed ihn ihf =>
    have provided := provide_agree h r
    unfold Program.run
    generalize r.perform c = o at provided
    generalize r.perform d = p at provided
    cases provided with
    | done ha h => exact ha ▸ ihn _ h
    | raised he h => exact he.whole B.literal ▸ ihf _ h
    | lost h =>
      exact .lost (hB h (fun h => by cases o <;> first | rfl | cases h) fun h => by
        cases p <;> first | rfl | cases h)

theorem Lasting.fill_agree (hB : B.Lasting) (setup : Setup α) (host : Handle) (h : B.Memories μ ν) :
    B.toLikeness.Agree Eq B.Memories (setup.fill host μ) (setup.fill host ν) := by
  have filled := hB.setup_agree setup (c := { memory := μ, scope := host })
    (d := { memory := ν, scope := host }) ⟨h, rfl, rfl⟩
  have released {c d : Construction} (h : B.Constructions c d) :
      B.toLikeness.Agree Eq B.Memories (Memory.releaseAll c.created.reverse c.memory)
        (Memory.releaseAll d.created.reverse d.memory) :=
    h.created ▸ works_releaseAll _ h.memory
  unfold Setup.fill
  generalize setup.run Provision.perform { memory := μ, scope := host } = o at filled
  generalize setup.run Provision.perform { memory := ν, scope := host } = p at filled
  cases filled with
  | @done a b c d hab h =>
    cases hab
    exact Agree.bind (Q := B.Memories) (f := fun _ => pure a) (g := fun _ => pure a) (released h)
      (fun _ _ => id) fun _ _ _ _ _ h => .done rfl h
  | @raised e e' c d he h =>
    cases he.whole B.literal
    exact Agree.bind (Q := B.Memories) (f := fun _ => Action.raise e) (g := fun _ => Action.raise e)
      (released h) (fun _ _ => id) fun _ _ _ _ _ h => .raised (.refl _ e) h
  | lost h =>
    exact .lost (hB h (fun h => by cases o <;> first | rfl | cases h) fun h => by
      cases p <;> first | rfl | cases h)

/-- **Machines are created alike** in memories that are. -/
theorem Lasting.create_agree (hB : B.Lasting) {options options' : Options} (setup : Setup α)
    (start : B.Memories (Memory.empty options.maxMemory options.debugMemory)
      (Memory.empty options'.maxMemory options'.debugMemory))
    (hthrows : options.throwOnException = options'.throwOnException)
    (hbudget : options.defaultMaxCycles = options'.defaultMaxCycles) :
    B.toLikeness.Agree (fun r r' => B.setting.Machines r.1 r'.1 ∧ r.2 = r'.2) B.Memories
      (Machine.create options setup) (Machine.create options' setup) := by
  have furnishing := rising_furnish (α := α)
  have filling := rising_fill setup
  unfold Machine.create
  rw [Machine.assemble_eq, Machine.assemble_eq]
  refine Agree.bind (Q := B.Memories) (works_prepare start) (fun _ _ => id) ?_
  rintro parts _ μ ν rfl h
  refine Agree.bind (Q := B.Memories) (hB.fill_agree setup parts.host h) (fun _ _ => id) ?_
  rintro a _ μ ν rfl h
  exact furnish_agree parts a hthrows hbudget h

end Bookkeeping

end StackScript
