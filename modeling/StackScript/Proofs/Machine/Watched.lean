import StackScript.Proofs.Machine.Reached
import StackScript.Proofs.Machine.Steps

/-!
# Sessions that are watched

A watched session keeps the machines it has passed through: one after each request of an operator,
after each move the machine makes by itself, and after each call of the host.  Watching changes
nothing (`Watches`): every action has a watched form that does what the action does, and the cycle
and the calls of a host are watched down to the requests (`Watched.watches_cycle`,
`Watched.watches_act`).
-/

namespace StackScript

variable {χ α β : Type}

/-- A session with the machines it has passed through, the last one first. -/
structure Watched (χ : Type) where
  session : Session χ
  moments : List Machine

namespace Watched

/-- The machine of the session. -/
def machine (w : Watched χ) : Machine := w.session.machine

/-! ### Watching -/

/-- Do what an action does, and note the machine it leaves. -/
def note (x : Action (Session χ) α) : Action (Watched χ) α := fun w =>
  match x w.session with
  | .done a s => .done a { session := s, moments := s.machine :: w.moments }
  | .raised e s => .raised e { session := s, moments := s.machine :: w.moments }
  | .broken b => .broken b

/-- The machine of a session; looking at it is no moment of its own. -/
def theMachine : Action (Watched χ) Machine := fun w => .done w.machine w

theorem theMachine_bind (k : Machine → Action (Watched χ) β) (w : Watched χ) :
    (theMachine >>= k) w = k w.machine w := rfl

theorem read_bind (a : α) (k : α → Action (Watched χ) β) (w : Watched χ) :
    ((liftM (.ok a : Except Breach α) : Action (Watched χ) α) >>= k) w = k a w := rfl

/-- Let an operation work, each request being noted. -/
def runOn (own : Option ℕ) (p : Operation α) : Action (Watched χ) α :=
  Program.run (fun r => note (Session.onMachine (r.perform own))) p

/-- Let an operation work that may keep something. -/
def runKeeping (own : Option ℕ) (p : χ → Operation (χ × Except Exception Unit)) :
    Action (Watched χ) Unit := fun w =>
  match runOn own (p w.session.host) w with
  | .done (host, .ok _) v => .done () { v with session := { v.session with host := host } }
  | .done (host, .error e) v => .raised e { v with session := { v.session with host := host } }
  | .raised e v => .raised e v
  | .broken b => .broken b

/-! ### The cycle -/

/-- Invoke an operator. -/
def invoke (natives : Natives χ) (o : Operator) (index : ℕ) (params : List Value) :
    Action (Watched χ) Unit :=
  match o with
  | .builtin b => runOn (some index) (b.operation params)
  | .native name _ =>
    match natives name with
    | .constant _ => pure ()
    | .function _ operation => runKeeping (some index) (operation params)

/-- The transitions that follow an invocation. -/
def settle (index : ℕ) (invokedIn : Continuation) : Action (Watched χ) Unit := do
  let m ← theMachine
  let reached := (← m.frame index).state
  let idle := reached = invokedIn ∧ (reached = .firstCall ∨ reached = .callBeforePop)
  if idle then note (Session.onMachine (Machine.setState index .pop))
  if (idle ∨ reached = .pop) ∧ (← theMachine).calls.length = index + 1 then note Session.popFrame

/-- Invoke an operator for the first time. -/
def dispatch (index : ℕ) (signature : List Param)
    (invoke : List Value → Action (Watched χ) Unit) : Action (Watched χ) Unit := do
  let params ← Action.ofExcept ((← theMachine).matchOperands signature)
  note (Session.onMachine (Machine.setState index .firstCall))
  note (Session.onMachine (Machine.onMemory (Memory.retainAll params)))
  (invoke params).ensuring
    (note (Session.onMachine (Machine.onMemory (Memory.releaseAll params))))
  settle index .firstCall

/-- Invoke an operator again. -/
def resume (index : ℕ) (state : Continuation) (invoke : List Value → Action (Watched χ) Unit) :
    Action (Watched χ) Unit := do
  (invoke []).onRaise (if state.isPopping then note (Session.abandon index) else pure ())
  settle index state

/-- One cycle of an operator's frame. -/
def stepOperator (natives : Natives χ) (index : ℕ) (o : Operator) : Action (Watched χ) Unit :=
  match Behaviour.ofOperator natives o with
  | .constant v => note (Session.pushOperand v >>= fun _ => Session.popFrame)
  | .function signature _ => do
    let frame ← (← theMachine).frame index
    match frame.state with
    | .pop => note Session.popFrame
    | .unknown => dispatch index signature (invoke natives o index)
    | state => resume index state (invoke natives o index)

/-- One unit of work on the top frame. -/
def step (natives : Natives χ) (index : ℕ) (frame : Frame) : Action (Watched χ) Unit := do
  match (← theMachine).invoked? frame with
  | some o => stepOperator natives index o
  | none => note (Session.step natives index frame)

/-- One cycle. -/
def cycle (natives : Natives χ) : Action (Watched χ) Bool := do
  match (← theMachine).calls.frames with
  | [] => return false
  | frame :: below =>
    match ← (step natives below.length frame).attempt with
    | .ok _ => pure ()
    | .error e => note (Session.onMachine (Machine.raise e))
    return !(← theMachine).calls.isEmpty

end Watched

/-! ### Watching changes nothing -/

/-- What the watched action does to the session is what the action does. -/
def Watches (X : Action (Watched χ) α) (x : Action (Session χ) α) : Prop :=
  ∀ w, match X w with
    | .done a w' => x w.session = .done a w'.session
    | .raised e w' => x w.session = .raised e w'.session
    | .broken b => x w.session = .broken b

namespace Watches

variable {X : Action (Watched χ) α} {x : Action (Session χ) α}

theorem bind {F : α → Action (Watched χ) β} {f : α → Action (Session χ) β} (hX : Watches X x)
    (hF : ∀ a, Watches (F a) (f a)) : Watches (X >>= F) (x >>= f) := fun w => by
  have hx := hX w
  rw [Action.bind_apply, Action.bind_apply]
  cases h : X w with
  | done a w' => rw [h] at hx; rw [hx]; exact hF a w'
  | raised e w' => rw [h] at hx; rw [hx]
  | broken b => rw [h] at hx; rw [hx]

theorem ensuring {C : Action (Watched χ) Unit} {c : Action (Session χ) Unit} (hX : Watches X x)
    (hC : Watches C c) : Watches (X.ensuring C) (x.ensuring c) := fun w => by
  have hx := hX w
  unfold Action.ensuring
  cases h : X w with
  | done a w' => rw [h] at hx; rw [hx]; exact (hC.bind fun _ => fun _ => rfl) w'
  | raised e w' => rw [h] at hx; rw [hx]; exact (hC.bind fun _ => fun _ => rfl) w'
  | broken b => rw [h] at hx; rw [hx]

theorem onRaise {C : Action (Watched χ) Unit} {c : Action (Session χ) Unit} (hX : Watches X x)
    (hC : Watches C c) : Watches (X.onRaise C) (x.onRaise c) := fun w => by
  have hx := hX w
  unfold Action.onRaise
  cases h : X w with
  | done a w' => rw [h] at hx; rw [hx]
  | raised e w' => rw [h] at hx; rw [hx]; exact (hC.bind fun _ => fun _ => rfl) w'
  | broken b => rw [h] at hx; rw [hx]

theorem attempt (hX : Watches X x) : Watches X.attempt x.attempt := fun w => by
  have hx := hX w
  unfold Action.attempt
  cases h : X w <;> rw [h] at hx <;> rw [hx]

theorem pure (a : α) : Watches (Pure.pure a) (Pure.pure a : Action (Session χ) α) := fun _ => rfl

theorem ofExcept (r : Except Cause α) :
    Watches (Action.ofExcept r) (Action.ofExcept r : Action (Session χ) α) := fun _ => by
  cases r <;> rfl

theorem ofSound (r : Except Breach α) :
    Watches (Action.ofSound r) (Action.ofSound r : Action (Session χ) α) := fun _ => by
  cases r <;> rfl

theorem theMachine : Watches Watched.theMachine (Session.theMachine : Action (Session χ) _) :=
  fun _ => rfl

theorem note (x : Action (Session χ) α) : Watches (Watched.note x) x := fun w => by
  unfold Watched.note
  cases h : x w.session <;> rfl

theorem ite {p : Prop} [Decidable p] {Y : Action (Watched χ) α} {y : Action (Session χ) α}
    (hX : Watches X x) (hY : Watches Y y) :
    Watches (if p then X else Y) (if p then x else y) := by
  split
  · exact hX
  · exact hY

/-- The session a watched action leaves. -/
theorem state? (hX : Watches X x) (w : Watched χ) :
    (x w.session).state? = (X w).state?.map Watched.session := by
  have hx := hX w
  cases h : X w <;> rw [h] at hx <;> rw [hx] <;> rfl

end Watches

namespace Session

variable {s : Session χ}

theorem onMachine_bind (x : Action Machine α) (f : α → Action Machine β) :
    (onMachine (x >>= f) : Action (Session χ) β) = onMachine x >>= fun a => onMachine (f a) := by
  funext s
  rw [Action.bind_apply]
  unfold onMachine Action.zoom
  rw [Action.bind_apply]
  cases x s.machine with
  | done a m => cases f a m <;> rfl
  | raised e m => rfl
  | broken b => rfl

theorem onMachine_get_bind (f : Machine → Action Machine β) :
    (onMachine (get >>= f) : Action (Session χ) β) = theMachine >>= fun m => onMachine (f m) := by
  rw [onMachine_bind]
  rfl

theorem onMachine_ofSound (r : Except Breach α) :
    (onMachine (Action.ofSound r) : Action (Session χ) α) = Action.ofSound r := by
  funext s
  cases r <;> rfl

theorem onMachine_ite {p : Prop} [Decidable p] (x : Action Machine Unit) :
    (onMachine (if p then x else pure ()) : Action (Session χ) Unit) =
      if p then onMachine x else pure () := by
  split <;> rfl

theorem runFrom_succ (natives : Natives χ) (count budget : ℕ) (s : Session χ) :
    runFrom natives count (budget + 1) s = if s.machine.calls.isEmpty then .done count s
      else Action.bind (cycle natives) (fun _ => runFrom natives (count + 1) budget) s := by
  rw [runFrom]
  unfold Action.bind
  cases cycle natives s <;> rfl

/-- An operation that begins with a request. -/
theorem onMachine_ask {own : Option ℕ} {r : Request} {next : r.Answer → Operation α}
    {failed : Exception → Operation α} :
    onMachine (Operation.runOn own (Program.ask r next failed)) s =
      match onMachine (r.perform own) s with
      | .done a t => onMachine ((next a).runOn own) t
      | .raised e t => onMachine ((failed e).runOn own) t
      | .broken b => .broken b := by
  unfold onMachine Action.zoom Operation.runOn
  simp only [Program.run]
  cases r.perform own s.machine <;> rfl

theorem runKeeping_eq (own : Option ℕ) (p : χ → Operation (χ × Except Exception Unit)) :
    runKeeping own p s =
      match onMachine ((p s.host).runOn own) s with
      | .done (host, .ok _) t => .done () { t with host := host }
      | .done (host, .error e) t => .raised e { t with host := host }
      | .raised e t => .raised e t
      | .broken b => .broken b := by
  unfold runKeeping onMachine Action.zoom
  cases (p s.host).runOn own s.machine with
  | done r m =>
    obtain ⟨host, result⟩ := r
    cases result <;> rfl
  | raised e m => rfl
  | broken b => rfl

end Session

namespace Watched

variable {natives : Natives χ}

theorem runOn_ask {own : Option ℕ} {r : Request} {next : r.Answer → Operation α}
    {failed : Exception → Operation α} (w : Watched χ) :
    runOn own (Program.ask r next failed) w =
      match note (Session.onMachine (r.perform own)) w with
      | .done a v => runOn own (next a) v
      | .raised e v => runOn own (failed e) v
      | .broken b => .broken b := by
  simp only [runOn, Program.run]
  cases note (Session.onMachine (r.perform own)) w <;> rfl

theorem watches_runOn (own : Option ℕ) (p : Operation α) :
    Watches (runOn own p : Action (Watched χ) α) (Session.onMachine (p.runOn own)) := by
  intro w
  induction p generalizing w with
  | done a => rfl
  | raise e => rfl
  | broken b => rfl
  | ask r next failed ihn ihf =>
    have hr := Watches.note (Session.onMachine (r.perform own)) w
    rw [Session.onMachine_ask, runOn_ask]
    cases h : note (Session.onMachine (r.perform own)) w with
    | done a w' => rw [h] at hr; rw [hr]; exact ihn a w'
    | raised e w' => rw [h] at hr; rw [hr]; exact ihf e w'
    | broken b => rw [h] at hr; rw [hr]

theorem watches_runKeeping (own : Option ℕ) (p : χ → Operation (χ × Except Exception Unit)) :
    Watches (runKeeping own p) (Session.runKeeping own p) := by
  intro w
  have hp := watches_runOn own (p w.session.host) w
  rw [runKeeping, Session.runKeeping_eq]
  cases h : runOn own (p w.session.host) w with
  | done r w' =>
    rw [h] at hp
    rw [hp]
    obtain ⟨host, result⟩ := r
    cases result <;> rfl
  | raised e w' => rw [h] at hp; rw [hp]
  | broken b => rw [h] at hp; rw [hp]

theorem watches_invoke {o : Operator} {signature : List Param}
    {inv : ℕ → List Value → Action (Session χ) Unit}
    (ho : Behaviour.ofOperator natives o = .function signature inv) (index : ℕ)
    (params : List Value) : Watches (invoke natives o index params) (inv index params) := by
  rcases Behaviour.function_cases ho with
    ⟨b, rfl, -, -, rfl⟩ | ⟨name, looping, operation, rfl, hn, rfl⟩
  · exact watches_runOn _ _
  · simp only [invoke, hn]
    exact watches_runKeeping _ _

/-! ### The cycle -/

theorem watches_settle (index : ℕ) (invokedIn : Continuation) :
    Watches (settle index invokedIn : Action (Watched χ) Unit)
      (Session.settle index invokedIn) := by
  unfold Session.settle
  rw [Session.onMachine_get_bind]
  refine .bind .theMachine fun m => ?_
  rw [Session.onMachine_bind]
  have frame : Watches (liftM (m.frame index) : Action (Watched χ) Frame)
      (Session.onMachine (liftM (m.frame index))) := by
    change Watches (Action.ofSound (m.frame index)) (Session.onMachine (Action.ofSound _))
    rw [Session.onMachine_ofSound]
    exact .ofSound _
  refine .bind frame fun f => ?_
  dsimp only
  have last (p : Prop) [Decidable p] : Watches
      (Watched.theMachine >>= fun m => if p ∧ m.calls.length = index + 1 then
        note Session.popFrame else (pure () : Action (Watched χ) Unit))
      (Session.onMachine (get >>= fun m => if p ∧ m.calls.length = index + 1 then
        Machine.popFrame else pure ())) := by
    rw [Session.onMachine_get_bind]
    refine .bind .theMachine fun m => ?_
    rw [Session.onMachine_ite]
    exact .ite (.note _) (.pure ())
  split
  · rw [Session.onMachine_bind]
    exact .bind (.note _) fun _ => last _
  · exact last _

theorem watches_dispatch {index : ℕ} {signature : List Param}
    {Inv : List Value → Action (Watched χ) Unit} {inv : List Value → Action (Session χ) Unit}
    (h : ∀ params, Watches (Inv params) (inv params)) :
    Watches (dispatch index signature Inv) (Session.dispatch index signature inv) := by
  refine .bind .theMachine fun m => .bind (.ofExcept _) fun params => ?_
  refine .bind (.note _) fun _ => .bind (.note _) fun _ => ?_
  exact .bind ((h params).ensuring (.note _)) fun _ => watches_settle index .firstCall

theorem watches_resume {index : ℕ} {state : Continuation}
    {Inv : List Value → Action (Watched χ) Unit} {inv : List Value → Action (Session χ) Unit}
    (h : ∀ params, Watches (Inv params) (inv params)) :
    Watches (resume index state Inv) (Session.resume index state inv) :=
  .bind ((h []).onRaise (.ite (.note _) (.pure ()))) fun _ => watches_settle index state

theorem watches_stepOperator (index : ℕ) (o : Operator) :
    Watches (stepOperator natives index o) (Session.stepOperator natives index o) := by
  unfold stepOperator Session.stepOperator
  cases ho : Behaviour.ofOperator natives o with
  | constant v => exact .note _
  | function signature inv =>
    refine .bind .theMachine fun m => .bind (.ofSound (m.frame index)) fun f => ?_
    have invoked (params : List Value) :
        Watches (invoke natives o index params) (inv index params) := watches_invoke ho index params
    cases f.state with
    | pop => exact .note _
    | unknown => exact watches_dispatch invoked
    | firstCall | running | callBeforePop | popping => exact watches_resume invoked

theorem watches_step (index : ℕ) (f : Frame) :
    Watches (step natives index f) (Session.step natives index f) := by
  intro w
  rw [step, theMachine_bind]
  cases ho : w.machine.invoked? f with
  | some o =>
    rw [Session.step_of_invoked ho]
    exact watches_stepOperator index o w
  | none => exact Watches.note _ w

/-- **Watching a cycle changes nothing.** -/
theorem watches_cycle (natives : Natives χ) : Watches (cycle natives) (Session.cycle natives) := by
  refine .bind .theMachine fun m => ?_
  cases m.calls.frames with
  | nil => exact .pure false
  | cons f rest =>
    refine .bind (watches_step rest.length f).attempt fun result => ?_
    cases result with
    | ok _ => exact .bind .theMachine fun m => .pure _
    | error e => exact .bind (.note _) fun _ => .bind .theMachine fun m => .pure _

/-! ### Runs -/

/-- Do at most `budget` cycles; `count` of them were done before. -/
def runFrom (natives : Natives χ) (count : ℕ) : ℕ → Action (Watched χ) ℕ
  | 0 => pure count
  | budget + 1 => do
    if (← theMachine).calls.isEmpty then return count
    else
      let _ ← cycle natives
      runFrom natives (count + 1) budget

/-- Do at most `budget` cycles and return how many were done. -/
def run (natives : Natives χ) (budget : ℕ) : Action (Watched χ) ℕ := do
  let count ← runFrom natives 0 budget
  let m ← theMachine
  match m.exception with
  | some e => if m.options.throwOnException then Action.raise e else return count
  | none => return count

/-- Run until no work is left, within the budget of the options. -/
def runToCompletion (natives : Natives χ) : Action (Watched χ) ℕ := do
  let budget := (← theMachine).options.defaultMaxCycles.getD Size.limit
  let count ← run natives budget
  if (← theMachine).calls.isEmpty then return count
  else Action.fail (.outOfCycles budget)

theorem watches_runFrom (budget count : ℕ) :
    Watches (runFrom natives count budget) (Session.runFrom natives count budget) := by
  induction budget generalizing count with
  | zero => exact .pure count
  | succ budget ih =>
    intro w
    rw [runFrom, theMachine_bind, Session.runFrom_succ, machine]
    by_cases hempty : w.session.machine.calls.isEmpty = true
    · rw [if_pos hempty, if_pos hempty]
      rfl
    · rw [if_neg hempty, if_neg hempty]
      exact (watches_cycle natives).bind (fun _ => ih (count + 1)) w

theorem watches_run (budget : ℕ) :
    Watches (run natives budget) (Session.run natives budget) := by
  refine .bind (watches_runFrom budget 0) fun count => .bind .theMachine fun m => ?_
  cases m.exception with
  | none => exact .pure count
  | some e => exact .ite (fun _ => rfl) (.pure count)

theorem watches_runToCompletion :
    Watches (runToCompletion natives) (Session.runToCompletion natives) :=
  .bind .theMachine fun _ => .bind (watches_run _) fun count => .bind .theMachine fun _ =>
    .ite (.pure count) fun _ => rfl

end Watched

/-! ### Calls of a host -/

/-- What a host can do to a machine. -/
inductive HostAct where
  /-- One of the operations the operators have too. -/
  | request (r : Request)
  | execute (work : Work)
  | cycle
  | run (budget : ℕ)
  | complete

namespace HostAct

/-- What an act does. -/
def perform (natives : Natives χ) : HostAct → Action (Session χ) Unit
  | .request r => Session.onMachine (r.perform none) >>= fun _ => pure ()
  | .execute work => Session.onMachine (Machine.execute work)
  | .cycle => Session.cycle natives >>= fun _ => pure ()
  | .run budget => Session.run natives budget >>= fun _ => pure ()
  | .complete => Session.runToCompletion natives >>= fun _ => pure ()

/-- What an act does, watched. -/
def watch (natives : Natives χ) : HostAct → Action (Watched χ) Unit
  | .request r => Watched.note (Session.onMachine (r.perform none)) >>= fun _ => pure ()
  | .execute work => Watched.note (Session.onMachine (Machine.execute work))
  | .cycle => Watched.cycle natives >>= fun _ => pure ()
  | .run budget => Watched.run natives budget >>= fun _ => pure ()
  | .complete => Watched.runToCompletion natives >>= fun _ => pure ()

/-- **Watching an act changes nothing.** -/
theorem watches (natives : Natives χ) (c : HostAct) :
    Watches (c.watch natives) (c.perform natives) := by
  cases c with
  | request r => exact (Watches.note _).bind fun _ => .pure ()
  | execute work => exact .note _
  | cycle => exact (Watched.watches_cycle natives).bind fun _ => .pure ()
  | run budget => exact (Watched.watches_run budget).bind fun _ => .pure ()
  | complete => exact Watched.watches_runToCompletion.bind fun _ => .pure ()

end HostAct

/-- A host that works with a machine it has created, watched. An act that fails leaves a machine
that can be worked with further on. -/
inductive Followed (natives : Natives χ) (m₀ : Machine) : Watched χ → Prop
  | start (host : χ) :
    Followed natives m₀ { session := { machine := m₀, host := host }, moments := [m₀] }
  | act {w w' : Watched χ} (c : HostAct) (h : Followed natives m₀ w)
      (hc : (c.watch natives w).state? = some w') : Followed natives m₀ w'

/-- Whatever an act of a host leaves can be watched. -/
theorem Followed.exists_act {natives : Natives χ} {m₀ : Machine} {w : Watched χ} {t : Session χ}
    (h : Followed natives m₀ w) (c : HostAct) (hc : (c.perform natives w.session).state? = some t) :
    ∃ w', Followed natives m₀ w' ∧ w'.session = t := by
  rw [(c.watches natives).state? w] at hc
  obtain ⟨w', hw', rfl⟩ := Option.map_eq_some_iff.1 hc
  exact ⟨w', h.act c hw', rfl⟩

end StackScript
