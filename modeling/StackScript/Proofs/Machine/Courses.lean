import Mathlib.Logic.Relation
import StackScript.Proofs.Machine.Handling
import StackScript.Proofs.Machine.Lifelines

/-!
# The course of a session

What becomes of a session is a course of single steps: operations of the host, work it queues, and
cycles (`Session.Goes`); runs are courses of cycles (`HostAct.goes`).

A frame stays as it is for as long as it meets no cycle as the top frame (`Session.Goes.waits`).
Along every course, frames that have been dispatched are those of operators that can be invoked
again (`Session.Engaged`).
-/

namespace StackScript

open Relation (ReflTransGen)

/-- The call frames are as they were, but for one perhaps that has just been queued. -/
def CallStack.Receives (c c' : CallStack) : Prop :=
  c'.frames = c.frames ∨ ∃ v supply, (supply.isSome → Value.toOperator? v = none) ∧
    c'.frames = { value := v, supply := supply } :: c.frames

/-- A frame that has been dispatched is that of an operator that can be invoked; no supply is. -/
structure Frame.Engaged {χ : Type} (natives : Natives χ) (f : Frame) : Prop where
  supplied : f.supply.isSome → f.value.toOperator? = none
  operator : f.state ≠ .unknown → ∃ o signature invoke, f.value.toOperator? = some o ∧
    Behaviour.ofOperator natives o = .function signature invoke

namespace Session

variable {χ : Type} {natives : Natives χ} {s t u : Session χ} {k : ℕ} {f g : Frame}
  {rest : List Frame}

/-- One step in the course of a session. An act that fails leaves a session to go on with. -/
inductive Goes (natives : Natives χ) (s : Session χ) : Session χ → Prop
  | request {t : Session χ} (r : Request)
    (ht : (onMachine (r.perform none) s).state? = some t) : Goes natives s t
  | execute {t : Session χ} (work : Work)
    (ht : (onMachine (Machine.execute work) s).state? = some t) : Goes natives s t
  | cycle {t : Session χ} (ht : (Session.cycle natives s).state? = some t) : Goes natives s t

/-- Along the course, the frame with `k` frames below it is `f`. -/
def Waits (natives : Natives χ) (k : ℕ) (f : Frame) : Session χ → Session χ → Prop :=
  ReflTransGen fun s t => Goes natives s t ∧ t.machine.calls.frame? k = some f

/-- Along the course, there are more than `k` call frames. -/
def Lasts (natives : Natives χ) (k : ℕ) : Session χ → Session χ → Prop :=
  ReflTransGen fun s t => Goes natives s t ∧ k < t.machine.calls.length

/-! ### What a host does itself -/

theorem receives_of_request {r : Request} (ht : (onMachine (r.perform none) s).state? = some t) :
    s.machine.calls.Receives t.machine.calls := by
  have edited : s.machine.calls.Edited none t.machine.calls :=
    (meets_onMachine (P := fun _ t => s.machine.calls.Edited none t.machine.calls)
      (r.perform_edits none s.machine)).of_state? ht
  generalize t.machine.calls = c at edited
  cases edited with
  | kept => exact .inl rfl
  | queued v h => exact .inr ⟨v, none, nofun, h⟩
  | revised _ howner => cases howner

theorem receives_of_execute {work : Work}
    (ht : (onMachine (Machine.execute work) s).state? = some t) :
    s.machine.calls.Receives t.machine.calls := by
  have queued (v : Value) (supply : Option Supply) (hv : supply.isSome → v.toOperator? = none)
      (m : Machine) (hm : m.calls = s.machine.calls) :
      (Machine.onCalls (fun c => c.push { value := v, supply := supply }) m).Meets True
        (fun _ m => s.machine.calls.Receives m.calls) fun m => s.machine.calls.Receives m.calls :=
    (Machine.pushFrame_frames _ m).mono (fun _ m' h => .inr ⟨v, supply, hv, hm ▸ h⟩)
      fun m' h => .inl (by rw [h, hm])
  have executed : (Machine.execute work s.machine).Meets True
      (fun _ m => s.machine.calls.Receives m.calls)
      fun m => s.machine.calls.Receives m.calls := by
    cases work with
    | source text origin => exact queued _ none nofun s.machine rfl
    | values vs =>
      refine Action.meets_bind ((Machine.spares_createArray (fun _ _ => rfl) _ _ s.machine).mono
        (fun _ _ => id) fun m hm => .inl (congrArg CallStack.frames hm)) fun block m hm => ?_
      have released (m' : Machine) (h : s.machine.calls.Receives m'.calls) :
          (Machine.release block m').Meets True (fun _ m => s.machine.calls.Receives m.calls)
            fun m => s.machine.calls.Receives m.calls :=
        (Machine.onMemory_calls _ m').mono (fun _ m hc => hc ▸ h) fun m hc => hc ▸ h
      exact Action.meets_ensuring (queued _ none nofun m hm) (fun _ => released) released
    | supply supply => exact queued .null (some supply) (fun _ => rfl) s.machine rfl
  exact (meets_onMachine (P := fun _ t => s.machine.calls.Receives t.machine.calls)
    executed).of_state? ht

/-! ### Waiting -/

theorem frame?_of_receives {c c' : CallStack} (h : c.Receives c') (hf : c.frame? k = some f) :
    c'.frame? k = some f := by
  rcases h with same | ⟨v, supply, -, hc'⟩
  · rw [CallStack.frame?_eq_getElem?, same, ← CallStack.frame?_eq_getElem?, hf]
  · rw [CallStack.frame?_of_frames hc', if_neg (CallStack.lt_length_of_frame? hf).ne, hf]

/-- **A frame stays as it is** unless it is the top one in a cycle. -/
theorem Goes.waits (h : Goes natives s t) (hf : s.machine.calls.frame? k = some f) :
    t.machine.calls.frame? k = some f ∨ ∃ rest, s.machine.calls.frames = f :: rest ∧
      rest.length = k ∧ (Session.cycle natives s).state? = some t := by
  cases h with
  | request r ht => exact .inl (frame?_of_receives (receives_of_request ht) hf)
  | execute work ht => exact .inl (frame?_of_receives (receives_of_execute ht) hf)
  | cycle ht =>
    cases hframes : s.machine.calls.frames with
    | nil =>
      rw [CallStack.frame?_eq_getElem?, hframes] at hf
      cases hf
    | cons g rest =>
      have hk := CallStack.lt_length_of_frame? hf
      rw [CallStack.length, hframes, List.length_cons] at hk
      by_cases top : rest.length = k
      · subst top
        rw [CallStack.frame?_head hframes] at hf
        exact .inr ⟨rest, by rw [Option.some.inj hf], rfl, ht⟩
      · have handled : g.Handled rest t.machine.calls.frames := (cycle_handles hframes).of_state? ht
        exact .inl ((handled.frame? hframes (by omega)).trans hf)

theorem Waits.frame? (h : Waits natives k f s t) (hf : s.machine.calls.frame? k = some f) :
    t.machine.calls.frame? k = some f := by
  cases h with
  | refl => exact hf
  | tail _ step => exact step.2

/-- Along every course, a frame waits until it is the top one in a cycle. -/
theorem waits_of_goes (hf : s.machine.calls.frame? k = some f)
    (h : ReflTransGen (Goes natives) s t) :
    Waits natives k f s t ∨ ∃ u v rest, Waits natives k f s u ∧
      u.machine.calls.frames = f :: rest ∧ rest.length = k ∧
      (Session.cycle natives u).state? = some v ∧ ReflTransGen (Goes natives) v t := by
  induction h with
  | refl => exact .inl .refl
  | @tail t' t h step ih =>
    rcases ih with waits | ⟨u, v, rest, waits, hframes, hk, hv, h⟩
    · rcases step.waits (waits.frame? hf) with stays | ⟨rest, hframes, hk, hv⟩
      · exact .inl (waits.tail ⟨step, stays⟩)
      · exact .inr ⟨t', t, rest, waits, hframes, hk, hv, .refl⟩
    · exact .inr ⟨u, v, rest, waits, hframes, hk, hv, h.tail step⟩

/-! ### Frames that have been dispatched -/

/-- Every frame that has been dispatched is that of an operator that can be invoked. -/
def Engaged (natives : Natives χ) (s : Session χ) : Prop :=
  ∀ f ∈ s.machine.calls.frames, f.Engaged natives

theorem engaged_fresh (v : Value) : Frame.Engaged natives { value := v } where
  supplied := nofun
  operator h := absurd rfl h

/-- Invoking an operator leaves the frames engaged. -/
theorem engaged_of_ran {frames : List Frame} {o : Operator} {signature : List Param}
    {invoke : ℕ → List Value → Action (Session χ) Unit}
    (h : ∀ f ∈ rest, f.Engaged natives) (ho : f.value.toOperator? = some o)
    (hinvoke : Behaviour.ofOperator natives o = .function signature invoke)
    (hf : f.Engaged natives) (ran : f.Ran rest frames) : ∀ g ∈ frames, g.Engaged natives := by
  rcases ran with rfl | ⟨vs, g, rfl, hvalue, -, hsupply⟩
  · exact h
  · intro f' hf'
    rcases List.mem_append.1 hf' with hf' | hf'
    · obtain ⟨v, -, rfl⟩ := Frame.mem_queued.1 hf'
      exact engaged_fresh v
    · rcases List.mem_cons.1 hf' with rfl | hf'
      · exact ⟨fun hs => by rw [hvalue]; exact hf.supplied (hsupply ▸ hs),
          fun _ => ⟨o, signature, invoke, hvalue ▸ ho, hinvoke⟩⟩
      · exact h f' hf'

/-- So does a cycle that invokes none. -/
theorem engaged_of_turned {frames : List Frame} (h : ∀ f ∈ rest, f.Engaged natives)
    (hf : f.Engaged natives) (turned : f.Turned rest frames) : ∀ g ∈ frames, g.Engaged natives := by
  cases turned with
  | kept => exact List.forall_mem_cons.2 ⟨hf, h⟩
  | removed => exact h
  | replaced v _ => exact List.forall_mem_cons.2 ⟨engaged_fresh v, h⟩
  | advanced cursor supply queued _ _ hplain =>
    intro g hg
    rw [List.mem_append, List.mem_cons, List.mem_map] at hg
    rcases hg with ⟨v, -, rfl⟩ | rfl | hg
    · exact engaged_fresh v
    · exact ⟨fun _ => hplain, hf.operator⟩
    · exact h g hg

/-- **Every cycle** leaves the frames engaged. -/
theorem cycle_engaged (h : Engaged natives s) (ht : (Session.cycle natives s).state? = some t) :
    Engaged natives t := by
  cases hframes : s.machine.calls.frames with
  | nil =>
    unfold Session.cycle at ht
    rw [theMachine_bind, hframes] at ht
    exact Option.some.inj ht ▸ h
  | cons f rest =>
    have hf : f.Engaged natives := h f (by simp [hframes])
    have hrest (g : Frame) (hg : g ∈ rest) : g.Engaged natives := h g (by simp [hframes, hg])
    have stepped : (step natives rest.length f s).Meets True
        (fun _ t => ∀ g ∈ t.machine.calls.frames, g.Engaged natives)
        fun t => ∀ g ∈ t.machine.calls.frames, g.Engaged natives := by
      cases ho : s.machine.invoked? f with
      | none =>
        exact (step_turns hframes hf.supplied ho).mono
          (fun _ _ => engaged_of_turned hrest hf) fun _ => engaged_of_turned hrest hf
      | some o =>
        rw [step_of_invoked ho]
        cases hb : Behaviour.ofOperator natives o with
        | constant v =>
          unfold stepOperator
          rw [hb]
          exact (pushOperand_popFrame_turns v hframes).mono
            (fun _ _ => engaged_of_turned hrest hf) fun _ => engaged_of_turned hrest hf
        | function signature invoke =>
          have operator := Machine.toOperator?_of_invoked? ho
          exact (stepOperator_runs hb hframes).mono
            (fun _ _ => engaged_of_ran hrest operator hb hf)
            fun _ => engaged_of_ran hrest operator hb hf
    exact (cycle_frames (P := fun frames => ∀ g ∈ frames, g.Engaged natives) hframes
      stepped).of_state? ht

theorem Goes.engaged (hstep : Goes natives s t) (h : Engaged natives s) : Engaged natives t := by
  have received (hr : s.machine.calls.Receives t.machine.calls) : Engaged natives t := by
    intro f hf
    rcases hr with same | ⟨v, supply, hv, hframes⟩
    · exact h f (same ▸ hf)
    · rw [hframes] at hf
      rcases List.mem_cons.1 hf with rfl | hf
      · exact ⟨hv, fun h => absurd rfl h⟩
      · exact h f hf
  cases hstep with
  | request r ht => exact received (receives_of_request ht)
  | execute work ht => exact received (receives_of_execute ht)
  | cycle ht => exact cycle_engaged h ht

/-- Along every course that begins without work, the frames are engaged. -/
theorem engaged_of_goes (hs : s.machine.calls.frames = []) (h : ReflTransGen (Goes natives) s t) :
    Engaged natives t := by
  induction h with
  | refl => intro f hf; rw [hs] at hf; cases hf
  | tail _ step ih => exact step.engaged ih

/-! ### Runs -/

theorem goes_of_runFrom {count budget : ℕ} (ht : (runFrom natives count budget s).state? = some t) :
    ReflTransGen (Goes natives) s t := by
  induction budget generalizing count s with
  | zero => exact Option.some.inj ht ▸ .refl
  | succ budget ih =>
    rw [runFrom] at ht
    split at ht
    · exact Option.some.inj ht ▸ .refl
    · cases hcycle : Session.cycle natives s with
      | done b u =>
        rw [hcycle] at ht
        exact .head (.cycle (by rw [hcycle]; rfl)) (ih ht)
      | raised e u =>
        rw [hcycle] at ht
        exact .single (.cycle (by rw [hcycle]; exact ht))
      | broken b => rw [hcycle] at ht; cases ht

/-- What is reported at the end leaves the session as it is. -/
theorem state?_bind_of_kept {α β : Type} {x : Action (Session χ) α} {f : α → Action (Session χ) β}
    (hf : ∀ a u, (f a u).state? = some u) (ht : ((x >>= f) s).state? = some t) :
    (x s).state? = some t := by
  rw [Action.bind_apply] at ht
  cases hx : x s with
  | done a u => rw [hx] at ht; exact (hf a u).symm.trans ht
  | raised e u => rw [hx] at ht; exact ht
  | broken b => rw [hx] at ht; cases ht

theorem goes_of_run {budget : ℕ} (ht : (Session.run natives budget s).state? = some t) :
    ReflTransGen (Goes natives) s t := by
  refine goes_of_runFrom (state?_bind_of_kept (fun n u => ?_) ht)
  rw [theMachine_bind]
  cases u.machine.exception with
  | none => rfl
  | some e =>
    dsimp only
    split <;> rfl

theorem goes_of_runToCompletion (ht : (Session.runToCompletion natives s).state? = some t) :
    ReflTransGen (Goes natives) s t := by
  unfold Session.runToCompletion at ht
  rw [theMachine_bind] at ht
  refine goes_of_run (state?_bind_of_kept (fun n u => ?_) ht)
  rw [theMachine_bind]
  split <;> rfl

end Session

/-- **Whatever a host does** is a course of single steps. -/
theorem HostAct.goes {χ : Type} {natives : Natives χ} {s t : Session χ} (c : HostAct)
    (ht : (c.perform natives s).state? = some t) :
    Relation.ReflTransGen (Session.Goes natives) s t := by
  cases c with
  | request r => exact .single (.request r (Session.state?_bind_of_kept (fun _ _ => rfl) ht))
  | execute work => exact .single (.execute work ht)
  | cycle => exact .single (.cycle (Session.state?_bind_of_kept (fun _ _ => rfl) ht))
  | run budget => exact Session.goes_of_run (Session.state?_bind_of_kept (fun _ _ => rfl) ht)
  | complete =>
    exact Session.goes_of_runToCompletion (Session.state?_bind_of_kept (fun _ _ => rfl) ht)

end StackScript
