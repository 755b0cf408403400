import StackScript.Proofs.Machine.Watched

/-!
# What a watched machine sustains

A cycle is made of few kinds of moves: those of the machine itself, and the requests of an operator
between the moment it is dispatched or invoked again and the moment it is left.  A property of
watched sessions is sustained if each kind of move keeps it (`Watched.Sustains`).  It then holds
after every cycle (`Watched.Sustains.cycle`) and every act of a host (`Watched.Sustains.act`).

During an invocation another property may hold, which knows of the operator, of its frame, and of
the operands that are held for it.
-/

namespace StackScript

variable {χ α β : Type}

namespace Watched

/-- From a session in `P` the action gets to a session in `Q`, whether it succeeds or raises. -/
def Leads (P Q : Watched χ → Prop) (x : Action (Watched χ) α) : Prop :=
  ∀ w, P w → (x w).Meets True (fun _ v => Q v) Q

section

variable {P Q R : Watched χ → Prop} {x : Action (Watched χ) α} {f : α → Action (Watched χ) β}

theorem Leads.bind (hx : Leads P Q x) (hf : ∀ a, Leads Q R (f a)) (hQR : ∀ w, Q w → R w) :
    Leads P R (x >>= f) := fun w hw =>
  Action.meets_bind ((hx w hw).mono (fun _ _ => id) hQR) fun a v hv => hf a v hv

theorem leads_pure (a : α) : Leads P P (pure a : Action (Watched χ) α) := fun _ => id

/-- After looking at the machine. -/
theorem leads_theMachine {k : Machine → Action (Watched χ) β} (hk : ∀ m, Leads P Q (k m)) :
    Leads P Q (theMachine >>= k) := fun w hw => hk w.machine w hw

end

/-! ### Invocations -/

section

variable {natives : Natives χ} {P : Watched χ → Prop} {own : Option ℕ}

/-- What every request keeps is kept by every operation. -/
theorem leads_runOn (h : ∀ r : Request, Leads P P (note (Session.onMachine (r.perform own))))
    (p : Operation α) : Leads P P (runOn own p) := by
  induction p with
  | done a => exact fun _ => id
  | raise e => exact fun _ => id
  | broken b => exact fun _ _ => trivial
  | ask r next failed ihn ihf =>
    exact fun w hw => Program.meets_ask (h r w hw) (fun a v hv => ihn a v hv)
      fun e v hv => ihf e v hv

/-- And by every operator, whatever it keeps in the session. -/
theorem leads_invoke {i : ℕ}
    (h : ∀ r : Request, Leads P P (note (Session.onMachine (r.perform (some i)))))
    (hhost : ∀ w host, P w → P { w with session := { w.session with host := host } })
    (o : Operator) (params : List Value) : Leads P P (invoke natives o i params) := by
  intro w hw
  unfold invoke
  cases o with
  | builtin b => exact leads_runOn h _ w hw
  | native name looping =>
    dsimp only
    cases natives name with
    | constant v => exact hw
    | function signature operation =>
      have worked := leads_runOn h (operation params w.session.host) w hw
      change (runKeeping (some i) (operation params) w).Meets _ _ _
      unfold runKeeping
      cases ho : runOn (some i) (operation params w.session.host) w with
      | done r v =>
        rw [ho] at worked
        obtain ⟨host, result⟩ := r
        cases result <;> exact hhost v host worked
      | raised e v => rw [ho] at worked; exact worked
      | broken b => trivial

end

/-! ### Moves -/

/-- Every move keeps `K`, and during the invocation of the operator `o` from the frame with `i`
frames below it, with the operands `params` held, `A o i params`. -/
structure Sustains (natives : Natives χ) (K : Watched χ → Prop)
    (A : Operator → ℕ → List Value → Watched χ → Prop) : Prop where
  /-- A cycle without an operator. -/
  silent : ∀ w f rest, K w → w.machine.calls.frames = f :: rest → w.machine.invoked? f = none →
    (note (Session.step natives rest.length f) w).Meets True (fun _ v => K v) K
  /-- A cycle of a constant. -/
  constant : ∀ w f rest o v, K w → w.machine.calls.frames = f :: rest →
    w.machine.invoked? f = some o → Behaviour.ofOperator natives o = .constant v →
      (note (Session.pushOperand v >>= fun _ => Session.popFrame) w).Meets True (fun _ v => K v) K
  /-- The frame of an operator that is done goes. -/
  spent : ∀ w f rest o, K w → w.machine.calls.frames = f :: rest →
    w.machine.invoked? f = some o → f.state = .pop →
      (note Session.popFrame w).Meets True (fun _ v => K v) K
  /-- An operator is dispatched. -/
  dispatched : ∀ w f rest o signature params, K w → w.machine.calls.frames = f :: rest →
    w.machine.invoked? f = some o → f.state = .unknown →
      w.machine.matchOperands signature = .ok params →
        ((note (Session.onMachine (Machine.setState rest.length .firstCall)) >>= fun _ =>
          note (Session.onMachine (Machine.onMemory (Memory.retainAll params)))) w).Meets True
          (fun _ v => A o rest.length params v) K
  /-- An operator is about to be invoked again. -/
  resumed : ∀ w f rest o, K w → w.machine.calls.frames = f :: rest →
    w.machine.invoked? f = some o → f.state ≠ .unknown → A o rest.length [] w
  /-- An operator does its work. -/
  invoked : ∀ o i params, Leads (A o i params) (A o i params) (invoke natives o i params)
  /-- The operands it asked for are let go. -/
  released : ∀ o i params, Leads (A o i params) (A o i [])
    (note (Session.onMachine (Machine.onMemory (Memory.releaseAll params))))
  /-- It is found to be done. -/
  done : ∀ o i, Leads (A o i []) (A o i []) (note (Session.onMachine (Machine.setState i .pop)))
  /-- Its frame goes. -/
  removed : ∀ o i, Leads (A o i []) K (note Session.popFrame)
  /-- It fails on its way out. -/
  abandoned : ∀ o i, Leads (A o i []) K (note (Session.abandon i))
  /-- The invocation is over. -/
  left : ∀ o i w, A o i [] w → K w
  /-- An exception is raised. -/
  raised : ∀ e, Leads K K (note (Session.onMachine (Machine.raise e)))

namespace Sustains

variable {natives : Natives χ} {K : Watched χ → Prop}
  {A : Operator → ℕ → List Value → Watched χ → Prop} (h : Sustains natives K A)
include h

theorem settle (o : Operator) (i : ℕ) (c : Continuation) :
    Leads (A o i []) K (settle i c) := by
  have last (p : Prop) [Decidable p] : Leads (A o i []) K
      (theMachine >>= fun m => if p ∧ m.calls.length = i + 1 then note Session.popFrame
        else (pure () : Action (Watched χ) Unit)) := by
    refine leads_theMachine fun m => ?_
    split
    · exact h.removed o i
    · exact h.left o i
  unfold Watched.settle
  refine leads_theMachine fun m w hw => ?_
  cases m.frame i with
  | error b => trivial
  | ok f =>
    rw [read_bind]
    dsimp only
    split
    · exact ((h.done o i).bind (fun _ => last _) (h.left o i)) w hw
    · exact last _ w hw

theorem stepOperator {w : Watched χ} {f : Frame} {rest : List Frame} {o : Operator} (hw : K w)
    (hframes : w.machine.calls.frames = f :: rest) (ho : w.machine.invoked? f = some o) :
    (stepOperator natives rest.length o w).Meets True (fun _ v => K v) K := by
  have again (c : Continuation) (hc : f.state ≠ .unknown) :
      (resume rest.length c (invoke natives o rest.length) w).Meets True (fun _ v => K v) K := by
    refine Action.meets_bind (P := fun _ v => A o rest.length [] v) (Action.meets_onRaise
      (h.invoked o _ _ w (h.resumed w f rest o hw hframes ho hc)) fun v hv => ?_)
      fun _ v hv => h.settle o _ c v hv
    split
    · exact h.abandoned o _ v hv
    · exact h.left o _ v hv
  unfold Watched.stepOperator
  cases hb : Behaviour.ofOperator natives o with
  | constant v => exact h.constant w f rest o v hw hframes ho hb
  | function signature _ =>
    dsimp only
    rw [theMachine_bind, Machine.frame_of_frame? (CallStack.frame?_length_of_frames hframes),
      read_bind]
    cases hstate : f.state with
    | pop => exact h.spent w f rest o hw hframes ho hstate
    | firstCall | running | callBeforePop | popping => exact again _ (by rw [hstate]; simp)
    | unknown =>
      dsimp only
      unfold dispatch
      rw [theMachine_bind]
      cases hparams : w.machine.matchOperands signature with
      | error c => exact hw
      | ok params =>
        change ((note _ >>= fun _ => note _ >>= fun _ => _ >>= fun _ => _) w).Meets _ _ _
        rw [← bind_assoc]
        refine Action.meets_bind (h.dispatched w f rest o signature params hw hframes ho hstate
          hparams) fun _ v hv => ?_
        refine Action.meets_bind (P := fun _ v => A o rest.length [] v) (Action.meets_ensuring
          (h.invoked o _ _ v hv) (fun _ v hv => (h.released o _ _ v hv).mono (fun _ _ => id)
            (h.left o _)) fun v hv => (h.released o _ _ v hv).mono (fun _ v => h.left o _ v)
            (h.left o _)) fun _ v hv => h.settle o _ _ v hv

/-- **A cycle** keeps what is sustained. -/
theorem cycle : Leads K K (cycle natives) := by
  intro w hw
  unfold Watched.cycle
  rw [theMachine_bind]
  cases hframes : w.machine.calls.frames with
  | nil => exact hw
  | cons f rest =>
    have stepped : (step natives rest.length f w).Meets True (fun _ v => K v) K := by
      rw [step, theMachine_bind]
      cases ho : w.machine.invoked? f with
      | none => exact h.silent w f rest hw hframes ho
      | some o => exact h.stepOperator hw hframes ho
    refine Action.meets_bind (P := fun _ v => K v) (Action.meets_attempt
      (stepped.mono (fun _ _ => id) fun _ hv _ => hv)) fun result v hv => ?_
    cases result with
    | ok _ => exact hv
    | error e => exact Action.meets_bind (h.raised e v hv) fun _ _ hv => hv

theorem runFrom (budget count : ℕ) : Leads K K (runFrom natives count budget) := by
  induction budget generalizing count with
  | zero => exact leads_pure count
  | succ budget ih =>
    refine leads_theMachine fun m => ?_
    split
    · exact leads_pure count
    · exact h.cycle.bind (fun _ => ih (count + 1)) fun _ => id

theorem run (budget : ℕ) : Leads K K (run natives budget) := by
  refine (h.runFrom budget 0).bind (fun count => leads_theMachine fun m => ?_) fun _ => id
  cases m.exception with
  | none => exact leads_pure count
  | some e =>
    dsimp only
    split
    · exact fun _ => id
    · exact leads_pure count

/-- **An act of a host** keeps what is sustained, if a request and the queueing of work do. -/
theorem act (c : HostAct)
    (hrequest : ∀ r, c = .request r → Leads K K (note (Session.onMachine (r.perform none))))
    (hexecute : ∀ work, c = .execute work →
      Leads K K (note (Session.onMachine (Machine.execute work)))) :
    Leads K K (c.watch natives) := by
  cases c with
  | request r => exact (hrequest r rfl).bind (fun _ => leads_pure ()) fun _ => id
  | execute work => exact hexecute work rfl
  | cycle => exact h.cycle.bind (fun _ => leads_pure ()) fun _ => id
  | run budget => exact (h.run budget).bind (fun _ => leads_pure ()) fun _ => id
  | complete =>
    refine Leads.bind (leads_theMachine fun m => (h.run _).bind (fun count =>
      leads_theMachine fun m => ?_) fun _ => id) (fun _ => leads_pure ()) fun _ => id
    split
    · exact leads_pure count
    · exact fun _ => id

end Sustains

end Watched

end StackScript
