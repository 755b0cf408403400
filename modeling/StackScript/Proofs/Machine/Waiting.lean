import StackScript.Proofs.Machine.Enclosed
import StackScript.Proofs.Operator.Sparing

/-!
# Frames that wait

The loops, `stopped` and `finally` are to be invoked again when what they have queued is over, also if
an exception is pending then: their frames stand on their way out as long as there is work above them
(`Machine.Waiting`).  This holds all along the execution of a text (`Session.Executing.waiting`), and
while no exception is pending each of these frames has what its operator needs
(`Session.Executing.below`).
-/

namespace StackScript

open Relation (ReflTransGen)

/-- The builtin is invoked again when what it has queued is over. -/
def Builtin.Waits (b : Builtin) : Prop := ∃ c, b.Defers c

theorem Builtin.Waits.constant?_eq {b : Builtin} (hb : b.Waits) : b.constant? = none := by
  obtain ⟨c, _ | _⟩ := hb <;> rfl

/-- If the operator of the frame is to be invoked again, it will be, also if an exception is
pending. -/
def Frame.Waiting (f : Frame) : Prop :=
  ∀ b : Builtin, f.value.toOperator? = some (.builtin b) → b.Waits → f.state.isPopping = true

/-- Frames with work above them wait for it. -/
def Machine.Waiting (m : Machine) : Prop := ∀ f ∈ m.calls.frames.tail, f.Waiting

/-- The frame with `i` frames below it stands on its way out, or there is nothing above it. -/
def Machine.Held (i : ℕ) (m : Machine) : Prop :=
  m.calls.length ≤ i + 1 ∨ ∃ c, m.StateIs i c ∧ c.isPopping = true

/-- The operator of the top frame, which was in the state `c` when it was invoked, has not queued
anything, or it stands on its way out, and not as it stood before. -/
def Machine.Waits (v : Value) (rest : List Frame) (c : Continuation) (m : Machine) : Prop :=
  m.Tops v rest ∨ m.calls.Above v rest ∧
    ∃ c', m.StateIs rest.length c' ∧ c'.isPopping = true ∧ c' ≠ c

theorem Machine.Waits.of_course {m m' : Machine} {v : Value} {rest : List Frame} {c : Continuation}
    (h : m.Waits v rest c) (hc : m'.course = m.course) : m'.Waits v rest c := by
  injection hc with _ hc
  injection hc with hcalls _
  unfold Waits Tops StateIs at h ⊢
  rwa [hcalls]

/-! ### Operations -/

namespace Operation

open Program.Regime (budget takes_budget)

variable {α : Type} {m : Machine} {v w : Value} {rest : List Frame} {c next : Continuation}
  {p : Operation α} {b : Builtin} {params : List Value}

/-- Invoked in the state `c`, the operator waits for what it has queued.  It fails before it has
queued anything, unless it is its first call that fails. -/
def Waits (v : Value) (rest : List Frame) (c : Continuation) (m : Machine) (p : Operation α) : Prop :=
  (p.runOn (some rest.length) m).Yields (fun _ m' => m'.Waits v rest c)
    fun e m' => m'.Tops v rest ∨ e.condition = .internal ∨ c = .firstCall

theorem Arms.waits (h : p.Arms v rest m) (hc : c ≠ .callBeforePop) : p.Waits v rest c m :=
  Outcome.Yields.mono h (fun _ _ h => h.imp_right fun h => ⟨h.1, _, h.2, rfl, hc.symm⟩)
    fun _ _ h => h.imp_right .inl

theorem waits_of_budget {P : α → ℕ → Prop} (h : m.Tops v rest) (hp : p.Obeys .budget 0 P) :
    p.Waits v rest c m :=
  (h.runOn hp).yields.mono (fun _ _ => .inl) fun _ _ => .inl

theorem Waits.step {β : Type} {f : α → Operation β} {P : α → ℕ → Prop} (h : m.Tops v rest)
    (hp : p.Obeys .budget 0 P) (hf : ∀ a m', m'.Tops v rest → (f a).Waits v rest c m') :
    (p >>= f).Waits v rest c m := by
  unfold Waits
  rw [runOn, Program.run_bind]
  exact Action.yields_bind ((h.runOn hp).yields.mono (fun _ _ => id) fun _ _ => .inl) hf

theorem Waits.after {β : Type} {f : α → Operation β} {a : α} {m' : Machine}
    (hp : p.runOn (some rest.length) m = .done a m') (h : (f a).Waits v rest c m') :
    (p >>= f).Waits v rest c m := by
  unfold Waits
  rwa [runOn_bind hp]

/-- The operator asks to be invoked again as soon as it has queued a value. -/
theorem waits_call (h : m.Tops v rest) (hnext : next.isPopping = true) (hc : next ≠ c) :
    (call w >>= fun _ => setState next).Waits v rest c m := by
  have called : ((call w).runOn (some rest.length) m).Meets True
      (fun _ m' => m'.calls.Above v rest) fun m' => m'.Tops v rest := by
    rw [runOn_call]
    refine (Machine.pushFrame_frames _ m).mono (fun _ m' hm' => h.above.queued hm') fun m' hm' => ?_
    rwa [Machine.Tops, hm']
  unfold Waits
  rw [runOn, Program.run_bind]
  exact Action.yields_bind (called.yields.mono (fun _ _ => id) fun _ _ => .inl) fun _ m₁ above =>
    (setState_yields next above).mono (fun _ _ h => .inr ⟨h.1, _, h.2, hnext, hc⟩)
      fun _ _ h => .inr (.inl h)

/-- The first call of an operator ends with that. -/
def Begins (v : Value) (rest : List Frame) (m : Machine) (p : Operation α) : Prop :=
  (p.runOn (some rest.length) m).Yields
    (fun _ m' => m'.calls.Above v rest ∧ m'.StateIs rest.length .callBeforePop) fun _ _ => True

theorem Begins.step {β : Type} {f : α → Operation β} (h : m.calls.Above v rest)
    (hf : ∀ a m', m'.calls.Above v rest → (f a).Begins v rest m') : (p >>= f).Begins v rest m := by
  unfold Begins
  rw [runOn, Program.run_bind]
  exact Action.yields_bind ((p.runOn_above h).yields.mono (fun _ _ => id) fun _ _ _ => trivial) hf

theorem begins_setState (h : m.calls.Above v rest) :
    (setState .callBeforePop).Begins v rest m :=
  (setState_yields .callBeforePop h).mono (fun _ _ => id) fun _ _ _ => trivial

theorem Begins.waits (h : p.Begins v rest m) : p.Waits v rest .firstCall m :=
  Outcome.Yields.mono h (fun _ _ h => .inr ⟨h.1, _, h.2, rfl, nofun⟩) fun _ _ _ => .inr (.inr rfl)

/-- **An operator that is to be invoked again** waits. -/
theorem operation_waits (hb : b.Waits) (h : m.Tops v rest) (hs : m.StateIs rest.length c)
    (hparams : c ≠ .firstCall → params = []) : (b.operation params).Waits v rest c m := by
  have loops (hb : b.isLoop = true) : (b.operation params).Waits v rest c m := by
    by_cases hc : c = .callBeforePop
    · obtain rfl := hparams (by rw [hc]; nofun)
      subst hc
      have ends : endRound.Waits v rest .callBeforePop m := waits_of_budget h spends_endRound
      unfold Waits at ends ⊢
      rwa [loop_runOn hb hs]
    · exact (loop_arms hb h).waits hc
  have anything {n : ℕ} (name : String) : (Program.fail (.noStep name c) : Operation Unit).Obeys
      budget n fun _ _ => True := Program.obeys_fail.2 nofun
  cases b with
  | loop | repeatBlock => exact loops rfl
  | stopped =>
    refine Waits.after (p := state) (state_runOn hs) ?_
    cases c with
    | firstCall =>
      refine Begins.waits (Begins.step h.above fun block m h => ?_)
      exact Begins.step h fun _ m h => Begins.step h fun _ m h => begins_setState h
    | callBeforePop =>
      refine waits_of_budget (P := fun _ _ => True) h (Program.obeys_bind.2 ?_)
      refine obeys_condition fun c => ?_
      split
      · simp
      · split <;> simp
    | unknown | running | popping | pop => exact waits_of_budget h (anything _)
  | ensure =>
    refine Waits.after (p := state) (state_runOn hs) ?_
    split
    · rename_i hc
      subst hc
      refine Begins.waits (Begins.step h.above fun finalizer m h => Begins.step h fun body m h => ?_)
      refine Begins.step h fun _ m h => Begins.step h fun _ m h => ?_
      exact Begins.step h fun _ m h => begins_setState h
    · split
      · rename_i hc
        refine Waits.step h (obeys_stash trivial (P := fun _ _ => True) trivial) fun _ m h => ?_
        refine Waits.step h (spends_expectLocal (Q := fun _ _ => True) fun _ => trivial)
          fun w m h => ?_
        exact waits_call h rfl (by rw [hc]; nofun)
      · split
        · exact waits_of_budget (P := fun _ _ => True) h (by simp)
        · exact waits_of_budget h (anything _)
  | _ => obtain ⟨c, hc⟩ := hb; cases hc

end Operation

/-! ### Cycles -/

namespace Session

variable {χ : Type} {Γ : Charter} {x : Stake} {s t : Session χ} {f : Frame} {rest : List Frame}
  {b : Builtin} {c : Continuation} {v : Value}

/-- The end of an invocation leaves no frames more. -/
theorem settle_shrinks (i : ℕ) (c : Continuation) (s : Session χ) :
    (settle i c s).Meets True (fun _ t => t.machine.calls.length ≤ s.machine.calls.length)
      fun t => t.machine.calls.length ≤ s.machine.calls.length := by
  have last (p : Prop) [Decidable p] (m : Machine) (hm : m.calls.length = s.machine.calls.length) :
      (((get : Action Machine Machine) >>= fun m => if p ∧ m.calls.length = i + 1 then
        Machine.popFrame else pure ()) m).Meets True
        (fun _ m' => m'.calls.length ≤ s.machine.calls.length)
        fun m' => m'.calls.length ≤ s.machine.calls.length := by
    rw [Action.get_bind]
    split
    · refine (Machine.popFrame_frames m).mono ?_ fun m' hm' => (hm' ▸ hm).le
      rintro _ m' ⟨g, hg⟩
      have := CallStack.length_of_frames hg
      omega
    · exact hm.le
  refine meets_onMachine ?_
  rw [Action.get_bind]
  refine Machine.meets_frame fun g _ => ?_
  dsimp only
  split
  · refine Action.meets_bind ((Machine.setState_frames i .pop s.machine).mono ?_ fun m hm =>
      (hm ▸ rfl : m.calls.length = _).le) fun _ m hm => last _ m hm
    rintro _ _ ⟨f, -, -, rfl⟩
    exact CallStack.length_update ..
  · exact last _ s.machine rfl

/-- **The end of an invocation.** -/
theorem settle_holds (h : s.machine.Waits v rest c) :
    (settle rest.length c s).Yields (fun _ t => t.machine.Held rest.length)
      fun _ t => t.machine.Held rest.length := by
  rcases h with tops | ⟨⟨vs, g, hframes, -⟩, c', ⟨g', hg', hstate⟩, hpopping, hne⟩
  · exact ((settle_shrinks rest.length c s).mono (fun _ _ h => .inl (h.trans tops.length.le))
      fun _ h => .inl (h.trans tops.length.le)).yields
  · obtain rfl := Option.some.inj ((CallStack.frame?_above hframes).symm.trans hg')
    subst hstate
    have stays : g.state ≠ .pop := fun h => by simp [h, Continuation.isPopping] at hpopping
    rw [settle_stays hframes (fun same => absurd same hne) stays]
    exact .inr ⟨_, ⟨g, hg', rfl⟩, hpopping⟩

/-- The first invocation, if it does not fail. -/
theorem dispatch_holds (hb : b.Waits) (hframes : s.machine.calls.frames = f :: rest) :
    (dispatch rest.length b.signature (fun params =>
      onMachine ((b.operation params).runOn (some rest.length))) s).Yields
        (fun _ t => t.machine.Held rest.length) fun _ _ => True := by
  have any {α : Type} {x : Action (Session χ) α} {s : Session χ} {P : α → Session χ → Prop}
      (h : (x s).Meets True P fun _ => True) : (x s).Yields P fun _ _ => True :=
    h.yields.mono (fun _ _ => id) fun _ _ _ => trivial
  unfold dispatch
  rw [theMachine_bind]
  refine Action.yields_bind (P := fun _ t => s = t) (any ?_) ?_
  · cases s.machine.matchOperands b.signature with
    | ok params => rfl
    | error c => trivial
  rintro params _ rfl
  have begun : (Machine.setState rest.length .firstCall s.machine).Meets True
      (fun _ m => m.Tops f.value rest ∧ m.StateIs rest.length .firstCall) fun _ => True := by
    refine (Machine.setState_frames rest.length .firstCall s.machine).mono ?_ fun _ _ => trivial
    rintro _ _ ⟨g, hg, -, rfl⟩
    exact ⟨⟨_, CallStack.frames_update_head _ hframes, rfl⟩, _, Machine.frame?_withFrame hg _, rfl⟩
  refine Action.yields_bind (any (meets_onMachine (P := fun _ t => t.machine.Tops f.value rest ∧
    t.machine.StateIs rest.length .firstCall) begun)) fun _ t ht => ?_
  have course (vs : List Value) (x : Action Memory Unit) :
      Machine.Spares Machine.course (Machine.onMemory x) :=
    Machine.spares_onMemory (fun _ _ => rfl) x
  have pinned : (Machine.onMemory (Memory.retainAll params) t.machine).Meets True
      (fun _ m => m.Tops f.value rest ∧ m.StateIs rest.length .firstCall) fun _ => True := by
    refine (course params _ t.machine).mono (fun _ m hm => ?_) fun _ _ => trivial
    injection hm with _ hm
    injection hm with hcalls _
    unfold Machine.Tops Machine.StateIs
    rwa [hcalls]
  refine Action.yields_bind (any (meets_onMachine (P := fun _ t => t.machine.Tops f.value rest ∧
    t.machine.StateIs rest.length .firstCall) pinned)) fun _ t ht => ?_
  have invoked : (b.operation params).Waits f.value rest .firstCall t.machine :=
    Operation.operation_waits hb ht.1 ht.2 (absurd rfl)
  refine Action.yields_bind (P := fun _ t => t.machine.Waits f.value rest .firstCall)
    (Action.yields_ensuring (B := fun _ t => t.machine.Waits f.value rest .firstCall)
      (M := fun _ _ => True) (Action.yields_zoom (invoked.mono (fun _ _ => id) fun _ _ _ => trivial))
      (fun _ u hu => any (meets_onMachine ((course params _ u.machine).mono
        (fun _ m hm => hu.of_course hm) fun _ _ => trivial)))
      fun _ u _ => any (meets_onMachine ((course params _ u.machine).mono
        (fun _ _ _ => trivial) fun _ _ => trivial))) fun _ t ht => ?_
  exact (settle_holds ht).mono (fun _ _ => id) fun _ _ _ => trivial

/-- Another invocation. -/
theorem resume_holds (hb : b.Waits) (hframes : s.machine.calls.frames = f :: rest)
    (hfirst : f.state = .firstCall → b.isLoop = true) :
    (resume rest.length f.state (fun params =>
      onMachine ((b.operation params).runOn (some rest.length))) s).Yields
        (fun _ t => t.machine.Held rest.length)
        fun e t => e.condition = .internal ∨ t.machine.Held rest.length := by
  have tops : s.machine.Tops f.value rest := ⟨f, hframes, rfl⟩
  have invoked : ((b.operation []).runOn (some rest.length) s.machine).Yields
      (fun _ m => m.Waits f.value rest f.state)
      fun e m => e.condition = .internal ∨ m.Tops f.value rest := by
    by_cases hs : f.state = .firstCall
    · refine Outcome.Yields.mono (Operation.loop_arms (hfirst hs) tops) (fun _ m hm => hm.imp_right
        fun hm => ⟨hm.1, _, hm.2, rfl, by rw [hs]; nofun⟩) fun _ _ => Or.symm
    · refine (Operation.operation_waits hb tops ⟨f, CallStack.frame?_head hframes, rfl⟩
        fun _ => rfl).mono (fun _ _ => id) fun _ _ h => ?_
      exact h.elim .inr fun h => h.elim .inl fun h => absurd h hs
  refine Action.yields_bind (P := fun _ t => t.machine.Waits f.value rest f.state)
    (Action.yields_onRaise (M := fun e t => e.condition = .internal ∨ t.machine.Tops f.value rest)
      (Action.yields_zoom invoked) fun e t ht => ?_)
      fun _ t ht => (settle_holds ht).mono (fun _ _ => id) fun _ _ => .inr
  split
  · refine cleans_up (Machine.raises_updateFrame rest.length _)
      ((Machine.updateFrame_frames rest.length _ t.machine).always ?_)
    rintro _ _ ⟨rfl, -⟩
    refine ht.imp_right fun ht => .inl ?_
    exact (CallStack.length_update ..).trans_le ht.length.le
  · exact ht.imp_right fun ht => .inl ht.length.le

/-- The top frame goes, or stays. -/
theorem popFrame_holds (hframes : s.machine.calls.frames = f :: rest) :
    (popFrame s).Yields (fun _ t => t.machine.Held rest.length)
      fun e t => e.condition = .internal ∨ t.machine.Held rest.length := by
  have hlength : s.machine.calls.length = rest.length + 1 := CallStack.length_of_cons hframes
  refine ((meets_onMachine (P := fun _ t => t.machine.Held rest.length)
    (F := fun t => t.machine.Held rest.length) ((Machine.popFrame_frames s.machine).mono ?_ ?_)).yields
      ).mono (fun _ _ => id) fun _ _ => .inr
  · rintro _ m ⟨g, hg⟩
    have := CallStack.length_of_frames hg
    exact .inl (show m.calls.length ≤ _ by omega)
  · intro m hm
    exact .inl (hm ▸ hlength.le : m.calls.length ≤ _)

/-- **A cycle of an operator that waits.** -/
theorem step_holds (sound : s.machine.Sound Γ 0 x) (sane : s.machine.Sane s.machine.pending.isSome)
    (hframes : s.machine.calls.frames = f :: rest) (hf : f.value.toOperator? = some (.builtin b))
    (hb : b.Waits) (hsupply : f.supply = none) (hbare : f.state = .unknown → f.locals = none) :
    (step Natives.none rest.length f s).Yields (fun _ t => t.machine.Held rest.length)
      fun e t => e.condition = .internal ∨ t.machine.Held rest.length := by
  by_cases passes : s.machine.pending.isSome ∧ f.state.isPopping = false
  · have spared : s.machine.invoked? f = none := by
      rw [Machine.invoked?, if_pos passes.1, passes.2]
      rfl
    rw [step_of_unwound passes.1 spared]
    exact popFrame_holds hframes
  have invoked : s.machine.invoked? f = some (.builtin b) := by
    cases hp : s.machine.pending <;> simp_all [Machine.invoked?]
  cases hstate : f.state with
  | unknown =>
    have hpending : s.machine.pending = none :=
      Option.not_isSome_iff_eq_none.1 fun h => passes ⟨h, by rw [hstate]; rfl⟩
    have first : (step Natives.none rest.length f s).Yields (fun _ t => t.machine.Held rest.length)
        fun _ _ => True := by
      rw [step_of_invoked invoked, stepOperator_dispatches hb.constant?_eq hframes hstate]
      exact dispatch_holds hb hframes
    have failed : (step Natives.none rest.length f s).Meets True _ _ :=
      step_spares sound hframes hpending hf hsupply hstate (hbare hstate)
    cases hstep : step Natives.none rest.length f s with
    | done a t => rw [hstep] at first; exact first
    | raised e t =>
      rw [hstep] at failed
      obtain ⟨state, locals, frames, -⟩ := failed.frames
      exact .inr (.inl (CallStack.length_of_cons frames).le)
    | broken => trivial
  | pop =>
    rw [step_of_invoked invoked, stepOperator, Behaviour.ofOperator, Behaviour.ofBuiltin,
      hb.constant?_eq]
    dsimp only
    rw [theMachine_bind, Machine.frame_of_frame? (CallStack.frame?_head hframes), read_bind, hstate]
    exact popFrame_holds hframes
  | firstCall | running | callBeforePop | popping =>
    rw [step_of_invoked invoked, stepOperator_resumes hb.constant?_eq hframes (by simp [hstate])
      (by simp [hstate])]
    refine resume_holds hb hframes fun hfirst => ?_
    have hpending : ¬ s.machine.pending.isSome := fun h => passes ⟨h, by rw [hfirst]; rfl⟩
    have poised := (sane.poised _ f (CallStack.frame?_head hframes)).resolve_right
      fun h => hpending h.1
    have ready : b.Ready s.machine rest.length f.state := poised _ hf
    rw [hfirst] at ready
    cases ready <;> rfl

/-- Frames wait as long as there is work above them. -/
theorem cycle_waiting (hΓ : ∀ p, ¬ Γ.supplies p) (sound : s.machine.Sound Γ 0 x)
    (sane : s.machine.Sane s.machine.pending.isSome) (orderly : s.machine.calls.Orderly)
    (h : s.machine.Waiting) (ht : (cycle Natives.none s).state? = some t) : t.machine.Waiting := by
  cases hframes : s.machine.calls.frames with
  | nil =>
    unfold cycle at ht
    rw [theMachine_bind, hframes] at ht
    exact Option.some.inj ht ▸ h
  | cons f rest =>
    have below (g : Frame) (hg : g ∈ rest) : g.Waiting := h g (by rw [hframes]; exact hg)
    have hsupply : f.supply = none := Option.eq_none_iff_forall_ne_some.2 fun p hp =>
      hΓ p (sound.supplied f (hframes ▸ .head rest) p hp)
    have follows : f.Follows rest t.machine.calls.frames := by
      rcases cycle_yields hΓ sound sane hframes (step_left (P := fun _ => True) hframes hsupply
        (sane.cursors f (hframes ▸ .head rest)) ⟨fun _ _ => trivial, fun _ _ _ _ => trivial⟩) ht with
        left | ⟨e, u, q, failed, ordinary, hcalls, -⟩
      · exact left.follows
      · exact hcalls ▸ (failed.resolve_left ordinary).1.follows
    have held (b : Builtin) (hf : f.value.toOperator? = some (.builtin b)) (hb : b.Waits) :
        t.machine.Held rest.length := by
      rcases cycle_yields hΓ sound sane hframes (step_holds sound sane hframes hf hb hsupply
        (orderly f (hframes ▸ .head rest)).bare) ht with held | ⟨e, u, q, held, ordinary, hcalls, -⟩
      · exact held
      · have held := held.resolve_left ordinary
        unfold Machine.Held Machine.StateIs at held ⊢
        rwa [hcalls]
    unfold Machine.Waiting
    generalize hframes' : t.machine.calls.frames = frames at follows
    cases follows with
    | removed => exact fun g hg => below g (List.mem_of_mem_tail hg)
    | replaced v => exact below
    | updated busy =>
      obtain ⟨vs, g, rfl, hvalue, hfew, -⟩ := busy
      cases vs with
      | nil => exact below
      | cons v vs =>
        obtain rfl : vs = [] := List.eq_nil_of_length_eq_zero (by simpa using hfew)
        refine List.forall_mem_cons.2 ⟨fun b hb hwaits => ?_, below⟩
        rcases held b (hvalue ▸ hb) hwaits with hlength | ⟨c, ⟨g', hg', rfl⟩, hpopping⟩
        · rw [Machine.length_of_queued hframes'] at hlength
          exact absurd hlength (by simp)
        · obtain rfl := Option.some.inj ((CallStack.frame?_above hframes').symm.trans hg')
          exact hpopping

end Session

/-! ### The execution of a text -/

/-- The frames of a machine a host gets to are orderly. -/
theorem Served.orderly {χ : Type} {natives : Natives χ} {options : Options} {m₀ : Machine}
    {owned : List Value} {s : Session χ} (hm₀ : m₀.Created options)
    (h : Served natives m₀ owned s) : s.machine.calls.Orderly := by
  obtain ⟨-, α, setup, a, μ, -, hm⟩ := hm₀
  obtain ⟨w, followed, rfl⟩ := h.followed
  exact (followed.faithful (Machine.idle_of_create hm).1).orderly

/-- What a host may supply is what its frames supply, or more. -/
theorem Machine.Sound.recharter {Γ : Charter} {n : ℕ} {x : Stake} {m : Machine} (h : m.Sound Γ n x)
    {supplies : Supply → Prop} (next : ∀ p v rest, supplies p → p.next? = some (v, rest) → supplies rest)
    (hm : ∀ f ∈ m.calls.frames, ∀ p, f.supply = some p → supplies p) :
    ∃ Γ' : Charter, Γ'.supplies = supplies ∧ m.Sound Γ' n x := by
  obtain ⟨present, σ, hb, hc⟩ := h.memory
  let Γ' : Charter := { Γ with supplies := supplies, supplies_next := next }
  have classified : m.memory.Classified Γ' σ (m.stake + x) :=
    ⟨hc.accounts, hc.dictionaries, hc.arrays, hc.permanent⟩
  exact ⟨Γ', rfl, ⟨⟨present, σ, hb, classified⟩, h.depth, h.operands, h.calls, h.scopes,
    h.accounts, h.dictionaries, h.permanent, hm⟩⟩

/-- If no frame takes anything from the host, the machine is sound without supplies. -/
theorem Machine.Sound.unsupplied {Γ : Charter} {n : ℕ} {x : Stake} {m : Machine} (h : m.Sound Γ n x)
    (hm : ∀ f ∈ m.calls.frames, f.supply = none) :
    ∃ Γ' : Charter, (∀ p, ¬ Γ'.supplies p) ∧ m.Sound Γ' n x := by
  have rechartered : ∃ Γ' : Charter, Γ'.supplies = (fun _ => False) ∧ m.Sound Γ' n x :=
    h.recharter (fun _ _ _ => False.elim) fun f hf p hp => by rw [hm f hf] at hp; cases hp
  obtain ⟨Γ', same, sound⟩ := rechartered
  exact ⟨Γ', fun p => by rw [same]; exact id, sound⟩

/-- A host executes a text over builtin operators: it queues the text when there is no work left and
no exception pending, and does cycles. -/
inductive Session.Executing {χ : Type} (m₀ : Machine) (owned : List Value) : Session χ → Prop
  | queued {s t : Session χ} {text origin : String} (h : Served Natives.none m₀ owned s)
      (idle : s.machine.calls.frames = []) (hpending : s.machine.pending = none)
      (ht : (onMachine (Machine.execute (.source text origin)) s).state? = some t) :
      Executing m₀ owned t
  | cycle {s t : Session χ} (h : Executing m₀ owned s)
      (ht : (Session.cycle Natives.none s).state? = some t) : Executing m₀ owned t

namespace Session.Executing

variable {χ : Type} {options : Options} {m₀ : Machine} {owned : List Value} {s : Session χ}

/-- Meanwhile the machine is sound and sane, -/
theorem sane (hm₀ : m₀.Created options) (h : Executing m₀ owned s) :
    ∃ Γ : Charter, (∀ p, ¬ Γ.supplies p) ∧ s.machine.Sound Γ 0 (.refs owned) ∧
      s.machine.Sane s.machine.pending.isSome := by
  induction h with
  | @queued s t text origin h idle hpending ht =>
    obtain ⟨Γ₀, -, sound⟩ := h.sound hm₀
    obtain ⟨Γ, hΓ, sound⟩ := sound.unsupplied (by simp [idle])
    have sane : s.machine.Sane s.machine.pending.isSome := by
      refine ⟨⟨fun p hp => ?_, by simp [idle]⟩, fun k f hf => ?_, by simp [idle]⟩
      · rw [hpending] at hp
        cases hp
      · simp [CallStack.frame?_eq_getElem?, idle] at hf
    have called : (Machine.execute (.source text origin) s.machine).Meets True _ _ :=
      (Machine.call_sane sound sane (Machine.knows_of_handle?_none rfl)).meets
    exact ⟨Γ, hΓ, (meets_onMachine (P := fun _ t => t.machine.Sound Γ 0 (.refs owned) ∧
      t.machine.Sane t.machine.pending.isSome) called).of_state? ht⟩
  | cycle _ ht ih =>
    obtain ⟨Γ, hΓ, sound, sane⟩ := ih
    exact ⟨Γ, hΓ,
      ((cycle_sane hΓ sound sane).meets.mono (fun _ _ => id) fun _ => False.elim).of_state? ht⟩

/-- it is one that a host gets to, -/
theorem served (hm₀ : m₀.Created options) (h : Executing m₀ owned s) :
    Served Natives.none m₀ owned s := by
  induction h with
  | @queued s t text origin h idle hpending ht =>
    rw [state?_onMachine] at ht
    obtain ⟨m, hm, rfl⟩ := Option.map_eq_some_iff.1 ht
    exact h.execute (by simp [Work.passed]) hm
  | cycle h ht ih =>
    obtain ⟨Γ, hΓ, sound, -⟩ := h.sane hm₀
    exact ih.cycle (conducts_none (sound.fed hΓ) ht)

/-- and frames wait as long as there is work above them. -/
theorem waiting (hm₀ : m₀.Created options) (h : Executing m₀ owned s) : s.machine.Waiting := by
  induction h with
  | @queued s t text origin h idle hpending ht =>
    obtain ⟨-, same | ⟨v, queued⟩⟩ := exec_queues ht
    · simp [Machine.Waiting, same, idle]
    · simp [Machine.Waiting, queued, idle]
  | cycle h ht ih =>
    obtain ⟨Γ, hΓ, sound, sane⟩ := h.sane hm₀
    exact cycle_waiting hΓ sound sane ((h.served hm₀).orderly hm₀) ih ht

/-- Any number of cycles go on with it. -/
theorem of_runFrom {count budget : ℕ} {t : Session χ} (h : Executing m₀ owned s)
    (ht : (runFrom Natives.none count budget s).state? = some t) : Executing m₀ owned t := by
  induction budget generalizing count s with
  | zero => exact Option.some.inj ht ▸ h
  | succ budget ih =>
    rw [runFrom] at ht
    split at ht
    · exact Option.some.inj ht ▸ h
    · cases hcycle : Session.cycle Natives.none s with
      | done b u =>
        rw [hcycle] at ht
        exact ih (h.cycle (by rw [hcycle]; rfl)) ht
      | raised e u =>
        rw [hcycle] at ht
        exact h.cycle (by rw [hcycle]; exact ht)
      | broken b => rw [hcycle] at ht; cases ht

/-- So does a host that creates a machine with a table and runs a text on it. -/
theorem of_trial {text : String} {budget : ℕ} {t : Session Unit}
    (hcapacity : ∀ t, options.maxMemory = some t → t ≤ Size.limit)
    (h : Session.trial options text budget = some t) :
    ∃ m₀ : Machine, m₀.Created options ∧ Executing m₀ [] t := by
  unfold Session.trial at h
  cases hm : Machine.create options Setup.table with
  | done r μ =>
    obtain ⟨m₀, a⟩ := r
    rw [hm] at h
    obtain ⟨m, hexecute, hrun⟩ := Option.bind_eq_some_iff.1 h
    obtain ⟨idle, unraised⟩ := Machine.idle_of_create hm
    have queued : (onMachine (Machine.execute (.source text "-")) ⟨m₀, ()⟩).state? =
        some ⟨m, ()⟩ := by
      rw [state?_onMachine, hexecute]
      rfl
    refine ⟨m₀, ⟨hcapacity, Unit, _, (), μ, Setup.selfContained_table, hm⟩,
      .of_runFrom (.queued (.start ()) idle unraised queued)
        (state?_bind_of_kept (fun n u => ?_) hrun)⟩
    rw [theMachine_bind]
    cases u.machine.exception with
    | none => rfl
    | some e =>
      dsimp only
      split <;> rfl
  | raised e μ => rw [hm] at h; cases h
  | broken b => rw [hm] at h; cases h

end Session.Executing

end StackScript
