import StackScript.Proofs.Machine.Poise

/-!
# Cycles raise no internal exception

The work of a cycle of a sane machine raises ordinary exceptions only, and leaves a sane machine
(`Session.step_sane`).  Once its exception, if any, is pending, the machine is sane again, so this goes
on from cycle to cycle (`Session.cycle_sane`).
-/

namespace StackScript

namespace Machine

variable {Γ : Charter} {n : ℕ} {x y : Stake} {v : Value} {rest : List Frame} {m₀ m m' : Machine}
  {o : Operator} {c : Continuation} {f : Frame} {raising : Prop}

/-- In the midst of an invocation of the operator that executes `v` above `rest`, which began in
`m₀`. -/
structure Amid (Γ : Charter) (x : Stake) (v : Value) (rest : List Frame) (m₀ m : Machine) : Prop where
  sound : m.Sound Γ (rest.length + 1) x
  steady : m₀.Steady rest.length m
  above : m.calls.Above v rest
  civil : m.Civil

theorem Amid.start (h : m.Sound Γ 0 x) (hcivil : m.Civil) (hframes : m.calls.frames = f :: rest) :
    Amid Γ x f.value rest m m where
  sound := { h with depth := by simp [CallStack.length, hframes] }
  steady := .refl _ m
  above := CallStack.above_of_frames hframes
  civil := hcivil

/-- Only values have changed. -/
theorem Amid.of_course (h : Amid Γ x v rest m₀ m) (hsound : m'.Sound Γ (rest.length + 1) y)
    (steady : m.Steady rest.length m') (hcourse : m'.course = m.course) :
    Amid Γ y v rest m₀ m' where
  sound := hsound
  steady := h.steady.trans steady
  above := by
    injection hcourse with _ hrest
    injection hrest with hcalls _
    rw [hcalls]
    exact h.above
  civil := h.civil.of_queues (.of_course hcourse)

/-- The operator's frame is in another state. -/
theorem Amid.withState (h : Amid Γ x v rest m₀ m) (next : Continuation) :
    Amid Γ x v rest m₀ (m.withFrame rest.length fun f => { f with state := next }) ∧
      (m.withFrame rest.length fun f => { f with state := next }).StateIs rest.length next := by
  obtain ⟨vs, f, hframes, hv⟩ := h.above
  have hf := CallStack.frame?_above hframes
  refine ⟨⟨?_, h.steady.trans (steady_withFrame hf rfl), ?_, ?_⟩, ⟨_, frame?_withFrame hf _, rfl⟩⟩
  · exact h.sound.withFrame hf rfl (h.sound.supplied f (CallStack.mem_frames_of_frame? hf))
  · exact ⟨vs, _, CallStack.frames_update_above _ hframes, hv⟩
  · exact h.civil.of_records (congrArg (Prod.mk m.pending)
      (CallStack.map_update _ (by exact fun _ => rfl) rest.length))

/-- Moving the operator along the protocol. -/
theorem Amid.setState (h : Amid Γ x v rest m₀ m) {next : Continuation}
    (hs : m.StateIs rest.length c) (hnext : c.canBecome next = true) :
    ∃ m', Machine.setState rest.length next m = .done () m' ∧ Amid Γ x v rest m₀ m' ∧
      m'.StateIs rest.length next ∧ m'.operands = m.operands := by
  obtain ⟨amid, hs'⟩ := h.withState next
  obtain ⟨f, hf, rfl⟩ := hs
  exact ⟨_, setState_eq hf hnext, amid, hs', rfl⟩

/-- The operator goes on from here. -/
theorem Amid.landed (h : Amid Γ x v rest m₀ m) (hs : m.StateIs rest.length c)
    (hready : o.Ready m rest.length c ∨ raising ∧ c = .firstCall) :
    m₀.Landed o v rest raising m :=
  ⟨h.steady, h.civil, .inr ⟨h.above, c, hs, hready⟩⟩

/-- The top frame goes, and nothing else happens. -/
theorem popFrame_leaves (h : m.Sound Γ n x) (hframes : m.calls.frames = f :: rest) :
    (popFrame m).Meets False (fun _ m' => (m'.Sound Γ 0 x ∧ m.Steady rest.length m') ∧
      m'.calls.frames = rest ∧ m'.pending = m.pending) fun _ => False := by
  have kept : Spares Machine.pending popFrame := spares_onCalls (fun _ _ _ => rfl) _
  refine ((popFrame_top h hframes).and ((popFrame_frames m).and (kept m))).mono ?_
    fun _ => And.left
  rintro _ m' ⟨sound, ⟨g, hg⟩, hpending⟩
  exact ⟨sound, (List.cons.inj (hframes.symm.trans hg)).2.symm, hpending⟩

/-- The frame of an operator that is done goes when it is at the top. -/
theorem Amid.popFrame (h : Amid Γ x v rest m₀ m) (htop : m.calls.length = rest.length + 1) :
    (Machine.popFrame m).Meets False (fun _ m' => m₀.Landed o v rest raising m')
      fun _ => False := by
  obtain ⟨vs, f, hframes, -⟩ := id h.above
  obtain rfl : vs = [] := by
    simpa [CallStack.length, hframes, Frame.queued] using htop
  refine (popFrame_leaves h.sound hframes).mono ?_ fun _ => id
  rintro _ m' ⟨⟨-, steady⟩, hrest, hpending⟩
  refine ⟨h.steady.trans steady, h.civil.of_stashes hpending fun g hg => .inr ⟨g, ?_, rfl⟩,
    .inl hrest⟩
  rw [hframes]
  exact .tail f (hrest ▸ hg)

end Machine

/-! ### Invocations -/

namespace Operator

variable {m : Machine} {k : ℕ} {c : Continuation} {params : List Value}

/-- The operator is invoked for the first time, with the operands it asks for, or again, in a state
it is ready for. -/
def Invited (m : Machine) (k : ℕ) (c : Continuation) (params : List Value) : Operator → Prop
  | .builtin b => b.Invited m k c params
  | .native .. => True

/-- After an invocation in the state `c` the operator is done or may go on. -/
def Continues (o : Operator) (k : ℕ) (c : Continuation) (m : Machine) : Prop :=
  ∃ c', m.StateIs k c' ∧ (o.Ready m k c' ∨ c' = c ∧ c.Rests)

end Operator

theorem Behaviour.function_of_builtin {χ : Type} {b : Builtin} {signature : List Param}
    {invoke : ℕ → List Value → Action (Session χ) Unit}
    (h : (ofBuiltin b : Behaviour χ) = .function signature invoke) :
    signature = b.signature ∧ invoke = fun index params =>
      Session.onMachine ((b.operation params).runOn (some index)) := by
  unfold ofBuiltin at h
  split at h
  · cases h
  · cases h
    exact ⟨rfl, rfl⟩

/-- A constant is pushed at its only invocation. -/
theorem Behaviour.not_resumes_of_constant {χ : Type} {b : Builtin} {v : Value}
    (h : (ofBuiltin b : Behaviour χ) = .constant v) : b.resumes = false := by
  unfold ofBuiltin at h
  split at h
  · rename_i w hw
    cases b <;> first | rfl | cases hw
  · cases h

theorem Builtin.Ready.of_not_resumes {b : Builtin} {m : Machine} {k : ℕ} {c : Continuation}
    (hb : b.resumes = false) (h : b.Ready m k c) (m' : Machine) (k' : ℕ) : b.Ready m' k' c := by
  cases h with
  | fresh => exact .fresh b
  | done => exact .done b
  | loop | repeatBlock | stopped | ensure | finalizing | bind => cases hb

namespace Session

variable {χ α β : Type} {Γ : Charter} {x : Stake} {v : Value} {rest : List Frame} {m₀ : Machine}
  {o : Operator} {c : Continuation} {f : Frame} {s : Session χ} {signature : List Param}
  {invoke : ℕ → List Value → Action (Session χ) Unit} {params : List Value} {raising : Prop}

theorem fair_onMachine {y : Action Machine α} {P : α → Session χ → Prop} {F : Session χ → Prop}
    (h : (y s.machine).Fair (fun a m => P a { s with machine := m })
      fun m => F { s with machine := m }) : (onMachine y s).Fair P F :=
  Action.fair_zoom h

/-- **An invocation of an operator that is ready for it.** -/
theorem invoke_fair (ho : Behaviour.ofOperator Natives.none o = .function signature invoke)
    (h : Machine.Amid Γ x v rest m₀ s.machine) (hx : ∀ v ∈ params, v ∈ x.values)
    (hs : s.machine.StateIs rest.length c) (hp : o.Invited s.machine rest.length c params) :
    (invoke rest.length params s).Fair
      (fun _ t => Machine.Amid Γ x v rest m₀ t.machine ∧ o.Continues rest.length c t.machine)
      fun t => Machine.Amid Γ x v rest m₀ t.machine ∧ t.machine.StateIs rest.length c ∧
        ∀ step, c = .running step → o.Ready t.machine rest.length c := by
  cases o with
  | builtin b =>
    obtain ⟨rfl, rfl⟩ := Behaviour.function_of_builtin ho
    have serves : Operation.Serves _ _ _ _ _ := b.operation_serves h.sound hx hs hp
    have works := b.operation_works h.sound hx
    have rest := ((b.operation params).runOn_above h.above).and
      ((b.operation params).runOn_civil (some rest.length) h.civil)
    refine fair_onMachine ((((Outcome.Fair.and serves (hp.operation_recovers h.sound)).and
      works).and rest).mono ?_ ?_)
    · rintro _ m ⟨⟨⟨continues, -⟩, sound, steady⟩, above, civil⟩
      exact ⟨⟨sound, h.steady.trans steady, above, civil⟩, continues⟩
    · rintro m ⟨⟨⟨hs, recovers⟩, sound, steady⟩, above, civil⟩
      exact ⟨⟨sound, h.steady.trans steady, above, civil⟩, hs, recovers⟩
  | native name looping =>
    obtain ⟨rfl, rfl⟩ : [] = signature ∧ _ = invoke := by
      injection ho with hsignature hinvoke
      exact ⟨hsignature, hinvoke⟩
    exact ⟨h, c, hs, .inl trivial⟩

/-- After an operator that is done or may go on. -/
theorem settle_fair (h : Machine.Amid Γ x v rest m₀ s.machine)
    (hcontinues : o.Continues rest.length c s.machine) :
    (settle rest.length c s).Fair (fun _ t => m₀.Landed o v rest raising t.machine)
      fun t => m₀.Landed o v rest raising t.machine := by
  obtain ⟨c', hs, hready⟩ := hcontinues
  refine fair_onMachine ?_
  obtain ⟨f, hf, hstate⟩ := id hs
  rw [Action.get_bind, Machine.frame_bind hf, hstate]
  -- the frame of an operator that is done goes, unless something was queued above it
  have last (m : Machine) (hm : Machine.Amid Γ x v rest m₀ m) {c' : Continuation}
      (hs : m.StateIs rest.length c') (hready : o.Ready m rest.length c') (p : Prop) [Decidable p] :
      (((get : Action Machine Machine) >>= fun m => if p ∧ m.calls.length = rest.length + 1 then
        Machine.popFrame else pure ()) m).Fair (fun _ m => m₀.Landed o v rest raising m)
        fun m => m₀.Landed o v rest raising m := by
    rw [Action.get_bind]
    split
    · rename_i top
      exact (hm.popFrame top.2).fair
    · exact hm.landed hs (.inl hready)
  split
  · rename_i idle
    obtain ⟨rfl, hrests⟩ := idle
    obtain ⟨m, hdone, hm, hs', -⟩ := h.setState hs (Continuation.Rests.canBecome_pop hrests)
    rw [Action.bind_done hdone]
    exact last m hm hs' (o.ready_pop m _) _
  · rename_i busy
    exact last s.machine h hs (hready.resolve_right fun h => busy ⟨h.1, h.1 ▸ h.2⟩) _

/-- Only values have changed since `m`, and the operator's locals are as they were. -/
def Calls (rest : List Frame) (m m' : Machine) : Prop :=
  m.Steady (rest.length + 1) m' ∧ m'.course = m.course

theorem Calls.stateIs {m m' : Machine} (h : Calls rest m m') (hs : m.StateIs rest.length c) :
    m'.StateIs rest.length c :=
  hs.of_queues (.of_course h.2)

theorem Calls.continues {m m' : Machine} (h : Calls rest m m') (hs : o.Continues rest.length c m) :
    o.Continues rest.length c m' :=
  let ⟨c', hs', hready⟩ := hs
  ⟨c', h.stateIs hs', hready.imp_left fun hr => hr.of_steady h.1 (Nat.lt_succ_self _)⟩

theorem Calls.amid {x' : Stake} {m m' : Machine} (h : Calls rest m m')
    (hm : Machine.Amid Γ x v rest m₀ m) (hsound : m'.Sound Γ (rest.length + 1) x') :
    Machine.Amid Γ x' v rest m₀ m' :=
  hm.of_course hsound (h.1.mono (Nat.le_succ _)) h.2

/-- Working on the memory only. -/
theorem onMemory_fair {y : Action Memory α} {P : α → Machine → Prop} {F : Machine → Prop}
    (hy : y.Ordinary) (hmeets : (Machine.onMemory y s.machine).Meets False
      (fun a m => P a m ∧ s.machine.Steady (rest.length + 1) m)
      fun m => F m ∧ s.machine.Steady (rest.length + 1) m) :
    (onMachine (Machine.onMemory y) s).Fair
      (fun a t => P a t.machine ∧ Calls rest s.machine t.machine)
      fun t => F t.machine ∧ Calls rest s.machine t.machine := by
  have course : Machine.Spares Machine.course (Machine.onMemory y) :=
    Machine.spares_onMemory (fun _ _ => rfl) y
  have ordinary : (Machine.onMemory y).Ordinary := Machine.raises_onMemory hy
  exact fair_onMachine (((ordinary.fair hmeets).and
    (course s.machine)).mono (fun _ _ h => ⟨h.1.1, h.1.2, h.2⟩) fun _ h => ⟨h.1.1, h.1.2, h.2⟩)

/-- **The first invocation.** -/
theorem dispatch_fair (ho : Behaviour.ofOperator Natives.none o = .function signature invoke)
    (h : Machine.Amid Γ x v rest m₀ s.machine) (hs : s.machine.StateIs rest.length .unknown)
    (hinvited : ∀ m params, Accepted signature params →
      o.Invited m rest.length .firstCall params) :
    (dispatch rest.length signature (invoke rest.length) s).Fair
      (fun _ t => m₀.Landed o v rest False t.machine)
      fun t => m₀.Landed o v rest True t.machine := by
  unfold dispatch
  rw [theMachine_bind]
  cases hparams : s.machine.matchOperands signature with
  | error c =>
    exact ⟨(Machine.common_of_matchOperands hparams).1, h.landed hs (.inl (o.ready_unknown _ _))⟩
  | ok params =>
    have failing {m : Machine} (hm : Machine.Amid Γ x v rest m₀ m)
        (hs : m.StateIs rest.length .firstCall) : m₀.Landed o v rest True m :=
      hm.landed hs (.inr ⟨trivial, rfl⟩)
    obtain ⟨m₁, hdone, h₁, hs₁, operands⟩ :=
      h.setState hs (rfl : Continuation.canBecome .unknown .firstCall = true)
    have known (v : Value) (hv : v ∈ params) : m₁.Knows x v :=
      Machine.knows_of_operand (operands ▸ Machine.mem_of_matchOperands hparams hv)
    change ((onMachine (Machine.setState rest.length .firstCall) >>= fun _ =>
      onMachine (Machine.onMemory (Memory.retainAll params)) >>= fun _ =>
        (invoke rest.length params).ensuring
          (onMachine (Machine.onMemory (Memory.releaseAll params))) >>= fun _ =>
            settle rest.length .firstCall) s).Fair _ _
    rw [Action.bind_done (onMachine_done hdone)]
    -- the operands are pinned for the time of the invocation
    have pinned : (onMachine (Machine.onMemory (Memory.retainAll params)) { s with machine := m₁ }
        ).Fair _ _ :=
      onMemory_fair (Memory.ordinary_retainAll params) (Machine.retainAll_meets h₁.sound known)
    refine Action.fair_bind (pinned.mono (fun _ _ => id) fun t ht =>
      failing (ht.2.amid h₁ ht.1) (ht.2.stateIs hs₁)) ?_
    rintro _ s₂ ⟨h₂, calls₂⟩
    have invoked := invoke_fair ho (calls₂.amid h₁ h₂) (fun v hv => by simp [hv])
      (calls₂.stateIs hs₁) (hinvited _ params (Machine.accepted_of_matchOperands hparams))
    have released (t : Session χ)
        (ht : Machine.Amid Γ (x + .refs params) v rest m₀ t.machine) :
        (onMachine (Machine.onMemory (Memory.releaseAll params)) t).Fair
          (fun _ u => Machine.Amid Γ x v rest m₀ u.machine ∧ Calls rest t.machine u.machine)
          fun _ => False :=
      (onMemory_fair (Memory.raises_releaseAll params) ((Machine.releaseAll_meets ht.sound).mono
        (fun _ _ => id) fun _ h => (⟨h.elim, h.elim⟩ : False ∧ _))).mono
        (fun _ u hu => ⟨hu.2.amid ht hu.1, hu.2⟩) fun _ h => h.1
    refine Action.fair_bind (P := fun _ t => Machine.Amid Γ x v rest m₀ t.machine ∧
      o.Continues rest.length .firstCall t.machine) (Action.fair_ensuring invoked ?_ ?_)
      fun _ t ht => (settle_fair ht.1 ht.2).mono (fun _ _ => id) fun _ h => h.mono False.elim
    · intro _ t ht
      exact (released t ht.1).mono (fun _ u hu => ⟨hu.1, hu.2.continues ht.2⟩) fun _ => False.elim
    · intro t ht
      exact (released t ht.1).mono (fun _ u hu => failing hu.1 (hu.2.stateIs ht.2.1))
        fun _ => False.elim

/-- **Another invocation.** -/
theorem resume_fair (ho : Behaviour.ofOperator Natives.none o = .function signature invoke)
    (h : Machine.Amid Γ x v rest m₀ s.machine) (hs : s.machine.StateIs rest.length c)
    (hunknown : c ≠ .unknown) (hpop : c ≠ .pop) (hp : o.Invited s.machine rest.length c []) :
    (resume rest.length c (invoke rest.length) s).Fair
      (fun _ t => m₀.Landed o v rest False t.machine)
      fun t => m₀.Landed o v rest True t.machine := by
  refine Action.fair_bind (P := fun _ t => Machine.Amid Γ x v rest m₀ t.machine ∧
      o.Continues rest.length c t.machine)
    (Action.fair_onRaise (invoke_fair ho h (by simp) hs hp) fun t ⟨ht, hs, recovers⟩ => ?_)
    fun _ t ht => (settle_fair ht.1 ht.2).mono (fun _ _ => id) fun _ h => h.mono False.elim
  split
  · -- an operator that fails on its way out is not invoked any more
    obtain ⟨m, hf, ht', hs'⟩ : ∃ m, Machine.updateFrame rest.length
        (fun f => { f with state := .pop }) t.machine = .done () m ∧
        Machine.Amid Γ x v rest m₀ m ∧ m.StateIs rest.length .pop := by
      obtain ⟨f, hf, -⟩ := hs
      exact ⟨_, Machine.updateFrame_eq hf _, ht.withState .pop⟩
    refine fair_onMachine ?_
    rw [hf]
    exact ht'.landed hs' (.inl (o.ready_pop m _))
  · rename_i hpopping
    refine ht.landed hs ?_
    cases c with
    | unknown | pop => contradiction
    | firstCall => exact .inr ⟨trivial, rfl⟩
    | running step => exact .inl (recovers step rfl)
    | callBeforePop | popping => exact absurd rfl hpopping

/-! ### Cycles without an operator -/

/-- The action raises ordinary exceptions only, and leaves the pending exception alone. -/
def Calm (s : Session χ) (a : Action (Session χ) α) : Prop :=
  (a s).Fair (fun _ t => t.machine.pending = s.machine.pending)
    fun t => t.machine.pending = s.machine.pending

theorem Calm.bind {a : Action (Session χ) α} {k : α → Action (Session χ) β} (ha : Calm s a)
    (hk : ∀ r t, Calm t (k r)) : Calm s (a >>= k) :=
  Action.fair_bind ha fun r t ht => (hk r t).mono (fun _ _ h => h.trans ht) fun _ h => h.trans ht

theorem calm_onMachine {y : Action Machine α} (hy : y.Ordinary)
    (hpending : Machine.Spares Machine.pending y) (s : Session χ) : Calm s (onMachine y) :=
  fair_onMachine (hy.fair (hpending s.machine))

theorem calm_pushOperand (v : Value) (s : Session χ) : Calm s (pushOperand v) :=
  calm_onMachine (Machine.ordinary_exchangeOperands 0 [v])
    (Machine.spares_exchangeOperands (fun _ _ _ => rfl) 0 [v]) s

theorem calm_popFrame (s : Session χ) : Calm s popFrame :=
  calm_onMachine Machine.ordinary_popFrame (Machine.spares_onCalls (fun _ _ _ => rfl) _) s

theorem calm_replaceFrame (v : Value) (s : Session χ) :
    Calm s (onMachine (Machine.replaceFrame v)) :=
  calm_onMachine (Machine.ordinary_replaceFrame v) (Machine.spares_onCalls (fun _ _ _ => rfl) _) s

theorem calm_call (v : Value) (s : Session χ) : Calm s (onMachine (Machine.call v)) :=
  calm_onMachine (Machine.ordinary_call v) (Machine.spares_onCalls (fun _ _ _ => rfl) _) s

theorem raises_updateFrame {R : Condition → Prop} (index : ℕ) (g : Frame → Frame) :
    (onMachine (Machine.updateFrame index g) : Action (Session χ) Unit).Raises R :=
  (Machine.raises_updateFrame index g).zoom

theorem calm_updateFrame (index : ℕ) (g : Frame → Frame) (s : Session χ) :
    Calm s (onMachine (Machine.updateFrame index g)) :=
  calm_onMachine (Machine.raises_updateFrame index g)
    (Machine.spares_updateFrame fun _ => rfl) s

theorem calm_pushOperand_popFrame (v : Value) (s : Session χ) :
    Calm s (pushOperand v >>= fun _ => popFrame) :=
  (calm_pushOperand v s).bind fun _ => calm_popFrame

theorem calm_yieldItem (v : Value) (s : Session χ) : Calm s (yieldItem v) := by
  unfold yieldItem
  split
  · exact calm_pushOperand v s
  · exact calm_call v s

theorem stepName_calm (token : Value) (name : String) (s : Session χ) :
    Calm s (stepName token name) := by
  unfold Calm stepName
  rw [theMachine_bind]
  split
  · exact calm_pushOperand_popFrame token s
  · cases hfound : (s.machine.lookup name).run with
    | error b => trivial
    | ok found =>
      cases found with
      | error c => exact ⟨Machine.ordinary_of_lookup hfound, rfl⟩
      | ok v => exact calm_replaceFrame _ s

theorem stepSource_calm {text : String} (index : ℕ) (hcursor : Text.Boundary text f.cursor)
    (s : Session χ) : Calm s (stepSource index f text) := by
  unfold Calm stepSource
  cases hnext : Token.next text f.cursor with
  | error c => exact ⟨Token.ordinary_of_next hcursor hnext, rfl⟩
  | ok next =>
    cases next with
    | none => exact calm_popFrame s
    | some token =>
      set v := token.value.withSource (some (tokenSource f.value text token)) with hv
      change Calm s (if v.isExecutable then onMachine (Machine.call v) >>= fun _ =>
        onMachine (Machine.updateFrame index _) else pushOperand v >>= fun _ =>
          onMachine (Machine.updateFrame index _))
      split
      · exact (calm_call v s).bind fun _ => calm_updateFrame index _
      · exact (calm_pushOperand v s).bind fun _ => calm_updateFrame index _

theorem stepBlock_calm (index : ℕ) (f : Frame) (handle : Handle) (s : Session χ) :
    Calm s (stepBlock index f handle) := by
  unfold Calm stepBlock
  rw [theMachine_bind]
  cases hblock : s.machine.memory.array handle with
  | error b => trivial
  | ok block =>
    rw [read_bind]
    cases block.get? f.cursor with
    | none => exact calm_popFrame s
    | some item =>
      dsimp only
      split
      · split
        · exact calm_pushOperand_popFrame item s
        · exact calm_replaceFrame item s
      · exact (calm_yieldItem item s).bind fun _ => calm_updateFrame index _

/-- **A cycle without an operator** raises ordinary exceptions only. -/
theorem advance_calm (index : ℕ) (h : f.value.toOperator? = none) (hsupply : f.supply = none)
    (hcursor : ∀ text, f.value.datum = .string text true → Text.Boundary text f.cursor)
    (s : Session χ) : Calm s (advance Natives.none index f) := by
  unfold advance
  rw [hsupply]
  dsimp only
  split
  · rename_i o hd
    rw [toOperator?_eq_some hd] at h
    cases h
  · exact stepName_calm _ _ s
  · rename_i text hd
    exact stepSource_calm index (hcursor text hd) s
  · exact stepBlock_calm index f _ s
  · exact calm_pushOperand_popFrame _ s

/-! ### Cycles -/

/-- The frame of an operator that goes, or stays as it is. -/
theorem landed_of_turned {m m' : Machine} (hcivil : m.Civil)
    (hframes : m.calls.frames = f :: rest) (ho : f.value.toOperator? = some o)
    (hturned : f.Turned rest m'.calls.frames) (hpending : m'.pending = m.pending)
    (steady : m.Steady rest.length m') (hready : o.Ready m' rest.length f.state) :
    m.Landed o f.value rest raising m' := by
  generalize hl : m'.calls.frames = l at hturned
  cases hturned with
  | kept =>
    refine ⟨steady, hcivil.of_stashes hpending fun g hg => .inr ⟨g, ?_, rfl⟩,
      .inr ⟨CallStack.above_of_frames hl, f.state, ⟨f, ?_, rfl⟩, .inl hready⟩⟩
    · rwa [hframes, ← hl]
    · exact CallStack.frame?_head hl
  | removed =>
    refine ⟨steady, hcivil.of_stashes hpending fun g hg => .inr ⟨g, ?_, rfl⟩, .inl hl⟩
    rw [hframes]
    exact .tail f (hl ▸ hg)
  | replaced _ hnone | advanced _ _ _ _ _ hnone =>
    rw [ho] at hnone
    cases hnone

/-- **A cycle of an operator.** -/
theorem stepOperator_fair (h : s.machine.Sound Γ 0 x) (hcivil : s.machine.Civil)
    (hframes : s.machine.calls.frames = f :: rest) (ho : f.value.toOperator? = some o)
    (hready : o.Ready s.machine rest.length f.state) :
    (stepOperator Natives.none rest.length o s).Fair
      (fun _ t => s.machine.Landed o f.value rest False t.machine)
      fun t => s.machine.Landed o f.value rest True t.machine := by
  have amid := Machine.Amid.start h hcivil hframes
  have hs : s.machine.StateIs rest.length f.state :=
    ⟨f, CallStack.frame?_head hframes, rfl⟩
  have works := Behaviour.works_none (χ := χ) Γ o
  -- a step that leaves the frame as it is or removes it
  have calm {a : Action (Session χ) Unit} (hcalm : Calm s a) (hturns : Turns f rest s a)
      (hadvances : Advances Γ rest.length x s a)
      (hready : ∀ m' : Machine, o.Ready m' rest.length f.state) :
      (a s).Fair (fun _ t => s.machine.Landed o f.value rest False t.machine)
        fun t => s.machine.Landed o f.value rest True t.machine := by
    refine ((hcalm.and hturns).and hadvances).mono (fun _ t ht => ?_) fun t ht => ?_ <;>
    exact landed_of_turned hcivil hframes ho ht.1.2 ht.1.1 ht.2.2 (hready t.machine)
  unfold stepOperator
  cases hb : Behaviour.ofOperator (Natives.none : Natives χ) o with
  | constant v =>
    rw [hb] at works
    refine calm (calm_pushOperand_popFrame v s) (pushOperand_popFrame_turns v hframes)
      (pushOperand_popFrame_advances amid.sound (Machine.knows_of_handle?_none works)) fun m' => ?_
    cases o with
    | builtin b => exact Builtin.Ready.of_not_resumes (Behaviour.not_resumes_of_constant hb) hready m' _
    | native => trivial
  | function signature invoke =>
    obtain ⟨f', hf', bound⟩ := frame_bind (β := Unit) amid.sound
    obtain rfl : f = f' := by
      rw [CallStack.frame?_head hframes] at hf'
      exact Option.some.inj hf'
    dsimp only
    rw [theMachine_bind, bound]
    cases hstate : f.state with
    | pop =>
      rw [hstate] at calm
      exact calm (calm_popFrame s) (popFrame_turns hframes) (popFrame_advances amid.sound)
        fun m' => o.ready_pop m' _
    | unknown =>
      rw [hstate] at hs
      refine dispatch_fair hb amid hs fun m params haccepted => ?_
      cases o with
      | builtin b => exact .first ((Behaviour.function_of_builtin hb).1 ▸ haccepted)
      | native => trivial
    | firstCall | callBeforePop | running | popping =>
      rw [hstate] at hs hready
      refine resume_fair hb amid hs nofun nofun ?_
      cases o with
      | builtin b => exact .again hready nofun nofun
      | native => trivial

/-- **The work of a cycle** of a sane machine raises ordinary exceptions only. -/
theorem step_sane (hΓ : ∀ p, ¬ Γ.supplies p) (h : s.machine.Sound Γ 0 x)
    (hs : s.machine.Sane s.machine.pending.isSome)
    (hframes : s.machine.calls.frames = f :: rest) :
    (step Natives.none rest.length f s).Fair
      (fun _ t => t.machine.Sound Γ 0 x ∧ t.machine.Sane t.machine.pending.isSome)
      fun t => t.machine.Sound Γ 0 x ∧ t.machine.Sane True := by
  have hmem : f ∈ s.machine.calls.frames := by simp [hframes]
  have hf : s.machine.calls.frame? rest.length = some f :=
    CallStack.frame?_head hframes
  have hsupply : f.supply = none :=
    Option.eq_none_iff_forall_ne_some.2 fun p hp => hΓ p (h.supplied f hmem p hp)
  have advances : Advances Γ rest.length x s (step Natives.none rest.length f) :=
    step_advances (Behaviour.works_none Γ) h (h.fed hΓ) hframes
  cases ho : s.machine.invoked? f with
  | some o =>
    -- no frame is sinking, since the top one would be
    have poised (k : ℕ) (g : Frame) (hk : k ≤ rest.length) (hg : s.machine.calls.frame? k = some g) :
        s.machine.Poised k g := by
      refine (hs.poised k g hg).resolve_right fun sinking => ?_
      rw [Machine.invoked?, if_pos sinking.1, sinking.2.2 rest.length f hk hf] at ho
      cases ho
    have hvalue := Machine.toOperator?_of_invoked? ho
    have fair := stepOperator_fair h hs.civil hframes hvalue (poised _ f le_rfl hf o hvalue)
    rw [← step_of_invoked ho] at fair
    have sane {raising : Prop} {m : Machine}
        (landed : s.machine.Landed o f.value rest raising m) : m.Sane raising :=
      hs.of_landed hframes (fun k g hk => poised k g hk.le) hvalue landed
    exact (fair.and advances).mono (fun _ t ht => ⟨ht.2.1, (sane ht.1).mono False.elim⟩)
      fun t ht => ⟨ht.2.1, sane ht.1⟩
  | none =>
    by_cases hpending : s.machine.pending.isSome
    · rw [step_of_unwound hpending ho]
      exact (fair_onMachine ((Machine.popFrame_leaves h hframes).mono (fun _ m hm =>
        ⟨hm.1.1, hs.of_popped hframes hm.1.2 hm.2.2 hm.2.1⟩) fun _ => id).fair)
    · rw [Machine.invoked?, if_neg hpending, hsupply, if_neg (by simp)] at ho
      have calm := advance_calm rest.length ho hsupply (hs.cursors f hmem) s
      have turns : Turns f rest s (advance Natives.none rest.length f) := advance_turns hframes ho
      unfold Advances at advances
      rw [step_of_not_pending hpending] at advances ⊢
      have sane (t : Session χ) (hpending : t.machine.pending = s.machine.pending)
          (turned : f.Turned rest t.machine.calls.frames)
          (steady : s.machine.Steady rest.length t.machine) :
          t.machine.Sane t.machine.pending.isSome :=
        hs.of_turned hframes hsupply ho steady hpending turned
      exact ((calm.and turns).and advances).mono
        (fun _ t ht => ⟨ht.2.1, sane t ht.1.1 ht.1.2 ht.2.2⟩)
        fun t ht => ⟨ht.2.1, (sane t ht.1.1 ht.1.2 ht.2.2).mono fun _ => trivial⟩

/-- **A cycle of a sane machine** leaves a sane machine, and its exception, if any, is pending. -/
theorem cycle_sane (hΓ : ∀ p, ¬ Γ.supplies p) (h : s.machine.Sound Γ 0 x)
    (hs : s.machine.Sane s.machine.pending.isSome) :
    (cycle Natives.none s).Fair
      (fun _ t => t.machine.Sound Γ 0 x ∧ t.machine.Sane t.machine.pending.isSome)
      fun _ => False := by
  unfold cycle
  rw [theMachine_bind]
  cases hframes : s.machine.calls.frames with
  | nil => exact ⟨h, hs⟩
  | cons f rest =>
    refine Action.fair_bind (P := fun r t => t.machine.Sound Γ 0 x ∧
      (∀ u, r = .ok u → t.machine.Sane t.machine.pending.isSome) ∧
        ∀ e, r = .error e → e.Ordinary ∧ t.machine.Sane True) ?_ ?_
    · exact Action.fair_attempt (step_sane hΓ h hs hframes)
        (fun _ t ht => ⟨ht.1, fun _ _ => ht.2, fun _ he => by cases he⟩)
        fun e t he ht => ⟨ht.1, fun _ hu => (by cases hu), fun _ he' =>
          ⟨Except.error.inj he' ▸ he, ht.2⟩⟩
    · rintro (e | u) t ⟨sound, done, failed⟩
      · refine Action.fair_bind (fair_onMachine ?_) fun _ u hu => hu
        exact (Machine.raise_sane sound (failed e rfl).2 (failed e rfl).1).fair
      · exact ⟨sound, done u rfl⟩

/-! ### Runs -/

theorem runFrom_sane (hΓ : ∀ p, ¬ Γ.supplies p) (budget count : ℕ) (h : s.machine.Sound Γ 0 x)
    (hs : s.machine.Sane s.machine.pending.isSome) :
    (runFrom Natives.none count budget s).Fair
      (fun _ t => t.machine.Sound Γ 0 x ∧ t.machine.Sane t.machine.pending.isSome)
      fun _ => False := by
  induction budget generalizing count s with
  | zero => exact ⟨h, hs⟩
  | succ budget ih =>
    rw [runFrom]
    split
    · exact ⟨h, hs⟩
    · have cycled := cycle_sane hΓ h hs
      cases hcycle : cycle Natives.none s with
      | done b t => rw [hcycle] at cycled; exact ih (count + 1) cycled.1 cycled.2
      | raised e t => rw [hcycle] at cycled; exact cycled.2.elim
      | broken b => trivial

/-- A run of a sane machine fails with the pending exception only. -/
theorem run_sane (hΓ : ∀ p, ¬ Γ.supplies p) (budget : ℕ) (h : s.machine.Sound Γ 0 x)
    (hs : s.machine.Sane s.machine.pending.isSome) :
    (run Natives.none budget s).Fair
      (fun _ t => t.machine.Sound Γ 0 x ∧ t.machine.Sane t.machine.pending.isSome)
      fun t => t.machine.Sound Γ 0 x ∧ t.machine.Sane t.machine.pending.isSome := by
  refine Action.fair_bind ((runFrom_sane hΓ budget 0 h hs).mono (fun _ _ => id) fun _ => False.elim)
    fun count t ht => ?_
  rw [theMachine_bind]
  cases hexception : t.machine.exception with
  | none => exact ht
  | some e =>
    obtain ⟨p, hp, rfl⟩ := Option.map_eq_some_iff.1 hexception
    dsimp only
    split
    · exact ⟨ht.2.civil.pending p hp, ht⟩
    · exact ht

theorem runToCompletion_sane (hΓ : ∀ p, ¬ Γ.supplies p) (h : s.machine.Sound Γ 0 x)
    (hs : s.machine.Sane s.machine.pending.isSome) :
    (runToCompletion Natives.none s).Fair
      (fun _ t => t.machine.Sound Γ 0 x ∧ t.machine.Sane t.machine.pending.isSome)
      fun t => t.machine.Sound Γ 0 x ∧ t.machine.Sane t.machine.pending.isSome := by
  unfold runToCompletion
  rw [theMachine_bind]
  refine Action.fair_bind (run_sane hΓ _ h hs) fun count t ht => ?_
  rw [theMachine_bind]
  split
  · exact ht
  · exact ⟨nofun, ht⟩

end Session

end StackScript
