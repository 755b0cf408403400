import StackScript.Proofs.Machine.Faultless
import StackScript.Proofs.Machine.Handling
import StackScript.Proofs.Operator.Budget

/-!
# What a cycle of a builtin leaves above a frame

A loop that has queued its block asks to be invoked again before it goes, whatever happens
meanwhile: it is armed (`Frame.Armed`).  A cycle queues one frame at most, above a loop only if the
loop is armed; it makes no new exception pending, and asks for a loop to be left only if it invokes
`break` above the frame of a loop (`Session.step_left`).
-/

namespace StackScript

/-- The frame executes a loop. -/
def Frame.IsLoop (f : Frame) : Prop := f.value.toOperator?.any Operator.isLoop = true

/-- The frame of a loop that is invoked before it goes, also if an exception is pending. -/
structure Frame.Armed (f : Frame) : Prop where
  state : f.state = .callBeforePop
  loop : ∃ b : Builtin, f.value.toOperator? = some (.builtin b) ∧ b.isLoop = true

/-- The frame of an operator that is no loop is not armed. -/
theorem Frame.not_armed_of_toOperator? {f : Frame} {o : Operator}
    (hf : f.value.toOperator? = some o) (ho : ∀ b : Builtin, o = .builtin b → b.isLoop = false) :
    ¬ f.Armed := by
  rintro ⟨-, b, hb, hloop⟩
  rw [ho b (Option.some.inj (hf.symm.trans hb))] at hloop
  cases hloop

/-- The operator of `f` has worked in its frame above `rest`: it has queued one frame at most, above
that of a loop only if the loop is armed, or done. -/
def Frame.Busy (f : Frame) (rest frames : List Frame) : Prop :=
  ∃ vs g, frames = Frame.queued vs ++ g :: rest ∧ g.value = f.value ∧ vs.length ≤ 1 ∧
    (vs ≠ [] → f.IsLoop → g.Armed ∨ g.state = .pop)

/-- What a cycle leaves of a top frame `f` above the frames `rest`. -/
inductive Frame.Follows (f : Frame) (rest : List Frame) : List Frame → Prop
  | removed : f.Follows rest rest
  | replaced (v : Value) : f.Follows rest ({ value := v } :: rest)
  | updated {frames : List Frame} (h : f.Busy rest frames) : f.Follows rest frames

/-- A loop stands in one of the frames, and is not done. -/
def LoopsIn (frames : List Frame) : Prop := ∃ g ∈ frames, g.IsLoop ∧ g.state ≠ .pop

/-- An invocation of the operator of `f` may ask for a loop to be left: it is one of `break`, above
the frame of a loop. -/
def Frame.Breaks (f : Frame) (rest : List Frame) : Prop :=
  f.value.toOperator? = some (.builtin .leaveLoop) ∧ LoopsIn rest

section frames

variable {f g : Frame} {rest frames : List Frame} {c : CallStack} {m : Machine} {vs : List Value}

theorem Frame.Turned.follows (h : f.Turned rest frames) : f.Follows rest frames := by
  cases h with
  | kept => exact .updated ⟨[], f, rfl, rfl, Nat.zero_le 1, absurd rfl⟩
  | removed => exact .removed
  | replaced v _ => exact .replaced v
  | advanced cursor supply queued _ _ hf =>
    refine .updated ⟨queued.toList, _, rfl, rfl, ?_, fun _ hloop => ?_⟩
    · cases queued <;> simp
    · rw [Frame.IsLoop, hf] at hloop
      cases hloop

/-- A frame that a cycle without an operator leaves holds what one held before. -/
theorem Frame.Turned.stashes (h : f.Turned rest frames) :
    ∀ g ∈ frames, g.stash = none ∨ ∃ g' ∈ f :: rest, g.stash = g'.stash := by
  intro g hg
  have below (hg : g ∈ rest) : g.stash = none ∨ ∃ g' ∈ f :: rest, g.stash = g'.stash :=
    .inr ⟨g, .tail f hg, rfl⟩
  cases h with
  | kept => exact .inr ⟨g, hg, rfl⟩
  | removed => exact below hg
  | replaced v _ =>
    rcases List.mem_cons.1 hg with rfl | hg
    · exact .inl rfl
    · exact below hg
  | advanced cursor supply queued _ _ _ =>
    rw [List.mem_append, List.mem_cons, List.mem_map] at hg
    rcases hg with ⟨v, -, rfl⟩ | rfl | hg
    · exact .inl rfl
    · exact .inr ⟨f, .head rest, rfl⟩
    · exact below hg

theorem Machine.hasLoop_iff (h : m.calls.frames = Frame.queued vs ++ g :: rest) :
    m.hasLoop rest.length = true ↔ LoopsIn rest := by
  have below : m.calls.frames.drop (m.calls.length - rest.length) = rest := by
    rw [CallStack.length, h, List.append_cons, List.length_append, Nat.add_sub_cancel,
      List.drop_left]
  rw [Machine.hasLoop, below, List.any_eq_true]
  simp only [LoopsIn, Frame.IsLoop, bne_iff_ne, Bool.and_eq_true, and_comm, ne_eq]

end frames

/-! ### Frames with nothing queued above them -/

namespace Machine

variable {α : Type} {m m' : Machine} {v : Value} {rest : List Frame} {c : Continuation}
  {p : Operation α}

/-- The top frame executes `v` above the frames `rest`. -/
def Tops (v : Value) (rest : List Frame) (m : Machine) : Prop :=
  ∃ g, m.calls.frames = g :: rest ∧ g.value = v

theorem Tops.above (h : m.Tops v rest) : m.calls.Above v rest := by
  obtain ⟨g, hg, hv⟩ := h
  exact ⟨[], g, hg, hv⟩

theorem Tops.length (h : m.Tops v rest) : m.calls.length = rest.length + 1 := by
  obtain ⟨g, hg, -⟩ := h
  rw [CallStack.length, hg, List.length_cons]

theorem length_of_queued {g : Frame} {vs : List Value}
    (h : m.calls.frames = Frame.queued vs ++ g :: rest) :
    m.calls.length = vs.length + rest.length + 1 := by
  simp only [CallStack.length, h, List.length_append, List.length_cons, Frame.queued,
    List.length_map]
  omega

theorem tops_of_above (h : m.calls.Above v rest) (hlength : m.calls.length ≤ rest.length + 1) :
    m.Tops v rest := by
  obtain ⟨vs, g, hframes, hv⟩ := h
  rw [length_of_queued hframes] at hlength
  obtain rfl : vs = [] := List.eq_nil_of_length_eq_zero (by omega)
  exact ⟨g, hframes, hv⟩

/-- A program without a budget queues nothing. -/
theorem Tops.runOn {P : α → ℕ → Prop} (h : m.Tops v rest) (hp : p.Obeys .budget 0 P) :
    (p.runOn (some rest.length) m).Meets True (fun _ m' => m'.Tops v rest)
      fun m' => m'.Tops v rest := by
  have length := (hp.runOn_budget (i := rest.length)).2 m
  rw [h.length] at length
  exact ((p.runOn_above h.above).and length).mono (fun _ _ h => tops_of_above h.1 h.2)
    fun _ h => tops_of_above h.1 h.2

end Machine

namespace Operation

open Program.Regime (budget takes_budget)

variable {α β : Type} {m : Machine} {v w : Value} {rest : List Frame} {c : Continuation}
  {p : Operation α} {f : α → Operation β} {b : Builtin} {params : List Value}

/-- The operator of the top frame is armed once it has queued something, unless the protocol does
not let it be. -/
def Arms (v : Value) (rest : List Frame) (m : Machine) (p : Operation α) : Prop :=
  (p.runOn (some rest.length) m).Yields
    (fun _ m' => m'.Tops v rest ∨ m'.calls.Above v rest ∧ m'.StateIs rest.length .callBeforePop)
    fun e m' => m'.Tops v rest ∨ e.condition = .internal

theorem arms_of_budget {P : α → ℕ → Prop} (h : m.Tops v rest) (hp : p.Obeys .budget 0 P) :
    p.Arms v rest m :=
  (h.runOn hp).yields.mono (fun _ _ => .inl) fun _ _ => .inl

/-- Steps that queue nothing come first. -/
theorem Arms.step {P : α → ℕ → Prop} (h : m.Tops v rest) (hp : p.Obeys .budget 0 P)
    (hf : ∀ a m', m'.Tops v rest → (f a).Arms v rest m') : (p >>= f).Arms v rest m := by
  unfold Arms
  rw [runOn, Program.run_bind]
  exact Action.yields_bind ((h.runOn hp).yields.mono (fun _ _ => id) fun _ _ => .inl) hf

theorem runOn_call (own : Option ℕ) (w : Value) : (call w).runOn own = Machine.call w :=
  Program.run_request (r := Request.call w) _

theorem runOn_setState (i : ℕ) (next : Continuation) :
    (setState next).runOn (some i) = Machine.setState i next :=
  Program.run_request (r := Request.setState next) _

/-- A transition is made, or the protocol does not have it. -/
theorem setState_yields (next : Continuation) (h : m.calls.Above v rest) :
    ((setState next).runOn (some rest.length) m).Yields
      (fun _ m' => m'.calls.Above v rest ∧ m'.StateIs rest.length next)
      fun e _ => e.condition = .internal := by
  obtain ⟨vs, g, hframes, hv⟩ := h
  have hg : m.calls.frame? rest.length = some g := CallStack.frame?_above hframes
  rw [runOn_setState, Machine.setState, Action.get_bind, Machine.frame_bind hg]
  split
  · rw [Machine.updateFrame_eq hg]
    exact ⟨⟨vs, _, CallStack.frames_update_above _ hframes, hv⟩, _,
      Machine.frame?_withFrame hg _, rfl⟩
  · rfl

/-- The transition comes right after a block has been queued. -/
theorem arms_call (h : m.Tops v rest) :
    (call w >>= fun _ => setState .callBeforePop).Arms v rest m := by
  have called : ((call w).runOn (some rest.length) m).Meets True
      (fun _ m' => m'.calls.Above v rest) fun m' => m'.Tops v rest := by
    rw [runOn_call]
    refine (Machine.pushFrame_frames _ m).mono (fun _ m' hm' => h.above.queued hm') fun m' hm' => ?_
    rwa [Machine.Tops, hm']
  unfold Arms
  rw [runOn, Program.run_bind]
  exact Action.yields_bind (called.yields.mono (fun _ _ => id) fun _ _ => .inl) fun _ m₁ above =>
    (setState_yields .callBeforePop above).mono (fun _ _ => .inr) fun _ _ => .inr

/-- **A loop** that has queued its block is armed. -/
theorem loop_arms (hb : b.isLoop = true) (h : m.Tops v rest) :
    (b.operation params).Arms v rest m := by
  have anything {n : ℕ} (c : Cause) (hc : c.condition ≠ .loopBreak) :
      (Program.fail c : Operation Unit).Obeys budget n fun _ _ => True := Program.obeys_fail.2 hc
  cases b with
  | loop =>
    have round (m : Machine) (h : m.Tops v rest) : (loopBlock []).Arms v rest m := by
      refine Arms.step h (obeys_state (Q := fun _ _ => True) fun _ => trivial) fun c m h => ?_
      cases c with
      | firstCall =>
        exact Arms.step h (spends_expectLocal (Q := fun _ _ => True) fun _ => trivial)
          fun w m h => arms_call h
      | callBeforePop => exact arms_of_budget h spends_endRound
      | unknown | running | popping | pop => exact arms_of_budget h (anything _ nofun)
    cases params with
    | nil => exact round m h
    | cons v rest =>
      have taken := takes_budget Builtin.loop.signature (v :: rest)
      exact Arms.step h (obeys_matched (Q := fun _ _ => True) taken (by decide) fun _ => trivial)
        fun block m h =>
        Arms.step h (obeys_setLocal trivial (P := fun _ _ => True) trivial) fun _ m h =>
          Arms.step h (obeys_pop (P := fun _ _ => True) trivial) fun _ m h => round m h
  | repeatBlock =>
    have round (m : Machine) (h : m.Tops v rest) : (repeatBlock []).Arms v rest m := by
      refine Arms.step h (obeys_state (Q := fun _ _ => True) fun _ => trivial) fun c m h => ?_
      cases c with
      | firstCall =>
        refine Arms.step h (spends_expectLocal (Q := fun _ _ => True) fun _ => trivial)
          fun w m h => Arms.step h (P := fun _ _ => True)
            (Program.obeys_ofOption.2 ⟨fun _ _ => trivial, fun _ => nofun⟩) fun remaining m h => ?_
        split
        · exact Arms.step h (obeys_setLocal trivial (P := fun _ _ => True) trivial) fun _ m h =>
            Arms.step h (spends_expectLocal (Q := fun _ _ => True) fun _ => trivial)
              fun w m h => arms_call h
        · exact arms_of_budget (P := fun _ _ => True) h trivial
      | callBeforePop => exact arms_of_budget h spends_endRound
      | unknown | running | popping | pop => exact arms_of_budget h (anything _ nofun)
    cases params with
    | nil => exact round m h
    | cons v rest =>
      have taken := takes_budget Builtin.repeatBlock.signature (v :: rest)
      exact Arms.step h (obeys_matched (Q := fun _ _ => True) taken (by decide) fun _ => trivial)
        fun block m h =>
        Arms.step h (obeys_matchedWord (Q := fun _ _ => True) taken rfl fun _ => trivial)
          fun count m h =>
        Arms.step h (obeys_toIndex (Q := fun _ _ => True) fun _ => trivial) fun _ m h =>
        Arms.step h (obeys_setLocal trivial (P := fun _ _ => True) trivial) fun _ m h =>
        Arms.step h (obeys_setLocal trivial (P := fun _ _ => True) trivial) fun _ m h =>
          Arms.step h (obeys_pop (P := fun _ _ => True) trivial) fun _ m h => round m h
  | _ => cases hb

end Operation

/-! ### Cycles without an operator -/

namespace Session

variable {χ α : Type} {s t : Session χ} {f : Frame} {rest : List Frame} {R : Condition → Prop}
  {P : PendingException → Prop}

theorem raises_theMachine : (theMachine : Action (Session χ) Machine).Raises R :=
  fun _ _ _ h => by cases h

theorem raises_pushOperand (v : Value) :
    (pushOperand v : Action (Session χ) Unit).Raises (· ≠ .loopBreak) :=
  ((Machine.ordinary_exchangeOperands 0 [v]).mono fun _ h => h.2).zoom

theorem raises_popFrame : (popFrame : Action (Session χ) Unit).Raises (· ≠ .loopBreak) :=
  (Machine.ordinary_popFrame.mono fun _ h => h.2).zoom

theorem raises_replaceFrame (v : Value) :
    (onMachine (Machine.replaceFrame v) : Action (Session χ) Unit).Raises (· ≠ .loopBreak) :=
  ((Machine.ordinary_replaceFrame v).mono fun _ h => h.2).zoom

theorem raises_call (v : Value) :
    (onMachine (Machine.call v) : Action (Session χ) Unit).Raises (· ≠ .loopBreak) :=
  ((Machine.ordinary_call v).mono fun _ h => h.2).zoom

theorem raises_yieldItem (v : Value) :
    (yieldItem v : Action (Session χ) Unit).Raises (· ≠ .loopBreak) := by
  unfold yieldItem
  split
  · exact raises_pushOperand v
  · exact raises_call v

theorem raises_stepName (token : Value) (name : String) :
    (stepName token name : Action (Session χ) Unit).Raises (· ≠ .loopBreak) := by
  refine raises_theMachine.bind fun m => ?_
  split
  · exact (raises_pushOperand token).bind fun _ => raises_popFrame
  · have found (c : Cause) (h : (m.lookup name).run = .ok (.error c)) :
        c.condition ≠ .loopBreak := by
      rw [Machine.condition_of_lookup h]
      exact nofun
    generalize (m.lookup name).run = r at found
    cases r with
    | error b =>
      intro s e t h
      have broken : (Outcome.broken b : Outcome (Session χ) Unit) = .raised e t := h
      cases broken
    | ok r =>
      change (Action.ofExcept r >>= fun v => onMachine (Machine.replaceFrame _)).Raises _
      exact (Action.raises_ofExcept fun c hc => found c (hc ▸ rfl)).bind fun v =>
        raises_replaceFrame _

theorem raises_stepSource (index : ℕ) (f : Frame) (text : String) :
    (stepSource index f text : Action (Session χ) Unit).Raises (· ≠ .loopBreak) := by
  refine (Action.raises_ofExcept fun c => Token.raises_next).bind fun next => ?_
  cases next with
  | none => exact raises_popFrame
  | some token =>
    dsimp only
    split
    · exact (raises_call _).bind fun _ => raises_updateFrame index _
    · exact (raises_pushOperand _).bind fun _ => raises_updateFrame index _

theorem raises_stepBlock (index : ℕ) (f : Frame) (handle : Handle) :
    (stepBlock index f handle : Action (Session χ) Unit).Raises (· ≠ .loopBreak) := by
  refine raises_theMachine.bind fun m => (Action.raises_ofSound _).bind fun block => ?_
  split
  · exact raises_popFrame
  · split
    · split
      · exact (raises_pushOperand _).bind fun _ => raises_popFrame
      · exact raises_replaceFrame _
    · exact (raises_yieldItem _).bind fun _ => raises_updateFrame index _

theorem raises_advance (index : ℕ) (hf : f.value.toOperator? = none) (hsupply : f.supply = none) :
    (advance Natives.none index f : Action (Session χ) Unit).Raises (· ≠ .loopBreak) := by
  unfold advance
  rw [hsupply]
  dsimp only
  split
  · rename_i o hd
    rw [toOperator?_eq_some hd] at hf
    cases hf
  · exact raises_stepName _ _
  · exact raises_stepSource index f _
  · exact raises_stepBlock index f _
  · exact (raises_pushOperand _).bind fun _ => raises_popFrame

/-! ### Invocations -/

end Session

namespace Machine

variable {m m' : Machine} {f : Frame} {rest : List Frame} {P : PendingException → Prop}

/-- The operator of `f` is at work above `rest`, and no exception is recorded but those in `P`. -/
structure Toils (f : Frame) (rest : List Frame) (P : PendingException → Prop) (m : Machine) :
    Prop where
  busy : f.Busy rest m.calls.frames
  recorded : m.Recorded P

theorem Toils.of_course (h : m.Toils f rest P) (hc : m'.course = m.course) : m'.Toils f rest P := by
  have records : m'.Recorded P := h.recorded.of_queues (.of_course hc)
  injection hc with _ hc
  injection hc with hcalls _
  exact ⟨hcalls ▸ h.busy, records⟩

/-- The operator is done. -/
theorem Toils.spent (h : m.Toils f rest P) :
    ∃ g, m.calls.frame? rest.length = some g ∧
      (m.withFrame rest.length fun f => { f with state := .pop }).Toils f rest P := by
  obtain ⟨vs, g, hframes, hvalue, hfew, -⟩ := h.busy
  refine ⟨g, CallStack.frame?_above hframes, ⟨vs, _, CallStack.frames_update_above _ hframes,
    hvalue, hfew, fun _ _ => .inr rfl⟩, h.recorded.of_records ?_⟩
  exact congrArg (Prod.mk m.pending)
    (CallStack.map_update Frame.stash (by exact fun _ => rfl) rest.length)

/-- What a cycle leaves of the top frame, and no exception is recorded but those in `P`. -/
structure Left (f : Frame) (rest : List Frame) (P : PendingException → Prop) (m : Machine) :
    Prop where
  follows : f.Follows rest m.calls.frames
  recorded : m.Recorded P

theorem Toils.left (h : m.Toils f rest P) : m.Left f rest P := ⟨.updated h.busy, h.recorded⟩

theorem popFrame_recorded (h : m.Recorded P) :
    (popFrame m).Meets True (fun _ m' => m'.Recorded P) fun m' => m'.Recorded P := by
  have kept : Spares Machine.pending popFrame := spares_onCalls (fun _ _ _ => rfl) _
  refine ((popFrame_frames m).and (kept m)).mono ?_ ?_
  · rintro _ m' ⟨⟨g, hg⟩, hpending⟩
    exact h.of_stashes hpending fun f hf => .inr ⟨f, hg ▸ .tail g hf, rfl⟩
  · rintro m' ⟨hcalls, hpending⟩
    exact h.of_stashes hpending fun f hf => .inr ⟨f, hcalls ▸ hf, rfl⟩

/-- `break` does nothing but raise, above a loop to ask for it to be left. -/
theorem runOn_leaveLoop (i : ℕ) (params : List Value) (m : Machine) :
    (Operation.leaveLoop params).runOn (some i) m =
      .raised (if m.hasLoop i then Cause.breaking else .breakOutsideLoop).exception m := by
  have decided (found : Bool) :
      (if found then Program.fail .breaking else Program.fail .breakOutsideLoop :
        Operation Unit).runOn (some i) m =
        .raised (if found then Cause.breaking else .breakOutsideLoop).exception m := by
    cases found <;> rfl
  exact decided (m.hasLoop i)

/-- **An invocation of a builtin.** -/
theorem Tops.operation {b : Builtin} (h : m.Tops f.value rest) (hr : m.Recorded P)
    (hf : f.value.toOperator? = some (.builtin b)) (params : List Value) :
    ((b.operation params).runOn (some rest.length) m).Yields (fun _ m' => m'.Toils f rest P)
      fun e m' => e.condition = .internal ∨ m'.Toils f rest P ∧
        (e.condition = .loopBreak → f.Breaks rest) := by
  have loops : f.IsLoop ↔ b.isLoop = true := by simp [Frame.IsLoop, hf, Operator.isLoop]
  have unqueued (m' : Machine) (h : m'.Tops f.value rest) : f.Busy rest m'.calls.frames := by
    obtain ⟨g, hframes, hvalue⟩ := h
    exact ⟨[], g, hframes, hvalue, Nat.zero_le 1, absurd rfl⟩
  by_cases hb : b = .leaveLoop
  · subst hb
    obtain ⟨g, hframes, -⟩ := id h
    change ((Operation.leaveLoop params).runOn (some rest.length) m).Yields _ _
    rw [runOn_leaveLoop]
    refine .inr ⟨⟨unqueued m h, hr⟩, fun hbreak => ⟨hf, ?_⟩⟩
    have loops := hasLoop_iff (show m.calls.frames = Frame.queued [] ++ _ from hframes)
    refine loops.1 (Bool.of_not_eq_false fun hnone => ?_)
    rw [hnone] at hbreak
    cases hbreak
  · have spends := (Builtin.operation_spends hb params).runOn_budget (i := rest.length)
    have recorded := (b.operation params).runOn_recorded (some rest.length) hr
    have above := (b.operation params).runOn_above h.above
    have judged := spends.1.yields ((spends.2 m).and (above.and recorded))
    rw [h.length] at judged
    have toils (m' : Machine) (hlength : m'.calls.length ≤ rest.length + 1 + 1)
        (habove : m'.calls.Above f.value rest) (hrecorded : m'.Recorded P)
        (hloop : f.IsLoop → m'.Tops f.value rest ∨ m'.StateIs rest.length .callBeforePop) :
        m'.Toils f rest P := by
      refine ⟨?_, hrecorded⟩
      obtain ⟨vs, g, hframes, hvalue⟩ := habove
      rw [length_of_queued hframes] at hlength
      refine ⟨vs, g, hframes, hvalue, by omega, fun hqueued hloops => .inl ?_⟩
      rcases hloop hloops with tops | ⟨g', hg', hstate⟩
      · have := tops.length
        rw [length_of_queued hframes] at this
        exact absurd (List.eq_nil_of_length_eq_zero (by omega)) hqueued
      · obtain rfl := Option.some.inj ((CallStack.frame?_above hframes).symm.trans hg')
        exact ⟨hstate, b, hvalue ▸ hf, loops.1 hloops⟩
    by_cases hloop : b.isLoop = true
    · refine (judged.and (Operation.loop_arms hloop h)).mono ?_ ?_
      · rintro _ m' ⟨⟨hlength, habove, hrecorded⟩, arms⟩
        exact toils m' hlength habove hrecorded fun _ => arms.imp_right And.right
      · rintro e m' ⟨⟨hraised, hlength, habove, hrecorded⟩, arms⟩
        rcases arms with tops | internal
        · exact .inr ⟨toils m' hlength habove hrecorded fun _ => .inl tops, (absurd · hraised)⟩
        · exact .inl internal
    · refine judged.mono ?_ ?_
      · rintro _ m' ⟨hlength, habove, hrecorded⟩
        exact toils m' hlength habove hrecorded fun h => absurd (loops.1 h) hloop
      · rintro e m' ⟨hraised, hlength, habove, hrecorded⟩
        exact .inr ⟨toils m' hlength habove hrecorded fun h => absurd (loops.1 h) hloop,
          (absurd · hraised)⟩

end Machine

namespace Session

variable {χ : Type} {s t : Session χ} {f : Frame} {rest : List Frame} {P : PendingException → Prop}
  {o : Operator} {signature : List Param} {c : Continuation}
  {invoke : ℕ → List Value → Action (Session χ) Unit}

/-- The work of a cycle has failed: an internal exception was raised, or the machine is in `Q`, and
only `break` asks for a loop to be left. -/
def Fails (f : Frame) (rest : List Frame) (Q : Machine → Prop) (e : Exception) (t : Session χ) :
    Prop :=
  e.condition = .internal ∨ Q t.machine ∧ (e.condition = .loopBreak → f.Breaks rest)

theorem Fails.mono {Q Q' : Machine → Prop} {e : Exception} (h : Fails f rest Q e t)
    (hq : ∀ m, Q m → Q' m) : Fails f rest Q' e t :=
  h.imp_right fun h => ⟨hq _ h.1, h.2⟩

/-- An action on the machine that asks for no loop to be left. -/
theorem yields_onMachine {α : Type} {x : Action Machine α} (A : α → Machine → Prop)
    {Q : Machine → Prop} (hx : x.Raises (· ≠ .loopBreak)) (h : (x s.machine).Meets True A Q) :
    (onMachine x s).Yields (fun a t => A a t.machine) (Fails f rest Q) :=
  Action.yields_zoom ((hx.yields h).mono (fun _ _ => id) fun _ _ h => .inr ⟨h.2, (absurd · h.1)⟩)

/-- Cleaning up raises nothing. -/
theorem cleans_up {x : Action Machine Unit} {A : Session χ → Prop}
    {E : Exception → Session χ → Prop} (hx : x.Raises fun _ => False) (h : (x s.machine).Meets True
      (fun _ m => A { s with machine := m }) fun _ => True) :
    (onMachine x s).Yields (fun _ t => A t) E :=
  (meets_onMachine (P := fun _ => A) (F := fun _ => False) (hx.meets h)).yields.mono
    (fun _ _ => id) fun _ _ => False.elim

theorem releaseAll_yields (params : List Value) {Q : Session χ → Prop}
    (h : ∀ m, m.course = s.machine.course → Q { s with machine := m })
    {E : Exception → Session χ → Prop} :
    (onMachine (Machine.onMemory (Memory.releaseAll params)) s).Yields (fun _ t => Q t) E := by
  have course : Machine.Spares Machine.course (Machine.onMemory (Memory.releaseAll params)) :=
    Machine.spares_onMemory (fun _ _ => rfl) _
  exact cleans_up (Memory.raises_releaseAll params).zoom
    ((course s.machine).mono (fun _ m => h m) fun _ _ => trivial)

theorem raises_setState (i : ℕ) (next : Continuation) :
    (Machine.setState i next).Raises (· ≠ .loopBreak) :=
  (Request.setState next).perform_raises i

/-- The end of an invocation. -/
theorem settle_left (h : s.machine.Toils f rest P) (c : Continuation) :
    (settle rest.length c s).Yields (fun _ t => t.machine.Left f rest P)
      (Fails f rest (Machine.Left f rest P)) := by
  -- the frame goes if it is the top one
  have last (p : Prop) [Decidable p] (m : Machine) (hm : m.Toils f rest P) :
      (((get : Action Machine Machine) >>= fun m => if p ∧ m.calls.length = rest.length + 1 then
        Machine.popFrame else pure ()) m).Meets True (fun _ m' => m'.Left f rest P)
          fun m' => m'.Left f rest P := by
    rw [Action.get_bind]
    split
    · rename_i top
      obtain ⟨vs, g, hframes, -⟩ := id hm.busy
      have := top.2
      rw [Machine.length_of_queued hframes] at this
      obtain rfl : vs = [] := List.eq_nil_of_length_eq_zero (by omega)
      refine ((Machine.popFrame_frames m).and (Machine.popFrame_recorded hm.recorded)).mono ?_ ?_
      · rintro _ m' ⟨⟨g', hg'⟩, hrecorded⟩
        exact ⟨(List.cons.inj (hframes.symm.trans hg')).2 ▸ .removed, hrecorded⟩
      · rintro m' ⟨hcalls, hrecorded⟩
        exact ⟨hcalls ▸ .updated hm.busy, hrecorded⟩
    · exact hm.left
  refine yields_onMachine (fun _ m => m.Left f rest P) ?_ ?_
  · have last (p : Prop) [Decidable p] : ((get : Action Machine Machine) >>= fun m =>
        if p ∧ m.calls.length = rest.length + 1 then Machine.popFrame else pure ()).Raises
          (· ≠ .loopBreak) :=
      Action.raises_get.bind fun m => by
        split
        · exact Machine.ordinary_popFrame.mono fun _ h => h.2
        · exact Action.raises_pure ()
    refine Action.raises_get.bind fun m => (Action.raises_ofSound _).bind fun g => ?_
    dsimp only
    split
    · exact (raises_setState _ _).bind fun _ => last _
    · exact last _
  · rw [Action.get_bind]
    obtain ⟨g, hg, spent⟩ := h.spent
    rw [Machine.frame_bind hg]
    dsimp only
    split
    · rename_i idle
      rw [Action.bind_done (Machine.setState_eq hg (Continuation.Rests.canBecome_pop idle.2))]
      exact last _ _ spent
    · exact last _ s.machine h

/-- **An invocation**, of an operator without frames above its own. -/
theorem invoke_toils (ho : Behaviour.ofOperator Natives.none o = .function signature invoke)
    (hf : f.value.toOperator? = some o) (h : s.machine.Tops f.value rest)
    (hr : s.machine.Recorded P) (params : List Value) :
    (invoke rest.length params s).Yields (fun _ t => t.machine.Toils f rest P)
      (Fails f rest (Machine.Toils f rest P)) := by
  cases o with
  | builtin b =>
    obtain ⟨rfl, rfl⟩ := Behaviour.function_of_builtin ho
    exact Action.yields_zoom (h.operation hr hf params)
  | native name looping =>
    obtain ⟨rfl, rfl⟩ : [] = signature ∧ _ = invoke := by
      injection ho with hsignature hinvoke
      exact ⟨hsignature, hinvoke⟩
    obtain ⟨g, hframes, hvalue⟩ := h
    exact ⟨⟨[], g, hframes, hvalue, Nat.zero_le 1, absurd rfl⟩, hr⟩

/-- The first invocation. -/
theorem dispatch_left (ho : Behaviour.ofOperator Natives.none o = .function signature invoke)
    (hf : f.value.toOperator? = some o) (h : s.machine.Tops f.value rest)
    (hr : s.machine.Recorded P) :
    (dispatch rest.length signature (invoke rest.length) s).Yields
      (fun _ t => t.machine.Left f rest P) (Fails f rest (Machine.Left f rest P)) := by
  have left (m : Machine) (h : m.Tops f.value rest) (hr : m.Recorded P) : m.Left f rest P := by
    obtain ⟨g, hframes, hvalue⟩ := h
    exact ⟨.updated ⟨[], g, hframes, hvalue, Nat.zero_le 1, absurd rfl⟩, hr⟩
  unfold dispatch
  rw [theMachine_bind]
  refine Action.yields_bind (P := fun _ t => s = t) ?_ ?_
  · cases hparams : s.machine.matchOperands signature with
    | ok params => rfl
    | error c =>
      exact .inr ⟨left _ h hr, (absurd · (Machine.common_of_matchOperands hparams).2)⟩
  rintro params _ rfl
  -- until the operator is invoked, its frame is the top one
  have moved : (Machine.setState rest.length .firstCall s.machine).Meets True
      (fun _ m => m.Tops f.value rest ∧ m.Recorded P) fun m => m.Left f rest P := by
    have tops := h.runOn (p := Operation.setState .firstCall) (P := fun _ _ => True)
      (Operation.obeys_setState trivial trivial)
    rw [Operation.runOn_setState] at tops
    exact (tops.and ((Request.setState .firstCall).perform_recorded (some rest.length) hr)).mono
      (fun _ _ => id) fun m hm => left m hm.1 hm.2
  refine Action.yields_bind (yields_onMachine _ (raises_setState _ _) moved) fun _ t ht => ?_
  have course (x : Action Memory Unit) : Machine.Spares Machine.course (Machine.onMemory x) :=
    Machine.spares_onMemory (fun _ _ => rfl) x
  have pinned : (Machine.onMemory (Memory.retainAll params) t.machine).Meets True
      (fun _ m => m.Tops f.value rest ∧ m.Recorded P) fun m => m.Left f rest P := by
    have tops (m : Machine) (hm : m.course = t.machine.course) :
        m.Tops f.value rest ∧ m.Recorded P := by
      refine ⟨?_, ht.2.of_queues (.of_course hm)⟩
      injection hm with _ hm
      injection hm with hcalls _
      rw [Machine.Tops, hcalls]
      exact ht.1
    exact (course _ t.machine).mono (fun _ => tops) fun m hm => left m (tops m hm).1 (tops m hm).2
  refine Action.yields_bind (yields_onMachine _
    ((Memory.ordinary_retainAll params).mono fun _ h => h.2).zoom pinned) fun _ t ht => ?_
  refine Action.yields_bind (P := fun _ t => t.machine.Toils f rest P)
    (Action.yields_ensuring (invoke_toils ho hf ht.1 ht.2 params)
      (fun _ u hu => releaseAll_yields params (Q := fun u => u.machine.Toils f rest P)
        fun m hm => hu.of_course hm)
      fun e u hu => releaseAll_yields params (Q := Fails f rest (Machine.Left f rest P) e)
        fun m hm => hu.imp_right fun hu => ⟨(hu.1.of_course hm).left, hu.2⟩)
    fun _ t ht => settle_left ht .firstCall

/-- Another invocation, after which the operator is done if it fails on its way out. -/
theorem resume_left (ho : Behaviour.ofOperator Natives.none o = .function signature invoke)
    (hf : f.value.toOperator? = some o) (h : s.machine.Tops f.value rest)
    (hr : s.machine.Recorded P) (c : Continuation) :
    (resume rest.length c (invoke rest.length) s).Yields
      (fun _ t => t.machine.Left f rest P) (Fails f rest (Machine.Left f rest P)) := by
  refine Action.yields_bind (P := fun _ t => t.machine.Toils f rest P) ?_
    fun _ t ht => settle_left ht c
  refine Action.yields_onRaise (invoke_toils ho hf h hr []) fun e t ht => ?_
  split
  · refine cleans_up (Machine.raises_updateFrame rest.length _)
      ((Machine.updateFrame_frames rest.length _ t.machine).always ?_)
    rintro _ _ ⟨rfl, -⟩
    refine ht.imp_right fun ht => ⟨?_, ht.2⟩
    obtain ⟨g, -, spent⟩ := ht.1.spent
    exact spent.left
  · exact ht.mono fun _ hm => hm.left

/-! ### Cycles -/

/-- A cycle that turns the top frame, whatever it raises. -/
theorem turns_left {x : Action (Session χ) Unit} (hframes : s.machine.calls.frames = f :: rest)
    (hr : s.machine.Recorded P) (hx : x.Raises (· ≠ .loopBreak)) (hcalm : Calm s x)
    (hturns : Turns f rest s x) :
    (x s).Yields (fun _ t => t.machine.Left f rest P) (Fails f rest (Machine.Left f rest P)) := by
  have left (t : Session χ) (hpending : t.machine.pending = s.machine.pending)
      (hturned : f.Turned rest t.machine.calls.frames) : t.machine.Left f rest P :=
    ⟨hturned.follows, hr.of_stashes hpending (hframes ▸ hturned.stashes)⟩
  have calm : (x s).Meets True _ _ := Outcome.Fair.meets hcalm
  exact (hx.yields (calm.and hturns)).mono (fun _ t ht => left t ht.1 ht.2)
    fun _ t ht => .inr ⟨left t ht.2.1 ht.2.2, (absurd · ht.1)⟩

/-- A cycle of an operator. -/
theorem stepOperator_left (hframes : s.machine.calls.frames = f :: rest)
    (hf : f.value.toOperator? = some o) (hr : s.machine.Recorded P) :
    (stepOperator Natives.none rest.length o s).Yields (fun _ t => t.machine.Left f rest P)
      (Fails f rest (Machine.Left f rest P)) := by
  have tops : s.machine.Tops f.value rest := ⟨f, hframes, rfl⟩
  unfold stepOperator
  cases ho : Behaviour.ofOperator (Natives.none : Natives χ) o with
  | constant v =>
    exact turns_left hframes hr ((raises_pushOperand v).bind fun _ => raises_popFrame)
      (calm_pushOperand_popFrame v s) (pushOperand_popFrame_turns v hframes)
  | function signature invoke =>
    dsimp only
    rw [theMachine_bind, Machine.frame_of_frame? (CallStack.frame?_head hframes), read_bind]
    cases f.state with
    | pop => exact turns_left hframes hr raises_popFrame (calm_popFrame s) (popFrame_turns hframes)
    | unknown => exact dispatch_left ho hf tops hr
    | firstCall | running | callBeforePop | popping => exact resume_left ho hf tops hr _

/-- **What the work of a cycle leaves**, of a machine without supplies. -/
theorem step_left (hframes : s.machine.calls.frames = f :: rest) (hsupply : f.supply = none)
    (hcursor : ∀ text, f.value.datum = .string text true → Text.Boundary text f.cursor)
    (hr : s.machine.Recorded P) :
    (step Natives.none rest.length f s).Yields (fun _ t => t.machine.Left f rest P)
      (Fails f rest (Machine.Left f rest P)) := by
  cases ho : s.machine.invoked? f with
  | some o =>
    rw [step_of_invoked ho]
    exact stepOperator_left hframes (Machine.toOperator?_of_invoked? ho) hr
  | none =>
    by_cases hpending : s.machine.pending.isSome
    · rw [step_of_unwound hpending ho]
      exact turns_left hframes hr raises_popFrame (calm_popFrame s) (popFrame_turns hframes)
    · rw [Machine.invoked?, if_neg hpending, hsupply, if_neg (by simp)] at ho
      rw [step_of_not_pending hpending]
      exact turns_left hframes hr (raises_advance _ ho hsupply)
        (advance_calm rest.length ho hsupply hcursor s) (advance_turns hframes ho)

end Session

end StackScript
