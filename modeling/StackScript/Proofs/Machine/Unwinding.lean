import StackScript.Proofs.Machine.Courses
import StackScript.Proofs.Machine.Invoking

/-!
# Frames on their way out

While an exception is pending, the frames above it go one by one, and an operator on its way out is
invoked.  What it does then decides on the exception: a loop takes a break away, `stopped` lets it
pass, and `finally` sets it aside until its finalizer is done (`Session.cycle_unwinds`).
-/

namespace StackScript

/-! ### Pending exceptions -/

namespace Machine

variable {m : Machine} {above rest : List Frame} {f : Frame} {p : PendingException}

/-- Taking the pending exception away. -/
theorem intercept_takes (hdoomed : m.isDoomed = false) :
    (intercept m).Meets True (fun _ m' => m'.calls = m.calls ∧ m'.pending = none)
      fun _ => False := by
  rw [intercept, Action.get_bind]
  simp only [hdoomed, Bool.false_eq_true, if_false]
  exact Action.meets_bind ((raises_discharge m.pending).meets (discharge_calls m.pending m))
    fun _ m₁ (h₁ : m₁.calls = m.calls) => ⟨h₁, rfl⟩

/-- Bringing back what was set aside, unless an exception is pending. -/
theorem restore_addressed (h : m.calls.frames = above ++ f :: rest) :
    (restore rest.length m).Meets True (fun _ m' =>
      m'.calls.frames = above ++ { f with stash := none } :: rest ∧
        m'.pending = m.pending.or f.stash) fun _ => False := by
  rw [restore, Action.get_bind, frame_bind (CallStack.frame?_above h)]
  cases hstash : f.stash with
  | none =>
    refine ⟨?_, Option.or_none.symm⟩
    rw [h, ← hstash]
  | some p =>
    dsimp only
    rw [Action.bind_done (updateFrame_eq (CallStack.frame?_above h) _)]
    have frames : (m.withFrame rest.length fun f => { f with stash := none }).calls.frames =
        above ++ { f with stash := none } :: rest := CallStack.frames_update_above _ h
    cases hpending : m.pending with
    | none => exact ⟨frames, rfl⟩
    | some q =>
      have spares : Spares (fun m => (m.calls, m.pending)) (discharge (some p)) :=
        spares_discharge (fun _ _ => rfl) (some p)
      refine ((raises_discharge (some p)).meets (spares _)).mono ?_ fun _ => id
      rintro _ m' hm'
      injection hm' with hcalls hkept
      exact ⟨hcalls ▸ frames, hkept.trans hpending⟩

/-- What is recorded of an exception. -/
theorem record_condition (e : Exception) (μ : Memory) :
    (PendingException.record e μ).Meets True (fun p _ => p.exception.condition = e.condition ∨
      p.exception.condition = .memoryOverflow) fun _ => False := by
  refine Action.meets_bind (P := fun _ _ => True) (Action.meets_attempt
    (Outcome.meets_of_forall (fun _ _ => trivial) fun _ _ => trivial)) fun r μ' _ => ?_
  cases r with
  | ok => exact .inl rfl
  | error =>
    by_cases hfatal : e.condition.isFatal
    · exact .inl (if_pos hfatal)
    · exact .inr (if_neg hfatal)

/-- Once an exception has been raised, one is pending: this one, unless there is no room for it. -/
theorem raise_leaves (e : Exception) (hdoomed : m.isDoomed = false) :
    (raise e m).Meets True (fun _ m' => m'.calls = m.calls ∧ ∃ p, m'.pending = some p ∧
      (p.exception.condition = e.condition ∨ p.exception.condition = .memoryOverflow))
      fun _ => False := by
  rw [raise, Action.get_bind]
  simp only [hdoomed, Bool.false_eq_true, if_false]
  refine Action.meets_bind (P := fun _ m' => m' = m) ?_ fun trail m₁ h₁ => ?_
  · cases m.trail <;> trivial
  subst h₁
  refine Action.meets_bind ((raises_discharge m₁.pending).meets (discharge_calls m₁.pending m₁))
    fun _ m₂ (h₂ : m₂.calls = m₁.calls) => ?_
  exact meets_onMemory_bind ((record_condition { e with trail := trail } m₂.memory).mono
    (fun p μ hp => ⟨h₂, p, rfl, hp⟩) fun _ => id)

end Machine

/-! ### Operators on their way out -/

namespace Operation

variable {m : Machine} {i : ℕ} {f : Frame} {rest : List Frame} {p : PendingException} {b : Builtin}

/-- Reading a local changes nothing. -/
theorem expectLocal_reads (name : String) (i : ℕ) (m : Machine) :
    ((expectLocal name).runOn (some i) m).Meets True (fun _ m' => m = m') fun m' => m = m' := by
  have sound {α : Type} (r : Except Breach α) :
      (runOn (some i) (Program.ofSound r) m).Meets True (fun _ m' => m = m') fun m' => m = m' := by
    cases r <;> trivial
  have read : ((local? name).runOn (some i) m).Meets True (fun _ m' => m = m')
      fun m' => m = m' := by
    rw [local?, runOn, Program.run_bind]
    refine Action.meets_bind (sound (m.frame i)) ?_
    rintro g _ rfl
    exact sound (m.localOf g name)
  rw [expectLocal, runOn, Program.run_bind]
  refine Action.meets_bind read ?_
  rintro v _ rfl
  cases v <;> exact rfl

/-- A transition the protocol has changes nothing else. -/
theorem setState_moves (above : List Frame) (next : Continuation)
    (h : m.calls.frames = above ++ f :: rest) (hnext : f.state.canBecome next = true) :
    ∃ m', (setState next).runOn (some rest.length) m = .done () m' ∧
      m'.calls.frames = above ++ { f with state := next } :: rest ∧ m'.pending = m.pending := by
  have hf : m.calls.frame? rest.length = some f := CallStack.frame?_above h
  refine ⟨m.withFrame rest.length fun f => { f with state := next }, ?_,
    CallStack.frames_update_above _ h, rfl⟩
  rw [runOn_setState, Machine.setState_eq hf hnext]

theorem runOn_condition (own : Option ℕ) (m : Machine) :
    condition.runOn own m = .done m.condition m := rfl

/-- The exception that is pending is taken away, unless it is fatal. -/
theorem intercept_takes (hdoomed : m.isDoomed = false) :
    (intercept.runOn (some i) m).Meets True
      (fun _ m' => m'.calls = m.calls ∧ m'.pending = none) fun _ => False := by
  rw [show intercept.runOn (some i) = Machine.intercept from
    Program.run_request (r := Request.intercept) _]
  exact Machine.intercept_takes hdoomed

/-- A break ends a loop. -/
theorem endRound_takes (hp : m.pending = some p) (hbreak : p.exception.condition = .loopBreak) :
    (endRound.runOn (some i) m).Meets True (fun _ m' => m'.calls = m.calls ∧ m'.pending = none)
      fun _ => False := by
  have hcondition : m.condition = some .loopBreak := by
    rw [Machine.condition, Machine.exception, hp, Option.map_some, Option.map_some, hbreak]
  have hdoomed : m.isDoomed = false := by rw [Machine.isDoomed, hcondition]; rfl
  rw [endRound, runOn_bind (runOn_condition (some i) m), hcondition]
  rw [runOn, Program.run_bind]
  exact Action.meets_bind (intercept_takes hdoomed) fun _ _ h => h

/-- A loop takes a break away. -/
theorem loop_takes (hb : b.isLoop = true) (hs : m.StateIs i .callBeforePop)
    (hp : m.pending = some p) (hbreak : p.exception.condition = .loopBreak) :
    ((b.operation []).runOn (some i) m).Meets True
      (fun _ m' => m'.calls = m.calls ∧ m'.pending = none) fun _ => False := by
  cases b with
  | loop | repeatBlock =>
    change (runOn (some i) (state >>= _) m).Meets _ _ _
    rw [runOn_bind (state_runOn hs)]
    exact endRound_takes hp hbreak
  | _ => cases hb

/-- A loop lets any other exception pass. -/
theorem loop_passes {c : Condition} (hb : b.isLoop = true) (hs : m.StateIs i .callBeforePop)
    (hc : m.condition = some c) (hne : c ≠ .loopBreak) :
    (b.operation []).runOn (some i) m = .done () m := by
  have ended : endRound.runOn (some i) m = .done () m := by
    rw [endRound, runOn_bind (runOn_condition (some i) m), hc]
    cases c with
    | loopBreak => exact absurd rfl hne
    | _ => rfl
  cases b with
  | loop | repeatBlock =>
    change runOn (some i) (state >>= _) m = _
    rw [runOn_bind (state_runOn hs)]
    exact ended
  | _ => cases hb

/-- `stopped` lets a break pass, and a fatal exception. -/
theorem stopped_passes {c : Condition} (hs : m.StateIs i .callBeforePop)
    (hc : m.condition = some c) (hpasses : (c.isFatal || c == .loopBreak) = true) :
    (Builtin.stopped.operation []).runOn (some i) m = .done () m := by
  change runOn (some i) (state >>= _) m = _
  rw [runOn_bind (state_runOn hs)]
  change runOn (some i) (condition >>= _) m = _
  rw [runOn_bind (runOn_condition (some i) m), hc]
  dsimp only
  rw [hpasses]
  rfl

/-- `stopped` takes any other exception away, and tells, if there is room for that. -/
theorem stopped_takes {c : Condition} (hs : m.StateIs i .callBeforePop)
    (hc : m.condition = some c) (hpasses : (c.isFatal || c == .loopBreak) = false) :
    ((Builtin.stopped.operation []).runOn (some i) m).Meets True
      (fun _ m' => m'.calls = m.calls ∧ m'.pending = none)
      fun m' => m'.calls = m.calls ∧ m'.pending = none := by
  have hdoomed : m.isDoomed = false := by
    rw [Machine.isDoomed, hc]
    exact (Bool.or_eq_false_iff.1 hpasses).1
  change (runOn (some i) (state >>= _) m).Meets _ _ _
  rw [runOn_bind (state_runOn hs)]
  change (runOn (some i) (condition >>= _) m).Meets _ _ _
  rw [runOn_bind (runOn_condition (some i) m), hc]
  dsimp only
  rw [hpasses]
  change (runOn (some i) (intercept >>= _) m).Meets _ _ _
  rw [runOn, Program.run_bind]
  refine Action.meets_bind ((intercept_takes hdoomed).always fun _ _ => id) fun _ m₁ h₁ => ?_
  have pushed : Machine.Spares (fun m => (m.calls, m.pending))
      (Machine.exchangeOperands 0 [.boolean true]) :=
    Machine.spares_exchangeOperands (fun _ _ _ => rfl) _ _
  have kept (m' : Machine) (h : (m'.calls, m'.pending) = (m₁.calls, m₁.pending)) :
      m'.calls = m.calls ∧ m'.pending = none := by
    injection h with hcalls hpending
    exact ⟨hcalls.trans h₁.1, hpending.trans h₁.2⟩
  rw [show Program.run (Request.perform (some i)) (push (.boolean true)) =
    Machine.exchangeOperands 0 [.boolean true] from
      Program.run_request (r := Request.exchange 0 [.boolean true]) _]
  exact (pushed m₁).mono (fun _ => kept) kept

/-- `finally` sets the pending exception aside, unless it is fatal, and executes its finalizer. -/
theorem ensure_finalizes {q : Option PendingException} {g : Frame}
    (hframes : m.calls.frames = f :: rest) (hs : f.state = .callBeforePop)
    (hg : g.state = .callBeforePop)
    (hstash : (Machine.stash rest.length m).Meets True
      (fun _ m' => m'.calls.frames = g :: rest ∧ m'.pending = q) fun _ => False) :
    ((Builtin.ensure.operation []).runOn (some rest.length) m).Meets True
      (fun _ m' => (∃ w : Value, m'.calls.frames =
        { value := w } :: { g with state := finalizing } :: rest) ∧ m'.pending = q)
      fun m' => m'.calls.frames = g :: rest ∧ m'.pending = q := by
  have state : m.StateIs rest.length .callBeforePop := ⟨f, CallStack.frame?_head hframes, hs⟩
  change (runOn _ (Operation.state >>= _) m).Meets _ _ _
  rw [runOn_bind (state_runOn state), if_neg (by decide), if_pos rfl, runOn, Program.run_bind]
  have stashed : (stash.runOn (some rest.length) m).Meets True
      (fun _ m' => m'.calls.frames = g :: rest ∧ m'.pending = q) fun _ => False := by
    rw [show stash.runOn (some rest.length) = Machine.stash rest.length from
      Program.run_request (r := Request.stash) _]
    exact hstash
  refine Action.meets_bind (stashed.always fun _ _ => id) fun _ m₁ h₁ => ?_
  rw [Program.run_bind]
  refine Action.meets_bind ((expectLocal_reads "finalizer" rest.length m₁).mono (fun _ _ => id)
    fun _ h => h ▸ h₁) ?_
  rintro w _ rfl
  rw [Program.run_bind]
  have called : ((call w).runOn (some rest.length) m₁).Meets True (fun _ m' =>
      m'.calls.frames = [{ value := w }] ++ g :: rest ∧ m'.pending = q)
      fun m' => m'.calls.frames = g :: rest ∧ m'.pending = q := by
    have kept : Machine.Spares Machine.pending (Machine.call w) :=
      Machine.spares_onCalls (fun _ _ _ => rfl) fun c => c.push { value := w }
    rw [runOn_call]
    refine ((Machine.pushFrame_frames { value := w } m₁).and (kept m₁)).mono ?_ ?_
    · rintro _ m₂ ⟨hframes₂, hpending⟩
      exact ⟨by rw [hframes₂, h₁.1]; rfl, hpending.trans h₁.2⟩
    · rintro m₂ ⟨hcalls, hpending⟩
      exact ⟨by rw [hcalls, h₁.1], hpending.trans h₁.2⟩
  refine Action.meets_bind called fun _ m₂ h₂ => ?_
  obtain ⟨m₃, hm₃, hframes₃, hpending₃⟩ := setState_moves _ finalizing h₂.1
    (by rw [hg]; rfl)
  rw [show Program.run _ (setState finalizing) m₂ = .done () m₃ from hm₃]
  exact ⟨⟨w, hframes₃⟩, hpending₃.trans h₂.2⟩

theorem ensure_sets_aside (hframes : m.calls.frames = f :: rest) (hs : f.state = .callBeforePop)
    (hp : m.pending = some p) (hdoomed : m.isDoomed = false) :
    ((Builtin.ensure.operation []).runOn (some rest.length) m).Meets True
      (fun _ m' => (∃ w : Value, m'.calls.frames =
        { value := w } :: { f with stash := some p, state := finalizing } :: rest) ∧
          m'.pending = none)
      fun m' => m'.calls.frames = { f with stash := some p } :: rest ∧ m'.pending = none :=
  ensure_finalizes (g := { f with stash := some p }) hframes hs hs (Machine.stash_addressed
    (show m.calls.frames = [] ++ f :: rest from hframes) hp hdoomed)

/-- When the finalizer is done, the exception is brought back. -/
theorem ensure_brings_back (hframes : m.calls.frames = f :: rest) (hs : f.state = finalizing) :
    ((Builtin.ensure.operation []).runOn (some rest.length) m).Meets True
      (fun _ m' => m'.calls.frames = { f with stash := none, state := .pop } :: rest ∧
        m'.pending = m.pending.or f.stash) fun _ => False := by
  have state : m.StateIs rest.length finalizing := ⟨f, CallStack.frame?_head hframes, hs⟩
  change (runOn _ (Operation.state >>= _) m).Meets _ _ _
  rw [runOn_bind (state_runOn state), if_neg (by decide), if_neg (by decide), if_pos rfl, runOn,
    Program.run_bind]
  have restored : (restore.runOn (some rest.length) m).Meets True (fun _ m' =>
      m'.calls.frames = { f with stash := none } :: rest ∧ m'.pending = m.pending.or f.stash)
      fun _ => False := by
    rw [show restore.runOn (some rest.length) = Machine.restore rest.length from
      Program.run_request (r := Request.restore) _]
    exact Machine.restore_addressed
      (show m.calls.frames = [] ++ f :: rest from hframes)
  refine Action.meets_bind restored fun _ m₁ h₁ => ?_
  obtain ⟨m₂, hm₂, hframes₂, hpending₂⟩ := setState_moves [] .pop h₁.1
    (by rw [hs]; rfl)
  rw [show Program.run _ (setState .pop) m₁ = .done () m₂ from hm₂]
  exact ⟨hframes₂, hpending₂.trans h₁.2⟩

end Operation

namespace Session

variable {χ : Type} {natives : Natives χ} {s t u : Session χ} {k : ℕ} {f g : Frame}
  {rest : List Frame} {c : Continuation}

/-! ### One cycle of a frame on its way out -/

/-- An operator on its way out is invoked when its frame is the top one. -/
theorem step_of_popping (h : Engaged natives s) (hframes : s.machine.calls.frames = f :: rest)
    (hf : f.state.isPopping = true) :
    ∃ o signature invoke, f.value.toOperator? = some o ∧
      Behaviour.ofOperator natives o = .function signature invoke ∧
      step natives rest.length f s = resume rest.length f.state (invoke rest.length) s := by
  have engaged : f.Engaged natives := h f (by simp [hframes])
  obtain ⟨o, signature, invoke, ho, hinvoke⟩ := engaged.operator fun h => by rw [h] at hf; cases hf
  refine ⟨o, signature, invoke, ho, hinvoke, ?_⟩
  have unsupplied : ¬ f.supply.isSome := fun hs => by
    rw [engaged.supplied hs] at ho
    cases ho
  have invoked : s.machine.invoked? f = some o := by
    by_cases hpending : s.machine.pending.isSome
    · rw [Machine.invoked?, if_pos hpending, if_pos hf, ho]
    · rw [Machine.invoked?, if_neg hpending, if_neg unsupplied, ho]
  rw [step_of_invoked invoked, stepOperator, hinvoke]
  dsimp only
  rw [theMachine_bind, Machine.frame_of_frame? (CallStack.frame?_head hframes), read_bind]
  cases hstate : f.state with
  | callBeforePop | popping => rfl
  | unknown | firstCall | running | pop => simp [hstate, Continuation.isPopping] at hf

/-- The frame of an operator that is done goes without another invocation. -/
theorem step_of_spent (h : Engaged natives s) (hframes : s.machine.calls.frames = f :: rest)
    (hf : f.state = .pop) : step natives rest.length f s = popFrame s := by
  have engaged : f.Engaged natives := h f (by simp [hframes])
  obtain ⟨o, signature, invoke, ho, hinvoke⟩ := engaged.operator (by rw [hf]; simp)
  by_cases hpending : s.machine.pending.isSome
  · refine step_of_unwound hpending ?_ _
    rw [Machine.invoked?, if_pos hpending, hf]
    rfl
  · have unsupplied : ¬ f.supply.isSome := fun hs => by
      rw [engaged.supplied hs] at ho
      cases ho
    have invoked : s.machine.invoked? f = some o := by
      rw [Machine.invoked?, if_neg hpending, if_neg unsupplied, ho]
    rw [step_of_invoked invoked, stepOperator, hinvoke]
    dsimp only
    rw [theMachine_bind, Machine.frame_of_frame? (CallStack.frame?_head hframes), read_bind, hf]

/-- Removing the top frame vacates its place, or nothing happens to the call frames. -/
theorem popFrame_vacates (hk : s.machine.calls.length = k + 1) :
    (popFrame s).Meets True (fun _ t => t.machine.calls.length = k)
      fun t => t.machine.calls = s.machine.calls := by
  refine meets_onMachine ((Machine.popFrame_frames s.machine).mono ?_ fun _ => id)
  rintro _ m ⟨f, hf⟩
  have := CallStack.length_of_frames hf
  change m.calls.length = k
  omega

/-- What the end of an invocation leaves of the operator's frame: it is as the operator has left it,
and did not stay in a state it may not stay in, or it is done. -/
theorem settle_leaves (hg : s.machine.calls.frame? k = some g) (c : Continuation) :
    (settle k c s).Meets True
      (fun _ t => ∀ g', t.machine.calls.frame? k = some g' →
        g' = g ∧ (c = .callBeforePop → g.state ≠ c) ∨ g'.state = .pop)
      fun t => ∀ g', t.machine.calls.frame? k = some g' →
        g' = g ∧ (c = .callBeforePop → g.state ≠ c) ∨ g'.state = .pop := by
  -- the frame goes at most if it is done
  have last (p : Prop) [Decidable p] (m : Machine) (g₁ : Frame) (hm : m.calls.frame? k = some g₁)
      (hg₁ : g₁ = g ∧ (c = .callBeforePop → g.state ≠ c) ∨ g₁.state = .pop) :
      (((get : Action Machine Machine) >>= fun m => if p ∧ m.calls.length = k + 1 then
        Machine.popFrame else pure ()) m).Meets True
        (fun _ m' => ∀ g', m'.calls.frame? k = some g' →
          g' = g ∧ (c = .callBeforePop → g.state ≠ c) ∨ g'.state = .pop)
        fun m' => ∀ g', m'.calls.frame? k = some g' →
          g' = g ∧ (c = .callBeforePop → g.state ≠ c) ∨ g'.state = .pop := by
    have stays (c' : CallStack) (hc : c' = m.calls) (g' : Frame) (hg' : c'.frame? k = some g') :
        g' = g ∧ (c = .callBeforePop → g.state ≠ c) ∨ g'.state = .pop := by
      rw [hc, hm] at hg'
      exact Option.some.inj hg' ▸ hg₁
    rw [Action.get_bind]
    split
    · rename_i top
      refine (Machine.popFrame_frames m).mono ?_ fun m' hm' => stays m'.calls hm'
      rintro _ m' ⟨f, hf⟩ g' hg'
      have := CallStack.length_of_frames hf
      have := CallStack.lt_length_of_frame? hg'
      omega
    · exact stays m.calls rfl
  refine meets_onMachine ?_
  rw [Action.get_bind, Machine.frame_bind hg]
  dsimp only
  split
  · rename_i idle
    rw [Action.bind_done (Machine.setState_eq hg (Continuation.Rests.canBecome_pop idle.2))]
    exact last _ _ _ (Machine.frame?_withFrame hg _) (.inr rfl)
  · rename_i idle
    refine last _ s.machine g hg (.inl ⟨rfl, fun hc hstate => idle ⟨hstate, .inr ?_⟩⟩)
    rw [hstate, hc]

/-- An operator that stays in a popping step is left there. -/
theorem settle_of_popping {n : Word} (hg : s.machine.calls.frame? k = some g)
    (hstate : g.state = .popping n) (c : Continuation) : settle k c s = .done () s := by
  unfold settle onMachine Action.zoom
  rw [Action.get_bind, Machine.frame_bind hg]
  simp [hstate, Action.get_bind]

/-- A cycle is its work, after which the exception raised, if any, is pending. -/
theorem state?_cycle (hframes : s.machine.calls.frames = f :: rest)
    (ht : (cycle natives s).state? = some t) :
    step natives rest.length f s = .done () t ∨ ∃ e u, step natives rest.length f s = .raised e u ∧
      (onMachine (Machine.raise e) u).state? = some t := by
  unfold cycle at ht
  rw [theMachine_bind, hframes] at ht
  dsimp only at ht
  rw [Action.bind_apply, Action.attempt] at ht
  cases hstep : step natives rest.length f s with
  | done a u =>
    rw [hstep] at ht
    exact .inl (by rw [← Option.some.inj ht])
  | raised e u =>
    rw [hstep] at ht
    exact .inr ⟨e, u, rfl, state?_bind_of_kept (fun _ _ => rfl) ht⟩
  | broken b => rw [hstep] at ht; cases ht

/-- The work of a cycle decides on the call frames it leaves. -/
theorem exists_step_of_cycle (hframes : s.machine.calls.frames = f :: rest)
    (ht : (cycle natives s).state? = some t) :
    ∃ u, (step natives rest.length f s).state? = some u ∧ t.machine.calls = u.machine.calls := by
  rcases state?_cycle hframes ht with hdone | ⟨e, u, hraised, ht⟩
  · exact ⟨t, by rw [hdone]; rfl, rfl⟩
  · exact ⟨u, by rw [hraised]; rfl, (meets_onMachine (P := fun _ t => t.machine.calls =
      u.machine.calls) (Machine.spares_raise (fun _ _ _ _ => rfl) e u.machine)).of_state? ht⟩

/-! ### Another invocation -/

section

variable {χ : Type} {Γ : Charter} {x : Stake} {v : Value} {m₀ : Machine} {s t u : Session χ}
  {f g : Frame} {rest : List Frame} {c : Continuation} {p : PendingException} {e : Exception}
  {q : Option PendingException} {invoke : List Value → Action (Session χ) Unit}

theorem resume_of_done {k : ℕ} (h : invoke [] s = .done () u) :
    resume k c invoke s = settle k c u := by
  rw [resume, Action.bind_done (t := u) (a := ())]
  rw [Action.onRaise, h]

/-- An operator that fails on its way out is done. -/
theorem resume_of_raised {k : ℕ} (hc : c.isPopping = true) (h : invoke [] s = .raised e u)
    (hg : u.machine.calls.frame? k = some g) : resume k c invoke s = .raised e
      { u with machine := u.machine.withFrame k fun f => { f with state := .pop } } := by
  have gone : abandon k u = .done ()
      { u with machine := u.machine.withFrame k fun f => { f with state := .pop } } := by
    unfold abandon onMachine Action.zoom
    rw [Machine.updateFrame_eq hg]
  refine Action.bind_raised ?_ _
  rw [Action.onRaise, h]
  dsimp only
  rw [if_pos hc]
  exact Action.bind_done gone _

/-- The frame of an operator that is done goes, if it is the top one. -/
theorem settle_pops (h : s.machine.Sound Γ (rest.length + 1) x)
    (hframes : s.machine.calls.frames = g :: rest)
    (hdone : g.state = c ∧ c.Rests ∨ g.state = .pop) :
    (settle rest.length c s).Meets False (fun _ t => t.machine.calls.frames = rest ∧
      t.machine.pending = s.machine.pending) fun _ => False := by
  have last (p : Prop) [Decidable p] (hp : p) (m : Machine) (g : Frame)
      (hm : m.Sound Γ (rest.length + 1) x) (hframes : m.calls.frames = g :: rest) :
      (((get : Action Machine Machine) >>= fun m => if p ∧ m.calls.length = rest.length + 1 then
        Machine.popFrame else pure ()) m).Meets False (fun _ m' => m'.calls.frames = rest ∧
          m'.pending = m.pending) fun _ => False := by
    rw [Action.get_bind, if_pos ⟨hp, by rw [CallStack.length, hframes, List.length_cons]⟩]
    exact (Machine.popFrame_leaves hm hframes).mono (fun _ _ h => h.2) fun _ => id
  have hg := CallStack.frame?_head hframes
  refine meets_onMachine ?_
  rw [Action.get_bind, Machine.frame_bind hg]
  dsimp only
  split
  · rename_i idle
    rw [Action.bind_done (Machine.setState_eq hg (Continuation.Rests.canBecome_pop idle.2))]
    exact last _ (.inl idle) _ _
      (h.withFrame hg rfl (h.supplied g (CallStack.mem_frames_of_frame? hg)))
      (congrArg CallStack.frames (CallStack.update_top _ _ _ hframes _))
  · rename_i busy
    refine last _ (.inr (hdone.resolve_left fun hidle => busy ⟨hidle.1, ?_⟩)) s.machine g h hframes
    rw [hidle.1]
    exact hidle.2

/-- An invocation after which the operator is done. -/
theorem resume_pops (h : (invoke [] s).Meets True (fun _ t => t.machine.Sound Γ (rest.length + 1) x ∧
      (∃ g, t.machine.calls.frames = g :: rest ∧ (g.state = c ∧ c.Rests ∨ g.state = .pop)) ∧
        t.machine.pending = q) fun _ => False) :
    (resume rest.length c invoke s).Meets True
      (fun _ t => t.machine.calls.frames = rest ∧ t.machine.pending = q) fun _ => False := by
  cases hinvoke : invoke [] s with
  | done a u =>
    rw [hinvoke] at h
    obtain ⟨sound, ⟨g, hframes, hdone⟩, hpending⟩ := h
    rw [resume_of_done hinvoke]
    exact ((settle_pops sound hframes hdone).mono (fun _ t ht => ⟨ht.1, ht.2.trans hpending⟩)
      fun _ => id).weaken
  | raised e u => rw [hinvoke] at h; exact h.elim
  | broken b =>
    rw [resume, Action.bind_apply, Action.onRaise, hinvoke]
    trivial

/-- The operator of the top frame is invoked on its way out. -/
theorem stepOperator_of_popping {o : Operator} (signature : List Param) {natives : Natives χ}
    {invoke : ℕ → List Value → Action (Session χ) Unit}
    (ho : Behaviour.ofOperator natives o = .function signature invoke)
    (hframes : s.machine.calls.frames = f :: rest) (hf : f.state.isPopping = true) :
    stepOperator natives rest.length o s = resume rest.length f.state (invoke rest.length) s := by
  rw [stepOperator, ho]
  dsimp only
  rw [theMachine_bind, Machine.frame_of_frame? (CallStack.frame?_head hframes), read_bind]
  cases hstate : f.state with
  | callBeforePop | popping => rfl
  | unknown | firstCall | running | pop => simp [hstate, Continuation.isPopping] at hf

end

/-! ### Cycles with an exception pending -/

end Session

/-- What a cycle makes of a break `p` that is pending, with the top frame `f` above `rest`. -/
inductive Frame.Passes (f : Frame) (rest : List Frame) (p : PendingException) (m : Machine) : Prop
  /-- The frame goes, and the break is still pending. -/
  | removed (hf : ¬ f.Armed) (hframes : m.calls.frames = rest) (hpending : m.pending = some p)
  /-- The break ends a loop. -/
  | caught (hf : f.Armed) (hframes : m.calls.frames = rest) (hpending : m.pending = none)
  /-- The break is set aside, and a finalizer queued. -/
  | aside (w : Value) (hf : f.value.toOperator? = some (.builtin .ensure))
    (hframes : m.calls.frames = { value := w } ::
      { f with stash := some p, state := Operation.finalizing } :: rest)
    (hpending : m.pending = none)
  /-- Nothing happens. -/
  | stays (hf : ¬ f.Armed) (hframes : m.calls.frames = f :: rest) (hpending : m.pending = some p)

/-- The break `p` has been set aside, and the finalizer could not be queued. -/
structure Frame.Stuck (f : Frame) (rest : List Frame) (p : PendingException) (m : Machine) :
    Prop where
  ensure : f.value.toOperator? = some (.builtin .ensure)
  frames : m.calls.frames = { f with stash := some p, state := .pop } :: rest
  pending : m.pending = none

namespace Session

variable {χ : Type} {Γ : Charter} {x : Stake} {s t u : Session χ} {f g : Frame}
  {rest : List Frame} {p : PendingException}

section

variable {o : Operator} {signature : List Param} {q : Option PendingException}
  {invoke : ℕ → List Value → Action (Session χ) Unit}

/-- The invocation of the operator of the top frame keeps the machine sound. -/
theorem invoked_sound (h : s.machine.Sound Γ 0 x) (hframes : s.machine.calls.frames = f :: rest)
    (ho : Behaviour.ofOperator Natives.none o = .function signature invoke) :
    (invoke rest.length [] s).Meets True (fun _ t => t.machine.Sound Γ (rest.length + 1) x)
      fun t => t.machine.Sound Γ (rest.length + 1) x := by
  have framed : s.machine.Sound Γ (rest.length + 1) x :=
    { h with depth := by simp [CallStack.length, hframes] }
  have works : (Behaviour.function signature invoke).Works Γ := ho ▸ Behaviour.works_none Γ o
  exact ((works rest.length x [] s framed (by simp)).mono (fun _ _ h => h.1) fun _ h => h.1).weaken

/-- An operator on its way out is invoked, and its frame goes. -/
theorem stepOperator_pops (h : s.machine.Sound Γ 0 x)
    (hframes : s.machine.calls.frames = f :: rest) (hpopping : f.state.isPopping = true)
    (ho : Behaviour.ofOperator Natives.none o = .function signature invoke)
    (hinvoke : (invoke rest.length [] s).Meets True (fun _ t =>
      (∃ g, t.machine.calls.frames = g :: rest ∧ (g.state = f.state ∧ f.state.Rests ∨
        g.state = .pop)) ∧ t.machine.pending = q) fun _ => False) :
    (stepOperator Natives.none rest.length o s).Yields
      (fun _ t => t.machine.calls.frames = rest ∧ t.machine.pending = q) fun _ _ => False := by
  have sound := invoked_sound h hframes ho
  rw [stepOperator_of_popping _ ho hframes hpopping]
  exact (resume_pops ((sound.and hinvoke).mono (fun _ _ h => h) fun _ h => h.2)).yields

end

/-- **A finalizer is done**: its exception goes on, unless another one does. -/
theorem stepOperator_of_finalizing (h : s.machine.Sound Γ 0 x)
    (hframes : s.machine.calls.frames = f :: rest)
    (hstate : f.state = Operation.finalizing) :
    (stepOperator Natives.none rest.length (.builtin .ensure) s).Yields
      (fun _ t => t.machine.calls.frames = rest ∧
        t.machine.pending = s.machine.pending.or f.stash) fun _ _ => False := by
  refine stepOperator_pops h hframes (by rw [hstate]; rfl) rfl (meets_onMachine ?_)
  exact (Operation.ensure_brings_back hframes hstate).mono
    (fun _ m hm => ⟨⟨_, hm.1, .inr rfl⟩, hm.2⟩) fun _ => id

/-- **A loop** takes the break away, and its frame goes. -/
theorem stepOperator_of_loop {b : Builtin} (h : s.machine.Sound Γ 0 x)
    (hframes : s.machine.calls.frames = f :: rest)
    (hvalue : f.value.toOperator? = some (.builtin b)) (hloop : b.isLoop = true)
    (hb : (Behaviour.ofOperator Natives.none (.builtin b) : Behaviour χ) =
      .function b.signature fun index params =>
        onMachine ((b.operation params).runOn (some index)))
    (hstate : f.state = .callBeforePop) (hp : s.machine.pending = some p)
    (hbreak : p.exception.condition = .loopBreak) :
    (stepOperator Natives.none rest.length (.builtin b) s).Yields
      (fun _ t => f.Passes rest p t.machine) fun _ _ => False := by
  have there : s.machine.StateIs rest.length .callBeforePop :=
    ⟨f, CallStack.frame?_head hframes, hstate⟩
  have taken := Operation.loop_takes hloop there hp hbreak
  refine (stepOperator_pops (q := none) h hframes (by rw [hstate]; rfl) hb (meets_onMachine
    (taken.mono (fun _ m hm => ⟨⟨f, ?_, .inl ⟨rfl, .inr hstate⟩⟩, hm.2⟩) fun _ => id))).mono
      (fun _ t ht => .caught ⟨hstate, b, hvalue, hloop⟩ ht.1 ht.2) fun _ _ => id
  exact hm.1 ▸ hframes

/-- `stopped` lets the break pass, and its frame goes. -/
theorem stepOperator_of_stopped (h : s.machine.Sound Γ 0 x)
    (hframes : s.machine.calls.frames = f :: rest)
    (hvalue : f.value.toOperator? = some (.builtin .stopped)) (hstate : f.state = .callBeforePop)
    (hp : s.machine.pending = some p) (hbreak : p.exception.condition = .loopBreak) :
    (stepOperator Natives.none rest.length (.builtin .stopped) s).Yields
      (fun _ t => f.Passes rest p t.machine) fun _ _ => False := by
  have there : s.machine.StateIs rest.length .callBeforePop :=
    ⟨f, CallStack.frame?_head hframes, hstate⟩
  have hcondition : s.machine.condition = some .loopBreak := by
    rw [Machine.condition, Machine.exception, hp, ← hbreak]
    rfl
  refine (stepOperator_pops (q := some p) h hframes (by rw [hstate]; rfl) rfl
    (meets_onMachine ?_)).mono (fun _ t ht => .removed ?_ ht.1 ht.2) fun _ _ => id
  · rw [Operation.stopped_passes there hcondition rfl]
    exact ⟨⟨f, hframes, .inl ⟨rfl, .inr hstate⟩⟩, hp⟩
  · exact Frame.not_armed_of_toOperator? hvalue (by rintro _ ⟨⟩; rfl)

/-- An operator of the host that is not there lets the break pass.  Its frame goes, unless it says that
it is at work. -/
theorem stepOperator_of_native {name : String} {looping : Bool} (h : s.machine.Sound Γ 0 x)
    (hframes : s.machine.calls.frames = f :: rest)
    (hvalue : f.value.toOperator? = some (.native name looping))
    (hpopping : f.state.isPopping = true) (hp : s.machine.pending = some p) :
    (stepOperator Natives.none rest.length (.native name looping) s).Yields
      (fun _ t => f.Passes rest p t.machine) fun _ _ => False := by
  have unarmed : ¬ f.Armed := Frame.not_armed_of_toOperator? hvalue nofun
  cases hstate : f.state with
  | callBeforePop =>
    have rests : f.state = f.state ∧ f.state.Rests := ⟨rfl, .inr hstate⟩
    exact (stepOperator_pops (o := .native name looping) (q := some p) h hframes hpopping rfl
      ⟨⟨f, hframes, .inl rests⟩, hp⟩).mono
        (fun _ t ht => .removed unarmed ht.1 ht.2) fun _ _ => id
  | popping n =>
    rw [stepOperator_of_popping [] rfl hframes hpopping, resume_of_done (u := s) rfl,
      settle_of_popping (CallStack.frame?_head hframes) hstate]
    exact .stays unarmed hframes hp
  | unknown | firstCall | running | pop => rw [hstate] at hpopping; cases hpopping

/-- A break is set aside, and the finalizer is queued, if there is room for it. -/
theorem stepOperator_of_ensure (hframes : s.machine.calls.frames = f :: rest)
    (hvalue : f.value.toOperator? = some (.builtin .ensure)) (hstate : f.state = .callBeforePop)
    (hp : s.machine.pending = some p) (hdoomed : s.machine.isDoomed = false) :
    (stepOperator Natives.none rest.length (.builtin .ensure) s).Yields
      (fun _ t => f.Passes rest p t.machine)
      fun e t => e.condition ≠ .loopBreak ∧ f.Stuck rest p t.machine := by
  have hpopping : f.state.isPopping = true := by rw [hstate]; rfl
  have invoked : (onMachine ((Builtin.ensure.operation []).runOn (some rest.length)) s).Meets True
      (fun _ t => (∃ w : Value, t.machine.calls.frames = { value := w } ::
        { f with stash := some p, state := Operation.finalizing } :: rest) ∧
          t.machine.pending = none)
      fun t => t.machine.calls.frames = { f with stash := some p } :: rest ∧
        t.machine.pending = none :=
    meets_onMachine (Operation.ensure_sets_aside hframes hstate hp hdoomed)
  have raises : (onMachine ((Builtin.ensure.operation []).runOn (some rest.length)) :
      Action (Session χ) Unit).Raises (· ≠ .loopBreak) :=
    (Builtin.operation_spends (by decide) []).runOn_budget.1.zoom
  rw [stepOperator_of_popping Builtin.ensure.signature rfl hframes hpopping]
  cases hinvoke : onMachine ((Builtin.ensure.operation []).runOn (some rest.length)) s with
  | done a u =>
    rw [hinvoke] at invoked
    obtain ⟨⟨w, hu⟩, hpending⟩ := invoked
    have below := CallStack.frame?_above (List.singleton_append ▸ hu)
    rw [resume_of_done hinvoke, settle_of_popping below rfl]
    exact .aside w hvalue hu hpending
  | raised e u =>
    rw [hinvoke] at invoked
    rw [resume_of_raised hpopping hinvoke (CallStack.frame?_head invoked.1)]
    exact ⟨raises s e u hinvoke, hvalue,
      congrArg CallStack.frames (CallStack.update_top _ _ _ invoked.1 _), invoked.2⟩
  | broken b =>
    rw [resume, Action.bind_apply, Action.onRaise, hinvoke]
    trivial

/-- What a cycle leaves, from what its work leaves: if that has raised an exception, this one is
pending, or one for a lack of room. -/
theorem cycle_yields {P : Session χ → Prop} {E : Exception → Session χ → Prop}
    (hΓ : ∀ p, ¬ Γ.supplies p) (h : s.machine.Sound Γ 0 x)
    (hs : s.machine.Sane s.machine.pending.isSome) (hframes : s.machine.calls.frames = f :: rest)
    (hstep : (step Natives.none rest.length f s).Yields (fun _ t => P t) E)
    (ht : (cycle Natives.none s).state? = some t) :
    P t ∨ ∃ e u q, E e u ∧ e.Ordinary ∧ t.machine.calls = u.machine.calls ∧
      t.machine.pending = some q ∧ (q.exception.condition = e.condition ∨
        q.exception.condition = .memoryOverflow) := by
  have sane := step_sane hΓ h hs hframes
  rcases state?_cycle hframes ht with hdone | ⟨e, u, hraised, ht⟩
  · rw [hdone] at hstep
    exact .inl hstep
  · rw [hraised] at hstep sane
    obtain ⟨hcalls, q, hq, hcondition⟩ := (meets_onMachine (P := fun _ t => t.machine.calls =
      u.machine.calls ∧ ∃ q, t.machine.pending = some q ∧ (q.exception.condition = e.condition ∨
        q.exception.condition = .memoryOverflow))
      ((Machine.raise_leaves e sane.2.2.civil.isDoomed).always
        (F := fun _ => _) fun _ _ => id)).of_state? ht
    exact .inr ⟨e, u, q, hstep, sane.1, hcalls, hq, hcondition⟩

/-- **The work of a cycle while a break is pending.** -/
theorem step_passes (h : s.machine.Sound Γ 0 x) (hs : s.machine.Sane s.machine.pending.isSome)
    (hframes : s.machine.calls.frames = f :: rest) (hp : s.machine.pending = some p)
    (hbreak : p.exception.condition = .loopBreak) :
    (step Natives.none rest.length f s).Yields (fun _ t => f.Passes rest p t.machine)
      fun e t => e.condition ≠ .loopBreak ∧ f.Stuck rest p t.machine := by
  have hpending : s.machine.pending.isSome := by rw [hp]; rfl
  cases ho : s.machine.invoked? f with
  | none =>
    have unarmed : ¬ f.Armed := by
      rintro ⟨hstate, b, hb, -⟩
      rw [Machine.invoked?, if_pos hpending, hstate, hb] at ho
      cases ho
    rw [step_of_unwound hpending ho]
    have popped : (popFrame s).Meets False (fun _ t => f.Passes rest p t.machine) fun _ => False :=
      meets_onMachine ((Machine.popFrame_leaves h hframes).mono
        (fun _ m hm => .removed unarmed hm.2.1 (hm.2.2.trans hp)) fun _ => id)
    exact popped.yields.mono (fun _ _ => id) fun _ _ => False.elim
  | some o =>
    have hvalue := Machine.toOperator?_of_invoked? ho
    have hpopping : f.state.isPopping = true := by
      rw [Machine.invoked?, if_pos hpending] at ho
      split at ho
      · assumption
      · cases ho
    have hready : o.Ready s.machine rest.length f.state := by
      refine (hs.poised _ f (CallStack.frame?_head hframes)).elim (fun h => h o hvalue) ?_
      rintro ⟨-, hfirst, -⟩
      rw [hfirst] at hpopping
      cases hpopping
    have leaving (hrests : f.state.Rests) : f.state = .callBeforePop :=
      hrests.resolve_left fun hfirst => by
        rw [hfirst] at hpopping
        cases hpopping
    rw [step_of_invoked ho]
    cases o with
    | native name looping =>
      exact (stepOperator_of_native h hframes hvalue hpopping hp).mono (fun _ _ => id)
        fun _ _ => False.elim
    | builtin b =>
      have hready : b.Ready s.machine rest.length f.state := hready
      generalize hc : f.state = c at hready
      cases hready with
      | fresh | done | bind => rw [hc] at hpopping; cases hpopping
      | loop hrests | repeatBlock hrests =>
        exact (stepOperator_of_loop h hframes hvalue rfl rfl (leaving (hc ▸ hrests)) hp hbreak).mono
          (fun _ _ => id) fun _ _ => False.elim
      | stopped =>
        exact (stepOperator_of_stopped h hframes hvalue hc hp hbreak).mono (fun _ _ => id)
          fun _ _ => False.elim
      | ensure => exact stepOperator_of_ensure hframes hvalue hc hp hs.civil.isDoomed
      | finalizing =>
        refine (stepOperator_of_finalizing h hframes hc).mono
          (fun _ t ht => .removed ?_ ht.1 (by rw [ht.2, hp]; rfl)) fun _ _ => False.elim
        exact Frame.not_armed_of_toOperator? hvalue (by rintro _ ⟨⟩; rfl)

end Session

end StackScript
