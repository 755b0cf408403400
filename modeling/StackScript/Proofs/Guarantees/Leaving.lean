import StackScript.Proofs.Guarantees.Finalizers
import StackScript.Proofs.Guarantees.Retries
import StackScript.Proofs.Machine.Waiting

/-!
# `break` leaves the innermost loop

While a text is executed, `break` raises an exception that removes the frames above that of the topmost
loop, one after the other.  A `finally` whose finalizer has not been started executes it on the way;
all other frames go without doing anything.  The loop then takes the exception away, and what is below
it goes on (`break_leaves_the_innermost_loop`).
-/

namespace StackScript

variable {χ : Type} {options : Options} {m₀ m₁ : Machine} {owned : List Value} {s t : Session χ}
  {f g : Frame} {above below rest : List Frame} {p : PendingException} {v : Value} {b : Builtin}

/-- The frame of a `finally` whose finalizer has not been started. -/
structure Frame.Awaits (f : Frame) : Prop where
  ensure : f.value.toOperator? = some (.builtin .ensure)
  state : f.state = .callBeforePop

/-! ### The frames above the loop -/

theorem Builtin.Ready.defers {m : Machine} {k : ℕ} {c : Continuation} (h : b.Ready m k c)
    (hc : c.isPopping = true) : b.Defers c := by
  cases h with
  | fresh | done | bind => cases hc
  | loop rests _ =>
    rcases rests with rfl | rfl
    · cases hc
    · exact .loop
  | repeatBlock rests _ _ =>
    rcases rests with rfl | rfl
    · cases hc
    · exact .repeatBlock
  | stopped => exact .stopped
  | ensure _ => exact .ensure
  | finalizing => exact .finalize

theorem Builtin.waits_of_isLoop (hb : b.isLoop = true) : b.Waits :=
  ⟨.callBeforePop, by cases b <;> first | exact .loop | exact .repeatBlock | cases hb⟩

theorem Builtin.Defers.eq_of_isLoop {c : Continuation} (h : b.Defers c) (hb : b.isLoop = true) :
    c = .callBeforePop := by
  cases h <;> first | rfl | cases hb

/-- A break goes through every frame but that of a loop, and that of a `finally` whose finalizer has not
been started. -/
theorem Frame.Steered.lets_break_pass (h : f.Steered) (hloop : ¬ f.IsLoop) (hf : ¬ f.Awaits) :
    f.LetsPass .loopBreak := by
  cases hpopping : f.state.isPopping with
  | false => exact .idle hpopping
  | true =>
    obtain ⟨b, hb, hdefers⟩ := h.defers hpopping
    have unlooped : b.isLoop = false := by
      simpa [Frame.IsLoop, hb, Operator.isLoop] using hloop
    generalize hc : f.state = c at hdefers
    cases hdefers with
    | loop | repeatBlock => cases unlooped
    | stopped => exact .stopped hb hc rfl
    | ensure => exact absurd ⟨hb, hc⟩ hf
    | finalize => exact .finalized hb hc

theorem Served.frames_steered (hm₀ : m₀.Created options) (h : Served Natives.none m₀ owned s) :
    ∀ f ∈ s.machine.calls.frames, f.Steered := by
  obtain ⟨-, α, setup, a, μ, -, created⟩ := hm₀
  obtain ⟨w, hw, rfl⟩ := h.followed
  exact hw.steered (Machine.idle_of_create created).1

namespace Session.Executing

/-- While no exception is pending, the operators that wait for work above their frames have what they
need. -/
theorem waits_ready (hm₀ : m₀.Created options) (h : Executing m₀ owned s)
    (hpending : s.machine.pending = none) {top : Frame} (above : List Frame)
    (hframes : s.machine.calls.frames = top :: (above ++ f :: rest))
    (hf : f.value.toOperator? = some (.builtin b)) (hb : b.Waits) :
    b.Defers f.state ∧ b.Ready s.machine rest.length f.state := by
  obtain ⟨Γ, -, -, sane⟩ := h.sane hm₀
  have hframe : s.machine.calls.frame? rest.length = some f :=
    CallStack.frame?_above (show _ = (top :: above) ++ f :: rest from hframes)
  have ready : b.Ready s.machine rest.length f.state :=
    ((sane.poised _ f hframe).resolve_right fun h => by simp [hpending] at h) _ hf
  have popping := h.waiting hm₀ f (by simp [hframes]) b hf hb
  exact ⟨ready.defers popping, ready⟩

end Session.Executing

/-! ### The loop is left -/

/-- The exception `p`, which is pending above the frames `above`, leaves the loop of the frame `g` below
them, as seen by a host that owns `owned`.

When the loop is the top one it takes the exception away and goes, and the locals of the frames below
are as they were in `m₁`.  A `finally` whose finalizer has not been started executes it, with `p` set
aside; if the finalizer gets to its end, and no exception is pending then, `p` is pending again when the
frame goes.  Any other frame goes, and that is all. -/
def Session.LeavesLoop (m₁ : Machine) (p : PendingException) (g : Frame) (below : List Frame) :
    List Frame → List Value → Session χ → Prop
  | [], owned, s => ∃ t, m₁.Steady below.length t.machine ∧ Session.EndsIn Natives.none owned below
      { s.machine.scene with frames := below, pending := none } s t
  | f :: above, owned, s =>
    let rest := above ++ g :: below
    let f' := { f with stash := some p, state := Operation.finalizing }
    (¬ f.Awaits → ∃ t,
      Session.EndsIn Natives.none owned rest { s.machine.scene with frames := rest } s t ∧
        t.LeavesLoop m₁ p g below above owned) ∧
    (f.Awaits → ∃ finalizer, s.machine.LocalIs rest.length "finalizer" finalizer ∧
      ((Session.step Natives.none rest.length f s).overflows = false → ∃ t,
        Session.EndsIn Natives.none owned rest { s.machine.scene with
          frames := { value := finalizer } :: f' :: rest, pending := none } s t ∧
        ∀ k owned' u, Session.Spans Natives.none (f' :: rest) k owned t owned' u →
          u.machine.calls.frames = f' :: rest → u.machine.pending = none → ∃ w,
            Session.EndsIn Natives.none owned' rest
              { u.machine.scene with frames := rest, pending := some p } u w ∧
            w.LeavesLoop m₁ p g below above owned'))

namespace Served

/-- A loop that is the top one takes a break away and goes. -/
theorem leaves_loop_at_top (hm₀ : m₀.Created options) (h : Served Natives.none m₀ owned s)
    (hframes : s.machine.calls.frames = g :: below) (hp : s.machine.pending = some p)
    (hbreak : p.exception.condition = .loopBreak) (hg : g.Armed) :
    ∃ t, Session.EndsIn Natives.none owned below
      { s.machine.scene with frames := below, pending := none } s t := by
  obtain ⟨hstate, b, hb, hloop⟩ := hg
  obtain ⟨Γ, -, sound⟩ := h.sound hm₀
  have hsupply := Frame.supply_eq_none (h.frames_steered hm₀ g (hframes ▸ .head _)).supplied hb
  have hrun := Operation.loop_breaks sound hloop ⟨g, CallStack.frame?_head hframes, hstate⟩ hp hbreak
  have function : b.constant? = none := by cases b <;> first | rfl | cases hloop
  obtain ⟨t, done, -, -, -, becomes⟩ := Session.step_done_popping sound (h.growing hm₀) hframes hb
    hsupply (by rw [hstate]; rfl) function hrun hframes (.inl ⟨rfl, .inr hstate⟩)
  exact ⟨t, h.endsIn_of_done hm₀ (Session.alone_of_builtin hframes hb)
    (Session.fed_of_no_supply hframes hsupply) hframes done becomes.scene⟩

/-- **A break leaves the loop below**, from frame to frame. -/
theorem leaves_loop (hm₀ : m₀.Created options) (h : Served Natives.none m₀ owned s)
    (hframes : s.machine.calls.frames = above ++ g :: below) (hp : s.machine.pending = some p)
    (hbreak : p.exception.condition = .loopBreak) (hg : g.Armed)
    (hloops : ∀ f ∈ above, ¬ f.IsLoop)
    (hremembers : ∀ top f between, above = top ++ f :: between → f.Awaits →
      s.machine.Remembers (between ++ g :: below).length "finalizer")
    (steady : m₁.Steady below.length s.machine) : s.LeavesLoop m₁ p g below above owned := by
  induction above generalizing s owned with
  | nil =>
    obtain ⟨t, endsIn⟩ := h.leaves_loop_at_top hm₀ hframes hp hbreak hg
    exact ⟨t, steady.trans endsIn.steady, endsIn⟩
  | cons f above ih =>
    have loops (f' : Frame) (hf' : f' ∈ above) : ¬ f'.IsLoop := hloops f' (.tail f hf')
    have steered := h.frames_steered hm₀ f (hframes ▸ .head _)
    -- locals of the frames below stay until it is their turn
    have kept {s' : Session χ} (later : s.machine.Steady (above ++ g :: below).length s'.machine) :
        (∀ top f between, above = top ++ f :: between → f.Awaits →
          s'.machine.Remembers (between ++ g :: below).length "finalizer") ∧
        m₁.Steady below.length s'.machine := by
      refine ⟨fun top f' between habove hf' => ?_, steady.trans (later.mono ?_)⟩
      · refine (hremembers (f :: top) f' between (by rw [habove]; rfl) hf').of_steady later ?_
        rw [habove]
        simp only [List.length_append, List.length_cons]
        omega
      · simp only [List.length_append, List.length_cons]
        omega
    refine ⟨fun hf => ?_, fun hf => ?_⟩
    · obtain ⟨t, endsIn⟩ := h.lets_pass hm₀ hframes hp
        (hbreak ▸ steered.lets_break_pass (hloops f (.head above)) hf)
      obtain ⟨remembers, steady⟩ := kept endsIn.steady
      exact ⟨t, endsIn, ih (h.cycle endsIn.conducts) (congrArg Scene.frames endsIn.scene)
        ((congrArg Scene.pending endsIn.scene).trans hp) loops remembers steady⟩
    · obtain ⟨finalizer, hlocal⟩ := hremembers [] f above rfl hf
      have hsupply := Frame.supply_eq_none steered.supplied hf.ensure
      have hcondition : s.machine.condition = some .loopBreak :=
        Machine.condition_eq_some.2 ⟨p, hp, hbreak⟩
      refine ⟨finalizer, hlocal, fun room => ?_⟩
      have finalizes := h.finalizes hm₀ hframes hf.ensure hsupply (fun hnone => by simp [hnone] at hp)
        hf.state hlocal (by simp [hcondition]) room
      rw [Session.Finalizes, hp] at finalizes
      obtain ⟨t, queued, ends⟩ := finalizes
      refine ⟨t, queued, fun k owned' u spans hu hnone => ?_⟩
      obtain ⟨top, htop, later, -, ends⟩ := ends k owned' u spans
      obtain ⟨w, endsIn, -⟩ := ends (List.append_left_eq_self.1 (htop.symm.trans hu))
      rw [hnone] at endsIn
      obtain ⟨remembers, steady⟩ :=
        kept (queued.steady.trans ((later.mono (Nat.le_succ _)).trans endsIn.steady))
      exact ⟨w, endsIn, ih (((h.cycle queued.conducts).spans spans).cycle endsIn.conducts)
        (congrArg Scene.frames endsIn.scene) (congrArg Scene.pending endsIn.scene) loops remembers
        steady⟩

end Served

/-! ### `break` -/

namespace Session

/-- The work of the cycle that executes `break`: its operator is dispatched, and raises. -/
theorem step_leaveLoop (hframes : s.machine.calls.frames = { value := v } :: rest)
    (hpending : s.machine.pending = none) (hv : v.toOperator? = some (.builtin .leaveLoop)) :
    ∃ c : Cause, (LoopsIn rest → c = .breaking) ∧ (¬ LoopsIn rest → c = .breakOutsideLoop) ∧
      step Natives.none rest.length { value := v } s = .raised c.exception
        { s with machine := s.machine.withFrame rest.length ({ · with state := .firstCall }) } := by
  have invoked : s.machine.invoked? { value := v } = some (.builtin .leaveLoop) := by
    rw [Machine.invoked?, hpending, hv]
    rfl
  let m := s.machine.withFrame rest.length fun f => { f with state := .firstCall }
  have frames : m.calls.frames = { value := v, state := .firstCall } :: rest :=
    CallStack.frames_update_head _ hframes
  have loops := Machine.hasLoop_iff (show m.calls.frames = Frame.queued [] ++ _ from frames)
  have matched : s.machine.matchOperands Builtin.leaveLoop.signature = .ok [] := by
    rw [Machine.matchOperands, if_neg (by simp [Builtin.signature])]
    rfl
  have moved : onMachine (Machine.setState rest.length .firstCall) s =
      .done () { s with machine := m } := by
    unfold onMachine Action.zoom
    rw [Machine.setState_eq (CallStack.frame?_head hframes) rfl]
  refine ⟨if m.hasLoop rest.length then .breaking else .breakOutsideLoop,
    fun h => if_pos (loops.2 h), fun h => if_neg (mt loops.1 h), ?_⟩
  have raised : onMachine ((Builtin.leaveLoop.operation []).runOn (some rest.length))
      { s with machine := m } = .raised
        (if m.hasLoop rest.length then Cause.breaking else .breakOutsideLoop).exception
        { s with machine := m } := by
    unfold onMachine Action.zoom
    rw [show (Builtin.leaveLoop.operation []).runOn (some rest.length) m = _ from
      Machine.runOn_leaveLoop rest.length [] m]
  rw [step_of_invoked invoked, stepOperator_dispatches rfl hframes rfl, dispatch, theMachine_bind,
    matched]
  change (onMachine (Machine.setState rest.length .firstCall) >>= fun _ => _) s = _
  rw [Action.bind_done moved]
  change ((onMachine ((Builtin.leaveLoop.operation []).runOn (some rest.length))).ensuring (pure ())
    >>= fun _ => _) _ = _
  refine Action.bind_raised ?_ _
  unfold Action.ensuring
  rw [raised]
  rfl

end Session

/-- The cycle that executes `break` makes an exception pending. -/
theorem Served.raises_break (hm₀ : m₀.Created options) (h : Served Natives.none m₀ owned s)
    (hpending : s.machine.pending = none) (hframes : s.machine.calls.frames = { value := v } :: rest)
    (hv : v.toOperator? = some (.builtin .leaveLoop)) :
    ∃ t p, (LoopsIn rest → p.Records Cause.breaking.exception) ∧
      (¬ LoopsIn rest → p.Records Cause.breakOutsideLoop.exception) ∧
      Session.EndsIn Natives.none owned rest { s.machine.scene with
        frames := { value := v, state := .firstCall } :: rest
        pending := some p
        blockDepth := 0 } s t := by
  obtain ⟨Γ, -, sound⟩ := h.sound hm₀
  obtain ⟨c, inside, outside, hstep⟩ := Session.step_leaveLoop hframes hpending hv
  let m := s.machine.withFrame rest.length fun f => { f with state := .firstCall }
  have frames : m.calls.frames = { value := v, state := .firstCall } :: rest :=
    CallStack.frames_update_head _ hframes
  have sound' : m.Sound Γ 0 (.refs owned) :=
    sound.withFrame (CallStack.frame?_head hframes) rfl (by simp)
  obtain ⟨p, records, raised⟩ := Machine.raise_records sound' hpending c.exception
  -- the step raises, and the cycle makes that pending
  have attempted : (Session.step Natives.none rest.length { value := v }).attempt s =
      .done (.error c.exception) { s with machine := m } := by
    rw [Action.attempt, hstep]
  obtain ⟨u, recorded, scene⟩ : ∃ u, Session.onMachine (Machine.raise c.exception)
      { s with machine := m } = .done () u ∧ u.machine.scene = { s.machine.scene with
        frames := { value := v, state := .firstCall } :: rest
        pending := some p
        blockDepth := 0 } := by
    unfold Session.onMachine Action.zoom
    rw [raised]
    exact ⟨_, rfl, congrArg (fun frames => (⟨_, frames, _, some p, 0⟩ : Scene)) frames⟩
  have cycled : (Session.cycle Natives.none s).state? = some u := by
    unfold Session.cycle
    rw [Session.theMachine_bind, hframes]
    dsimp only
    rw [Action.bind_done attempted]
    dsimp only
    rw [Action.bind_done recorded]
    rfl
  have alone := Session.alone_of_builtin hframes hv
  exact ⟨u, p, fun h => inside h ▸ records, fun h => outside h ▸ records, h.endsIn hm₀ hframes
    (alone.conducts (Session.fed_of_no_supply hframes rfl) cycled) scene⟩

/-! ### The guarantee -/

/-- **`break` leaves the innermost loop.**  While a text is executed over builtin operators, `break`
makes an exception pending.  If there is a loop below, the topmost is to be invoked when what it has
queued is over, and so is every `finally` above it, either to start its finalizer or because this has
been executed.  Unless the record of the exception is refused, the loop is then left.  If there is no
loop below, the exception is that of a stray break. -/
theorem break_leaves_the_innermost_loop (hm₀ : m₀.Created options)
    (h : Session.Executing m₀ owned s) (hpending : s.machine.pending = none)
    (hframes : s.machine.calls.frames = { value := v } :: rest)
    (hv : v.toOperator? = some (.builtin .leaveLoop)) :
    ∃ t p, Session.EndsIn Natives.none owned rest { s.machine.scene with
        frames := { value := v, state := .firstCall } :: rest
        pending := some p
        blockDepth := 0 } s t ∧
      ((∀ f ∈ rest, ¬ f.IsLoop) → p.Records Cause.breakOutsideLoop.exception) ∧
      ∀ above g below b, rest = above ++ g :: below → g.value.toOperator? = some (.builtin b) →
        b.isLoop = true → (∀ f ∈ above, ¬ f.IsLoop) →
          p.Records Cause.breaking.exception ∧ g.Armed ∧
          (∀ f ∈ above, f.value.toOperator? = some (.builtin .ensure) →
            f.Awaits ∨ f.state = Operation.finalizing) ∧
          (p.exception.condition = .loopBreak → t.LeavesLoop s.machine p g below
            ({ value := v, state := .firstCall } :: above) owned) := by
  have served := h.served hm₀
  obtain ⟨t, p, inside, outside, endsIn⟩ := served.raises_break hm₀ hpending hframes hv
  refine ⟨t, p, endsIn, fun hnone => outside ?_, ?_⟩
  · rintro ⟨g, hg, hloop, -⟩
    exact hnone g hg hloop
  rintro above g below b rfl hg hb hloops
  have ensured (top between : List Frame) (f : Frame) (habove : above = top ++ f :: between)
      (hf : f.value.toOperator? = some (.builtin .ensure)) : Builtin.ensure.Defers f.state ∧
        Builtin.ensure.Ready s.machine (between ++ g :: below).length f.state :=
    h.waits_ready hm₀ hpending top (by rw [hframes, habove, List.append_assoc]; rfl) hf ⟨_, .ensure⟩
  have armed : g.Armed := by
    obtain ⟨defers, -⟩ := h.waits_ready hm₀ hpending above hframes hg (Builtin.waits_of_isLoop hb)
    exact ⟨defers.eq_of_isLoop hb, b, hg, hb⟩
  have loops : LoopsIn (above ++ g :: below) :=
    ⟨g, by simp, by simp [Frame.IsLoop, hg, Operator.isLoop, hb], by simp [armed.state]⟩
  refine ⟨inside loops, armed, fun f hf hensure => ?_, fun hbreak => ?_⟩
  · obtain ⟨top, between, habove⟩ := List.append_of_mem hf
    obtain ⟨defers, -⟩ := ensured top between f habove hensure
    generalize hc : f.state = c at defers
    cases defers with
    | ensure => exact .inl ⟨hensure, hc⟩
    | finalize => exact .inr rfl
  · refine (served.cycle endsIn.conducts).leaves_loop hm₀ (congrArg Scene.frames endsIn.scene)
      (congrArg Scene.pending endsIn.scene) hbreak armed ?_ ?_ (endsIn.steady.mono ?_)
    · refine List.forall_mem_cons.2 ⟨?_, hloops⟩
      simp [Frame.IsLoop, hv, Operator.isLoop, Builtin.isLoop]
    · intro top f between habove hf
      cases top with
      | nil =>
        obtain ⟨rfl, -⟩ := List.cons.inj habove
        cases hf.state
      | cons _ top =>
        obtain ⟨-, habove⟩ : _ ∧ above = top ++ f :: between := List.cons.inj habove
        obtain ⟨-, ready⟩ := ensured top between f habove hf.ensure
        rw [hf.state] at ready
        cases ready with
        | ensure remembers =>
          refine remembers.of_steady endsIn.steady ?_
          rw [habove]
          simp only [List.length_append, List.length_cons]
          omega
    · simp only [List.length_append, List.length_cons]
      omega

/-- A `finally` and a `stopped` between a `break` and its loop. -/
theorem break_runs_a_finalizer_on_its_way :
    ∃ (m₀ : Machine) (s t y z : Session Unit) (v : Value) (f f' g : Frame) (below : List Frame)
      (p : PendingException), m₀.Created {} ∧ Session.Executing m₀ [] s ∧
        s.machine.calls.frames = { value := v } :: f :: f' :: g :: below ∧
        v.toOperator? = some (.builtin .leaveLoop) ∧ f.Awaits ∧
        f'.value.toOperator? = some (.builtin .stopped) ∧ p.exception.condition = .loopBreak ∧
        t.LeavesLoop s.machine p g below [{ value := v, state := .firstCall }, f, f'] [] ∧
        Session.EndsIn Natives.none [] below { y.machine.scene with frames := below, pending := none }
          y z ∧
        y.machine.operands.items.map Value.datum = [.integer (.ofInt 1)] := by
  let text := "\x7b \x7b \x7b break \x7d \x7b 1 \x7d finally \x7d stopped \x7d loop"
  let next (s : Session Unit) := (Session.cycle Natives.none s).state?
  let made (b : Builtin) (i k : ℕ) : Value := ⟨.operator (.builtin b), some ⟨"-", text, i, k⟩⟩
  let broken := (Session.trial {} text 45).bind next
  let reached := broken.bind next
  let ended := (reached.bind next).bind (Session.traverse 4 1)
  let left := (ended.bind next).bind next
  have facts : (Session.trial {} text 45).map (fun s => (s.machine.calls.frames, s.machine.pending)) =
      some ([{ value := made .leaveLoop 6 5 },
        { value := made .ensure 20 7, state := .callBeforePop, locals := some 10 },
        { value := made .stopped 30 7, state := .callBeforePop },
        { value := made .loop 40 4, state := .callBeforePop, locals := some 9 },
        { value := ⟨.string text true, some (.whole "-" text)⟩, cursor := 44 }], none) := by
    decide +kernel
  have condition : broken.map (·.machine.condition) = some (some .loopBreak) := by decide +kernel
  have room : reached.map (fun s =>
      s.machine.calls.frames.head?.map fun f => (Session.step Natives.none 3 f s).overflows) =
        some (some false) := by
    decide +kernel
  have finalized : ended.map (fun u => (u.machine.calls.length, u.machine.pending)) =
      some (4, none) := by
    decide +kernel
  have pushed : left.map (·.machine.operands.items.map Value.datum) =
      some [.integer (.ofInt 1)] := by
    decide +kernel
  obtain ⟨s, hs, facts⟩ := Option.map_eq_some_iff.1 facts
  simp only [Prod.mk.injEq] at facts
  obtain ⟨frames, pending⟩ := facts
  obtain ⟨m₀, created, executing⟩ := Session.Executing.of_trial (by rintro t ⟨⟩) hs
  obtain ⟨t, p, begins, -, leaves⟩ :=
    break_leaves_the_innermost_loop created executing pending frames rfl
  obtain ⟨-, -, -, leaves⟩ := leaves [_, _] _ _ .loop rfl rfl rfl (by
    simp [Frame.IsLoop, made, Value.toOperator?, Operator.isLoop, Builtin.isLoop])
  have hbroken : broken = some t := by
    simp only [broken, hs, Option.bind_some]
    exact begins.conducts.leads
  have hbreak : p.exception.condition = .loopBreak := by
    rw [hbroken] at condition
    obtain ⟨q, hq, hc⟩ := Machine.condition_eq_some.1 (Option.some.inj condition)
    obtain rfl : q = p := Option.some.inj (hq.symm.trans (congrArg Scene.pending begins.scene))
    exact hc
  -- frame by frame
  obtain ⟨t₁, ends₁, then₁⟩ := (leaves hbreak).1 (by rintro ⟨-, ⟨⟩⟩)
  have hreached : reached = some t₁ := by
    simp only [reached, hbroken, Option.bind_some]
    exact ends₁.conducts.leads
  have awaits : Frame.Awaits
      { value := made .ensure 20 7, state := .callBeforePop, locals := some 10 } := ⟨rfl, rfl⟩
  obtain ⟨_, -, finalizes⟩ := then₁.2 awaits
  rw [hreached, Option.map_some, show t₁.machine.calls.frames = _ from
    congrArg Scene.frames ends₁.scene] at room
  obtain ⟨t₂, ends₂, then₂⟩ := finalizes (Option.some.inj (Option.some.inj room))
  obtain ⟨u, hu, finalized⟩ := Option.map_eq_some_iff.1 finalized
  obtain ⟨t₂', ht₂, traversed⟩ := Option.bind_eq_some_iff.1 hu
  obtain rfl : t₂' = t₂ := by
    rw [hreached] at ht₂
    exact Option.some.inj (ht₂.symm.trans ends₂.conducts.leads)
  have spans := Session.Spans.of_traverse [] [_, _, _, _] traversed
    ⟨[_], congrArg Scene.frames ends₂.scene⟩
  obtain ⟨above, habove⟩ := spans.exists_above ⟨[_], congrArg Scene.frames ends₂.scene⟩
  simp only [Prod.mk.injEq, CallStack.length, habove, List.length_append] at finalized
  obtain ⟨depth, calm⟩ := finalized
  obtain rfl : above = [] := List.length_eq_zero_iff.1 (Nat.add_eq_right.1 depth)
  obtain ⟨w, ends₃, then₃⟩ := then₂ 1 [] u spans habove calm
  obtain ⟨y, ends₄, z, -, ends₅⟩ := then₃.1 (by rintro ⟨⟨⟩, -⟩)
  refine ⟨m₀, s, t, y, z, _, _, _, _, _, p, created, executing, frames, rfl, awaits, rfl, hbreak,
    leaves hbreak, ends₅, ?_⟩
  have hleft : left = some y := by
    simp only [left, hu, Option.bind_some, ends₃.conducts.leads, next]
    exact ends₄.conducts.leads
  rw [hleft] at pushed
  exact Option.some.inj pushed

/-! ### A finalizer without an end -/

namespace Session

theorem traverse_add {n k l : ℕ} : s.traverse n (k + l) = (s.traverse n k).bind (traverse n l) := by
  induction k generalizing s with
  | zero => simp [traverse]
  | succ k ih =>
    rw [Nat.add_right_comm, traverse, traverse]
    split
    · rw [Option.bind_assoc]
      exact congrArg _ (funext fun _ => ih)
    · rfl

/-- A host that comes back to a session gets to no other sessions any more. -/
theorem traverse_returns {n k period : ℕ} (ht : s.traverse n k = some t)
    (h : t.traverse n period = some t) (hperiod : 0 < period) (l : ℕ) :
    ∃ i < k + period, s.traverse n l = s.traverse n i := by
  induction l using Nat.strong_induction_on with
  | _ l ih =>
    by_cases hl : l < k + period
    · exact ⟨l, hl, rfl⟩
    · obtain ⟨j, rfl⟩ := Nat.exists_eq_add_of_le (Nat.le_of_not_lt hl)
      have again : s.traverse n (k + period + j) = s.traverse n (k + j) := by
        simp only [traverse_add, ht, h, Option.bind_some]
      rw [again]
      exact ih (k + j) (by omega)

end Session

/-- A finalizer that does not end keeps the frame of the loop, though it raises nothing: no exception
but the break is ever pending, and every cycle is on a frame above that of the loop. -/
theorem endless_finalizer_keeps_the_loop :
    ∃ (m₀ : Machine) (s : Session Unit) (v : Value) (f g : Frame) (below : List Frame),
      m₀.Created {} ∧ Session.Executing m₀ [] s ∧ s.machine.pending = none ∧
        s.machine.calls.frames = { value := v } :: f :: g :: below ∧
        v.toOperator? = some (.builtin .leaveLoop) ∧ f.Awaits ∧
        g.value.toOperator? = some (.builtin .loop) ∧
        ∀ k, ∃ t, s.traverse (g :: below).length k = some t ∧
          (t.machine.condition = none ∨ t.machine.condition = some .loopBreak) := by
  let text := "\x7b \x7b break \x7d \x7b \x7b \x7d loop \x7d finally \x7d loop"
  let made (b : Builtin) (i k : ℕ) : Value := ⟨.operator (.builtin b), some ⟨"-", text, i, k⟩⟩
  have facts : (Session.trial {} text 40).map (fun s => (s.machine.calls.frames, s.machine.pending)) =
      some ([{ value := made .leaveLoop 4 5 },
        { value := made .ensure 25 7, state := .callBeforePop, locals := some 10 },
        { value := made .loop 35 4, state := .callBeforePop, locals := some 9 },
        { value := ⟨.string text true, some (.whole "-" text)⟩, cursor := 39 }], none) := by
    decide +kernel
  have conditions : (Session.trial {} text 40).all (fun s => (List.range 13).all fun i =>
      (s.traverse 2 i).any fun t =>
        t.machine.condition = none ∨ t.machine.condition = some .loopBreak) = true := by
    decide +kernel
  have returns : ((Session.trial {} text 40).bind (Session.traverse 2 10)).bind (fun t =>
      (t.traverse 2 3).map fun u => decide (u.machine = t.machine)) = some true := by
    decide +kernel
  obtain ⟨s, hs, facts⟩ := Option.map_eq_some_iff.1 facts
  simp only [Prod.mk.injEq] at facts
  obtain ⟨frames, pending⟩ := facts
  obtain ⟨m₀, created, executing⟩ := Session.Executing.of_trial (by rintro t ⟨⟩) hs
  rw [hs] at conditions returns
  obtain ⟨t, ht, returns⟩ := Option.bind_eq_some_iff.1 returns
  obtain ⟨u, hu, same⟩ := Option.map_eq_some_iff.1 returns
  obtain rfl : u = t := congrArg (Session.mk · ()) (of_decide_eq_true same)
  refine ⟨m₀, s, _, _, _, _, created, executing, pending, frames, rfl, ⟨rfl, rfl⟩, rfl, fun k => ?_⟩
  obtain ⟨i, hi, hk⟩ := Session.traverse_returns ht hu (by decide) k
  obtain ⟨w, hw, hc⟩ := (Option.any_eq_true _ _).1
    (List.all_eq_true.1 conditions i (List.mem_range.2 hi))
  exact ⟨w, hk.trans hw, of_decide_eq_true hc⟩

end StackScript
