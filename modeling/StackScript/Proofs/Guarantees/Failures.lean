import StackScript.Proofs.Guarantees.Faults
import StackScript.Proofs.Guarantees.Protocol
import StackScript.Proofs.Machine.Steered
import StackScript.Proofs.Operator.Pinning
import StackScript.Proofs.Operator.Sparing

/-!
# A failing builtin leaves its operands alone

If the first invocation of a builtin fails, whatever for, the operands are where they were, and so
are the scopes, the contents of all containers and the frames below
(`failing_builtins_spare_operands`).  Nothing is new but the locals of its own frame.

A loop removes its operands before it queues its block.  If the block cannot be queued the operands
are lost (`failing_loop_loses_operands`).
-/

namespace StackScript

variable {χ : Type}

/-! ### Frames that have not been dispatched -/

/-- The frames of a machine a host reaches are orderly. -/
theorem Reached.orderly {options : Options} {m₀ : Machine} {owned : List Value} {s : Session χ}
    (hm₀ : m₀.Created options) (h : Reached m₀ owned s) : s.machine.calls.Orderly := by
  obtain ⟨-, α, setup, a, μ, -, hm⟩ := hm₀
  obtain ⟨w, followed, rfl⟩ := h.followed
  exact (followed.faithful (Machine.frames_of_create hm)).orderly

/-! ### Loops -/

namespace Session

/-- The top frame is that of a loop `b` that has begun with the operands it asks for: it asks for
its block to be queued, and that is refused with `e`. -/
def RefusedCall (b : Builtin) (rest : List Frame) (s : Session χ) (e : Exception) : Prop :=
  ∃ params t, Session.Entered rest.length b.signature s .unknown params t ∧
    (b.operation params).RefusedCall (some rest.length) t.machine e

variable {Γ : Charter} {x : Stake} {s u : Session χ} {f : Frame} {rest : List Frame} {b : Builtin}
  {natives : Natives χ} {e : Exception}

/-- **A dispatch of a loop** that raises has been refused to queue the block, or the operands are
there. -/
theorem dispatch_risks (hb : b.isLoop = true) (h : s.machine.Sound Γ (rest.length + 1) x)
    (hframes : s.machine.calls.frames = f :: rest) (hstate : f.state = .unknown) :
    (dispatch rest.length b.signature (fun params =>
      onMachine ((b.operation params).runOn (some rest.length))) s).Yields (fun _ _ => True)
      fun e t => t.machine.operands = s.machine.operands ∨ s.RefusedCall b rest e := by
  cases hparams : s.machine.matchOperands b.signature with
  | error c =>
    unfold dispatch
    rw [theMachine_bind, hparams]
    exact .inl rfl
  | ok params =>
    obtain ⟨-, length, enough⟩ := Machine.params_of_matchOperands hparams
    obtain ⟨m, moved, -, operands, state, h₁⟩ := h.exists_begun (CallStack.frame?_head hframes) hstate
    have held (v : Value) (hv : v ∈ params) : v ∈ m.operands.items :=
      operands.symm ▸ Machine.mem_of_matchOperands hparams hv
    obtain ⟨μ, pinned, -, h₂⟩ := h₁.exists_pinned held
    rw [dispatch_eq hparams moved pinned]
    have ready : Machine.Ready rest.length b.signature.length { m with memory := μ } :=
      ⟨h₂.operands, (operands.symm ▸ enough : b.signature.length ≤ m.operands.length), state⟩
    have risks := Builtin.operation_risks hb h₂ (fun v hv => by simp [hv])
      (Machine.accepted_of_matchOperands hparams) ready
    have works : Operation.Works Γ rest.length (.refs params + x) { m with memory := μ }
        (b.operation params) := b.operation_works h₂ fun v hv => by simp [hv]
    refine Action.yields_bind (P := fun _ t => t.machine.Sound Γ (rest.length + 1) x)
      (Action.yields_ensuring
        (B := fun _ t => t.machine.Sound Γ (rest.length + 1) (x + .refs params))
        (M := fun e t => t.machine.operands = s.machine.operands ∨ s.RefusedCall b rest e)
        ?_ (fun _ t ht => ?_) fun e t ht => ?_)
      fun _ t ht => (settle_sure ht).yields.mono (fun _ _ _ => trivial) fun _ _ => False.elim
    · refine Action.yields_zoom ((works.yields.and risks).mono (fun _ m h => ?_) fun e m h => ?_)
      · exact add_comm x _ ▸ h.1.1
      · exact h.2.imp (Eq.trans · operands) fun refused =>
          ⟨params, _, .first hparams moved pinned, refused⟩
    · refine cleans_up (Memory.raises_releaseAll params).zoom ?_
      exact (Machine.releaseAll_meets ht).mono (fun _ _ h => h.1) fun _ => False.elim
    · have same : Machine.Spares Machine.operands (Machine.onMemory (Memory.releaseAll params)) :=
        Machine.spares_onMemory (fun _ _ => rfl) _
      refine cleans_up (Memory.raises_releaseAll params).zoom
        ((same t.machine).mono ?_ fun _ _ => trivial)
      exact fun _ m hm => ht.imp_left (Eq.trans hm)

/-- **A cycle that dispatches a loop** and raises likewise. -/
theorem step_risks (hb : b.isLoop = true) (h : s.machine.Sound Γ 0 x)
    (hframes : s.machine.calls.frames = f :: rest) (hpending : s.machine.pending = none)
    (hf : f.value.toOperator? = some (.builtin b)) (hsupply : f.supply = none)
    (hstate : f.state = .unknown) :
    (step natives rest.length f s).Yields (fun _ _ => True)
      fun e t => t.machine.operands = s.machine.operands ∨ s.RefusedCall b rest e := by
  have h : s.machine.Sound Γ (rest.length + 1) x :=
    { h with depth := (CallStack.length_of_cons hframes).ge }
  have invoked : s.machine.invoked? f = some (.builtin b) := by
    simp [Machine.invoked?, hpending, hsupply, hf]
  have function : b.constant? = none := by
    cases b <;> first | rfl | cases hb
  rw [step_of_invoked invoked, stepOperator_dispatches function hframes hstate]
  exact dispatch_risks hb h hframes hstate

end Session

/-! ### The cycle -/

theorem Machine.Recovers.and {σ : Cells} {m m' : Machine} {f : Frame} {rest : List Frame}
    {loops refused : Prop} {k : ℕ} (h : m.Recovers σ f rest loops k m')
    (h' : m'.operands = m.operands ∨ refused) : m.Recovers σ f rest (loops ∧ refused) k m' :=
  ⟨h.operands.elim .inl fun taken => h'.imp_right fun h' => ⟨⟨taken.1, h'⟩, taken.2⟩,
    h.scopes, h.frames⟩

/-- If what a cycle does raises, the exception is pending after it. -/
theorem Session.cycle_of_raised {natives : Natives χ} {s t : Session χ} {f : Frame}
    {rest : List Frame} {e : Exception} {σ : Cells} {loops : Prop} {k : ℕ}
    (hframes : s.machine.calls.frames = f :: rest)
    (hstep : step natives rest.length f s = .raised e t)
    (h : s.machine.Recovers σ f rest loops k t.machine) :
    (cycle natives s).Meets True (fun more u => more = true ∧ u.machine.pending.isSome ∧
      s.machine.Recovers σ f rest loops k u.machine) fun _ => True := by
  have attempted : (step natives rest.length f).attempt s = .done (.error e) t := by
    rw [Action.attempt, hstep]
  unfold cycle
  rw [theMachine_bind, hframes]
  dsimp only
  rw [Action.bind_done attempted]
  refine meets_onMachine_bind ((h.raise e).mono (fun _ m hm => ?_) fun _ => id)
  obtain ⟨state, locals, frames, -⟩ := hm.1.frames
  refine ⟨?_, hm.2, hm.1⟩
  simp [CallStack.isEmpty, frames]

/-- **A failing builtin leaves its operands alone**: if the cycle raises that gives its frame the
first dispatch, everything recovers.  Only a loop may have removed its operands, and only if they
are what it asks for, its locals have been granted, and it is refused to queue its block. -/
theorem failing_builtins_spare_operands {options : Options} {m₀ : Machine} {owned : List Value}
    {s u : Session χ} {f : Frame} {rest : List Frame} {b : Builtin} {e : Exception}
    (hm₀ : m₀.Created options) (h : Reached m₀ owned s) (hpending : s.machine.pending = none)
    (hframes : s.machine.calls.frames = f :: rest) (hf : f.value.toOperator? = some (.builtin b))
    (hstate : f.state = .unknown)
    (hraised : Session.step Natives.none rest.length f s = .raised e u) :
    ∃ t, Session.cycle Natives.none s = .done true t ∧ t.machine.pending.isSome ∧
      s.machine.Recovers s.machine.memory.heap.cell? f rest
        (b.isLoop = true ∧ s.RefusedCall b rest e) b.signature.length t.machine := by
  obtain ⟨Γ, -, kept⟩ := h.sound hm₀
  have orderly : f.Orderly := h.orderly hm₀ f (hframes ▸ .head rest)
  have hsupply : f.supply = none := by
    cases hs : f.supply with
    | none => rfl
    | some p =>
      have none := orderly.supplied (by rw [hs]; rfl)
      rw [none] at hf
      cases hf
  have stepped : (Session.step Natives.none rest.length f s).Meets True _ _ :=
    Session.step_spares kept.sound hframes hpending hf hsupply hstate (orderly.bare hstate)
  rw [hraised] at stepped
  have removed : u.machine.operands = s.machine.operands ∨ s.RefusedCall b rest e := by
    by_cases hb : b.isLoop = true
    · have risks : (Session.step Natives.none rest.length f s).Yields _ _ :=
        Session.step_risks hb kept.sound hframes hpending hf hsupply hstate
      rw [hraised] at risks
      exact risks
    · exact .inl (stepped.operands.resolve_right fun h => hb h.1)
  have fed : s.machine.Fed (.refs owned) := by
    intro v hv
    simp [Machine.offered?, hpending, hframes, hsupply] at hv
  have sound := Session.cycle_meets (Behaviour.works_none Γ) kept.sound fed
  have cycled := sound.and (Session.cycle_of_raised hframes hraised
    (Machine.Recovers.and stepped removed))
  cases hcycle : Session.cycle Natives.none s with
  | done more t =>
    rw [hcycle] at cycled
    obtain ⟨-, rfl, pending, recovers⟩ := cycled
    exact ⟨t, rfl, pending, recovers⟩
  | raised e t => rw [hcycle] at cycled; exact cycled.1.elim
  | broken b => rw [hcycle] at cycled; exact cycled.elim

/-- The builtin the next cycle dispatches, and the condition it raises doing so. -/
def Session.failing? (s : Session χ) : Option (Builtin × Condition) :=
  match s.machine.pending, s.machine.calls.frames with
  | none, f :: rest =>
    match f.value.toOperator?, f.state, step Natives.none rest.length f s with
    | some (.builtin b), .unknown, .raised e _ => some (b, e.condition)
    | _, _, _ => none
  | _, _ => none

theorem Session.exists_of_failing? {s : Session χ} {b : Builtin} {c : Condition}
    (h : s.failing? = some (b, c)) :
    s.machine.pending = none ∧ ∃ f rest e u, s.machine.calls.frames = f :: rest ∧
      f.value.toOperator? = some (.builtin b) ∧ f.state = .unknown ∧ e.condition = c ∧
      step Natives.none rest.length f s = .raised e u := by
  unfold failing? at h
  split at h
  · rename_i f rest hpending hframes
    split at h
    · rename_i b' e u hf hstate hraised
      obtain ⟨rfl, rfl⟩ := Prod.mk.inj (Option.some.inj h)
      exact ⟨hpending, f, rest, e, u, hframes, hf, hstate, rfl, hraised⟩
    · cases h
  · cases h

/-- A division by zero leaves both operands. -/
theorem failing_division_spares_operands :
    ∃ s t : Session Unit, s.failing? = some (.div, .undefinedResult) ∧
      Session.cycle Natives.none s = .done true t ∧ s.machine.operands.length = 2 ∧
        t.machine.operands = s.machine.operands := by
  have facts : (Session.trial {} "1 0 div" 4).map (fun s =>
      (s.machine.operands.length, s.failing?)) =
      some (2, some (.div, .undefinedResult)) := by decide +kernel
  obtain ⟨s, hs, facts⟩ := Option.map_eq_some_iff.1 facts
  obtain ⟨length, failing⟩ := Prod.mk.inj facts
  obtain ⟨m₀, created, reached⟩ := Reached.of_trial (by rintro t ⟨⟩) hs
  obtain ⟨hpending, f, rest, e, u, hframes, hf, hstate, -, hraised⟩ :=
    Session.exists_of_failing? failing
  obtain ⟨t, ht, -, recovers⟩ :=
    failing_builtins_spare_operands created reached hpending hframes hf hstate hraised
  exact ⟨s, t, failing, ht, length, recovers.operands.resolve_right (by simp [Builtin.isLoop])⟩

/-! ### A loop that loses its operands -/

/-- What a host gets to by its calls is reached, if it takes no exception away. -/
theorem Reached.of_outcome {m₀ : Machine} {Γ : Charter} {s t : Session χ} {calls : List HostCall}
    (hΓ : ∀ p, ¬ Γ.supplies p) (h : Reached m₀ [] s) (sound : s.machine.Sound Γ 0 0)
    (hclear : HostCall.clearException ∉ calls) (ht : HostCall.outcome calls s = some t) :
    Reached m₀ [] t := by
  have works (o : Operator) : (Behaviour.ofOperator (Natives.none : Natives χ) o).Works Γ :=
    Behaviour.works_none Γ o
  induction calls generalizing s with
  | nil => exact Option.some.inj ht ▸ h
  | cons c rest ih =>
    obtain ⟨u, hu, ht⟩ := Option.bind_eq_some_iff.1 ht
    have kept : u.machine.Sound Γ 0 0 := (c.perform_meets hΓ sound).of_state? hu
    refine ih ?_ kept (fun h => hclear (.tail c h)) ht
    cases c with
    | exec text origin =>
      obtain ⟨m, hm, rfl⟩ := Option.map_eq_some_iff.1 ((Session.state?_onMachine _).symm.trans hu)
      exact h.execute (fun v hv => by cases hv) hm
    | cycle => exact h.cycle (sound.fed hΓ) ((Session.state?_bind_pure _).symm.trans hu)
    | run budget =>
      exact h.run (Session.fedFor_of_no_supplies works hΓ budget sound)
        ((Session.state?_bind_pure _).symm.trans hu)
    | complete =>
      exact h.complete (Session.fedFor_of_no_supplies works hΓ _ sound)
        ((Session.state?_bind_pure _).symm.trans hu)
    | clearException => exact absurd List.mem_cons_self hclear

/-- A machine with a table and hardly any memory left. -/
def Session.cramped : Option (Session Unit) :=
  match Machine.create { maxMemory := some 5000 } Setup.table with
  | .done (m, _) _ => some { machine := m, host := () }
  | _ => none

/-- With the call stack full, and no memory left for it to grow, a loop cannot queue its block, and
the block is gone from the operands. -/
theorem failing_loop_loses_operands :
    ∃ (m₀ : Machine) (s t : Session Unit), m₀.Created { maxMemory := some 5000 } ∧
      Reached m₀ [] s ∧ s.failing? = some (.loop, .memoryOverflow) ∧
        (Session.cycle Natives.none s).state? = some t ∧
          s.machine.operands.length = 1 ∧ t.machine.operands.length = 0 := by
  have facts : (Session.cramped.bind fun s₀ =>
      (HostCall.outcome (List.replicate 30 (.exec "" "-") ++
        [.exec "\x7b 5 \x7d loop" "-", .run 9]) s₀).bind fun s =>
          (Session.cycle Natives.none s).state?.map fun t =>
            (s.failing?, s.machine.operands.length, t.machine.operands.length)) =
      some (some (.loop, .memoryOverflow), 1, 0) := by decide +kernel
  obtain ⟨s₀, hs₀, facts⟩ := Option.bind_eq_some_iff.1 facts
  obtain ⟨s, hs, facts⟩ := Option.bind_eq_some_iff.1 facts
  obtain ⟨t, hcycle, facts⟩ := Option.map_eq_some_iff.1 facts
  simp only [Prod.mk.injEq] at facts
  obtain ⟨failing, before, after⟩ := facts
  have countable (t : ℕ) (ht : some 5000 = some t) : t ≤ Size.limit :=
    Option.some.inj ht ▸ (by decide : 5000 ≤ Size.limit)
  have setup := Setup.selfContained_table
  unfold Session.cramped at hs₀
  split at hs₀
  · rename_i m₀ a μ hm
    obtain rfl := Option.some.inj hs₀
    have created : (Machine.create { maxMemory := some 5000 } Setup.table).Meets False _ _ :=
      Machine.create_meets (fun _ => False) (fun _ _ _ h => h.elim) countable setup
    rw [hm] at created
    obtain ⟨Γ, hsupplies, fresh⟩ := created
    have reached : Reached m₀ [] s := .of_outcome (fun p hp => by rw [hsupplies] at hp; exact hp)
      (.start ()) fresh.sound (by decide) hs
    exact ⟨m₀, s, t, ⟨countable, Unit, _, a, μ, setup, hm⟩, reached, failing, hcycle, before, after⟩
  · cases hs₀

end StackScript
