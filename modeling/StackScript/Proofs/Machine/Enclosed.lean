import StackScript.Proofs.Guarantees.Breaks
import StackScript.Proofs.Guarantees.Unwound
import StackScript.Proofs.Machine.Relieving
import StackScript.Proofs.Machine.Serving

/-!
# Work above frames

What a frame has queued is worked off above it: the cycles of a host are on frames above it
(`Session.Spans`), and leave it and the frames below as they are, and their locals.

An exception that ends such work goes through the frames above, one cycle for each, if they let it pass
(`Frame.LetsPass`, `Served.passes`).  In any case it reaches the frame, unless a frame above that is on
its way out takes the exception away or sets it aside, or is that of an operator of the host
(`Served.wears_off`).
-/

namespace StackScript

variable {χ : Type} {natives : Natives χ} {options : Options} {m₀ : Machine} {Γ : Charter} {x : Stake}
  {owned owned' owned'' : List Value} {s t u : Session χ} {f g : Frame} {above base rest : List Frame}
  {p : PendingException} {k l : ℕ}

/-- `k` cycles, each on a frame above `base`, lead the host from `s`, owning `owned`, to `t`. -/
inductive Session.Spans (natives : Natives χ) (base : List Frame) :
    ℕ → List Value → Session χ → List Value → Session χ → Prop
  | refl (owned : List Value) (s : Session χ) : Spans natives base 0 owned s owned s
  | cycle {k : ℕ} {owned owned' owned'' : List Value} {s t u : Session χ} {f : Frame}
      {above : List Frame} (hframes : s.machine.calls.frames = f :: (above ++ base))
      (hs : Session.Conducts natives owned s owned' t)
      (h : Spans natives base k owned' t owned'' u) : Spans natives base (k + 1) owned s owned'' u

namespace Session

/-- The frames below stay as they are. -/
theorem Spans.exists_above (h : Spans natives base k owned s owned' t)
    (hs : ∃ above, s.machine.calls.frames = above ++ base) :
    ∃ above, t.machine.calls.frames = above ++ base := by
  induction h with
  | refl => exact hs
  | @cycle _ _ _ _ _ _ _ f above hframes conducts _ ih =>
    obtain ⟨top, htop⟩ := Session.exists_above hframes conducts.leads
    exact ih ⟨top ++ above, by rw [htop, List.append_assoc]⟩

/-- So do their locals. -/
theorem Spans.steady (h : Spans natives base k owned s owned' t)
    (sound : s.machine.Sound Γ 0 (.refs owned)) :
    t.machine.Sound Γ 0 (.refs owned') ∧ s.machine.Steady base.length t.machine := by
  induction h with
  | refl => exact ⟨sound, .refl _ _⟩
  | @cycle _ _ _ _ _ _ _ f above hframes hs _ ih =>
    obtain ⟨sound', steady⟩ := hs.intact sound hframes
    obtain ⟨sound'', later⟩ := ih sound'
    refine ⟨sound'', (steady.mono ?_).trans later⟩
    rw [List.length_append]
    exact Nat.le_add_left _ _

/-- What `k` cycles lead to, if each is on a frame above the `n` lowest that takes nothing from the
host. -/
def traverse (n : ℕ) : ℕ → Session χ → Option (Session χ)
  | 0, s => some s
  | k + 1, s =>
    if n < s.machine.calls.length ∧ s.machine.calls.frames.head?.all (·.supply.isNone) then
      (cycle Natives.none s).state?.bind (traverse n k)
    else none

theorem Spans.of_traverse (owned : List Value) (base : List Frame)
    (h : s.traverse base.length k = some t)
    (hs : ∃ above, s.machine.calls.frames = above ++ base) :
    Spans Natives.none base k owned s owned t := by
  induction k generalizing s with
  | zero => exact Option.some.inj h ▸ .refl owned s
  | succ k ih =>
    rw [traverse] at h
    split at h
    · rename_i hc
      obtain ⟨above, habove⟩ := hs
      obtain ⟨u, hu, ht⟩ := Option.bind_eq_some_iff.1 h
      cases above with
      | nil =>
        rw [CallStack.length, habove] at hc
        exact absurd hc.1 (lt_irrefl _)
      | cons f above =>
        have hsupply : f.supply = none := by simpa [habove] using hc.2
        obtain ⟨top, htop⟩ := Session.exists_above habove hu
        exact .cycle habove (conducts_none (fed_of_no_supply habove hsupply) hu)
          (ih ht ⟨top ++ above, htop.trans (List.append_assoc top above base).symm⟩)
    · cases h

end Session

theorem Served.spans (h : Served natives m₀ owned s)
    (hs : Session.Spans natives base k owned s owned' t) : Served natives m₀ owned' t := by
  induction hs with
  | refl => exact h
  | cycle _ hs _ ih => exact ih (h.cycle hs)

/-! ### Steps that are done -/

/-- A step that invokes no operator of the host is the next cycle of the host. -/
theorem Session.Alone.conducts_of_done (alone : s.Alone) (hfed : s.machine.Fed (.refs owned))
    (hframes : s.machine.calls.frames = f :: rest)
    (hstep : step Natives.none rest.length f s = .done () t) :
    step natives rest.length f s = .done () t ∧ Conducts natives owned s owned t := by
  have same : step natives rest.length f s = step Natives.none rest.length f s :=
    step_of_no_native fun name looping => alone f rest name looping hframes
  refine ⟨same.trans hstep, alone.conducts hfed ?_⟩
  unfold cycle
  rw [theMachine_bind, hframes]
  dsimp only
  rw [Action.bind_apply, Action.attempt, same, hstep]
  rfl

/-- Builtins are no operators of the host. -/
theorem Session.alone_of_builtin {b : Builtin} (hframes : s.machine.calls.frames = f :: rest)
    (hf : f.value.toOperator? = some (.builtin b)) : s.Alone := by
  intro g rest' name looping hframes' ho
  obtain ⟨rfl, -⟩ := List.cons.inj (hframes.symm.trans hframes')
  rw [Machine.toOperator?_of_invoked? ho] at hf
  cases hf

/-- A step that invokes no operator of the host does what it is granted, if no allocation is refused. -/
theorem Served.leads {P : Session χ → Prop} (hm₀ : m₀.Created options)
    (h : Served natives m₀ owned s) (alone : s.Alone) (hfed : s.machine.Fed (.refs owned))
    (hframes : s.machine.calls.frames = f :: rest)
    (granted : (Session.step Natives.none rest.length f s).Grants fun _ t => P t)
    (hroom : (Session.step natives rest.length f s).overflows = false) :
    ∃ t, Session.Conducts natives owned s owned t ∧ P t := by
  obtain ⟨Γ, -, sound⟩ := h.sound hm₀
  rw [Session.step_of_no_native fun name looping => alone f rest name looping hframes] at hroom
  obtain ⟨⟨⟩, t, done, ht, -⟩ := granted.done
    (Session.step_advances (Behaviour.works_none Γ) sound hfed hframes) hroom
  exact ⟨t, (alone.conducts_of_done hfed hframes done).2, ht⟩

/-- The next cycle takes and gives no references of the host, and shows `c` after it.  The locals of
the frames `rest` are what they were. -/
structure Session.EndsIn (natives : Natives χ) (owned : List Value) (rest : List Frame) (c : Scene)
    (s t : Session χ) : Prop where
  conducts : Session.Conducts natives owned s owned t
  scene : t.machine.scene = c
  steady : s.machine.Steady rest.length t.machine

theorem Served.endsIn {c : Scene} (hm₀ : m₀.Created options) (h : Served natives m₀ owned s)
    (hframes : s.machine.calls.frames = f :: rest)
    (conducts : Session.Conducts natives owned s owned t) (hc : t.machine.scene = c) :
    Session.EndsIn natives owned rest c s t := by
  obtain ⟨Γ, -, sound⟩ := h.sound hm₀
  exact ⟨conducts, hc, (conducts.intact sound hframes).2⟩

/-- A step that is done and invokes no operator of the host. -/
theorem Served.endsIn_of_done {c : Scene} (hm₀ : m₀.Created options) (h : Served natives m₀ owned s)
    (alone : s.Alone) (hfed : s.machine.Fed (.refs owned))
    (hframes : s.machine.calls.frames = f :: rest)
    (done : Session.step Natives.none rest.length f s = .done () t) (hc : t.machine.scene = c) :
    Session.EndsIn natives owned rest c s t :=
  h.endsIn hm₀ hframes (alone.conducts_of_done hfed hframes done).2 hc

/-! ### Frames that let exceptions pass -/

/-- The frame goes while an exception of kind `c` is pending, which is pending after that. -/
inductive Frame.LetsPass (f : Frame) (c : Condition) : Prop
  /-- Its operator does not ask to be invoked on its way out. -/
  | idle (hf : f.state.isPopping = false)
  /-- A loop lets pass what is no break. -/
  | loop (hf : f.Armed) (hc : c ≠ .loopBreak)
  /-- `stopped` lets a break pass, and a fatal exception. -/
  | stopped (hf : f.value.toOperator? = some (.builtin .stopped)) (hstate : f.state = .callBeforePop)
    (hc : (c.isFatal || c == .loopBreak) = true)
  /-- What is pending when a finalizer is over takes the place of what has been set aside. -/
  | finalized (hf : f.value.toOperator? = some (.builtin .ensure))
    (hstate : f.state = Operation.finalizing)

/-- The frame of an operator of the host that is invoked on its way out. -/
def Frame.Foreign (f : Frame) : Prop :=
  f.state.isPopping = true ∧ ∃ name looping, f.value.toOperator? = some (.native name looping)

theorem Frame.LetsPass.not_foreign {c : Condition} (h : f.LetsPass c) : ¬ f.Foreign := by
  rintro ⟨hpopping, name, looping, ho⟩
  cases h with
  | idle hf => rw [hf] at hpopping; cases hpopping
  | loop hf hc =>
    obtain ⟨b, hb, -⟩ := hf.loop
    rw [ho] at hb
    cases hb
  | stopped hf | finalized hf => rw [ho] at hf; cases hf

namespace Session

/-- While an exception is pending, operators are invoked on their way out only. -/
theorem alone_of_pending (hframes : s.machine.calls.frames = f :: rest)
    (hpending : s.machine.pending.isSome) (hf : ¬ f.Foreign) : s.Alone := by
  intro g rest' name looping hframes' ho
  obtain ⟨rfl, rfl⟩ := List.cons.inj (hframes.symm.trans hframes')
  have hvalue := Machine.toOperator?_of_invoked? ho
  rw [Machine.invoked?, if_pos hpending] at ho
  split at ho
  · rename_i hpopping
    exact hf ⟨hpopping, name, looping, hvalue⟩
  · cases ho

/-- The top frame goes. -/
theorem popFrame_done (sound : s.machine.Sound Γ 0 x) (growing : s.machine.Growing)
    (hframes : s.machine.calls.frames = f :: rest) : ∃ t, popFrame s = .done () t ∧
      s.machine.Becomes { s.machine.scene with frames := rest } t.machine := by
  have granted : (popFrame s).Grants fun _ t =>
      s.machine.Becomes { s.machine.scene with frames := rest } t.machine :=
    grants_onMachine ((Machine.popFrame_grants growing hframes).mono fun _ _ => And.left)
  have popped : (popFrame s).Meets False (fun _ _ => True) fun _ => False :=
    meets_onMachine ((Machine.popFrame_leaves sound hframes).mono (fun _ _ _ => trivial) fun _ => id)
  cases hpop : popFrame s with
  | done a t => rw [hpop] at granted; exact ⟨t, rfl, granted⟩
  | raised e t | broken b => rw [hpop] at popped; exact popped.elim

/-- **A builtin that is done when it is invoked again** lets its frame go. -/
theorem step_done {b : Builtin} {m : Machine} (sound : s.machine.Sound Γ 0 x)
    (growing : s.machine.Growing) (hframes : s.machine.calls.frames = f :: rest)
    (invoked : s.machine.invoked? f = some (.builtin b)) (hunknown : f.state ≠ .unknown)
    (hpop : f.state ≠ .pop) (hb : b.constant? = none)
    (hrun : (b.operation []).runOn (some rest.length) s.machine = .done () m)
    (hg : m.calls.frames = g :: rest) (hdone : g.state = f.state ∧ f.state.Rests ∨ g.state = .pop) :
    ∃ t, step Natives.none rest.length f s = .done () t ∧
      Machine.popFrame m = .done () t.machine ∧ m.Sound Γ (rest.length + 1) x ∧ m.Growing ∧
        m.Becomes { m.scene with frames := rest } t.machine := by
  have behaves : (Behaviour.ofOperator Natives.none (.builtin b) : Behaviour χ) =
      .function b.signature fun index params =>
        onMachine ((b.operation params).runOn (some index)) := by
    rw [Behaviour.ofOperator, Behaviour.ofBuiltin, hb]
  have hinvoke : onMachine ((b.operation []).runOn (some rest.length)) s =
      .done () { s with machine := m } := by
    unfold onMachine Action.zoom
    rw [hrun]
  have sound' : (onMachine ((b.operation []).runOn (some rest.length)) s).Meets True
      (fun _ t => t.machine.Sound Γ (rest.length + 1) x) _ := invoked_sound sound hframes behaves
  rw [hinvoke] at sound'
  have growing' := growing.of_respects ((b.operation []).runOn (some rest.length))
  rw [hrun] at growing'
  obtain ⟨t, popped, becomes⟩ :=
    popFrame_done (s := { s with machine := m }) sound'.unframed growing' hg
  rw [step_of_invoked invoked, stepOperator_resumes hb hframes hunknown hpop,
    resume_of_done hinvoke]
  exact ⟨t, settle_of_popFrame (s := { s with machine := m }) hg hdone popped,
    (popFrame_eq_done.1 popped).1, sound', growing', becomes⟩

/-- So does one that is done on its way out, whether an exception is pending or not. -/
theorem step_done_popping {b : Builtin} {m : Machine} (sound : s.machine.Sound Γ 0 x)
    (growing : s.machine.Growing) (hframes : s.machine.calls.frames = f :: rest)
    (hf : f.value.toOperator? = some (.builtin b)) (hsupply : f.supply = none)
    (hpopping : f.state.isPopping = true) (hb : b.constant? = none)
    (hrun : (b.operation []).runOn (some rest.length) s.machine = .done () m)
    (hg : m.calls.frames = g :: rest) (hdone : g.state = f.state ∧ f.state.Rests ∨ g.state = .pop) :
    ∃ t, step Natives.none rest.length f s = .done () t ∧
      Machine.popFrame m = .done () t.machine ∧ m.Sound Γ (rest.length + 1) x ∧ m.Growing ∧
        m.Becomes { m.scene with frames := rest } t.machine := by
  have invoked : s.machine.invoked? f = some (.builtin b) := by
    rw [Machine.invoked?, hpopping, hsupply, hf]
    simp
  exact step_done sound growing hframes invoked (by rintro h; rw [h] at hpopping; cases hpopping)
    (by rintro h; rw [h] at hpopping; cases hpopping) hb hrun hg hdone

/-- **A frame that lets the exception pass goes.** -/
theorem step_lets_pass (sound : s.machine.Sound Γ 0 x) (growing : s.machine.Growing)
    (hframes : s.machine.calls.frames = f :: rest) (hp : s.machine.pending = some p)
    (hsupply : f.supply.isSome → f.value.toOperator? = none)
    (hf : f.LetsPass p.exception.condition) : ∃ t, step Natives.none rest.length f s = .done () t ∧
      s.machine.Becomes { s.machine.scene with frames := rest } t.machine := by
  have hpending : s.machine.pending.isSome := hp ▸ rfl
  have hc : s.machine.condition = some p.exception.condition :=
    Machine.condition_eq_some.2 ⟨p, hp, rfl⟩
  have unsupplied {b : Builtin} (hb : f.value.toOperator? = some (.builtin b)) : f.supply = none :=
    Frame.supply_eq_none hsupply hb
  have state {c : Continuation} (hc : f.state = c) : s.machine.StateIs rest.length c :=
    ⟨f, CallStack.frame?_head hframes, hc⟩
  cases hf with
  | idle hf =>
    have spared : s.machine.invoked? f = none := by
      rw [Machine.invoked?, if_pos hpending, hf]
      rfl
    rw [step_of_unwound hpending spared]
    exact popFrame_done sound growing hframes
  | loop hf hne =>
    obtain ⟨hstate, b, hb, hloop⟩ := hf
    exact (step_done_popping sound growing hframes hb (unsupplied hb) (by rw [hstate]; rfl)
      (by cases b <;> first | rfl | cases hloop) (Operation.loop_passes hloop (state hstate) hc hne)
        hframes (.inl ⟨rfl, .inr hstate⟩)).imp fun _ h => ⟨h.1, h.2.2.2.2⟩
  | stopped hb hstate hpasses =>
    exact (step_done_popping sound growing hframes hb (unsupplied hb) (by rw [hstate]; rfl) rfl
      (Operation.stopped_passes (state hstate) hc hpasses) hframes
        (.inl ⟨rfl, .inr hstate⟩)).imp fun _ h => ⟨h.1, h.2.2.2.2⟩
  | finalized hb hstate =>
    obtain ⟨m, hrun, -, restored⟩ := Operation.ensure_restores sound hframes hstate
    obtain ⟨t, done, -, -, -, becomes⟩ := step_done_popping sound growing hframes hb (unsupplied hb)
      (by rw [hstate]; rfl) rfl hrun restored.frames (.inr rfl)
    refine ⟨t, done, becomes.scene.trans ?_, becomes.growth.trans restored.growth⟩
    rw [restored.scene, hp, Machine.scene, hp]
    rfl

end Session

/-- Within so many cycles as are due to the frames `above`, an exception that is pending gets to the
frames `base` below, or to a frame above these that takes it away or sets it aside, or that is that of
an operator of the host.  A fatal exception stays the same. -/
def Session.WearsOff (natives : Natives χ) (owned : List Value) (above base : List Frame)
    (s : Session χ) : Prop :=
  ∃ k t, k ≤ (above.map Frame.due).sum ∧ Session.Spans natives base k owned s owned t ∧
    t.machine.pending.isSome ∧
      (s.machine.isDoomed = true → t.machine.pending = s.machine.pending) ∧
        (t.machine.calls.frames = base ∨ ∃ f between,
          t.machine.calls.frames = f :: (between ++ base) ∧ (f.Foreign ∨ ∃ u,
            (Session.cycle natives t).state? = some u ∧
              Session.Relieves f (between ++ base) t u))

/-- An exception pending above `base` gets there, so far as the frames `above` allow; with all else as it
was, if each of them lets it pass. -/
def Session.Descends (natives : Natives χ) (owned : List Value) (above base : List Frame)
    (s : Session χ) : Prop :=
  ∀ p, s.machine.pending = some p → s.WearsOff natives owned above base ∧
    ((∀ f ∈ above, f.LetsPass p.exception.condition) →
      ∃ t, Session.Spans natives base above.length owned s owned t ∧
        t.machine.scene = { s.machine.scene with frames := base })

namespace Served

/-- A cycle with an exception pending gives the host nothing and takes nothing from it, unless it
invokes an operator of the host. -/
theorem exists_conducts (hm₀ : m₀.Created options) (h : Served natives m₀ owned s)
    (hframes : s.machine.calls.frames = f :: rest) (hpending : s.machine.pending.isSome)
    (hf : ¬ f.Foreign) : ∃ t, Session.Conducts natives owned s owned t := by
  obtain ⟨Γ, -, sound⟩ := h.sound hm₀
  have alone := Session.alone_of_pending hframes hpending hf
  have fed : s.machine.Fed (.refs owned) := Session.fed_of_pending hpending
  have cycled := Session.cycle_meets (Behaviour.works_none Γ) sound fed
  rw [← show Session.cycle natives s = _ from Session.cycle_of_no_native alone] at cycled
  cases hcycle : Session.cycle natives s with
  | done b t => exact ⟨t, alone.conducts fed (by rw [hcycle]; rfl)⟩
  | raised e t | broken b => rw [hcycle] at cycled; exact cycled.elim

/-- An exception goes through a frame that lets it pass, and nothing is pushed. -/
theorem lets_pass (hm₀ : m₀.Created options) (h : Served natives m₀ owned s)
    (hframes : s.machine.calls.frames = f :: rest) (hp : s.machine.pending = some p)
    (hf : f.LetsPass p.exception.condition) : ∃ t, Session.EndsIn natives owned rest
      { s.machine.scene with frames := rest } s t := by
  obtain ⟨Γ, -, sound⟩ := h.sound hm₀
  have hpending : s.machine.pending.isSome := hp ▸ rfl
  have steered := h.steered hm₀ f (hframes ▸ .head _)
  obtain ⟨t, done, ht⟩ :=
    Session.step_lets_pass sound (h.growing hm₀) hframes hp steered.supplied hf
  exact ⟨t, h.endsIn_of_done hm₀ (Session.alone_of_pending hframes hpending hf.not_foreign)
    (Session.fed_of_pending hpending) hframes done ht.scene⟩

/-- **It goes through any number of them**, one in each cycle. -/
theorem passes (hm₀ : m₀.Created options) (h : Served natives m₀ owned s)
    (hframes : s.machine.calls.frames = above ++ base) (hp : s.machine.pending = some p)
    (habove : ∀ f ∈ above, f.LetsPass p.exception.condition) :
    ∃ t, Session.Spans natives base above.length owned s owned t ∧
      t.machine.scene = { s.machine.scene with frames := base } := by
  induction above generalizing s with
  | nil => exact ⟨s, .refl owned s, by rw [Machine.scene, hframes]; rfl⟩
  | cons f above ih =>
    obtain ⟨t, conducts, ht, -⟩ := h.lets_pass hm₀ hframes hp (habove f (.head above))
    obtain ⟨u, spans, hu⟩ := ih (h.cycle conducts) (congrArg Scene.frames ht)
      ((congrArg Scene.pending ht).trans hp) fun g hg => habove g (.tail f hg)
    refine ⟨u, .cycle hframes conducts spans, hu.trans ?_⟩
    rw [ht]

/-- **A pending exception reaches the frames below**, whatever there is above. -/
theorem wears_off (hm₀ : m₀.Created options) (h : Served natives m₀ owned s)
    (hframes : s.machine.calls.frames = above ++ base) (hpending : s.machine.pending.isSome) :
    s.WearsOff natives owned above base := by
  have due (m : Machine) (l : List Frame) (hl : m.calls.frames = l ++ base) :
      m.due = (l.map Frame.due).sum + (base.map Frame.due).sum := by
    rw [Machine.due, hl, List.map_append, List.sum_append]
  generalize hn : (above.map Frame.due).sum = n
  induction n using Nat.strong_induction_on generalizing s above with
  | h n ih =>
    cases above with
    | nil => exact ⟨0, s, Nat.zero_le _, .refl owned s, hpending, fun _ => rfl, .inl hframes⟩
    | cons f above =>
      by_cases hforeign : f.Foreign
      · exact ⟨0, s, Nat.zero_le _, .refl owned s, hpending, fun _ => rfl,
          .inr ⟨f, above, hframes, .inl hforeign⟩⟩
      obtain ⟨t, conducts⟩ := h.exists_conducts hm₀ hframes hpending hforeign
      obtain ⟨Γ, -, sound⟩ := h.sound hm₀
      have steered : f.Steered := (h.steered hm₀ f (hframes ▸ .head _)).steered
        fun hpopping name looping ho => hforeign ⟨hpopping, name, looping, ho⟩
      have leads := conducts.leads
      rw [Session.cycle_of_no_native
        (Session.alone_of_pending hframes hpending hforeign)] at leads
      rcases Session.cycle_wanes sound hframes steered hpending leads with relieves | presses
      · exact ⟨0, s, Nat.zero_le _, .refl owned s, hpending, fun _ => rfl,
          .inr ⟨f, above, hframes, .inr ⟨t, conducts.leads, relieves⟩⟩⟩
      · obtain ⟨top, htop⟩ := Session.exists_above hframes conducts.leads
        have htop : t.machine.calls.frames = (top ++ above) ++ base :=
          htop.trans (List.append_assoc top above base).symm
        have less : ((top ++ above).map Frame.due).sum < n := by
          have := presses.due
          rw [due s.machine _ hframes, due t.machine _ htop] at this
          omega
        obtain ⟨k, u, hk, spans, hu, fatal, reached⟩ :=
          ih _ less (h.cycle conducts) htop presses.pending rfl
        refine ⟨k + 1, u, by omega, .cycle hframes conducts spans, hu, fun hdoomed => ?_, reached⟩
        have same := presses.fatal hdoomed
        refine (fatal ?_).trans same
        rwa [Machine.isDoomed, Machine.condition, Machine.exception, same]

theorem descends (hm₀ : m₀.Created options) (h : Served natives m₀ owned s)
    (hframes : s.machine.calls.frames = above ++ base) : s.Descends natives owned above base :=
  fun _ hp => ⟨h.wears_off hm₀ hframes (hp ▸ rfl), h.passes hm₀ hframes hp⟩

end Served

end StackScript
