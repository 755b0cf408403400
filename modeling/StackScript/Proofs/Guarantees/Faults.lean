import StackScript.Proofs.Guarantees.Safety
import StackScript.Proofs.Machine.Faultless

/-!
# Hosted code raises no internal exception

An internal exception means that the machine itself is at fault: an operator asks for a transition
the protocol does not have, finds an operand of another kind than it has asked for, misses a local,
or is invoked in a state it has no step for; a text is cut within a character; the scopes are gone.
It is fatal, and nothing takes it away.

Whatever texts a host queues, be it on top of work that is unfinished, and however it drives the
machine, no internal exception is raised if the host takes exceptions away only when no work is left
(`hosted_code_raises_no_internal`).
-/

namespace StackScript

variable {χ : Type}

/-! ### What a host reaches -/

/-- What a host reaches that runs hosted code and goes on when a call fails.  It takes an exception
away only where it is allowed to. -/
inductive Hosted (allowed : Machine → Prop) (m₀ : Machine) : Session χ → Prop
  | start (host : χ) : Hosted allowed m₀ { machine := m₀, host := host }
  | call {s t : Session χ} (c : HostCall) (h : Hosted allowed m₀ s)
      (hclear : c = .clearException → allowed s.machine) (ht : (c.perform s).state? = some t) :
    Hosted allowed m₀ t

/-- What a host reaches by some calls, one after the other. -/
def HostCall.outcome (calls : List HostCall) (s : Session χ) : Option (Session χ) :=
  calls.foldlM (fun s c => (c.perform s).state?) s

theorem Hosted.outcome {allowed : Machine → Prop} {m₀ : Machine} {s t : Session χ}
    {calls : List HostCall} (h : Hosted allowed m₀ s) (hclear : HostCall.clearException ∉ calls)
    (ht : HostCall.outcome calls s = some t) : Hosted allowed m₀ t := by
  induction calls generalizing s with
  | nil => exact Option.some.inj ht ▸ h
  | cons c rest ih =>
    obtain ⟨u, hu, ht⟩ := Option.bind_eq_some_iff.1 ht
    have hc : c ≠ .clearException := fun hc => hclear (hc ▸ List.mem_cons_self)
    exact ih (.call c h (fun hc' => absurd hc' hc) hu) (fun h => hclear (.tail c h)) ht

/-- No work is left. -/
def Machine.Unwound (m : Machine) : Prop := m.calls.frames = []

/-- The machine has not been at fault, and is not about to be. -/
structure Session.Faultless (s : Session χ) : Prop where
  /-- No internal exception is pending, -/
  pending : s.machine.condition ≠ some .internal
  /-- nor set aside, -/
  stashed : ∀ f ∈ s.machine.calls.frames, ∀ p, f.stash = some p →
    p.exception.condition ≠ .internal
  /-- nor will be raised by the next cycle, -/
  step : ∀ f rest, s.machine.calls.frames = f :: rest → ∀ e t,
    step Natives.none rest.length f s = .raised e t → e.condition ≠ .internal
  /-- nor by any call of the host. -/
  call : ∀ (c : HostCall) e t, c.perform s = .raised e t → e.condition ≠ .internal
  /-- An operator that has begun has in its frame what it needs, or it has failed in its first
  call. -/
  ready : ∀ k f b, s.machine.calls.frame? k = some f → f.value.toOperator? = some (.builtin b) →
    f.state ≠ .firstCall → b.Ready s.machine k f.state
  /-- Texts are cut between characters. -/
  cursors : ∀ f ∈ s.machine.calls.frames, ∀ text, f.value.datum = .string text true →
    Text.Boundary text f.cursor
  /-- The permanent scopes are there. -/
  scopes : Machine.permanentScopes ≤ s.machine.scopes.length

section

variable {Γ : Charter} {s : Session χ} {m₀ : Machine} {allowed : Machine → Prop}

/-- A call of the host raises ordinary exceptions only; it leaves a sane machine, as long as no
exception is taken away while a frame is not poised. -/
theorem HostCall.perform_sane (hΓ : ∀ p, ¬ Γ.supplies p) (h : s.machine.Sound Γ 0 0)
    (hs : s.machine.Sane s.machine.pending.isSome) (c : HostCall) :
    (c.perform s).Fair
      (fun _ t => (c = .clearException → s.machine.Sane False) →
        t.machine.Sound Γ 0 0 ∧ t.machine.Sane t.machine.pending.isSome)
      fun t => (c = .clearException → s.machine.Sane False) →
        t.machine.Sound Γ 0 0 ∧ t.machine.Sane t.machine.pending.isSome := by
  cases c with
  | exec text origin =>
    exact Session.fair_onMachine ((Machine.call_sane h hs (Machine.knows_of_handle?_none rfl)).mono
      (fun _ _ h _ => h) fun _ h _ => h)
  | cycle =>
    exact Action.fair_bind ((Session.cycle_sane hΓ h hs).mono (fun _ _ => id) fun _ => False.elim)
      fun _ _ ht _ => ht
  | run budget =>
    exact Action.fair_bind ((Session.run_sane hΓ budget h hs).mono (fun _ _ => id) fun _ ht _ => ht)
      fun _ _ ht _ => ht
  | complete =>
    exact Action.fair_bind ((Session.runToCompletion_sane hΓ h hs).mono (fun _ _ => id)
      fun _ ht _ => ht) fun _ _ ht _ => ht
  | clearException =>
    have taken : (Machine.intercept s.machine).Meets False
        (fun _ m => s.machine.Sane False → m.Sound Γ 0 0 ∧ m.Sane m.pending.isSome)
        fun _ => False := by
      by_cases hpoised : s.machine.Sane False
      · exact (Machine.intercept_sane h hpoised).mono (fun _ _ hm _ => hm) fun _ => id
      · exact (Machine.intercept_meets h).mono (fun _ _ _ hallowed => absurd hallowed hpoised)
          fun _ => id
    exact Session.fair_onMachine (Action.fair_bind taken.fair fun _ _ hm hallowed =>
      hm (hallowed rfl))

/-- **What a host reaches is sane.** -/
theorem Hosted.sane (hΓ : ∀ p, ¬ Γ.supplies p) (h₀ : m₀.Sound Γ 0 0) (hs₀ : m₀.Sane m₀.pending.isSome)
    (hallowed : ∀ m raising, allowed m → Machine.Sane raising m → m.Sane False)
    (h : Hosted allowed m₀ s) :
    s.machine.Sound Γ 0 0 ∧ s.machine.Sane s.machine.pending.isSome := by
  induction h with
  | start host => exact ⟨h₀, hs₀⟩
  | @call s t c _ hclear ht ih =>
    have performed := c.perform_sane hΓ ih.1 ih.2
    have poised (hc : c = .clearException) : s.machine.Sane False :=
      hallowed _ _ (hclear hc) ih.2
    cases hperform : c.perform s with
    | done u t' =>
      rw [hperform] at performed ht
      obtain rfl := Option.some.inj ht
      exact performed poised
    | raised e t' =>
      rw [hperform] at performed ht
      obtain rfl := Option.some.inj ht
      exact performed.2 poised
    | broken b => rw [hperform] at ht; cases ht

/-- A sane machine is not at fault. -/
theorem Session.faultless_of_sane (hΓ : ∀ p, ¬ Γ.supplies p) (h : s.machine.Sound Γ 0 0)
    (hs : s.machine.Sane s.machine.pending.isSome) : s.Faultless where
  pending := by
    unfold Machine.condition Machine.exception
    cases hp : s.machine.pending with
    | none => exact nofun
    | some p => exact fun hc => hs.civil.pending p hp (Option.some.inj hc)
  stashed := hs.civil.stashed
  step f rest hframes e t ht := by
    have stepped := step_sane hΓ h hs hframes
    rw [ht] at stepped
    exact stepped.1
  call c e t ht := by
    have performed := c.perform_sane hΓ h hs
    rw [ht] at performed
    exact performed.1
  ready k f b hf ho hstate := by
    rcases hs.poised k f hf with hpoised | ⟨-, hfirst, -⟩
    · exact hpoised _ ho
    · exact absurd hfirst hstate
  cursors := hs.cursors
  scopes := h.isScoped

/-- What a host reaches from a machine it has created is sound and sane. -/
theorem Hosted.sane_of_create {α : Type} {options : Options} {setup : Setup α} {a : α} {μ : Memory}
    (hcapacity : ∀ t, options.maxMemory = some t → t ≤ Size.limit) (hs : setup.SelfContained [])
    (hm₀ : Machine.create options setup = .done (m₀, a) μ)
    (hallowed : ∀ m raising, allowed m → Machine.Sane raising m → m.Sane False)
    (h : Hosted allowed m₀ s) : ∃ Γ : Charter, (∀ p, ¬ Γ.supplies p) ∧ s.machine.Sound Γ 0 0 ∧
      s.machine.Sane s.machine.pending.isSome := by
  have created := Machine.create_meets (fun _ => False) (fun _ _ _ h => h.elim) hcapacity hs
  rw [hm₀] at created
  obtain ⟨Γ, hsupplies, fresh⟩ := created
  have none (p : Supply) : ¬ Γ.supplies p := by simp [hsupplies]
  obtain ⟨idle, unraised⟩ := Machine.idle_of_create hm₀
  have sane : m₀.Sane m₀.pending.isSome := by
    refine ⟨⟨fun p hp => ?_, by simp [idle]⟩, fun k f hf => ?_, by simp [idle]⟩
    · rw [unraised] at hp
      cases hp
    · simp [CallStack.frame?_eq_getElem?, idle] at hf
  exact ⟨Γ, none, h.sane none fresh.sound sane hallowed⟩

/-- What a host reaches from a machine it has created is not at fault. -/
theorem Hosted.faultless {α : Type} {options : Options} {setup : Setup α} {a : α} {μ : Memory}
    (hcapacity : ∀ t, options.maxMemory = some t → t ≤ Size.limit) (hs : setup.SelfContained [])
    (hm₀ : Machine.create options setup = .done (m₀, a) μ)
    (hallowed : ∀ m raising, allowed m → Machine.Sane raising m → m.Sane False)
    (h : Hosted allowed m₀ s) : s.Faultless := by
  obtain ⟨Γ, none, sound, sane⟩ := h.sane_of_create hcapacity hs hm₀ hallowed
  exact Session.faultless_of_sane none sound sane

end

/-! ### Exceptions taken away when no work is left -/

/-- **Hosted code raises no internal exception**, for every machine a host can create and all calls by
which it runs hosted code, as long as it takes exceptions away only when no work is left. -/
theorem hosted_code_raises_no_internal {α : Type} {options : Options} {setup : Setup α}
    {m₀ : Machine} {a : α} {μ : Memory} {s : Session χ}
    (hcapacity : ∀ t, options.maxMemory = some t → t ≤ Size.limit) (hs : setup.SelfContained [])
    (hm₀ : Machine.create options setup = .done (m₀, a) μ)
    (h : Hosted Machine.Unwound m₀ s) : s.Faultless := by
  refine h.faultless hcapacity hs hm₀ fun m raising idle hm => { hm with poised := fun k f hf => ?_ }
  rw [CallStack.frame?_eq_getElem?, idle] at hf
  cases hf

/-- A machine with a table and little memory. -/
def Session.tabled : Option (Session Unit) :=
  match Machine.create { maxMemory := some 6000 } Setup.table with
  | .done (m, _) _ => some { machine := m, host := () }
  | _ => none

theorem Session.create_of_tabled {s : Session Unit} (h : Session.tabled = some s) :
    ∃ m μ, Machine.create { maxMemory := some 6000 } Setup.table = .done (m, ()) μ ∧
      s = { machine := m, host := () } := by
  unfold Session.tabled at h
  split at h
  · rename_i m a μ hm
    exact ⟨m, μ, hm, (Option.some.inj h).symm⟩
  · cases h

theorem Session.capacity_of_tabled (t : ℕ)
    (ht : Options.maxMemory { maxMemory := some 6000 } = some t) : t ≤ Size.limit :=
  Option.some.inj ht ▸ (by decide : 6000 ≤ Size.limit)

/-- A division by zero unwinds the call stack and is taken away; then a text is queued between two
rounds of a loop. -/
theorem hosted_code_raises_no_internal_after_division :
    ∃ s t : Session Unit, s.machine.condition = some .undefinedResult ∧
      t.machine.calls.frames.map Frame.state = [.unknown, .firstCall, .unknown] ∧
        s.Faultless ∧ t.Faultless := by
  have facts : (Session.tabled.bind fun s₀ =>
      (HostCall.outcome [.exec "1 0 div" "a", .run 9] s₀).bind fun s =>
        (HostCall.outcome [.clearException] s).bind fun u =>
          (HostCall.outcome [.exec "2 \x7b 7 \x7d repeat" "b", .run 13, .exec "1 neg" "c"] u).map
            fun t => (s.machine.condition, s.machine.calls.frames,
              t.machine.calls.frames.map Frame.state)) =
      some (some .undefinedResult, [], [.unknown, .firstCall, .unknown]) := by decide +kernel
  obtain ⟨s₀, hs₀, facts⟩ := Option.bind_eq_some_iff.1 facts
  obtain ⟨s, hs, facts⟩ := Option.bind_eq_some_iff.1 facts
  obtain ⟨u, hu, facts⟩ := Option.bind_eq_some_iff.1 facts
  obtain ⟨t, ht, facts⟩ := Option.map_eq_some_iff.1 facts
  simp only [Prod.mk.injEq] at facts
  obtain ⟨hcondition, idle, hstates⟩ := facts
  obtain ⟨m, μ, hm, rfl⟩ := Session.create_of_tabled hs₀
  have first : Hosted Machine.Unwound m s := .outcome (.start ()) (by decide) hs
  have cleared : Hosted Machine.Unwound m u := .call .clearException first (fun _ => idle) (by
    simpa [HostCall.outcome] using hu)
  have last : Hosted Machine.Unwound m t := .outcome cleared (by decide) ht
  exact ⟨s, t, hcondition, hstates,
    hosted_code_raises_no_internal Session.capacity_of_tabled Setup.selfContained_table hm first,
    hosted_code_raises_no_internal Session.capacity_of_tabled Setup.selfContained_table hm last⟩

/-! ### Exceptions taken away earlier -/

/-- No builtin has failed in its first call: one that is there has come back for another round, and
remembers what to execute. -/
def Machine.Resumable (m : Machine) : Prop :=
  ∀ k f b, m.calls.frame? k = some f → f.value.toOperator? = some (.builtin b) →
    f.state = .firstCall → b.Ready m k .firstCall

/-- **Taking an exception away is safe** at any moment, whatever work is left, at which no operator has
failed in its first call: no internal exception is raised afterwards. -/
theorem clearing_raises_no_internal {α : Type} {options : Options} {setup : Setup α}
    {m₀ : Machine} {a : α} {μ : Memory} {s : Session χ}
    (hcapacity : ∀ t, options.maxMemory = some t → t ≤ Size.limit) (hs : setup.SelfContained [])
    (hm₀ : Machine.create options setup = .done (m₀, a) μ)
    (h : Hosted Machine.Resumable m₀ s) : s.Faultless := by
  refine h.faultless hcapacity hs hm₀ fun m raising hm sane => { sane with poised := ?_ }
  intro k f hf
  refine .inl ((sane.poised k f hf).elim id fun ⟨_, hfirst, _⟩ o ho => ?_)
  cases o with
  | builtin b => exact hfirst ▸ hm k f b hf ho hfirst
  | native => trivial

/-- Stopping a loop, the exception is taken away once the frame of `stop` is gone: the loop begins the
next round, and is stopped again. -/
theorem clearing_raises_no_internal_in_loop :
    ∃ s t : Session Unit, s.machine.condition = some .stop ∧
      s.machine.calls.frames.map Frame.state = [.callBeforePop, .unknown] ∧
        t.machine.condition = some .stop ∧ t.machine.calls.length = 3 ∧ t.Faultless := by
  have facts : (Session.tabled.bind fun s₀ =>
      (HostCall.outcome [.exec "\x7b stop \x7d loop" "a", .run 15] s₀).bind fun s =>
        (HostCall.outcome [.clearException] s).bind fun u =>
          (HostCall.outcome [.run 5] u).map fun t => (s.machine.condition,
            s.machine.calls.frames.map Frame.state, t.machine.condition,
              t.machine.calls.length)) =
      some (some .stop, [.callBeforePop, .unknown], some .stop, 3) := by decide +kernel
  obtain ⟨s₀, hs₀, facts⟩ := Option.bind_eq_some_iff.1 facts
  obtain ⟨s, hs, facts⟩ := Option.bind_eq_some_iff.1 facts
  obtain ⟨u, hu, facts⟩ := Option.bind_eq_some_iff.1 facts
  obtain ⟨t, ht, facts⟩ := Option.map_eq_some_iff.1 facts
  simp only [Prod.mk.injEq] at facts
  obtain ⟨hstopped, hstates, hcondition, hlength⟩ := facts
  obtain ⟨m, μ, hm, rfl⟩ := Session.create_of_tabled hs₀
  have first : Hosted Machine.Resumable m s := .outcome (.start ()) (by decide) hs
  have resumable : s.machine.Resumable := by
    intro k f b hf _ hfirst
    have listed : f.state ∈ s.machine.calls.frames.map Frame.state :=
      List.mem_map_of_mem (CallStack.mem_frames_of_frame? hf)
    simp [hstates, hfirst] at listed
  have cleared : Hosted Machine.Resumable m u := .call .clearException first (fun _ => resumable)
    (by simpa [HostCall.outcome] using hu)
  have last : Hosted Machine.Resumable m t := .outcome cleared (by decide) ht
  exact ⟨s, t, hstopped, hstates, hcondition, hlength,
    clearing_raises_no_internal Session.capacity_of_tabled Setup.selfContained_table hm last⟩

/-- Where an operator has failed in its first call it is not safe: the frame of the division is invoked
again without its operands. -/
theorem clearing_may_raise_internal :
    ∃ s₀ s t : Session Unit, Session.tabled = some s₀ ∧
      HostCall.outcome [.exec "1 0 div" "-", .run 5] s₀ = some s ∧
      HostCall.outcome [.clearException, .cycle] s = some t ∧
      s.machine.condition = some .undefinedResult ∧ s.machine.calls.length = 2 ∧
      t.machine.exception.map (fun e => (e.condition, e.message)) =
        some (.internal, "operand 0 was not matched") := by
  have facts : (Session.tabled.bind fun s₀ =>
      (HostCall.outcome [.exec "1 0 div" "-", .run 5] s₀).bind fun s =>
        (HostCall.outcome [.clearException, .cycle] s).map fun t => (s.machine.condition,
          s.machine.calls.length, t.machine.exception.map fun e => (e.condition, e.message))) =
      some (some .undefinedResult, 2, some (.internal, "operand 0 was not matched")) := by
    decide +kernel
  obtain ⟨s₀, hs₀, facts⟩ := Option.bind_eq_some_iff.1 facts
  obtain ⟨s, hs, facts⟩ := Option.bind_eq_some_iff.1 facts
  obtain ⟨t, ht, facts⟩ := Option.map_eq_some_iff.1 facts
  simp only [Prod.mk.injEq] at facts
  exact ⟨s₀, s, t, hs₀, hs, ht, facts⟩

end StackScript
