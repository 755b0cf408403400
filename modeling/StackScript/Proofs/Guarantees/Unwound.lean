import StackScript.Proofs.Guarantees.Protocol
import StackScript.Proofs.Machine.Doomed
import StackScript.Proofs.Machine.Steered
import StackScript.Proofs.Machine.Unwinding

/-!
# Unwinding terminates

While an exception is pending each cycle takes its toll on the call frames (`Machine.due`): a frame
goes, or an operator on its way out is invoked for the last time but one, whatever the capacity of the
ledger is and whatever is refused.  So within three cycles for each frame no frame is left, or a
loop, `stopped` or `finally` has taken the exception away or set it aside (`unwinding_terminates`).
-/

namespace StackScript

/-! ### What is due -/

/-- Cycles a frame may take to go while an exception is pending, those of the frames it queues
included. -/
def Frame.due (f : Frame) : ℕ := if f.state = .callBeforePop then 3 else 1

theorem Frame.due_le (f : Frame) : f.due ≤ 3 := by
  unfold due
  split <;> omega

theorem Frame.one_le_due (f : Frame) : 1 ≤ f.due := by
  unfold due
  split <;> omega

/-- Cycles the frames may take to go. -/
def Machine.due (m : Machine) : ℕ := (m.calls.frames.map Frame.due).sum

theorem Machine.due_le (m : Machine) : m.due ≤ 3 * m.calls.length := by
  rw [due, CallStack.length]
  induction m.calls.frames with
  | nil => exact Nat.le_refl 0
  | cons f rest ih =>
    have := f.due_le
    rw [List.map_cons, List.sum_cons, List.length_cons]
    omega

theorem Machine.condition_eq_some {m : Machine} {c : Condition} :
    m.condition = some c ↔ ∃ p, m.pending = some p ∧ p.exception.condition = c := by
  simp [condition, exception]

theorem Machine.due_cons {m : Machine} {f : Frame} {rest : List Frame}
    (h : m.calls.frames = f :: rest) : m.due = f.due + (rest.map Frame.due).sum := by
  rw [due, h, List.map_cons, List.sum_cons]

namespace Session

variable {χ : Type} {Γ : Charter} {x : Stake} {s t u : Session χ} {f g : Frame} {rest : List Frame}
  {b : Builtin}

/-! ### One cycle -/

/-- The operator of `f`, the top frame above `rest`, has taken the exception away, which is not fatal,
or set it aside. -/
structure Relieves (f : Frame) (rest : List Frame) (s t : Session χ) : Prop where
  handler : ∃ b ∈ [Builtin.loop, .repeatBlock, .stopped, .ensure],
    f.value.toOperator? = some (.builtin b)
  state : f.state = .callBeforePop
  condition : s.machine.condition ≠ some .internal
  pending : t.machine.pending = none
  aside : f.value.toOperator? = some (.builtin .ensure) →
    ∃ g, t.machine.calls.frame? rest.length = some g ∧ g.stash = s.machine.pending

/-- The exception goes on, or another one does, and less is due; a fatal exception stays. -/
structure Presses (s t : Session χ) : Prop where
  pending : t.machine.pending.isSome
  due : t.machine.due < s.machine.due
  fatal : s.machine.isDoomed = true → t.machine.pending = s.machine.pending

/-- The top frame has gone. -/
theorem presses_of_popped (hframes : s.machine.calls.frames = f :: rest)
    (hpending : s.machine.pending.isSome) (ht : t.machine.calls.frames = rest)
    (hp : t.machine.pending = s.machine.pending) : s.Presses t where
  pending := hp ▸ hpending
  due := by
    have := f.one_le_due
    rw [Machine.due_cons hframes, Machine.due, ht]
    omega
  fatal _ := hp

/-- The operator of the top frame has failed on its way out. -/
theorem presses_of_failed {e : Exception} (hframes : s.machine.calls.frames = f :: rest)
    (hf : f.state = .callBeforePop) (hu : u.machine.calls.frames = g :: rest) (hg : g.state = .pop)
    (hfatal : s.machine.isDoomed = true → u.machine.pending = s.machine.pending)
    (ht : (onMachine (Machine.raise e) u).state? = some t) : s.Presses t := by
  have due (m : Machine) (hm : m.calls = u.machine.calls) : m.due < s.machine.due := by
    rw [Machine.due_cons hframes, Machine.due_cons (hm ▸ hu), Frame.due, Frame.due, hf, hg]
    simp
  have raised : (onMachine (Machine.raise e) u).Meets True (fun _ t => s.Presses t)
      fun t => s.Presses t := by
    cases h : u.machine.isDoomed with
    | true =>
      refine meets_onMachine ?_
      rw [Machine.raise_doomed e h]
      exact ⟨Machine.isSome_pending_of_isDoomed h, due _ rfl, hfatal⟩
    | false =>
      refine meets_onMachine ((Machine.raise_leaves e h).mono ?_ fun _ => False.elim)
      rintro _ m ⟨hcalls, p, hp, -⟩
      refine ⟨by change m.pending.isSome; rw [hp]; rfl, due m hcalls, fun hdoomed => ?_⟩
      -- a fatal exception would still be pending
      rw [Machine.isDoomed, Machine.condition, Machine.exception, hfatal hdoomed] at h
      exact Bool.noConfusion (hdoomed.symm.trans h)
  exact raised.of_state? ht

/-- The operator of the top frame has failed on its way out: its frame is to go. -/
structure Falters (f : Frame) (rest : List Frame) (s u : Session χ) : Prop where
  state : f.state = .callBeforePop
  frames : ∃ g, u.machine.calls.frames = g :: rest ∧ g.state = .pop
  fatal : s.machine.isDoomed = true → u.machine.pending = s.machine.pending

/-- What becomes of an operator on its way out, from what its invocation leaves. -/
theorem resume_yields {k : ℕ} {c : Continuation} {invoke : List Value → Action (Session χ) Unit}
    {P E : Session χ → Prop} (hc : c.isPopping = true)
    (h : (invoke [] s).Meets True
      (fun _ u => (settle k c u).Yields (fun _ t => P t) fun _ t => E t)
      fun u => ∃ g, u.machine.calls.frame? k = some g ∧
        E { u with machine := u.machine.withFrame k fun f => { f with state := .pop } }) :
    (resume k c invoke s).Yields (fun _ t => P t) fun _ t => E t := by
  cases hinvoke : invoke [] s with
  | done a u =>
    rw [hinvoke] at h
    rw [resume_of_done hinvoke]
    exact h
  | raised e u =>
    rw [hinvoke] at h
    obtain ⟨g, hg, failed⟩ := h
    rw [resume_of_raised hc hinvoke hg]
    exact failed
  | broken b =>
    rw [resume, Action.bind_apply, Action.onRaise, hinvoke]
    trivial

section

variable {c : Condition} (h : s.machine.Sound Γ 0 x)
  (hframes : s.machine.calls.frames = f :: rest)
include h hframes

/-- A loop takes a break away, and lets any other exception pass. -/
theorem loop_wanes (hloop : b.isLoop = true) (hb : f.value.toOperator? = some (.builtin b))
    (hstate : f.state = .callBeforePop) (hc : s.machine.condition = some c)
    (ho : (Behaviour.ofOperator Natives.none (.builtin b) : Behaviour χ) =
      .function b.signature fun index params =>
        onMachine ((b.operation params).runOn (some index))) :
    (stepOperator Natives.none rest.length (.builtin b) s).Yields
      (fun _ t => Relieves f rest s t ∨ s.Presses t) fun _ => Falters f rest s := by
  have hpopping : f.state.isPopping = true := by rw [hstate]; rfl
  have state : s.machine.StateIs rest.length .callBeforePop :=
    ⟨f, CallStack.frame?_head hframes, hstate⟩
  obtain ⟨p, hp, hcondition⟩ := Machine.condition_eq_some.1 hc
  have hpending : s.machine.pending.isSome := hp ▸ rfl
  by_cases hbreak : c = .loopBreak
  · have taken := Operation.loop_takes hloop state hp (hcondition.trans hbreak)
    refine (stepOperator_pops (q := none) h hframes hpopping ho (meets_onMachine (taken.mono
      (fun _ m hm => ⟨⟨f, hm.1 ▸ hframes, .inl ⟨rfl, .inr hstate⟩⟩, hm.2⟩) fun _ => id))).mono
        (fun _ t ht => .inl ⟨⟨b, ?_, hb⟩, hstate, ?_, ht.2, fun hensure => ?_⟩)
        fun _ _ => False.elim
    · cases b with
      | loop | repeatBlock => simp
      | _ => cases hloop
    · rw [hc, hbreak]
      nofun
    · rw [hb] at hensure
      cases hensure
      cases hloop
  · have passed := Operation.loop_passes hloop state hc hbreak
    refine (stepOperator_pops (q := s.machine.pending) h hframes hpopping ho
      (meets_onMachine ?_)).mono
        (fun _ t ht => .inr (presses_of_popped hframes hpending ht.1 ht.2)) fun _ _ => False.elim
    rw [passed]
    exact ⟨⟨f, hframes, .inl ⟨rfl, .inr hstate⟩⟩, rfl⟩

/-- `stopped` takes an exception away, if it is neither a break nor fatal. -/
theorem stopped_wanes (hb : f.value.toOperator? = some (.builtin .stopped))
    (hstate : f.state = .callBeforePop) (hc : s.machine.condition = some c) :
    (stepOperator Natives.none rest.length (.builtin .stopped) s).Yields
      (fun _ t => Relieves f rest s t ∨ s.Presses t) fun _ => Falters f rest s := by
  have hpopping : f.state.isPopping = true := by rw [hstate]; rfl
  have state : s.machine.StateIs rest.length .callBeforePop :=
    ⟨f, CallStack.frame?_head hframes, hstate⟩
  obtain ⟨p, hp, -⟩ := Machine.condition_eq_some.1 hc
  have hpending : s.machine.pending.isSome := hp ▸ rfl
  cases hpasses : (c.isFatal || c == .loopBreak) with
  | true =>
    refine (stepOperator_pops (o := .builtin .stopped) (q := s.machine.pending) h hframes hpopping
      rfl (meets_onMachine ?_)).mono
        (fun _ t ht => .inr (presses_of_popped hframes hpending ht.1 ht.2)) fun _ _ => False.elim
    rw [Operation.stopped_passes state hc hpasses]
    exact ⟨⟨f, hframes, .inl ⟨rfl, .inr hstate⟩⟩, rfl⟩
  | false =>
    have ordinary : s.machine.condition ≠ some .internal := by
      rintro hinternal
      obtain rfl := Option.some.inj (hc.symm.trans hinternal)
      cases hpasses
    have sound := invoked_sound (o := .builtin .stopped) h hframes rfl
    have taken : (onMachine ((Builtin.stopped.operation []).runOn (some rest.length)) s).Meets True
        (fun _ u => u.machine.calls = s.machine.calls ∧ u.machine.pending = none)
        fun u => u.machine.calls = s.machine.calls ∧ u.machine.pending = none :=
      meets_onMachine (Operation.stopped_takes state hc hpasses)
    rw [stepOperator_of_popping Builtin.stopped.signature rfl hframes hpopping]
    refine resume_yields hpopping ((sound.and taken).mono (fun _ u hu => ?_) fun u hu => ?_)
    · refine ((settle_pops hu.1 (hu.2.1 ▸ hframes) (.inl ⟨rfl, .inr hstate⟩)).yields).mono
        (fun _ t ht => ?_) fun _ _ => False.elim
      refine .inl ⟨⟨.stopped, by simp, hb⟩, hstate, ordinary, ht.2.trans hu.2.2, fun hensure => ?_⟩
      rw [hb] at hensure
      cases hensure
    · have frames : u.machine.calls.frames = f :: rest := hu.2.1 ▸ hframes
      refine ⟨f, CallStack.frame?_head frames, hstate,
        ⟨_, congrArg CallStack.frames (CallStack.update_top _ _ _ frames _), rfl⟩, fun hdoomed => ?_⟩
      exact absurd (Machine.isDoomed_iff.1 hdoomed) ordinary

end

/-- `finally` sets an exception aside that is not fatal, and executes its finalizer either way. -/
theorem ensure_wanes (hframes : s.machine.calls.frames = f :: rest)
    (hb : f.value.toOperator? = some (.builtin .ensure))
    (hstate : f.state = .callBeforePop) (hpending : s.machine.pending.isSome) :
    (stepOperator Natives.none rest.length (.builtin .ensure) s).Yields
      (fun _ t => Relieves f rest s t ∨ s.Presses t) fun _ => Falters f rest s := by
  have hpopping : f.state.isPopping = true := by rw [hstate]; rfl
  rw [stepOperator_of_popping Builtin.ensure.signature rfl hframes hpopping]
  cases hdoomed : s.machine.isDoomed with
  | true =>
    have kept : (Machine.stash rest.length s.machine).Meets True
        (fun _ m => m.calls.frames = f :: rest ∧ m.pending = s.machine.pending)
        fun _ => False := by
      rw [Machine.stash_doomed _ hdoomed]
      exact ⟨hframes, rfl⟩
    refine resume_yields hpopping (meets_onMachine ((Operation.ensure_finalizes hframes hstate
      hstate kept).mono (fun _ m hm => ?_) fun m hm => ?_))
    · obtain ⟨⟨w, frames⟩, hp⟩ := hm
      have below := CallStack.frame?_above (List.singleton_append ▸ frames)
      rw [settle_of_popping (s := { s with machine := m }) below rfl]
      refine .inr ⟨by rw [hp]; exact hpending, ?_, fun _ => hp⟩
      rw [Machine.due_cons hframes, Machine.due_cons frames, List.map_cons, List.sum_cons]
      simp only [Frame.due, hstate, Operation.finalizing, reduceCtorEq, if_false, if_true]
      omega
    · exact ⟨f, CallStack.frame?_head hm.1, hstate,
        ⟨_, congrArg CallStack.frames (CallStack.update_top _ _ _ hm.1 _), rfl⟩, fun _ => hm.2⟩
  | false =>
    obtain ⟨p, hp⟩ := Option.isSome_iff_exists.1 hpending
    refine resume_yields hpopping (meets_onMachine ((Operation.ensure_sets_aside hframes hstate hp
      hdoomed).mono (fun _ m hm => ?_) fun m hm => ?_))
    · obtain ⟨⟨w, frames⟩, hnone⟩ := hm
      have below := CallStack.frame?_above (List.singleton_append ▸ frames)
      rw [settle_of_popping (s := { s with machine := m }) below rfl]
      refine .inl ⟨⟨.ensure, by simp, hb⟩, hstate, fun hinternal => ?_, hnone,
        fun _ => ⟨_, below, hp.symm⟩⟩
      rw [Machine.isDoomed_iff.2 hinternal] at hdoomed
      cases hdoomed
    · exact ⟨_, CallStack.frame?_head hm.1, hstate,
        ⟨_, congrArg CallStack.frames (CallStack.update_top _ _ _ hm.1 _), rfl⟩,
        fun h => by rw [hdoomed] at h; cases h⟩

/-- The operator of the top frame is invoked on its way out. -/
theorem stepOperator_wanes (h : s.machine.Sound Γ 0 x)
    (hframes : s.machine.calls.frames = f :: rest) (hpending : s.machine.pending.isSome)
    (hb : f.value.toOperator? = some (.builtin b)) (hdefers : b.Defers f.state) :
    (stepOperator Natives.none rest.length (.builtin b) s).Yields
      (fun _ t => Relieves f rest s t ∨ s.Presses t) fun _ => Falters f rest s := by
  obtain ⟨p, hp⟩ := Option.isSome_iff_exists.1 hpending
  have hc := Machine.condition_eq_some.2 ⟨p, hp, rfl⟩
  generalize hstate : f.state = state at hdefers
  cases hdefers with
  | loop | repeatBlock => exact loop_wanes h hframes rfl hb hstate hc rfl
  | stopped => exact stopped_wanes h hframes hb hstate hc
  | ensure => exact ensure_wanes hframes hb hstate hpending
  | finalize =>
    refine (stepOperator_of_finalizing h hframes hstate).mono (fun _ t ht => .inr ?_)
      fun _ _ => False.elim
    exact presses_of_popped hframes hpending ht.1 (ht.2.trans (by rw [hp]; rfl))

/-- **A cycle with an exception pending**: the exception is taken away or set aside, or less is due
than before. -/
theorem cycle_wanes (h : s.machine.Sound Γ 0 x) (hframes : s.machine.calls.frames = f :: rest)
    (hf : f.Steered) (hpending : s.machine.pending.isSome)
    (ht : (cycle Natives.none s).state? = some t) : Relieves f rest s t ∨ s.Presses t := by
  have stepped : (step Natives.none rest.length f s).Yields
      (fun _ t => Relieves f rest s t ∨ s.Presses t) fun _ => Falters f rest s := by
    cases ho : s.machine.invoked? f with
    | none =>
      rw [step_of_unwound hpending ho]
      have popped : (popFrame s).Meets False (fun _ t => s.Presses t) fun _ => False :=
        meets_onMachine ((Machine.popFrame_leaves h hframes).mono
          (fun _ m hm => presses_of_popped hframes hpending hm.2.1 hm.2.2) fun _ => id)
      exact popped.yields.mono (fun _ _ => .inr) fun _ _ => False.elim
    | some o =>
      have hpopping : f.state.isPopping = true := by
        rw [Machine.invoked?, if_pos hpending] at ho
        split at ho
        · assumption
        · cases ho
      obtain ⟨b, hb, hdefers⟩ := hf.defers hpopping
      obtain rfl := Option.some.inj (hb.symm.trans (Machine.toOperator?_of_invoked? ho))
      rw [step_of_invoked ho]
      exact stepOperator_wanes h hframes hpending hb hdefers
  rcases state?_cycle hframes ht with hdone | ⟨e, u, hraised, ht⟩
  · rw [hdone] at stepped
    exact stepped
  · rw [hraised] at stepped
    obtain ⟨hstate, ⟨g, hu, hg⟩, hfatal⟩ := stepped
    exact .inr (presses_of_failed hframes hstate hu hg hfatal ht)

/-! ### All cycles -/

/-- The host calls `k` cycles, each with an exception pending and frames left. -/
inductive Unwinds : ℕ → Session χ → Session χ → Prop
  | refl (s : Session χ) : Unwinds 0 s s
  | cycle {k : ℕ} {s t u : Session χ} (hpending : s.machine.pending.isSome)
      (hframes : s.machine.calls.frames ≠ []) (ht : (cycle Natives.none s).state? = some t)
      (h : Unwinds k t u) : Unwinds (k + 1) s u

end Session

section

variable {χ : Type} {options : Options} {m₀ : Machine} {owned : List Value} {s : Session χ}

/-- A cycle with an exception pending takes nothing from the host, and fails in no way. -/
theorem Reached.wanes (hm₀ : m₀.Created options) (h : Reached m₀ owned s) {f : Frame}
    {rest : List Frame} (hframes : s.machine.calls.frames = f :: rest)
    (hpending : s.machine.pending.isSome) :
    ∃ t, (Session.cycle Natives.none s).state? = some t ∧ Reached m₀ owned t ∧
      (Session.Relieves f rest s t ∨ s.Presses t) := by
  obtain ⟨Γ, -, sound, -⟩ := h.sound hm₀
  have fed : s.machine.Fed (.refs owned) := by
    intro v hv
    rw [Machine.offered?, if_pos hpending] at hv
    cases hv
  have cycled := Session.cycle_meets (Behaviour.works_none Γ) sound fed
  obtain ⟨w, hw, rfl⟩ := h.followed
  obtain ⟨-, α, setup, a, μ, -, created⟩ := hm₀
  have steered : f.Steered :=
    hw.steered (Machine.frames_of_create created) f (hframes ▸ .head rest)
  cases hcycle : Session.cycle Natives.none w.session with
  | done b t =>
    have ht : (Session.cycle Natives.none w.session).state? = some t := by rw [hcycle]; rfl
    exact ⟨t, rfl, h.cycle fed ht, Session.cycle_wanes sound hframes steered hpending ht⟩
  | raised e t => rw [hcycle] at cycled; exact cycled.elim
  | broken b => rw [hcycle] at cycled; exact cycled.elim

/-- What is due bounds the cycles until no frame is left or the exception is gone. -/
theorem Reached.unwinds (hm₀ : m₀.Created options) {n : ℕ} (h : Reached m₀ owned s)
    (hn : s.machine.due ≤ n) (hpending : s.machine.pending.isSome) :
    ∃ k u, Session.Unwinds k s u ∧ k + u.machine.due ≤ n ∧ u.machine.pending.isSome ∧
      (s.machine.isDoomed = true → u.machine.pending = s.machine.pending) ∧
      (u.machine.calls.frames = [] ∨ ∃ f rest t, u.machine.calls.frames = f :: rest ∧
        (Session.cycle Natives.none u).state? = some t ∧ Session.Relieves f rest u t) := by
  induction n generalizing s with
  | zero =>
    refine ⟨0, s, .refl s, by omega, hpending, fun _ => rfl, .inl ?_⟩
    cases hframes : s.machine.calls.frames with
    | nil => rfl
    | cons f rest =>
      have := f.one_le_due
      rw [Machine.due_cons hframes] at hn
      omega
  | succ n ih =>
    cases hframes : s.machine.calls.frames with
    | nil => exact ⟨0, s, .refl s, by omega, hpending, fun _ => rfl, .inl hframes⟩
    | cons f rest =>
      obtain ⟨t, ht, reached, relieved | pressed⟩ := h.wanes hm₀ hframes hpending
      · exact ⟨0, s, .refl s, by omega, hpending, fun _ => rfl,
          .inr ⟨f, rest, t, hframes, ht, relieved⟩⟩
      · have := pressed.due
        obtain ⟨k, u, unwinds, hk, hu, fatal, goal⟩ := ih reached (by omega) pressed.pending
        refine ⟨k + 1, u, .cycle hpending (by simp [hframes]) ht unwinds, by omega, hu,
          fun hdoomed => ?_, goal⟩
        have same := pressed.fatal hdoomed
        refine (fatal ?_).trans same
        rwa [Machine.isDoomed, Machine.condition, Machine.exception, same]

/-- **Unwinding terminates.**  In every machine a host reaches without operators of its own, whatever
its capacity is, an exception that is pending leaves no frame within three cycles for each frame, or
a loop, `stopped` or `finally` takes it away or sets it aside within as many.  A fatal exception
stays until no frame is left. -/
theorem unwinding_terminates (hm₀ : m₀.Created options) (h : Reached m₀ owned s)
    (hpending : s.machine.pending.isSome) :
    ∃ k u, Session.Unwinds k s u ∧ u.machine.pending.isSome ∧
      (k ≤ 3 * s.machine.calls.length ∧ u.machine.calls.frames = [] ∧
          (s.machine.condition = some .internal → u.machine.pending = s.machine.pending) ∨
        k < 3 * s.machine.calls.length ∧ s.machine.condition ≠ some .internal ∧
          ∃ f rest t, u.machine.calls.frames = f :: rest ∧
            (Session.cycle Natives.none u).state? = some t ∧ Session.Relieves f rest u t) := by
  obtain ⟨k, u, unwinds, hk, hu, fatal, done | ⟨f, rest, t, hframes, ht, relieved⟩⟩ :=
    h.unwinds hm₀ s.machine.due_le hpending
  · exact ⟨k, u, unwinds, hu, .inl ⟨by omega, done, fun hc => fatal (Machine.isDoomed_iff.2 hc)⟩⟩
  · refine ⟨k, u, unwinds, hu, .inr ⟨?_, fun hc => ?_, f, rest, t, hframes, ht, relieved⟩⟩
    · have := f.one_le_due
      rw [Machine.due_cons hframes] at hk
      omega
    · have same := fatal (Machine.isDoomed_iff.2 hc)
      exact relieved.condition (by rw [Machine.condition, Machine.exception, same]; exact hc)

end

/-- A body under `finally` has stopped, in a machine whose capacity is used up. -/
theorem unwinding_terminates_of_full :
    ∃ (m₀ : Machine) (s : Session Unit), m₀.Created { maxMemory := some 4967 } ∧
      Reached m₀ [] s ∧ s.machine.condition = some .stop ∧ s.machine.calls.length = 3 ∧
        s.machine.memory.ledger.used = 4967 ∧
          ∃ k u, Session.Unwinds k s u ∧ u.machine.pending.isSome ∧
            (k ≤ 9 ∧ u.machine.calls.frames = [] ∧
                (s.machine.condition = some .internal → u.machine.pending = s.machine.pending) ∨
              k < 9 ∧ s.machine.condition ≠ some .internal ∧
                ∃ f rest t, u.machine.calls.frames = f :: rest ∧
                  (Session.cycle Natives.none u).state? = some t ∧
                    Session.Relieves f rest u t) := by
  have facts : (Session.trial { maxMemory := some 4967 }
      "\x7b stop \x7d \x7b 1 \x7d finally" 21).map (fun s => (s.machine.condition,
        s.machine.calls.length, s.machine.memory.ledger.used)) = some (some .stop, 3, 4967) := by
    decide +kernel
  obtain ⟨s, hs, hfacts⟩ := Option.map_eq_some_iff.1 facts
  have countable (t : ℕ) (ht : some 4967 = some t) : t ≤ Size.limit :=
    Option.some.inj ht ▸ (by decide : 4967 ≤ Size.limit)
  obtain ⟨m₀, created, reached⟩ := Reached.of_trial countable hs
  simp only [Prod.mk.injEq] at hfacts
  obtain ⟨hcondition, hlength, hused⟩ := hfacts
  obtain ⟨p, hp, -⟩ := Machine.condition_eq_some.1 hcondition
  refine ⟨m₀, s, created, reached, hcondition, hlength, hused, ?_⟩
  have terminates := unwinding_terminates created reached (hp ▸ rfl)
  rwa [hlength] at terminates

end StackScript
