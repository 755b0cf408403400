import StackScript.Proofs.Guarantees.Faults
import StackScript.Proofs.Machine.Unwinding

/-!
# Breaks reach a loop

A break is raised only above the frame of a loop.  If a loop below it is armed, it is pending, or set
aside by a `finally` whose finalizer is at work, until that loop is invoked on its way out and takes
it away, unless the finalizer raises another exception, which takes its place
(`breaks_reach_a_loop`).  A host may queue texts meanwhile, between any two cycles.

That no loop below is armed needs a host that has queued a text on top of a loop about to begin a
round: `break` finds the loop, but the loop does not ask to be invoked on its way out yet.
-/

namespace StackScript

open Relation (ReflTransGen)

/-! ### Breaks and the loops below -/

/-- Below a break that is set aside there is a loop that is armed. -/
def Frame.Guarded : List Frame → Prop
  | [] => True
  | f :: rest => (∀ p, f.stash = some p → p.exception.condition = .loopBreak →
      ∃ g ∈ rest, g.Armed) ∧ Guarded rest

theorem Frame.guarded_queued {vs : List Value} {frames : List Frame} (h : Guarded frames) :
    Guarded (queued vs ++ frames) := by
  induction vs with
  | nil => exact h
  | cons v vs ih => exact ⟨nofun, ih⟩

theorem Frame.Guarded.exists_armed {frames : List Frame} (h : Guarded frames) {f : Frame}
    (hf : f ∈ frames) {p : PendingException} (hp : f.stash = some p)
    (hbreak : p.exception.condition = .loopBreak) : ∃ g ∈ frames, g.Armed := by
  induction frames with
  | nil => cases hf
  | cons g rest ih =>
    have lifts : (∃ g ∈ rest, g.Armed) → ∃ g' ∈ g :: rest, g'.Armed :=
      fun ⟨g', hg', harmed⟩ => ⟨g', .tail g hg', harmed⟩
    rcases List.mem_cons.1 hf with rfl | hf
    · exact lifts (h.1 p hp hbreak)
    · exact lifts (ih h.2 hf)

theorem Frame.not_armed_of_ensure {f : Frame}
    (hf : f.value.toOperator? = some (.builtin .ensure)) : ¬ f.Armed :=
  not_armed_of_toOperator? hf (by rintro _ ⟨⟩; rfl)

theorem Frame.not_armed_fresh (v : Value) : ¬ Frame.Armed { value := v } :=
  fun h => by cases h.state

namespace Session

variable {χ : Type} {s t u : Session χ} {f g : Frame} {rest : List Frame} {p : PendingException}

/-- One step of a host that runs hosted code.  It queues a text, or it does a cycle. -/
inductive Drives (s : Session χ) : Session χ → Prop
  | exec (text origin : String) {t : Session χ}
    (ht : (onMachine (Machine.execute (.source text origin)) s).state? = some t) : Drives s t
  | cycle {t : Session χ} (ht : (Session.cycle Natives.none s).state? = some t) : Drives s t

/-- The top frame is that of a loop about to begin a round.  The loop is not done, and does not ask
to be invoked on its way out yet. -/
def Entering (s : Session χ) : Prop :=
  ∃ f rest, s.machine.calls.frames = f :: rest ∧ f.IsLoop ∧ ¬ f.Armed ∧ f.state ≠ .pop

/-- One step of a host that heeds loops: it lets a loop begin its round. -/
def Heeds (s t : Session χ) : Prop :=
  Drives s t ∧ (s.Entering → (Session.cycle Natives.none s).state? = some t)

/-- The work of the next cycle, on the top frame `f` above `rest`, asks for a loop to be left. -/
def AsksToLeave (f : Frame) (rest : List Frame) (s : Session χ) : Prop :=
  s.machine.calls.frames = f :: rest ∧
    ∃ e u, step Natives.none rest.length f s = .raised e u ∧ e.condition = .loopBreak

/-- For every break there is a loop that will meet it. -/
structure Catches (s : Session χ) : Prop where
  /-- Loops below other frames are armed, or done. -/
  loops : ∀ f ∈ s.machine.calls.frames.tail, f.IsLoop → f.Armed ∨ f.state = .pop
  pending : ∀ p, s.machine.pending = some p → p.exception.condition = .loopBreak →
    ∃ f ∈ s.machine.calls.frames, f.Armed
  stashed : Frame.Guarded s.machine.calls.frames

/-- What queueing a text does. -/
theorem exec_queues {text origin : String}
    (ht : (onMachine (Machine.execute (.source text origin)) s).state? = some t) :
    t.machine.pending = s.machine.pending ∧ (t.machine.calls.frames = s.machine.calls.frames ∨
      ∃ v : Value, t.machine.calls.frames = { value := v } :: s.machine.calls.frames) := by
  have spares : Machine.Spares Machine.pending (Machine.execute (.source text origin)) :=
    Machine.spares_onCalls (fun _ _ _ => rfl) fun c => c.push _
  have queued : (Machine.execute (.source text origin) s.machine).Meets True _ _ :=
    (Machine.pushFrame_frames _ s.machine).and (spares s.machine)
  refine (meets_onMachine (P := fun _ t => t.machine.pending = s.machine.pending ∧
    (t.machine.calls.frames = s.machine.calls.frames ∨
      ∃ v : Value, t.machine.calls.frames = { value := v } :: s.machine.calls.frames))
    (queued.mono (fun _ m hm => ⟨hm.2, .inr ⟨_, hm.1⟩⟩) fun m hm => ⟨hm.2, .inl ?_⟩)).of_state? ht
  rw [hm.1]

/-! ### What is preserved -/

theorem Catches.exec {text origin : String} (h : s.Catches) (hfree : ¬ s.Entering)
    (ht : (onMachine (Machine.execute (.source text origin)) s).state? = some t) : t.Catches := by
  obtain ⟨hpending, same | ⟨v, hframes⟩⟩ := exec_queues ht
  · exact ⟨same ▸ h.loops, hpending ▸ same ▸ h.pending, same ▸ h.stashed⟩
  · refine ⟨?_, fun p hp hbreak => ?_, ?_⟩
    · rw [hframes]
      intro f hf hloop
      rw [List.tail_cons] at hf
      cases hs : s.machine.calls.frames with
      | nil => rw [hs] at hf; cases hf
      | cons g rest =>
        have tail := h.loops f
        rw [hs] at hf tail
        rcases List.mem_cons.1 hf with rfl | hf
        · by_contra hentering
          exact hfree ⟨f, rest, hs, hloop, not_or.1 hentering⟩
        · exact tail hf hloop
    · obtain ⟨f, hf, harmed⟩ := h.pending p (hpending ▸ hp) hbreak
      exact ⟨f, hframes ▸ .tail _ hf, harmed⟩
    · rw [hframes]
      exact @Frame.guarded_queued [v] _ h.stashed

/-- The frames below the top one stay, below frames that break no rule. -/
theorem catches_of_frames (above : List Frame) (h : s.Catches)
    (hframes : s.machine.calls.frames = f :: rest) (ht : t.machine.calls.frames = above ++ rest)
    (hloops : ∀ g ∈ above.tail, g.IsLoop → g.Armed ∨ g.state = .pop)
    (hpending : ∀ p, t.machine.pending = some p → p.exception.condition = .loopBreak →
      ∃ g ∈ rest, g.Armed) (hstashed : Frame.Guarded (above ++ rest)) : t.Catches := by
  have below := h.loops
  rw [hframes, List.tail_cons] at below
  refine ⟨fun g hg => ?_, fun p hp hbreak => ?_, ht ▸ hstashed⟩
  · rw [ht] at hg
    cases above with
    | nil => exact below g (List.mem_of_mem_tail hg)
    | cons a above =>
      rcases List.mem_append.1 hg with hg | hg
      · exact hloops g hg
      · exact below g hg
  · obtain ⟨g, hg, harmed⟩ := hpending p hp hbreak
    exact ⟨g, ht ▸ List.mem_append_right _ hg, harmed⟩

variable {Γ : Charter}

/-- A cycle while a break is pending. -/
theorem Catches.passed (hΓ : ∀ p, ¬ Γ.supplies p) (sound : s.machine.Sound Γ 0 0)
    (sane : s.machine.Sane s.machine.pending.isSome) (h : s.Catches)
    (hframes : s.machine.calls.frames = f :: rest) (hp : s.machine.pending = some p)
    (hbreak : p.exception.condition = .loopBreak)
    (ht : (Session.cycle Natives.none s).state? = some t) : t.Catches := by
  have stashed : Frame.Guarded (f :: rest) := hframes ▸ h.stashed
  have below (hf : ¬ f.Armed) : ∃ g ∈ rest, g.Armed := by
    obtain ⟨g, hg, harmed⟩ := h.pending p hp hbreak
    rw [hframes] at hg
    rcases List.mem_cons.1 hg with rfl | hg
    · exact absurd harmed hf
    · exact ⟨g, hg, harmed⟩
  rcases cycle_yields hΓ sound sane hframes (step_passes sound sane hframes hp hbreak) ht with
    passes | ⟨e, u, q, ⟨hraised, stuck⟩, -, hcalls, hq, hcondition⟩
  · cases passes with
    | removed hf hrest hpending =>
      exact catches_of_frames [] h hframes hrest (by simp) (fun _ _ _ => below hf)
        stashed.2
    | caught hf hrest hpending =>
      exact catches_of_frames [] h hframes hrest (by simp)
        (fun _ hp => by rw [hpending] at hp; cases hp) stashed.2
    | aside w hf hframes' hpending =>
      refine catches_of_frames [_, _] h hframes hframes' (fun g hg hloop => ?_)
        (fun _ hp => by rw [hpending] at hp; cases hp)
        ⟨nofun, fun _ _ _ => below (Frame.not_armed_of_ensure hf), stashed.2⟩
      obtain rfl := List.mem_singleton.1 hg
      rw [Frame.IsLoop, hf] at hloop
      cases hloop
    | stays hf hframes' hpending =>
      exact catches_of_frames [f] h hframes hframes' (by simp) (fun _ _ _ => below hf)
        stashed
  · refine catches_of_frames [_] h hframes (hcalls ▸ stuck.frames) (by simp) ?_
      ⟨fun _ _ _ => below (Frame.not_armed_of_ensure stuck.ensure), stashed.2⟩
    intro p hp hbreak
    obtain rfl := Option.some.inj (hq.symm.trans hp)
    -- what is pending instead is no break
    rcases hcondition with hcondition | hcondition
    · exact absurd (hcondition.symm.trans hbreak) hraised
    · rw [hcondition] at hbreak
      cases hbreak

/-- What the work of a cycle leaves while no break is pending. -/
theorem Catches.step (sound : s.machine.Sound Γ 0 0) (hΓ : ∀ p, ¬ Γ.supplies p)
    (sane : s.machine.Sane s.machine.pending.isSome) (h : s.Catches)
    (hframes : s.machine.calls.frames = f :: rest)
    (hcalm : ∀ p, s.machine.pending = some p → p.exception.condition ≠ .loopBreak) :
    (step Natives.none rest.length f s).Yields
      (fun _ t => t.machine.Left f rest fun p => p.exception.condition = .loopBreak →
        ∃ g ∈ rest, g.Armed)
      (Fails f rest (Machine.Left f rest fun p => p.exception.condition = .loopBreak →
        ∃ g ∈ rest, g.Armed)) := by
  have hmem : f ∈ s.machine.calls.frames := by simp [hframes]
  have hsupply : f.supply = none :=
    Option.eq_none_iff_forall_ne_some.2 fun p hp => hΓ p (sound.supplied f hmem p hp)
  refine step_left hframes hsupply (sane.cursors f hmem)
    ⟨fun p hp hbreak => absurd hbreak (hcalm p hp), fun g hg p hp hbreak => ?_⟩
  have stashed : Frame.Guarded (f :: rest) := hframes ▸ h.stashed
  rw [hframes] at hg
  rcases List.mem_cons.1 hg with rfl | hg
  · exact stashed.1 p hp hbreak
  · exact stashed.2.exists_armed hg hp hbreak

/-- A cycle while no break is pending. -/
theorem Catches.left (h : s.Catches) (hframes : s.machine.calls.frames = f :: rest)
    (hleft : t.machine.Left f rest fun p => p.exception.condition = .loopBreak →
      ∃ g ∈ rest, g.Armed) {u : Session χ} (hcalls : u.machine.calls = t.machine.calls)
    (hpending : ∀ p, u.machine.pending = some p → p.exception.condition = .loopBreak →
      ∃ g ∈ rest, g.Armed) : u.Catches := by
  have stashed : Frame.Guarded (f :: rest) := hframes ▸ h.stashed
  have recorded := hleft.recorded.stashed
  have follows := hleft.follows
  rw [← hcalls] at recorded follows
  generalize hl : u.machine.calls.frames = frames at recorded follows
  cases follows with
  | removed =>
    exact catches_of_frames [] h hframes hl (by simp) hpending stashed.2
  | replaced v =>
    exact catches_of_frames [_] h hframes hl (by simp) hpending ⟨nofun, stashed.2⟩
  | updated busy =>
    obtain ⟨vs, g, rfl, hvalue, hfew, hloops⟩ := busy
    have loops (g' : Frame) (hg' : g' ∈ (Frame.queued vs ++ [g]).tail) (hloop : g'.IsLoop) :
        g'.Armed ∨ g'.state = .pop := by
      cases vs with
      | nil => cases hg'
      | cons v vs =>
        -- no more than one frame was queued
        obtain rfl : vs = [] := List.eq_nil_of_length_eq_zero (by simpa using hfew)
        obtain rfl := List.mem_singleton.1 hg'
        rw [Frame.IsLoop, hvalue] at hloop
        exact hloops (List.cons_ne_nil v []) hloop
    have mem : g ∈ Frame.queued vs ++ g :: rest := List.mem_append_right _ (.head rest)
    have guarded : Frame.Guarded (Frame.queued vs ++ [g] ++ rest) := by
      rw [List.append_assoc]
      exact Frame.guarded_queued ⟨recorded g mem, stashed.2⟩
    exact catches_of_frames _ h hframes (hl.trans (List.append_cons _ g rest)) loops hpending
      guarded

/-- **A cycle** breaks no rule. -/
theorem Catches.cycle (hΓ : ∀ p, ¬ Γ.supplies p) (sound : s.machine.Sound Γ 0 0)
    (sane : s.machine.Sane s.machine.pending.isSome) (h : s.Catches)
    (ht : (Session.cycle Natives.none s).state? = some t) : t.Catches := by
  cases hframes : s.machine.calls.frames with
  | nil =>
    unfold Session.cycle at ht
    rw [theMachine_bind, hframes] at ht
    exact Option.some.inj ht ▸ h
  | cons f rest =>
    by_cases hbreak : ∃ p, s.machine.pending = some p ∧ p.exception.condition = .loopBreak
    · obtain ⟨p, hp, hbreak⟩ := hbreak
      exact h.passed hΓ sound sane hframes hp hbreak ht
    have hcalm (p : PendingException) (hp : s.machine.pending = some p) :
        p.exception.condition ≠ .loopBreak := fun hb => hbreak ⟨p, hp, hb⟩
    rcases cycle_yields hΓ sound sane hframes (h.step sound hΓ sane hframes hcalm) ht with
      hleft | ⟨e, u, q, failed, ordinary, hcalls, hq, hcondition⟩
    · exact h.left hframes hleft rfl hleft.recorded.pending
    · obtain ⟨hleft, hbreaks⟩ := failed.resolve_left ordinary
      refine h.left hframes hleft hcalls fun p hp hbreak => ?_
      obtain rfl := Option.some.inj (hq.symm.trans hp)
      rcases hcondition with hcondition | hcondition
      · obtain ⟨-, g, hg, hloop, hstate⟩ := hbreaks (hcondition.symm.trans hbreak)
        exact ⟨g, hg, (h.loops g (by rw [hframes]; exact hg) hloop).resolve_right hstate⟩
      · rw [hcondition] at hbreak
        cases hbreak

/-! ### What a break meets -/

/-- The break `p` is on its way to the loop of the frame `g`, above the frames `rest`. -/
inductive Guards (g : Frame) (rest : List Frame) (p : PendingException) (s : Session χ) : Prop
  /-- It is pending, and no frame above `g` is that of another loop that is armed. -/
  | pending (above : List Frame) (hframes : s.machine.calls.frames = above ++ g :: rest)
    (hclear : ∀ f ∈ above, ¬ f.Armed) (hp : s.machine.pending = some p)
  /-- It is set aside in the frame of a `finally` above `g` whose finalizer is at work. -/
  | aside (above between : List Frame) (f : Frame)
    (hframes : s.machine.calls.frames = above ++ f :: (between ++ g :: rest))
    (hf : f.value.toOperator? = some (.builtin .ensure)) (hstate : f.state = Operation.finalizing)
    (hstash : f.stash = some p) (hclear : ∀ f ∈ between, ¬ f.Armed)

/-- A cycle from `s` to `t` invokes the loop of the frame `g`, above the frames `rest`, on its way
out while `p` is pending, and the loop takes it away. -/
structure Catching (g : Frame) (rest : List Frame) (p : PendingException) (s t : Session χ) :
    Prop where
  frames : s.machine.calls.frames = g :: rest
  pending : s.machine.pending = some p
  /-- The loop is invoked. -/
  invoked : ∃ b : Builtin, b.isLoop = true ∧ g.value.toOperator? = some (.builtin b) ∧
    step Natives.none rest.length g s = resume rest.length .callBeforePop
      (fun params => onMachine ((b.operation params).runOn (some rest.length))) s
  cycle : (Session.cycle Natives.none s).state? = some t
  below : t.machine.calls.frames = rest
  taken : t.machine.pending = none

/-- An exception has taken the place of the break `p`, which is set aside in the top frame, that of
a `finally` above `g`. -/
def Superseded (g : Frame) (rest : List Frame) (p : PendingException) (s : Session χ) : Prop :=
  ∃ f between q, s.machine.calls.frames = f :: (between ++ g :: rest) ∧
    f.value.toOperator? = some (.builtin .ensure) ∧ f.stash = some p ∧ s.machine.pending = some q

/-- A text is queued. -/
theorem Guards.exec {text origin : String} (h : s.Guards g rest p)
    (ht : (onMachine (Machine.execute (.source text origin)) s).state? = some t) :
    t.Guards g rest p := by
  obtain ⟨hpending, hqueued⟩ := exec_queues ht
  obtain ⟨vs, hframes⟩ : ∃ vs, t.machine.calls.frames =
      Frame.queued vs ++ s.machine.calls.frames :=
    hqueued.elim (fun same => ⟨[], same⟩) fun ⟨v, hv⟩ => ⟨[v], hv⟩
  cases h with
  | pending above hs hclear hp =>
    refine .pending (Frame.queued vs ++ above) (by rw [hframes, hs, List.append_assoc])
      (fun f hf => ?_) (hpending.trans hp)
    rcases List.mem_append.1 hf with hf | hf
    · obtain ⟨v, -, rfl⟩ := Frame.mem_queued.1 hf
      exact Frame.not_armed_fresh v
    · exact hclear f hf
  | aside above between f hs hf hstate hstash hclear =>
    exact .aside (Frame.queued vs ++ above) between f (by rw [hframes, hs, List.append_assoc]) hf
      hstate hstash hclear

/-- The frames below the top one stay as they are. -/
theorem exists_above {natives : Natives χ} {frames : List Frame}
    (hframes : s.machine.calls.frames = f :: frames)
    (ht : (Session.cycle natives s).state? = some t) :
    ∃ above, t.machine.calls.frames = above ++ frames := by
  have handled : f.Handled frames t.machine.calls.frames := (cycle_handles hframes).of_state? ht
  generalize t.machine.calls.frames = l at handled
  cases handled with
  | removed => exact ⟨[], rfl⟩
  | replaced v => exact ⟨[_], rfl⟩
  | updated vs f' _ => exact ⟨Frame.queued vs ++ [f'], by simp⟩

/-- The cycle in which a break meets its loop. -/
theorem catching_of_armed (hΓ : ∀ p, ¬ Γ.supplies p) (sound : s.machine.Sound Γ 0 0)
    (sane : s.machine.Sane s.machine.pending.isSome) (hg : g.Armed)
    (hbreak : p.exception.condition = .loopBreak) (hframes : s.machine.calls.frames = g :: rest)
    (hp : s.machine.pending = some p) (ht : (Session.cycle Natives.none s).state? = some t) :
    Catching g rest p s t := by
  obtain ⟨hstate, b, hb, hloop⟩ := id hg
  have invoked : s.machine.invoked? g = some (.builtin b) := by
    rw [Machine.invoked?, hp, hstate, hb]
    rfl
  have hstep : step Natives.none rest.length g s = resume rest.length .callBeforePop
      (fun params => onMachine ((b.operation params).runOn (some rest.length))) s := by
    have behaves : (Behaviour.ofOperator Natives.none (.builtin b) : Behaviour χ) =
        .function b.signature fun index params =>
          onMachine ((b.operation params).runOn (some index)) := by
      cases b <;> first | rfl | cases hloop
    rw [step_of_invoked invoked, stepOperator_of_popping _ behaves hframes (by rw [hstate]; rfl),
      hstate]
  rcases cycle_yields hΓ sound sane hframes (step_passes sound sane hframes hp hbreak) ht with
    passes | ⟨e, u, q, ⟨-, stuck⟩, -⟩
  · cases passes with
    | caught _ hrest hpending => exact ⟨hframes, hp, ⟨b, hloop, hb, hstep⟩, ht, hrest, hpending⟩
    | removed hf | stays hf => exact absurd hg hf
    | aside w hf => exact absurd hg (Frame.not_armed_of_ensure hf)
  · exact absurd hg (Frame.not_armed_of_ensure stuck.ensure)

/-- **A cycle while a break is on its way**. -/
theorem Guards.cycle (hΓ : ∀ p, ¬ Γ.supplies p) (sound : s.machine.Sound Γ 0 0)
    (sane : s.machine.Sane s.machine.pending.isSome) (hg : g.Armed)
    (hbreak : p.exception.condition = .loopBreak) (h : s.Guards g rest p)
    (ht : (Session.cycle Natives.none s).state? = some t) :
    t.Guards g rest p ∨ Catching g rest p s t ∨ s.Superseded g rest p ∨ t.Superseded g rest p := by
  -- pending: the top frame lets the break pass, or it is the loop; aside: the finalizer works on
  cases h with
  | pending above hframes hclear hp =>
    cases above with
    | nil => exact .inr (.inl (catching_of_armed hΓ sound sane hg hbreak hframes hp ht))
    | cons f above =>
      have clear (f' : Frame) (hf' : f' ∈ above) : ¬ f'.Armed := hclear f' (.tail f hf')
      have unarmed : ¬ f.Armed := hclear f (.head above)
      rcases cycle_yields hΓ sound sane hframes (step_passes sound sane hframes hp hbreak) ht with
        passes | ⟨e, u, q, ⟨-, stuck⟩, -, hcalls, hq, -⟩
      · cases passes with
        | removed _ hrest hpending => exact .inl (.pending above hrest clear hpending)
        | caught harmed => exact absurd harmed unarmed
        | aside w hf hrest hpending =>
          exact .inl (.aside [_] above _ hrest hf rfl rfl clear)
        | stays _ hrest hpending => exact .inl (.pending (f :: above) hrest hclear hpending)
      · exact .inr (.inr (.inr ⟨{ f with stash := some p, state := .pop }, above, q,
          hcalls ▸ stuck.frames, stuck.ensure, rfl, hq⟩))
  | aside above between f hframes hf hstate hstash hclear =>
    cases above with
    | nil =>
      cases hpending : s.machine.pending with
      | some q => exact .inr (.inr (.inl ⟨f, between, q, hframes, hf, hstash, hpending⟩))
      -- the finalizer is done, and the break is pending again
      | none =>
        have hsupply : f.supply = none := Option.eq_none_iff_forall_ne_some.2 fun p hp =>
          hΓ p (sound.supplied f (by simp [hframes]) p hp)
        have invoked : s.machine.invoked? f = some (.builtin .ensure) := by
          rw [Machine.invoked?, hpending, hsupply, hf]
          rfl
        have ended := stepOperator_of_finalizing sound hframes hstate
        rw [← step_of_invoked invoked] at ended
        rcases cycle_yields hΓ sound sane hframes ended ht with ⟨hrest, hback⟩ | ⟨e, u, q, no, -⟩
        · refine .inl (.pending between hrest hclear ?_)
          rw [hback, hpending, hstash]
          rfl
        · exact no.elim
    | cons a above =>
      obtain ⟨top, htop⟩ := exists_above hframes ht
      exact .inl (.aside (top ++ above) between f (htop.trans (List.append_assoc top above _).symm)
        hf hstate hstash hclear)

/-- The break is on its way to its loop all along the course. -/
def Keeps (g : Frame) (rest : List Frame) (p : PendingException) : Session χ → Session χ → Prop :=
  ReflTransGen fun s t => Drives s t ∧ t.Guards g rest p

end Session

/-! ### From the creation of a machine on -/

section

variable {χ α : Type} {options : Options} {setup : Setup α} {m₀ : Machine} {a : α} {μ : Memory}
  {host : χ} {s t : Session χ}

theorem Hosted.of_drives (h : ReflTransGen Session.Drives ⟨m₀, host⟩ s) :
    Hosted (fun _ => False) m₀ s := by
  induction h with
  | refl => exact .start host
  | tail _ step ih =>
    cases step with
    | exec text origin ht => exact .call (.exec text origin) ih nofun ht
    | cycle ht =>
      refine .call .cycle ih nofun ?_
      rename_i u t _
      change ((Session.cycle Natives.none >>= fun _ => pure ()) u).state? = some t
      rw [Action.bind_apply]
      cases hcycle : Session.cycle Natives.none u <;> rw [hcycle] at ht <;> exact ht

/-- What a host that heeds loops reaches from a machine it has created breaks no rule. -/
theorem Session.catches_of_heeds (hcapacity : ∀ t, options.maxMemory = some t → t ≤ Size.limit)
    (hs : setup.SelfContained []) (hm₀ : Machine.create options setup = .done (m₀, a) μ)
    (h : ReflTransGen Session.Heeds ⟨m₀, host⟩ s) : s.Catches := by
  induction h with
  | refl =>
    obtain ⟨idle, unraised⟩ := Machine.idle_of_create hm₀
    refine ⟨by simp [idle], fun p hp => ?_, idle ▸ trivial⟩
    rw [unraised] at hp
    cases hp
  | @tail t u before step ih =>
    have drives : ReflTransGen Session.Drives ⟨m₀, host⟩ t :=
      ReflTransGen.mono (fun _ _ => And.left) _ _ before
    obtain ⟨Γ, hΓ, sound, sane⟩ := (Hosted.of_drives drives).sane_of_create hcapacity hs hm₀
      fun _ _ => False.elim
    by_cases hentering : t.Entering
    · exact ih.cycle hΓ sound sane (step.2 hentering)
    · cases step.1 with
      | exec text origin ht => exact ih.exec hentering ht
      | cycle ht => exact ih.cycle hΓ sound sane ht

/-- A break on its way to its loop goes on, meets the loop, or is superseded. -/
theorem Session.Guards.course {g : Frame} {rest : List Frame} {p : PendingException}
    (hcapacity : ∀ t, options.maxMemory = some t → t ≤ Size.limit)
    (hs : setup.SelfContained []) (hm₀ : Machine.create options setup = .done (m₀, a) μ)
    (reached : ReflTransGen Session.Drives ⟨m₀, host⟩ s) (hg : g.Armed)
    (hbreak : p.exception.condition = .loopBreak) (h : s.Guards g rest p)
    (ht : ReflTransGen Session.Drives s t) :
    Session.Keeps g rest p s t ∨ ∃ u v, Session.Keeps g rest p s u ∧ Session.Drives u v ∧
      (Session.Catching g rest p u v ∨ u.Superseded g rest p ∨ v.Superseded g rest p) ∧
        ReflTransGen Session.Drives v t := by
  -- on the steps of the host: once the break has met its end, what follows does not matter
  induction ht with
  | refl => exact .inl .refl
  | @tail t' t before step ih =>
    rcases ih with keeps | ⟨u, v, keeps, step', ends, after⟩
    · have guards : t'.Guards g rest p := by
        cases keeps with
        | refl => exact h
        | tail _ last => exact last.2
      have next : t.Guards g rest p ∨ Session.Catching g rest p t' t ∨ t'.Superseded g rest p ∨
          t.Superseded g rest p := by
        cases step with
        | exec text origin ht => exact .inl (guards.exec ht)
        | cycle ht =>
          obtain ⟨Γ, hΓ, sound, sane⟩ := (Hosted.of_drives (reached.trans before)).sane_of_create
            hcapacity hs hm₀ fun _ _ => False.elim
          exact guards.cycle hΓ sound sane hg hbreak ht
      rcases next with guards | ends
      · exact .inl (keeps.tail ⟨step, guards⟩)
      · exact .inr ⟨t', t, keeps, step, ends, .refl⟩
    · exact .inr ⟨u, v, keeps, step', ends, after.tail step⟩

/-- The topmost of the frames that are armed. -/
theorem Frame.exists_topmost {frames : List Frame} (h : ∃ f ∈ frames, f.Armed) :
    ∃ above g rest, frames = above ++ g :: rest ∧ g.Armed ∧ ∀ f ∈ above, ¬ f.Armed := by
  induction frames with
  | nil => simp at h
  | cons f frames ih =>
    by_cases hf : f.Armed
    · exact ⟨[], f, frames, rfl, hf, by simp⟩
    · have below : ∃ f ∈ frames, f.Armed := by simpa [hf] using h
      obtain ⟨above, g, rest, rfl, hg, hclear⟩ := ih below
      exact ⟨f :: above, g, rest, rfl, hg, by simpa [hf] using hclear⟩

/-- Only `break` asks for a loop to be left, below it is the frame of a loop, and the break is then
pending above the same frames, unless there is no room to record it. -/
theorem Session.AsksToLeave.breaks {Γ : Charter} {f : Frame} {rest : List Frame}
    (hΓ : ∀ p, ¬ Γ.supplies p) (sound : s.machine.Sound Γ 0 0)
    (sane : s.machine.Sane s.machine.pending.isSome) (h : s.AsksToLeave f rest) :
    f.Breaks rest ∧ ∀ t, (Session.cycle Natives.none s).state? = some t →
      (∃ above, t.machine.calls.frames = above ++ rest) ∧ ∃ q, t.machine.pending = some q ∧
        (q.exception.condition = .loopBreak ∨ q.exception.condition = .memoryOverflow) := by
  obtain ⟨hframes, e, u, hraised, hbreak⟩ := h
  have hsupply : f.supply = none := Option.eq_none_iff_forall_ne_some.2 fun p hp =>
    hΓ p (sound.supplied f (hframes ▸ .head rest) p hp)
  have left := Session.step_left (P := fun _ => True) hframes hsupply
    (sane.cursors f (hframes ▸ .head rest)) ⟨fun _ _ => trivial, fun _ _ _ _ => trivial⟩
  have ordinary := Session.step_sane hΓ sound sane hframes
  rw [hraised] at left ordinary
  refine ⟨(left.resolve_left ordinary.1).2 hbreak,
    fun t ht => ⟨Session.exists_above hframes ht, ?_⟩⟩
  have raises : (Session.step Natives.none rest.length f s).Yields (fun _ _ => False)
      fun e' _ => e' = e := by
    rw [hraised]
    rfl
  rcases Session.cycle_yields hΓ sound sane hframes raises ht with
    no | ⟨_, v, q, rfl, -, -, hq, hcondition⟩
  · exact no.elim
  · exact ⟨q, hq, hbreak ▸ hcondition⟩

/-- **Breaks reach a loop**, for every machine a host can create and every course in which the host
queues texts between cycles.

Only `break` asks for a loop to be left, and below it is the frame of a loop that is not done.
Where a break is pending and the frame of a loop is armed, the topmost such frame stays as it is, and
along every course the break is pending, or set aside above that frame by a `finally` whose finalizer
is at work; until that loop is invoked on its way out with the break pending, and takes it away, or
another exception has taken its place.

There is such a loop whenever the host has let the loops it met begin their rounds. -/
theorem breaks_reach_a_loop (hcapacity : ∀ t, options.maxMemory = some t → t ≤ Size.limit)
    (hs : setup.SelfContained []) (hm₀ : Machine.create options setup = .done (m₀, a) μ)
    (h : ReflTransGen Session.Drives ⟨m₀, host⟩ s) :
    (∀ f rest, s.AsksToLeave f rest → f.Breaks rest ∧
      ∀ t, (Session.cycle Natives.none s).state? = some t →
        (∃ above, t.machine.calls.frames = above ++ rest) ∧ ∃ q, t.machine.pending = some q ∧
          (q.exception.condition = .loopBreak ∨ q.exception.condition = .memoryOverflow)) ∧
      (∀ p, s.machine.pending = some p → p.exception.condition = .loopBreak →
        (∃ f ∈ s.machine.calls.frames, f.Armed) → ∃ above g rest,
          s.machine.calls.frames = above ++ g :: rest ∧ g.Armed ∧ (∀ f ∈ above, ¬ f.Armed) ∧
            ∀ t, ReflTransGen Session.Drives s t → Session.Keeps g rest p s t ∨
              ∃ u v, Session.Keeps g rest p s u ∧ Session.Drives u v ∧
                (Session.Catching g rest p u v ∨ u.Superseded g rest p ∨ v.Superseded g rest p) ∧
                  ReflTransGen Session.Drives v t) ∧
      (ReflTransGen Session.Heeds ⟨m₀, host⟩ s →
        (∀ f rest, s.AsksToLeave f rest → ∃ g ∈ rest, g.Armed) ∧
          ∀ p, s.machine.pending = some p → p.exception.condition = .loopBreak →
            ∃ f ∈ s.machine.calls.frames, f.Armed) := by
  obtain ⟨Γ, hΓ, sound, sane⟩ := (Hosted.of_drives h).sane_of_create hcapacity hs hm₀
    fun _ _ => False.elim
  refine ⟨fun f rest => Session.AsksToLeave.breaks hΓ sound sane, fun p hp hbreak armed => ?_,
    fun heeds => ?_⟩
  · obtain ⟨above, g, rest, hframes, hg, hclear⟩ := Frame.exists_topmost armed
    refine ⟨above, g, rest, hframes, hg, hclear, fun t ht => ?_⟩
    exact (Session.Guards.pending above hframes hclear hp).course hcapacity hs hm₀ h hg hbreak ht
  · have catches := Session.catches_of_heeds hcapacity hs hm₀ heeds
    refine ⟨fun f rest asks => ?_, catches.pending⟩
    obtain ⟨-, g, hg, hloop, hstate⟩ := (asks.breaks hΓ sound sane).1
    have below := catches.loops g
    rw [asks.1] at below
    exact ⟨g, hg, (below hg hloop).resolve_right hstate⟩

end

/-! ### Some courses -/

theorem Session.drives_of_cycles {s t : Session Unit} {n : ℕ}
    (h : HostCall.outcome (List.replicate n .cycle) s = some t) :
    ReflTransGen Session.Drives s t := by
  induction n generalizing s with
  | zero => exact Option.some.inj h ▸ .refl
  | succ n ih =>
    obtain ⟨u, hu, h⟩ := Option.bind_eq_some_iff.1 h
    exact .head (.cycle (Session.state?_bind_of_kept (fun _ _ => rfl) hu)) (ih h)

/-- A text is queued, and some cycles are done. -/
theorem Session.drives_of_text {s t : Session Unit} {text origin : String} {n : ℕ}
    (h : HostCall.outcome (.exec text origin :: List.replicate n .cycle) s = some t) :
    ReflTransGen Session.Drives s t := by
  obtain ⟨u, hu, h⟩ := Option.bind_eq_some_iff.1 h
  exact .head (.exec text origin hu) (Session.drives_of_cycles h)

/-- A break goes past a `stopped`, and past a text the host has queued meanwhile, to its loop.  All
of this stands above another loop, which has not begun its round. -/
theorem breaks_reach_a_loop_past_stopped :
    ∃ (s t : Session Unit) (p : PendingException) (above : List Frame) (g : Frame)
      (rest : List Frame), s.machine.pending = some p ∧ p.exception.condition = .loopBreak ∧
        s.machine.calls.frames = above ++ g :: rest ∧ g.Armed ∧
          (∃ f ∈ s.machine.calls.frames, f.IsLoop ∧ f.state = .unknown) ∧
            ReflTransGen Session.Drives s t ∧ t.machine.calls.frames.length = 3 ∧
              t.machine.pending = none ∧
                (Session.Keeps g rest p s t ∨ ∃ u v, Session.Keeps g rest p s u ∧
                  Session.Drives u v ∧ (Session.Catching g rest p u v ∨ u.Superseded g rest p ∨
                    v.Superseded g rest p) ∧ ReflTransGen Session.Drives v t) := by
  have facts : (Session.tabled.bind fun s₀ => (HostCall.outcome (.exec
      "\x7b \x7d loop" "a" :: List.replicate 8 .cycle) s₀).bind fun r => (HostCall.outcome (.exec
        "\x7b \x7b break \x7d stopped \x7d loop" "b" :: List.replicate 26 .cycle) r).bind fun s =>
          (HostCall.outcome (.exec "1" "c" :: List.replicate 4 .cycle) s).map fun t =>
            (s.machine.condition,
              (s.machine.calls.frames.map fun f => (f.value.toOperator?, f.state)).drop 2,
              t.machine.calls.frames.length, t.machine.pending.isNone)) =
      some (some .loopBreak, [(some (.builtin .loop), .callBeforePop), (none, .unknown),
        (some (.builtin .loop), .unknown), (none, .unknown)], 3, true) := by decide +kernel
  obtain ⟨s₀, hs₀, facts⟩ := Option.bind_eq_some_iff.1 facts
  obtain ⟨r, hr, facts⟩ := Option.bind_eq_some_iff.1 facts
  obtain ⟨s, hs, facts⟩ := Option.bind_eq_some_iff.1 facts
  obtain ⟨t, ht, facts⟩ := Option.map_eq_some_iff.1 facts
  simp only [Prod.mk.injEq] at facts
  obtain ⟨hcondition, hloops, hlength, hpending⟩ := facts
  obtain ⟨m, μ, hm, rfl⟩ := Session.create_of_tabled hs₀
  obtain ⟨e, he, hbreak⟩ := Option.map_eq_some_iff.1 hcondition
  obtain ⟨p, hp, rfl⟩ := Option.map_eq_some_iff.1 he
  have found (x : Option Operator × Continuation) (hx : x ∈ (s.machine.calls.frames.map
      fun f => (f.value.toOperator?, f.state)).drop 2) :
      ∃ f ∈ s.machine.calls.frames, f.value.toOperator? = x.1 ∧ f.state = x.2 := by
    obtain ⟨f, hf, rfl⟩ := List.mem_map.1 (List.mem_of_mem_drop hx)
    exact ⟨f, hf, rfl, rfl⟩
  rw [hloops] at found
  obtain ⟨f, hf, hvalue, hstate⟩ := found (some (.builtin .loop), .callBeforePop) (by simp)
  obtain ⟨f', hf', hvalue', hstate'⟩ := found (some (.builtin .loop), .unknown) (by simp)
  have course : ReflTransGen Session.Drives s t := Session.drives_of_text ht
  obtain ⟨above, g, rest, hs, hg, -, hcourse⟩ := (breaks_reach_a_loop Session.capacity_of_tabled
    Setup.selfContained_table hm ((Session.drives_of_text hr).trans
      (Session.drives_of_text hs))).2.1 p hp hbreak ⟨f, hf, hstate, .loop, hvalue, rfl⟩
  exact ⟨s, t, p, above, g, rest, hp, hbreak, hs, hg,
    ⟨f', hf', by rw [Frame.IsLoop, hvalue']; rfl, hstate'⟩, course, hlength,
    Option.isNone_iff_eq_none.1 hpending, hcourse t course⟩

/-- The sessions some cycles pass through. -/
def Session.passed : ℕ → Session Unit → List (Session Unit)
  | 0, s => [s]
  | n + 1, s => s :: ((Session.cycle Natives.none s).state?.map (passed n)).getD []

/-- The frame of a loop is the top one, and a break is pending. -/
def Machine.meetsLoop (m : Machine) : Bool :=
  m.condition == some .loopBreak &&
    m.calls.frames.head?.any fun f => f.value.toOperator?.any Operator.isLoop

/-- Not every break meets a loop.  The exception of a finalizer that stops takes the place of the
break, so the loop is invoked with another exception pending.  And where a host queues `break` on
top of a loop that has not begun, the break goes past it and is pending when no work is left. -/
theorem break_may_miss_its_loop :
    ∃ s₀, Session.tabled = some s₀ ∧
      (∃ s, HostCall.outcome [.exec "\x7b \x7b break \x7d \x7b stop \x7d finally \x7d loop" "-",
          .run 35] s₀ = some s ∧ s.machine.condition = some .loopBreak ∧
        ((s.passed 9).map fun t => t.machine.meetsLoop) = List.replicate 10 false ∧
          ((s.passed 9).getLast?.map fun t => (t.machine.calls.frames, t.machine.condition)) =
            some ([], some .stop)) ∧
      ∃ s, HostCall.outcome [.exec "\x7b \x7d loop" "a", .run 8, .exec "break" "b", .run 8] s₀ =
          some s ∧ s.machine.calls.frames = [] ∧ s.machine.condition = some .loopBreak := by
  have superseded : (Session.tabled.bind fun s₀ => (HostCall.outcome
      [.exec "\x7b \x7b break \x7d \x7b stop \x7d finally \x7d loop" "-", .run 35] s₀).map
        fun s => (s.machine.condition, (s.passed 9).map fun t => t.machine.meetsLoop,
          (s.passed 9).getLast?.map fun t => (t.machine.calls.frames, t.machine.condition))) =
      some (some .loopBreak, List.replicate 10 false, some ([], some .stop)) := by decide +kernel
  have missed : (Session.tabled.bind fun s₀ => (HostCall.outcome
      [.exec "\x7b \x7d loop" "a", .run 8, .exec "break" "b", .run 8] s₀).map
        fun s => (s.machine.calls.frames, s.machine.condition)) =
      some ([], some .loopBreak) := by decide +kernel
  obtain ⟨s₀, hs₀, superseded⟩ := Option.bind_eq_some_iff.1 superseded
  obtain ⟨s, hs, superseded⟩ := Option.map_eq_some_iff.1 superseded
  rw [hs₀] at missed
  obtain ⟨t, ht, missed⟩ := Option.map_eq_some_iff.1 missed
  simp only [Prod.mk.injEq] at superseded missed
  exact ⟨s₀, hs₀, ⟨s, hs, superseded⟩, t, ht, missed⟩

end StackScript
