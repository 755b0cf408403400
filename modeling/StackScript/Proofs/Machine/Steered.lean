import StackScript.Proofs.Machine.Sustained
import StackScript.Proofs.Operator.Transitions

/-!
# Frames that are steered

A frame on its way out stands where its operator has asked to stand, and builtins ask for little
(`Frame.SteeredBy`): it is one of `loop`, `repeat`, `stopped` or `finally`, or that of an operator of the
host (`Followed.steeredBy`).  Without operators of a host it is one of the former (`Frame.Steered`).
This holds whatever a host does, also if it clears exceptions at a bad time (`Followed.steered`).
-/

namespace StackScript

/-- A frame on its way out is that of a builtin that may stand there; a supply is no operator. -/
structure Frame.Steered (f : Frame) : Prop where
  supplied : f.supply.isSome → f.value.toOperator? = none
  defers : f.state.isPopping = true →
    ∃ b : Builtin, f.value.toOperator? = some (.builtin b) ∧ b.Defers f.state

/-- The frame of an operator takes nothing from the host. -/
theorem Frame.supply_eq_none {f : Frame} {o : Operator}
    (hf : f.supply.isSome → f.value.toOperator? = none) (ho : f.value.toOperator? = some o) :
    f.supply = none := by
  by_contra hs
  rw [hf (Option.isSome_iff_ne_none.2 hs)] at ho
  cases ho

/-- Where an operator may stand on its way out, as far as the machine knows. -/
def Operator.Defers : Operator → Continuation → Prop
  | .builtin b, c => b.Defers c
  | .native .., _ => True

/-- Where it may stand if the host has no operators. -/
def Operator.DefersAlone : Operator → Continuation → Prop
  | .builtin b, c => b.Defers c
  | .native .., _ => False

/-- A frame on its way out is that of an operator that `D` lets stand there; a supply is no
operator. -/
structure Frame.SteeredBy (D : Operator → Continuation → Prop) (f : Frame) : Prop where
  supplied : f.supply.isSome → f.value.toOperator? = none
  defers : f.state.isPopping = true → ∃ o, f.value.toOperator? = some o ∧ D o f.state

/-- `D` knows of the builtins. -/
class Continuation.Admits (D : Operator → Continuation → Prop) : Prop where
  builtin : ∀ {b : Builtin} {c : Continuation}, b.Defers c → D (.builtin b) c

instance : Continuation.Admits Operator.Defers := ⟨id⟩

instance : Continuation.Admits Operator.DefersAlone := ⟨id⟩

variable {D : Operator → Continuation → Prop}

theorem Frame.SteeredBy.steered {f : Frame} (h : f.SteeredBy Operator.Defers)
    (hf : f.state.isPopping = true → ∀ name looping, f.value.toOperator? ≠ some (.native name looping)) :
    f.Steered where
  supplied := h.supplied
  defers hpopping := by
    obtain ⟨o, ho, hdefers⟩ := h.defers hpopping
    cases o with
    | builtin b => exact ⟨b, ho, hdefers⟩
    | native name looping => exact absurd ho (hf hpopping name looping)

theorem Frame.SteeredBy.of_same {f g : Frame} (h : f.SteeredBy D) (hvalue : g.value = f.value)
    (hsupply : g.supply = f.supply) (hstate : g.state = f.state) : g.SteeredBy D where
  supplied := by rw [hvalue, hsupply]; exact h.supplied
  defers := by rw [hvalue, hstate]; exact h.defers

theorem Frame.steered_of_unknown {f : Frame} (hsupply : f.supply.isSome → f.value.toOperator? = none)
    (hstate : f.state = .unknown) : f.SteeredBy D where
  supplied := hsupply
  defers h := by
    rw [hstate] at h
    cases h

theorem Frame.steered_fresh (v : Value) : Frame.SteeredBy D { value := v } :=
  steered_of_unknown nofun rfl

namespace Machine

variable {m m' : Machine} {i : ℕ} {f : Frame} {rest : List Frame} {o : Operator}

/-- Every frame is steered. -/
def SteeredBy (D : Operator → Continuation → Prop) (m : Machine) : Prop :=
  ∀ f ∈ m.calls.frames, f.SteeredBy D

/-- What a frame executes, what is supplied to it, and its continuation state. -/
def bearings (m : Machine) : List (Value × Option Supply × Continuation) :=
  m.calls.frames.map fun f => (f.value, f.supply, f.state)

theorem SteeredBy.of_bearings (h : m.SteeredBy D) (hb : m'.bearings = m.bearings) : m'.SteeredBy D := by
  intro g hg
  have mem : (g.value, g.supply, g.state) ∈ m'.bearings := List.mem_map.2 ⟨g, hg, rfl⟩
  rw [hb] at mem
  obtain ⟨f, hf, same⟩ := List.mem_map.1 mem
  injection same with hvalue same
  injection same with hsupply hstate
  exact (h f hf).of_same hvalue.symm hsupply.symm hstate.symm

theorem SteeredBy.of_calls (h : m.SteeredBy D) (hc : m'.calls = m.calls) : m'.SteeredBy D :=
  fun f hf => h f (hc ▸ hf)

/-- The frame with `i` frames below it executes the operator. -/
def Executes (m : Machine) (i : ℕ) (o : Operator) : Prop :=
  ∃ f, m.calls.frame? i = some f ∧ f.value.toOperator? = some o

/-- The frame of an operator has come to a state its operator may stand in. -/
theorem SteeredBy.withState (h : m.SteeredBy D) (hf : m.calls.frame? i = some f) {next : Continuation}
    (hnext : next.isPopping = true →
      ∃ o, f.value.toOperator? = some o ∧ D o next) :
    (m.withFrame i fun f => { f with state := next }).SteeredBy D := by
  intro g hg
  rcases CallStack.mem_update hg with hg | ⟨f', hf', rfl⟩
  · exact h g hg
  · obtain rfl := Option.some.inj (hf.symm.trans hf')
    exact ⟨(h _ (CallStack.mem_frames_of_frame? hf)).supplied, hnext⟩

theorem Executes.of_edited (h : m.Executes i o) (he : m.calls.Edited (some i) m'.calls) :
    m'.Executes i o := by
  obtain ⟨f, hf, ho⟩ := h
  generalize hc : m'.calls = c at he
  cases he with
  | kept => exact ⟨f, hc ▸ hf, ho⟩
  | queued v hframes =>
    refine ⟨f, ?_, ho⟩
    rw [hc, CallStack.frame?_of_frames hframes, if_neg (CallStack.lt_length_of_frame? hf).ne, hf]
  | @revised j f' g howner hf' hvalue _ _ _ =>
    obtain rfl := Option.some.inj howner
    obtain rfl := Option.some.inj (hf.symm.trans hf')
    refine ⟨g f, ?_, hvalue ▸ ho⟩
    rw [hc, CallStack.frame?_update (CallStack.lt_length_of_frame? hf), if_pos rfl, hf]
    rfl

/-- The top frame has been turned. -/
theorem SteeredBy.of_turned (h : m.SteeredBy D) (hframes : m.calls.frames = f :: rest)
    (ht : f.Turned rest m'.calls.frames) : m'.SteeredBy D := by
  have hf : f.SteeredBy D := h f (hframes ▸ .head rest)
  have hrest (g : Frame) (hg : g ∈ rest) : g.SteeredBy D := h g (hframes ▸ .tail f hg)
  intro g hg
  generalize m'.calls.frames = frames at ht hg
  cases ht with
  | kept => exact (List.mem_cons.1 hg).elim (fun hg => hg ▸ hf) (hrest g)
  | removed => exact hrest g hg
  | replaced v _ =>
    exact (List.mem_cons.1 hg).elim (fun hg => hg ▸ Frame.steered_fresh v) (hrest g)
  | advanced cursor supply queued _ hsupply _ =>
    rw [List.mem_append, List.mem_cons, List.mem_map] at hg
    rcases hg with ⟨v, -, rfl⟩ | rfl | hg
    · exact Frame.steered_fresh v
    · exact ⟨by rw [hsupply]; exact hf.supplied, hf.defers⟩
    · exact hrest g hg

/-! ### Requests -/

theorem SteeredBy.of_queues (h : m.SteeredBy D) (hq : m.Queues m') : m'.SteeredBy D := by
  obtain ⟨vs, hvs⟩ := hq.frames
  intro f hf
  rw [hvs] at hf
  rcases List.mem_append.1 hf with hf | hf
  · obtain ⟨v, -, rfl⟩ := Frame.mem_queued.1 hf
    exact Frame.steered_fresh v
  · exact h f hf

end Machine

namespace Request

open Machine

variable {m : Machine} {i : ℕ} {o : Operator} {own : Option ℕ}

/-- Nothing but a transition changes where a frame stands. -/
theorem perform_steered {r : Request} (hr : ∀ next, r ≠ .setState next) (own : Option ℕ)
    (h : m.SteeredBy D) :
    (r.perform own m).Meets True (fun _ m' => m'.SteeredBy D) fun m' => m'.SteeredBy D := by
  by_cases hg : r.governs = false
  · exact (perform_queues hg own m).mono (fun _ _ => h.of_queues) fun _ => h.of_queues
  have spared {α : Type} {x : Action Machine α} (hx : Spares bearings x) :
      (x m).Meets True (fun _ m' => m'.SteeredBy D) fun m' => m'.SteeredBy D :=
    (hx m).mono (fun _ _ => h.of_bearings) fun _ => h.of_bearings
  have bearings {g : Frame → Frame}
      (hg : ∀ f, ((g f).value, (g f).supply, (g f).state) = (f.value, f.supply, f.state))
      (m : Machine) (j : ℕ) : Machine.bearings { m with calls := m.calls.update j g } = m.bearings :=
    CallStack.map_update _ hg j
  cases r with
  | setState next => exact absurd rfl (hr next)
  | intercept => exact spared (spares_intercept fun _ _ _ => rfl)
  | setLocal name v =>
    exact spared (spares_onOwn fun j => spares_setLocal (fun _ _ => rfl)
      (fun m _ => bearings (by exact fun _ => rfl) m j) name v)
  | stash =>
    exact spared (spares_onOwn fun j => spares_stash (fun _ _ _ => rfl)
      fun m _ => bearings (by exact fun _ => rfl) m j)
  | restore =>
    exact spared (spares_onOwn fun j => spares_restore (fun _ _ _ => rfl)
      fun m _ => bearings (by exact fun _ => rfl) m j)
  | _ => exact absurd rfl hg

/-- An operator that asks to stand where it may is steered. -/
theorem perform_of_steers {r : Request}
    (hr : ∀ next, r = .setState next → next.isPopping = true → D o next)
    (h : m.SteeredBy D ∧ m.Executes i o) :
    (r.perform (some i) m).Meets True (fun _ m' => m'.SteeredBy D ∧ m'.Executes i o)
      fun m' => m'.SteeredBy D ∧ m'.Executes i o := by
  have steered : (r.perform (some i) m).Meets True (fun _ m' => m'.SteeredBy D)
      fun m' => m'.SteeredBy D := by
    by_cases hs : ∃ next, r = .setState next
    · obtain ⟨next, rfl⟩ := hs
      refine (setState_frames i next m).mono ?_ ?_
      · rintro _ _ ⟨f, hf, -, rfl⟩
        obtain ⟨f', hf', ho⟩ := h.2
        obtain rfl := Option.some.inj (hf.symm.trans hf')
        exact h.1.withState hf fun hnext => ⟨o, ho, hr next rfl hnext⟩
      · rintro _ rfl
        exact h.1
    · exact perform_steered (fun next hn => hs ⟨next, hn⟩) (some i) h.1
  exact (steered.and (r.perform_edits (some i) m)).mono
    (fun _ _ hm => ⟨hm.1, h.2.of_edited hm.2⟩) fun _ hm => ⟨hm.1, h.2.of_edited hm.2⟩

end Request

/-- Work is queued. -/
theorem Machine.execute_steered (work : Work) {m : Machine} (h : m.SteeredBy D) :
    (execute work m).Meets True (fun _ m' => m'.SteeredBy D) fun m' => m'.SteeredBy D := by
  have pushed (f : Frame) (hf : f.SteeredBy D) (m₁ : Machine) (h₁ : m₁.calls = m.calls) :
      (onCalls (fun c => c.push f) m₁).Meets True (fun _ m' => m'.SteeredBy D) fun m' => m'.SteeredBy D := by
    refine (pushFrame_frames f m₁).mono (fun _ m' hm g hg => ?_) fun m' hm => h.of_calls (hm.trans h₁)
    rw [hm, h₁] at hg
    exact (List.mem_cons.1 hg).elim (fun hg => hg ▸ hf) (h g)
  cases work with
  | source text origin => exact pushed _ (Frame.steered_fresh _) m rfl
  | supply supply => exact pushed _ (Frame.steered_of_unknown (fun _ => rfl) rfl) m rfl
  | values values =>
    have released (block : Value) (m₁ : Machine) (h₁ : m₁.SteeredBy D) :
        (release block m₁).Meets True (fun _ m' => m'.SteeredBy D) fun m' => m'.SteeredBy D :=
      (onMemory_calls _ m₁).mono (fun _ _ => h₁.of_calls) fun _ => h₁.of_calls
    have created : Spares Machine.calls (createArray .block values) :=
      spares_createArray (fun _ _ => rfl) _ _
    refine Action.meets_bind ((created m).mono (fun _ _ => id) fun _ => h.of_calls)
      fun block m₁ h₁ => ?_
    exact Action.meets_ensuring (pushed _ (Frame.steered_fresh block) m₁ h₁)
      (fun _ => released block) (released block)

/-! ### Watched sessions -/

namespace Watched

variable {χ α : Type} {w : Watched χ}

/-- Noting an action, of which only the machine it leaves matters. -/
theorem note_meets {x : Action (Session χ) α} {P F : Machine → Prop}
    (hx : (x w.session).Meets True (fun _ t => P t.machine) fun t => F t.machine) :
    (note x w).Meets True (fun _ v => P v.machine) fun v => F v.machine := by
  unfold note
  cases ho : x w.session with
  | done a t => rw [ho] at hx; exact hx
  | raised e t => rw [ho] at hx; exact hx
  | broken b => trivial

/-- An operation that asks for what a builtin may be granted. -/
theorem runOn_of_steers [Continuation.Admits D] {b : Builtin} {i : ℕ} {p : Operation α}
    (hp : p.Asks b.Steers) (h : w.machine.SteeredBy D ∧ w.machine.Executes i (.builtin b)) :
    (runOn (some i) p w).Meets True
      (fun _ v => v.machine.SteeredBy D ∧ v.machine.Executes i (.builtin b))
      fun v => v.machine.SteeredBy D ∧ v.machine.Executes i (.builtin b) := by
  induction p generalizing w with
  | done a => exact h
  | raise e => exact h
  | broken b => trivial
  | ask r next failed ihn ihf =>
    have asked (next : Continuation) (hr : r = .setState next) (hnext : next.isPopping = true) :
        D (.builtin b) next := by
      subst hr
      exact Continuation.Admits.builtin (hp.1 hnext)
    exact Program.meets_ask (note_meets (P := fun m => m.SteeredBy D ∧ m.Executes i (.builtin b))
      (F := fun m => m.SteeredBy D ∧ m.Executes i (.builtin b))
      (Session.meets_onMachine (r.perform_of_steers asked h)))
      (fun a v hv => ihn a (hp.2.1 a) hv) fun e v hv => ihf e (hp.2.2 e) hv

/-- Something that leaves the call frames alone. -/
theorem note_of_spared {x : Action Machine α} {P : Machine → Prop}
    (hx : Machine.Spares Machine.calls x) (hP : ∀ m : Machine, m.calls = w.machine.calls → P m) :
    (note (Session.onMachine x) w).Meets True (fun _ v => P v.machine) fun v => P v.machine :=
  note_meets (Session.meets_onMachine ((hx w.machine).mono (fun _ m => hP m) fun m => hP m))

theorem popFrame_steered (h : w.machine.SteeredBy D) :
    (note Session.popFrame w).Meets True (fun _ v => v.machine.SteeredBy D)
      fun v => v.machine.SteeredBy D := by
  refine note_meets (P := Machine.SteeredBy D) (F := Machine.SteeredBy D)
    (Session.meets_onMachine ((Machine.popFrame_frames w.machine).mono ?_ fun _ => h.of_calls))
  rintro _ m ⟨f, hf⟩ g hg
  exact h g (hf ▸ .tail f hg)

/-- The operator `o` is at work in the frame with `i` frames below it. -/
def Steers (D : Operator → Continuation → Prop) (o : Operator) (i : ℕ) (w : Watched χ) : Prop :=
  w.machine.SteeredBy D ∧ w.machine.Executes i o

/-- The operators of the host stand where `D` lets them. -/
def Steerable (D : Operator → Continuation → Prop) (natives : Natives χ) : Prop :=
  ∀ name looping i params,
    Leads (Steers D (.native name looping) i) (Steers D (.native name looping) i)
      (invoke natives (.native name looping) i params)

/-- They may stand anywhere. -/
theorem steerable_defers (natives : Natives χ) : Steerable Operator.Defers natives :=
  fun name looping i params => leads_invoke (fun r _ hw => note_meets
    (P := fun m => m.SteeredBy Operator.Defers ∧ m.Executes i (.native name looping))
    (F := fun m => m.SteeredBy Operator.Defers ∧ m.Executes i (.native name looping))
    (Session.meets_onMachine (r.perform_of_steers (fun _ _ _ => trivial) hw)))
    (fun _ _ hw => hw) _ params

theorem steerable_none : Steerable D (Natives.none : Natives χ) := fun _ _ _ _ _ hw => hw

/-- **Every move leaves the frames steered.** -/
theorem steered_sustained [Continuation.Admits D] {natives : Natives χ}
    (hn : Steerable D natives) :
    Sustains natives (fun w => w.machine.SteeredBy D) fun o i _ => Steers D o i where
  silent w f rest h hframes ho := by
    have hf : f.SteeredBy D := h f (hframes ▸ .head rest)
    exact note_meets (P := Machine.SteeredBy D) (F := Machine.SteeredBy D)
      ((Session.step_turns hframes hf.supplied ho).mono (fun _ _ => h.of_turned hframes)
        fun _ => h.of_turned hframes)
  constant w f rest o v h hframes _ _ :=
    note_meets (P := Machine.SteeredBy D) (F := Machine.SteeredBy D)
      ((Session.pushOperand_popFrame_turns v hframes).mono (fun _ _ => h.of_turned hframes)
        fun _ => h.of_turned hframes)
  spent w _ _ _ h _ _ _ := popFrame_steered h
  dispatched w f rest o _ params h hframes ho _ _ := by
    have hf := CallStack.frame?_length_of_frames hframes
    have executes := Machine.toOperator?_of_invoked? ho
    have begun : (note (Session.onMachine (Machine.setState rest.length .firstCall)) w).Meets True
        (fun _ v => v.Steers D o rest.length) fun v => v.machine.SteeredBy D := by
      refine note_meets (P := fun m => m.SteeredBy D ∧ m.Executes rest.length o) (F := Machine.SteeredBy D)
        (Session.meets_onMachine ((Machine.setState_frames _ _ w.machine).mono ?_ ?_))
      · rintro _ _ ⟨g, hg, -, rfl⟩
        obtain rfl := Option.some.inj (hf.symm.trans hg)
        exact ⟨h.withState hf nofun, _, Machine.frame?_withFrame hf _, executes⟩
      · rintro _ rfl
        exact h
    refine Action.meets_bind begun fun _ v hv => ?_
    exact (note_of_spared (P := fun m => m.SteeredBy D ∧ m.Executes rest.length o)
      (Machine.onMemory_calls _) fun m hm => ⟨hv.1.of_calls hm, by
        rw [Machine.Executes, hm]; exact hv.2⟩).mono (fun _ _ => id) fun _ hv => hv.1
  resumed w f rest o h hframes ho _ :=
    ⟨h, f, CallStack.frame?_length_of_frames hframes, Machine.toOperator?_of_invoked? ho⟩
  invoked o i params w h := by
    cases o with
    | builtin b => exact runOn_of_steers (b.operation_steers params) h
    | native name looping => exact hn name looping i params w h
  released o i params w h :=
    note_of_spared (P := fun m => m.SteeredBy D ∧ m.Executes i o) (Machine.onMemory_calls _)
      fun m hm => ⟨h.1.of_calls hm, by rw [Machine.Executes, hm]; exact h.2⟩
  done o i w h := by
    obtain ⟨f, hf, ho⟩ := h.2
    refine note_meets (P := fun m => m.SteeredBy D ∧ m.Executes i o)
      (F := fun m => m.SteeredBy D ∧ m.Executes i o)
      (Session.meets_onMachine ((Machine.setState_frames i .pop w.machine).mono ?_ ?_))
    · rintro _ _ ⟨g, hg, -, rfl⟩
      obtain rfl := Option.some.inj (hf.symm.trans hg)
      exact ⟨h.1.withState hf nofun, _, Machine.frame?_withFrame hf _, ho⟩
    · rintro _ rfl
      exact h
  removed o i w h := popFrame_steered h.1
  abandoned o i w h := by
    obtain ⟨f, hf, ho⟩ := h.2
    refine note_meets (P := Machine.SteeredBy D) (F := Machine.SteeredBy D)
      (Session.meets_onMachine ((Machine.updateFrame_frames (F := fun _ => False) i _
        w.machine).mono ?_ fun _ => False.elim))
    rintro _ _ ⟨rfl, -⟩
    exact h.1.withState hf nofun
  left o i w h := h.1
  raised e w h := note_of_spared (P := Machine.SteeredBy D)
    (Machine.spares_raise (fun _ _ _ _ => rfl) e) fun m hm => Machine.SteeredBy.of_calls h hm

end Watched

/-- **Whatever a host does**, the frames are steered. -/
theorem Followed.sustains_steered [Continuation.Admits D] {χ : Type} {natives : Natives χ}
    {m₀ : Machine} {w : Watched χ} (hn : Watched.Steerable D natives)
    (hm₀ : m₀.calls.frames = []) (h : Followed natives m₀ w) : w.machine.SteeredBy D := by
  induction h with
  | start host =>
    intro f hf
    change f ∈ m₀.calls.frames at hf
    rw [hm₀] at hf
    cases hf
  | act c _ hc ih =>
    have kept : Watched.Leads (fun w => w.machine.SteeredBy D) (fun w => w.machine.SteeredBy D)
        (c.watch natives) := by
      refine (Watched.steered_sustained hn).act c (fun r _ w h => ?_) fun work _ w h => ?_
      · refine Watched.note_meets (P := Machine.SteeredBy D) (F := Machine.SteeredBy D)
          (Session.meets_onMachine ?_)
        by_cases hs : ∃ next, r = .setState next
        · obtain ⟨next, rfl⟩ := hs
          exact h
        · exact r.perform_steered (fun next hn => hs ⟨next, hn⟩) none h
      · exact Watched.note_meets (P := Machine.SteeredBy D) (F := Machine.SteeredBy D)
          (Session.meets_onMachine (Machine.execute_steered work h))
    exact Outcome.Meets.of_state? (P := fun w : Watched χ => w.machine.SteeredBy D) (kept _ ih) hc

/-- Frames of builtins stand where their operators may. -/
theorem Followed.steeredBy {χ : Type} {natives : Natives χ} {m₀ : Machine} {w : Watched χ}
    (hm₀ : m₀.calls.frames = []) (h : Followed natives m₀ w) :
    w.machine.SteeredBy Operator.Defers :=
  h.sustains_steered (Watched.steerable_defers natives) hm₀

/-- Without operators of the host, there are no others on their way out. -/
theorem Followed.steered {χ : Type} {m₀ : Machine} {w : Watched χ} (hm₀ : m₀.calls.frames = [])
    (h : Followed Natives.none m₀ w) : ∀ f ∈ w.machine.calls.frames, f.Steered := by
  intro f hf
  obtain ⟨supplied, defers⟩ := h.sustains_steered (D := Operator.DefersAlone)
    Watched.steerable_none hm₀ f hf
  refine ⟨supplied, fun hpopping => ?_⟩
  obtain ⟨o, ho, hdefers⟩ := defers hpopping
  cases o with
  | builtin b => exact ⟨b, ho, hdefers⟩
  | native name looping => exact hdefers.elim

namespace Session

variable {χ α : Type} {s : Session χ}

theorem state?_onMachine (x : Action Machine α) :
    (onMachine x s).state? = (x s.machine).state?.map fun m => { s with machine := m } := by
  unfold onMachine Action.zoom
  cases x s.machine <;> rfl

theorem state?_bind_pure (x : Action (Session χ) α) :
    ((x >>= fun _ => pure ()) s).state? = (x s).state? := by
  rw [Action.bind_apply]
  cases x s <;> rfl

end Session

/-- A request of a host can be watched. -/
theorem Followed.exists_request {χ : Type} {natives : Natives χ} {m₀ m : Machine} {w : Watched χ}
    {r : Request} (h : Followed natives m₀ w)
    (hm : (r.perform none w.session.machine).state? = some m) :
    ∃ v, Followed natives m₀ v ∧ v.session = { w.session with machine := m } := by
  refine h.exists_act (.request r) ?_
  rw [HostAct.perform, Session.state?_bind_pure, Session.state?_onMachine, hm]
  rfl

/-- Work that a host queues can be watched. -/
theorem Followed.exists_execute {χ : Type} {natives : Natives χ} {m₀ m : Machine} {w : Watched χ}
    {work : Work} (h : Followed natives m₀ w)
    (hm : (Machine.execute work w.session.machine).state? = some m) :
    ∃ v, Followed natives m₀ v ∧ v.session = { w.session with machine := m } := by
  refine h.exists_act (.execute work) ?_
  rw [HostAct.perform, Session.state?_onMachine, hm]
  rfl

/-- What a host reaches can be watched. -/
theorem Reached.followed {χ : Type} {m₀ : Machine} {owned : List Value} {s : Session χ}
    (h : Reached m₀ owned s) : ∃ w, Followed Natives.none m₀ w ∧ w.session = s := by
  induction h with
  | start host => exact ⟨_, .start host, rfl⟩
  | answered _ _ _ hm ih | refused _ _ _ hm ih =>
    obtain ⟨w, hw, rfl⟩ := ih
    exact hw.exists_request (by rw [hm]; rfl)
  | execute _ _ hm ih =>
    obtain ⟨w, hw, rfl⟩ := ih
    exact hw.exists_execute hm
  | cycle _ _ ht ih =>
    obtain ⟨w, hw, rfl⟩ := ih
    exact hw.exists_act .cycle ((Session.state?_bind_pure _).trans ht)
  | @run _ _ _ budget _ _ ht ih =>
    obtain ⟨w, hw, rfl⟩ := ih
    exact hw.exists_act (.run budget) ((Session.state?_bind_pure _).trans ht)
  | complete _ _ ht ih =>
    obtain ⟨w, hw, rfl⟩ := ih
    exact hw.exists_act .complete ((Session.state?_bind_pure _).trans ht)

end StackScript
