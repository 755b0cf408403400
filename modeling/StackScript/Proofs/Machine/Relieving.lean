import StackScript.Proofs.Machine.Ample

/-!
# Exceptions taken away, set aside and brought back

In a sound machine these three do exactly what they say.  Taking an exception away gives the charge of
its record back and changes nothing else (`Machine.intercept_eq`); setting it aside moves it into a
frame (`Machine.stash_eq`), and bringing it back moves it out again, unless another one is pending by
then: then the charge of the one set aside is given back (`Machine.restore_eq`).

An operator that is done lets its frame go, and that is all (`Session.settle_eq_popFrame`).
-/

namespace StackScript

open StackScript.Action

/-! ### Charges that are given back -/

namespace Machine

variable {Γ : Charter} {n : ℕ} {x : Stake} {m : Machine} {f : Frame} {above rest : List Frame}
  {p q : PendingException}

/-- The charge of a record has been given back. -/
def repaid (m : Machine) (p : PendingException) : Machine :=
  { m with memory.ledger := m.memory.ledger.takeBack p.charge.units .system }

/-- The exception has been taken away. -/
def cleared (m : Machine) (p : PendingException) : Machine := { m.repaid p with pending := none }

@[simp] theorem scene_repaid (m : Machine) (p : PendingException) : (m.repaid p).scene = m.scene := rfl

/-- What a machine holds of a record has been charged for. -/
theorem Sound.discharge_eq (h : m.Sound Γ n x) (hp : ∃ y, m.stake = y + p.stake) (m' : Machine)
    (hm' : m'.memory = m.memory) : discharge (some p) m' = .done () (m'.repaid p) := by
  obtain ⟨-, σ, hb, -⟩ := h.memory
  obtain ⟨y, hy⟩ := hp
  have fits : p.charge.units ≤ m'.memory.ledger.held .system := by
    have held := hb.units .system
    rw [hy] at held
    simp only [Stake.units_add, Pi.add_apply, PendingException.stake, Stake.units_charged,
      if_true] at held
    rw [hm']
    omega
  have exact : m'.memory.ledger.Exact Γ.total := hm' ▸ hb.exact
  have released : p.discharge m'.memory = .done () (m'.repaid p).memory := by
    unfold PendingException.discharge Memory.onLedger Action.zoom
    rw [Ledger.release_eq exact p.charge.cost_eq_min fits]
    rfl
  change onMemory p.discharge m' = _
  unfold onMemory Action.zoom
  rw [released]
  rfl

theorem stake_of_pending (hp : m.pending = some p) : ∃ y, m.stake = y + p.stake :=
  ⟨m.operands.stake + m.calls.stake + m.scopes.stake, by rw [stake, hp]; rfl⟩

theorem stake_of_stash (hf : f ∈ m.calls.frames) (hp : f.stash = some p) :
    ∃ y, m.stake = y + p.stake := by
  obtain ⟨y, hy⟩ := CallStack.exists_stake_eq_add hf
  refine ⟨m.operands.stake + (y + (.refs [f.value] + f.locals.elim 0 Stake.localsAt)) +
    m.scopes.stake + m.pending.elim 0 PendingException.stake, ?_⟩
  rw [stake, hy, Frame.stake, Frame.extras, hp, Option.elim_some]
  abel

/-! ### The pending exception -/

/-- The pending exception is taken away. -/
theorem intercept_eq (h : m.Sound Γ n x) (hp : m.pending = some p) (hdoomed : m.isDoomed = false) :
    intercept m = .done (some p.exception) (m.cleared p) := by
  rw [intercept, Action.get_bind]
  simp only [hdoomed, Bool.false_eq_true, if_false]
  rw [Action.bind_done (hp ▸ h.discharge_eq (stake_of_pending hp) m rfl), exception, hp]
  rfl

/-- It is set aside in a frame that has set none aside yet. -/
theorem stash_eq (hframes : m.calls.frames = above ++ f :: rest) (hf : f.stash = none)
    (hp : m.pending = some p) (hdoomed : m.isDoomed = false) :
    stash rest.length m = .done ()
      { m.withFrame rest.length fun f => { f with stash := some p } with pending := none } := by
  have hframe := CallStack.frame?_above hframes
  rw [stash, Action.get_bind]
  simp only [hdoomed, hp, Bool.false_eq_true, if_false]
  rw [frame_bind hframe, hf]
  change (updateFrame rest.length _ >>= fun _ => _) m = _
  rw [Action.bind_done (updateFrame_eq hframe _)]
  rfl

/-- There is none to be set aside. -/
theorem stash_of_none (i : ℕ) (hp : m.pending = none) : stash i m = .done () m := by
  have calm : m.isDoomed = false := by rw [isDoomed, condition, exception, hp]; rfl
  rw [stash, Action.get_bind]
  simp only [calm, hp, Bool.false_eq_true, if_false]
  rfl

/-- What has been set aside in the frame before makes way. -/
theorem stash_eq_of_some (h : m.Sound Γ n x) (hframes : m.calls.frames = above ++ f :: rest)
    (hf : f.stash = some q) (hp : m.pending = some p) (hdoomed : m.isDoomed = false) :
    stash rest.length m = .done ()
      { (m.repaid q).withFrame rest.length fun f => { f with stash := some p } with
        pending := none } := by
  have hframe := CallStack.frame?_above hframes
  have hq := stake_of_stash (hframes ▸ List.mem_append_right _ (.head rest)) hf
  rw [stash, Action.get_bind]
  simp only [hdoomed, hp, Bool.false_eq_true, if_false]
  rw [frame_bind hframe, hf, Action.bind_done (h.discharge_eq hq m rfl)]
  have hframe' : (m.repaid q).calls.frame? rest.length = some f := hframe
  rw [Action.bind_done (updateFrame_eq hframe' _)]
  rfl

/-- Whatever is pending, unless it is fatal, is set aside, and nothing is pending. -/
theorem stash_becomes (h : m.Sound Γ n x) (hframes : m.calls.frames = f :: rest)
    (hf : m.pending = none → f.stash = none) (hdoomed : m.isDoomed = false) :
    ∃ m', stash rest.length m = .done () m' ∧ m.Becomes { m.scene with
      frames := { f with stash := m.pending } :: rest, pending := none } m' := by
  have framed : m.calls.frames = [] ++ f :: rest := hframes
  cases hp : m.pending with
  | none =>
    refine ⟨m, stash_of_none _ hp, ?_, rfl⟩
    rw [show { f with stash := none } = f from hf hp ▸ rfl, scene, hframes, hp]
  | some p =>
    have growth (m : Machine) := growth_update m rest.length fun f => { f with stash := some p }
    have top := CallStack.frames_update_head (fun f => { f with stash := some p }) hframes
    cases hq : f.stash with
    | none =>
      refine ⟨_, stash_eq framed hq hp hdoomed, ?_, growth m⟩
      exact congrArg (fun frames => (⟨_, frames, _, none, _⟩ : Scene)) top
    | some q =>
      refine ⟨_, stash_eq_of_some h framed hq hp hdoomed, ?_, growth (m.repaid q)⟩
      exact congrArg (fun frames => (⟨_, frames, _, none, _⟩ : Scene)) top

/-- What bringing back leaves of the machine in which an exception has been set aside in the frame with
`rest` below it. -/
def restored (m : Machine) (rest : List Frame) : Option PendingException → Machine
  | none => m
  | some p =>
    let m' := m.withFrame rest.length fun f => { f with stash := none }
    match m.pending with
    | none => { m' with pending := some p }
    | some _ => m'.repaid p

/-- The exception set aside is brought back, unless another one is pending by now. -/
theorem restore_eq (h : m.Sound Γ n x) (hframes : m.calls.frames = above ++ f :: rest) :
    restore rest.length m = .done () (m.restored rest f.stash) := by
  have hframe := CallStack.frame?_above hframes
  rw [restore, Action.get_bind, frame_bind hframe]
  cases hp : f.stash with
  | none => rfl
  | some p =>
    dsimp only
    rw [Action.bind_done (updateFrame_eq hframe _), restored]
    cases m.pending with
    | none => rfl
    | some q =>
      exact h.discharge_eq (stake_of_stash (hframes ▸ List.mem_append_right _ (.head rest)) hp) _ rfl

/-- What the machine shows then. -/
theorem restored_becomes (hframes : m.calls.frames = f :: rest) :
    m.Becomes { m.scene with
      frames := { f with stash := none } :: rest, pending := m.pending.or f.stash }
      (m.restored rest f.stash) := by
  have top : (m.withFrame rest.length fun f => { f with stash := none }).calls.frames =
      { f with stash := none } :: rest := CallStack.frames_update_head _ hframes
  have growth := growth_update m rest.length fun f => { f with stash := none }
  cases hp : f.stash with
  | none =>
    rw [restored, Option.or_none, ← hp]
    exact ⟨by rw [scene, hframes], rfl⟩
  | some p =>
    rw [restored]
    cases hq : m.pending with
    | none =>
      refine ⟨?_, growth⟩
      rw [scene, top]
      rfl
    | some q =>
      refine ⟨?_, growth⟩
      rw [scene_repaid, scene, top]
      exact congrArg (fun q => (⟨_, _, _, q, _⟩ : Scene)) hq

end Machine

namespace Operation

variable {Γ : Charter} {n i : ℕ} {x : Stake} {m m' : Machine} {f : Frame} {rest : List Frame}
  {p : PendingException} {b : Builtin}

theorem runOn_intercept {own : Option ℕ} {e : Option Exception}
    (h : Machine.intercept m = .done e m') : intercept.runOn own m = .done e m' := by
  rw [show intercept.runOn own = Machine.intercept from
    Program.run_request (r := Request.intercept) _]
  exact h

/-- **When its block is over**, a loop ends the round. -/
theorem loop_runOn (hb : b.isLoop = true) (hs : m.StateIs i .callBeforePop) :
    (b.operation []).runOn (some i) m = endRound.runOn (some i) m := by
  cases b with
  | loop | repeatBlock =>
    change runOn (some i) (state >>= _) m = _
    rw [runOn_bind (state_runOn hs)]
  | _ => cases hb

/-- Without an exception the next round is due. -/
theorem loop_restarts (hb : b.isLoop = true) (hs : m.StateIs i .callBeforePop)
    (hc : m.condition = none) :
    (b.operation []).runOn (some i) m = Machine.setState i .firstCall m := by
  rw [loop_runOn hb hs, endRound, runOn_bind (runOn_condition (some i) m), hc]
  exact congrFun (runOn_setState i .firstCall) m

/-- A break is taken away, and that is all. -/
theorem loop_breaks (h : m.Sound Γ n x) (hb : b.isLoop = true) (hs : m.StateIs i .callBeforePop)
    (hp : m.pending = some p) (hbreak : p.exception.condition = .loopBreak) :
    (b.operation []).runOn (some i) m = .done () (m.cleared p) := by
  have hc : m.condition = some .loopBreak := by
    rw [Machine.condition, Machine.exception, hp, Option.map_some, Option.map_some, hbreak]
  have calm : m.isDoomed = false := by rw [Machine.isDoomed, hc]; rfl
  rw [loop_runOn hb hs, endRound, runOn_bind (runOn_condition (some i) m), hc]
  dsimp only
  rw [runOn_bind (runOn_intercept (Machine.intercept_eq h hp calm))]
  rfl

/-- **When its finalizer is over**, `finally` brings the exception back, and is done. -/
theorem ensure_restores (h : m.Sound Γ n x) (hframes : m.calls.frames = f :: rest)
    (hs : f.state = finalizing) : ∃ m', (Builtin.ensure.operation []).runOn (some rest.length) m =
      .done () m' ∧ m'.memory = (m.restored rest f.stash).memory ∧ m.Becomes { m.scene with
        frames := { f with stash := none, state := .pop } :: rest
        pending := m.pending.or f.stash } m' := by
  have state : m.StateIs rest.length finalizing := ⟨f, CallStack.frame?_head hframes, hs⟩
  have restored := Machine.restored_becomes hframes
  obtain ⟨m', moved, memory, becomes⟩ :=
    Machine.setState_above [] .pop restored.frames (by dsimp only; rw [hs]; rfl)
  have brought : restore.runOn (some rest.length) m = .done () (m.restored rest f.stash) := by
    rw [show restore.runOn (some rest.length) = Machine.restore rest.length from
      Program.run_request (r := Request.restore) _]
    exact Machine.restore_eq h (show m.calls.frames = [] ++ f :: rest from hframes)
  refine ⟨m', ?_, memory.symm, becomes.scene.trans ?_, becomes.growth.trans restored.growth⟩
  · change runOn _ (Operation.state >>= _) m = _
    rw [runOn_bind (state_runOn state), if_neg (by decide), if_neg (by decide), if_pos rfl,
      runOn_bind brought, runOn_setState]
    exact moved
  · rw [restored.scene]
    rfl

end Operation

/-! ### Frames that go -/

/-- With the top frame go its locals, and no container changes. -/
theorem Machine.popFrame_releases {Γ : Charter} {n : ℕ} {x : Stake} {m m' : Machine} {f : Frame}
    {rest : List Frame} (h : m.Sound Γ n x) (hm : m.Growing) (hframes : m.calls.frames = f :: rest)
    (hpop : popFrame m = .done () m') : m.memory.Sheds m'.memory ∧
      ∀ d, f.locals = some d → ¬ m'.memory.heap.Live d := by
  have granted := Machine.popFrame_grants hm hframes
  rw [hpop] at granted
  obtain ⟨present, σ, hb, -⟩ := h.memory
  rw [stake_eq_calls] at hb
  have popped : (popFrame m).Meets False
      (fun _ m' => ∀ d, f.locals = some d → m'.memory.heap.cell? d = none) fun _ => True :=
    meets_onCalls ((CallStack.pop_meets hb hframes h.calls (.inr (present.outSupported _))).mono
      (fun _ _ h => h.2.2) fun _ => False.elim)
  rw [hpop] at popped
  exact ⟨granted.2, fun d hd live => live (popped d hd)⟩

/-! ### Operators that are done -/

/-- Whatever its state is when the top frame goes. -/
theorem CallStack.pop_update {c : CallStack} {f : Frame} {rest : List Frame}
    (h : c.frames = f :: rest) (next : Continuation) :
    (c.update rest.length fun f => { f with state := next }).pop = c.pop := by
  rw [update_top c f rest h]
  unfold pop
  rw [h]
  simp only [length, h]
  rfl

theorem Machine.popFrame_withState {m m' : Machine} {f : Frame} {rest : List Frame}
    (h : m.calls.frames = f :: rest) (next : Continuation) (hm : popFrame m = .done () m') :
    popFrame (m.withFrame rest.length fun f => { f with state := next }) = .done () m' := by
  have popped (c : CallStack) : popFrame { m with calls := c } =
      (onMemory c.pop >>= fun c => modify fun m => { m with calls := c }) { m with calls := c } := rfl
  have same := CallStack.pop_update h next
  rw [withFrame, popped, same, Action.bind_apply, onMemory, Action.zoom]
  rw [show m = { m with calls := m.calls } from rfl, popped, Action.bind_apply, onMemory,
    Action.zoom] at hm
  cases hpop : m.calls.pop m.memory with
  | done c μ =>
    simp only [hpop] at hm ⊢
    exact hm
  | raised e μ =>
    simp only [hpop] at hm
    cases hm
  | broken b =>
    simp only [hpop] at hm
    cases hm

namespace Session

variable {χ : Type} {s t : Session χ} {f : Frame} {rest : List Frame} {c : Continuation}

theorem popFrame_eq_done : popFrame s = .done () t ↔
    Machine.popFrame s.machine = .done () t.machine ∧ t.host = s.host := by
  obtain ⟨m, host⟩ := t
  unfold popFrame onMachine Action.zoom
  cases Machine.popFrame s.machine with
  | done a m' =>
    constructor
    · intro h
      cases h
      exact ⟨rfl, rfl⟩
    · rintro ⟨h, rfl⟩
      cases h
      rfl
  | raised e m' | broken b => exact ⟨nofun, fun h => nomatch h.1⟩

/-- **The frame of an operator that is done goes**, and that is all. -/
theorem settle_of_popFrame (hframes : s.machine.calls.frames = f :: rest)
    (hdone : f.state = c ∧ c.Rests ∨ f.state = .pop) (ht : popFrame s = .done () t) :
    settle rest.length c s = .done () t := by
  have hframe := CallStack.frame?_head hframes
  have hlength : s.machine.calls.length = rest.length + 1 := CallStack.length_of_cons hframes
  obtain ⟨popped, host⟩ := popFrame_eq_done.1 ht
  obtain ⟨m, host'⟩ := t
  obtain rfl : host' = s.host := host
  suffices settled : (do
      let reached := (← (← get).frame rest.length).state
      let idle := reached = c ∧ (reached = .firstCall ∨ reached = .callBeforePop)
      if idle then Machine.setState rest.length .pop
      if (idle ∨ reached = .pop) ∧ (← get).calls.length = rest.length + 1 then Machine.popFrame :
        Action Machine Unit) s.machine = .done () m by
    unfold settle onMachine Action.zoom
    rw [settled]
  rw [Action.get_bind, Machine.frame_bind hframe]
  dsimp only
  by_cases idle : f.state = c ∧ (f.state = .firstCall ∨ f.state = .callBeforePop)
  · have moved := Machine.setState_eq hframe (Continuation.Rests.canBecome_pop idle.2)
    rw [if_pos idle, Action.bind_done moved, Action.get_bind,
      if_pos ⟨.inl idle, by simp [Machine.withFrame, hlength]⟩,
      Machine.popFrame_withState hframes .pop popped]
  · have done : f.state = .pop := hdone.resolve_left fun h => idle ⟨h.1, h.1 ▸ h.2⟩
    rw [if_neg idle, Action.get_bind, if_pos ⟨.inr done, hlength⟩, popped]

end Session

end StackScript
