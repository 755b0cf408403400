import StackScript.Proofs.Machine.Enclosed
import StackScript.Proofs.Machine.Holdings
import StackScript.Proofs.Operator.Deferring
import StackScript.Proofs.Operator.Sparing

/-!
# Builtins that are done at once

Most builtins are done in their first call.  A cycle that dispatches one of them
(`Session.Dispatches`) holds the operands it asks for (`Machine.Engages`), lets it work, lets the operands
go and removes its frame (`Served.dispatches`).

What the operation leaves is what the cycle leaves, but for the frame (`Served.performs`).  If it fails
with the stacks and the cells as they were, the cycle leaves nothing but the exception
(`Session.Declines`, `Served.declines`).  Its record may be refused; the kind of the exception is
`memoryOverflow` then.
-/

namespace StackScript

open Memory (Has)
open Cells

/-! ### What is held -/

/-- The same containers, with what they hold and how often they are referred to, and the same texts;
hosted code is charged as much as before, and so are the texts. -/
structure Memory.SameHoldings (m m' : Memory) : Prop where
  cells : m'.heap.cell? = m.heap.cell?
  strings : m'.ledger.strings.find? = m.ledger.strings.find?
  user : m'.ledger.held .user = m.ledger.held .user
  string : m'.ledger.held .string = m.ledger.held .string

/-- The second memory holds what the first does, and refers to the values besides. -/
structure Memory.Lends (values : List Value) (m m' : Memory) : Prop where
  cells : m'.heap.cell? = lend m.heap.cell? values
  references : ∀ t, m'.ledger.references t =
    m.ledger.references t + (values.filterMap Value.string?).count t

namespace Memory

variable {m m' m'' : Memory} {values : List Value}

theorem SameHoldings.references (h : m.SameHoldings m') (t : String) :
    m'.ledger.references t = m.ledger.references t := by
  rw [Ledger.references, Ledger.references, h.strings]

theorem Lends.sameHoldings (h : m.Lends values m') (h' : m'.SameHoldings m'') :
    m.Lends values m'' :=
  ⟨h'.cells.trans h.cells, fun t => (h'.references t).trans (h.references t)⟩

end Memory

namespace Machine

variable {Γ : Charter} {n n' : ℕ} {x x' : Stake} {m m' : Machine} {v : Value} {f : Frame}
  {rest : List Frame} {params : List Value}

/-- The values on the stacks. -/
def stacked (m : Machine) : List Value :=
  m.operands.items ++ m.calls.frames.map Frame.value ++ m.scopes.items

theorem Sound.references_eq (h : m.Sound Γ n x) (t : String) : m.memory.ledger.references t =
    (m.stacked.filterMap Value.string?).count t + x.mentions t + m.memory.heap.stake.mentions t := by
  obtain ⟨-, σ, hb, -⟩ := h.memory
  have values : m.stake.values = m.stacked := by
    have places := m.values_eq_places
    rw [Stake.values_add, Heap.values_stake,
      show m.places = m.stacked ++ m.memory.heap.slots from rfl, ← Multiset.coe_add] at places
    exact add_right_cancel places
  rw [hb.mentions, Stake.mentions_add, Stake.mentions_add, Stake.mentions, values,
    Multiset.coe_countP, List.count_filterMap]
  simp only [beq_eq_decide]

/-- With the same cells, and the same references to texts, the same is held. -/
theorem Sound.sameHoldings_of_references (h : m.Sound Γ n x) (h' : m'.Sound Γ n' x')
    (hx : x'.units = x.units)
    (cells : m'.memory.heap.cell? = m.memory.heap.cell?)
    (references : ∀ t, m'.memory.ledger.references t = m.memory.ledger.references t) :
    m.memory.SameHoldings m'.memory := by
  obtain ⟨-, σ, hb, -⟩ := h.memory
  obtain ⟨-, σ', hb', -⟩ := h'.memory
  have heap := Heap.stake_eq_of_cells cells
  have mentions (t : String) : (m'.stake + x' + m'.memory.heap.stake).mentions t =
      (m.stake + x + m.memory.heap.stake).mentions t := by
    rw [← hb'.mentions, ← hb.mentions, references]
  have held (a : Account) (ha : a ≠ .system) :
      m'.memory.ledger.held a = m.memory.ledger.held a := by
    have key := hb.held_eq hb' mentions a
    simp only [Stake.units_add, Pi.add_apply, h.units_stake, h'.units_stake, if_neg ha, heap, hx] at key
    omega
  exact ⟨cells, hb.strings_eq hb' mentions, held .user nofun, held .string nofun⟩

/-- Values that are on the stacks besides are referred to. -/
theorem Sound.lends {values : List Value} (h : m.Sound Γ n x) (h' : m'.Sound Γ n' x)
    (cells : m'.memory.heap.cell? = lend m.memory.heap.cell? values)
    (texts : (m'.stacked.filterMap Value.string?).Perm
      (values.filterMap Value.string? ++ m.stacked.filterMap Value.string?)) :
    m.memory.Lends values m'.memory := by
  refine ⟨cells, fun t => ?_⟩
  have heap : m'.memory.heap.stake = m.memory.heap.stake := by
    refine Heap.stake_eq_of_content fun i => ?_
    rw [Heap.content?, Heap.content?, cells, lend]
    cases m.memory.heap.cell? i <;> rfl
  rw [h.references_eq, h'.references_eq, texts.count_eq, List.count_append, heap]
  omega

/-- With the same cells, and the same texts on the stacks, the same is held. -/
theorem Sound.sameHoldings (h : m.Sound Γ n x) (h' : m'.Sound Γ n' x)
    (cells : m'.memory.heap.cell? = m.memory.heap.cell?)
    (texts : (m'.stacked.filterMap Value.string?).Perm (m.stacked.filterMap Value.string?)) :
    m.memory.SameHoldings m'.memory :=
  have lends : m.memory.Lends [] m'.memory := h.lends h' (by rw [cells, lend_nil]) texts
  h.sameHoldings_of_references h' rfl cells lends.references

end Machine

/-! ### Dispatches -/

/-- The exception is pending, with the trail of the calls, or else there was no room for its record. -/
def Machine.Reports (m : Machine) (e : Exception) : Prop :=
  ∃ trail, let e := { e with trail := trail }
    m.pending = some ⟨e, e.size⟩ ∨
      m.condition = some .memoryOverflow ∧ ∃ refusal, m.memory.ledger.check e.size = .error refusal

namespace Session

variable {χ : Type}

/-- The next cycle invokes a builtin for the first time, whose frame is on top of `rest`. -/
structure Dispatches (b : Builtin) (rest : List Frame) (s : Session χ) : Prop where
  pending : s.machine.pending = none
  frame : ∃ v, s.machine.calls.frames = { value := v } :: rest ∧ v.toOperator? = some (.builtin b)

/-- The next cycle takes and gives no references of the host.  What it does fails with `e`, which is
pending after it; the stacks and what is held are as they were. -/
structure Declines (natives : Natives χ) (owned : List Value) (rest : List Frame) (e : Exception)
    (s t : Session χ) : Prop where
  conducts : Conducts natives owned s owned t
  fails : ∃ f u, s.machine.calls.frames = f :: rest ∧
    step natives rest.length f s = .raised e u
  reports : t.machine.Reports e
  operands : t.machine.operands.items = s.machine.operands.items
  scopes : t.machine.scopes.items = s.machine.scopes.items
  frames : ∃ f state, s.machine.calls.frames = f :: rest ∧
    t.machine.calls.frames = { f with state := state } :: rest
  memory : s.machine.memory.SameHoldings t.machine.memory

/-- The builtin the next cycle invokes for the first time. -/
def dispatching? (s : Session χ) : Option Builtin :=
  match s.machine.pending, s.machine.calls.frames with
  | none, f :: _ =>
    match f.value.toOperator? with
    | some (.builtin b) => if f = { value := f.value } then some b else none
    | _ => none
  | _, _ => none

theorem dispatches_of_dispatching? {s : Session χ} {b : Builtin} (h : s.dispatching? = some b) :
    s.Dispatches b s.machine.calls.frames.tail := by
  unfold dispatching? at h
  split at h
  · rename_i f rest hpending hframes
    split at h
    · rename_i b' hf
      split at h
      · rename_i fresh
        obtain rfl := Option.some.inj h
        exact ⟨hpending, f.value, by rw [hframes, List.tail_cons, ← fresh], hf⟩
      · cases h
    · cases h
  · cases h

end Session

/-! ### Raising -/

namespace PendingException

theorem record_eq (e : Exception) (m : Memory) :
    (record e m).Meets True (fun p m' => m'.heap = m.heap ∧ (p = ⟨e, e.size⟩ ∨
      (e.condition ≠ .internal → p.exception.condition = .memoryOverflow) ∧
        ∃ refusal, m'.ledger.check e.size = .error refusal)) fun _ => False := by
  rw [record, Action.bind_apply, Action.attempt, Memory.onLedger, Action.zoom, Ledger.allocate]
  cases hc : m.ledger.check e.size with
  | ok _ => exact ⟨rfl, .inl rfl⟩
  | error refusal =>
    refine ⟨rfl, .inr ⟨fun he => ?_, refusal, hc⟩⟩
    have mild : e.condition.isFatal = false := by
      simpa [Condition.isFatal] using he
    simp [mild]

end PendingException

namespace Machine

variable {Γ : Charter} {n : ℕ} {x : Stake} {m m' : Machine} {v : Value} {f : Frame}
  {rest : List Frame} {params : List Value}

/-- Making an exception pending leaves the stacks and the heap as they are. -/
theorem raise_reports (hp : m.pending = none) {e : Exception} (he : e.condition ≠ .internal) :
    (raise e m).Meets True (fun _ m' => m'.Reports e ∧
      (m'.operands, m'.scopes, m'.calls) = (m.operands, m.scopes, m.calls) ∧
        m'.memory.heap = m.memory.heap) fun _ => False := by
  have idle : m.isDoomed = false := by simp [isDoomed, condition, exception, hp]
  rw [raise, Action.get_bind, idle]
  change (((liftM m.trail : Action Machine (List String)) >>= fun trail => discharge m.pending >>=
    fun _ => onMemory (PendingException.record { e with trail := trail }) >>= fun pending =>
      modify fun m => { m with pending := some pending, blockDepth := 0 }) m).Meets True _ _
  refine Action.meets_bind (P := fun _ m' => m' = m) ?_ ?_
  · cases m.trail <;> trivial
  rintro trail m₁ rfl
  rw [hp]
  refine meets_onMemory_bind ((PendingException.record_eq _ m₁.memory).mono ?_ fun _ => id)
  rintro p μ ⟨heap, recorded⟩
  refine ⟨⟨trail, recorded.imp (congrArg some) fun refused => ⟨?_, refused.2⟩⟩, rfl, heap⟩
  exact congrArg some (refused.1 he)

/-! ### Frames of operators -/

theorem handle?_of_toOperator? {o : Operator} (hv : v.toOperator? = some o) : v.handle? = none := by
  unfold Value.toOperator? at hv
  split at hv
  · rename_i h
    rw [Value.handle?, h]
  · cases hv

theorem string?_of_toOperator? {o : Operator} (hv : v.toOperator? = some o) : v.string? = none := by
  unfold Value.toOperator? at hv
  split at hv
  · rename_i h
    rw [Value.string?, h]
  · cases hv

/-- With a frame that holds no container no cell goes. -/
theorem popFrame_keeps {τ : Cells} (hτ : τ.Counted) (cells : m.memory.Has τ)
    (hframes : m.calls.frames = f :: rest) (hvalue : f.value.handle? = none)
    (hlocals : f.locals = none) (hstash : f.stash = none) :
    (popFrame m).Meets True (fun _ m' => m'.memory.Has τ) fun _ => True := by
  have same : τ.lend [] = τ.lend [f.value] := by rw [lend_cons_of_handle?_none hvalue]
  refine meets_onCalls ?_
  rw [CallStack.pop, hframes]
  refine Action.meets_bind (m.calls.reserve.exchange_swaps hτ hτ cells same _) fun r μ hμ => ?_
  rw [Frame.dispose, hlocals, hstash]
  exact hμ

/-- **Values that hold what others have held** can take their place among the operands. -/
theorem exchangeOperands_swaps {τ : Cells} (sound : m.Sound Γ n x) (hτ : τ.Counted)
    (cells : m.memory.Has τ) {drop : ℕ} {values : List Value} (hdrop : drop ≤ m.operands.length)
    (hvalues : values.length ≤ drop)
    (handles : (values.filterMap Value.handle?).Perm
      ((m.operands.items.take drop).filterMap Value.handle?))
    (texts : (values.filterMap Value.string?).Perm
      ((m.operands.items.take drop).filterMap Value.string?)) :
    (exchangeOperands drop values m).Meets True (fun _ m' => m'.scene =
      { m.scene with operands := values.reverse ++ m.operands.items.drop drop } ∧
        m'.memory.Has τ) fun _ => False := by
  have referred (v : Value) (hv : v ∈ values) (text : String) (htext : v.string? = some text) :
      m.memory.ledger.strings.find? text ≠ none := by
    obtain ⟨w, hw, hwt⟩ := List.mem_filterMap.1
      (texts.subset (List.mem_filterMap.2 ⟨v, hv, htext⟩))
    exact sound.referenced (List.mem_of_mem_take hw) text hwt
  refine meets_onOperands (((Sequence.exchange_sure sound.operands hdrop hvalues referred).and
    (Sequence.exchange_swaps hτ hτ cells (lend_congr handles))).mono ?_ fun _ h => h.1)
  rintro s μ ⟨-, items, cells⟩
  exact ⟨by rw [scene, items]; rfl, cells⟩

/-! ### Operands that are held -/

/-- The builtin at the top of the frames, `v`, is about to work: it is in its first call, and the
operands it has asked for are held for it. -/
structure Engages (m : Machine) (v : Value) (rest : List Frame) (params : List Value) (m' : Machine) :
    Prop where
  fresh : m.calls.frames = { value := v } :: rest
  becomes : m.Becomes { m.scene with frames := { value := v, state := .firstCall } :: rest } m'
  shape : m'.shape = m.shape
  cells : m'.memory.Has (lend m.memory.heap.cell? params)
  ledger : m'.memory.ledger = { m.memory.ledger with strings := m'.memory.ledger.strings }

theorem Engages.frames (h : m.Engages v rest params m') :
    m'.calls.frames = { value := v, state := .firstCall } :: rest := h.becomes.frames

theorem Engages.operands (h : m.Engages v rest params m') : m'.operands.items = m.operands.items :=
  h.becomes.operands

theorem Engages.scopes (h : m.Engages v rest params m') : m'.scopes.items = m.scopes.items :=
  congrArg Scene.scopes h.becomes.scene

/-- The operands, the scopes and what is in the containers are the same. -/
structure SameView (m m' : Machine) : Prop where
  operands : m'.operands.items = m.operands.items
  scopes : m'.scopes.items = m.scopes.items
  contents : ∀ i, m'.memory.heap.content? i = m.memory.heap.content? i

theorem SameView.object? (h : m.SameView m') (i : Handle) :
    m'.memory.heap.object? i = m.memory.heap.object? i :=
  Heap.object?_of_content? (h.contents i)

theorem Engages.sameView (h : m.Engages v rest params m') : m.SameView m' :=
  ⟨h.operands, h.scopes, h.cells.content⟩

/-- It is ready to remove the operands. -/
theorem Engages.ready (h : m.Engages v rest params m') (sound : m'.Sound Γ n x) {k : ℕ}
    (hk : k ≤ m.operands.length) : m'.Ready rest.length k where
  sized := sound.operands
  enough := by rwa [Sequence.length, h.operands]
  state := ⟨_, CallStack.frame?_head h.frames, rfl⟩

end Machine

namespace Memory

/-- The operands that were held have been let go, and so has the frame of their builtin. -/
structure Disengages (params : List Value) (m m' : Memory) : Prop where
  sheds : m.Sheds m'
  keeps : ∀ τ : Cells, τ.Counted → m.Has (τ.lend params) → m'.Has τ

end Memory

namespace Session

variable {χ : Type} {Γ : Charter} {x : Stake} {s t : Session χ} {v : Value} {f : Frame}
  {rest : List Frame} {params : List Value}

/-- **What a dispatch does before the builtin works** is not refused. -/
theorem dispatch_engages {signature : List Param} (invoke : List Value → Action (Session χ) Unit)
    (sound : s.machine.Sound Γ 0 x) (hframes : s.machine.calls.frames = { value := v } :: rest)
    (hparams : s.machine.matchOperands signature = .ok params) :
    ∃ m, s.machine.Engages v rest params m ∧ m.Sound Γ (rest.length + 1) (x + .refs params) ∧
      dispatch rest.length signature invoke s =
        ((invoke params).ensuring (onMachine (Machine.onMemory (Memory.releaseAll params))) >>=
          fun _ => settle rest.length .firstCall) { s with machine := m } := by
  have sound : s.machine.Sound Γ (rest.length + 1) x :=
    { sound with depth := (CallStack.length_of_cons hframes).ge }
  obtain ⟨-, _, hb, -⟩ := sound.memory
  -- the frame moves on
  obtain ⟨m₁, moved, memory, h₁⟩ := Machine.setState_above [] .firstCall hframes rfl
  have moves : (Machine.setState rest.length .firstCall s.machine).Meets True _ _ :=
    Machine.setState_meets sound (Nat.lt_succ_self _)
  have shaped := Action.Respects.respects (R := Machine.SameShape)
    (x := Machine.setState rest.length .firstCall) s.machine
  rw [moved] at moves shaped
  obtain ⟨sound₁, -, operands⟩ := moves
  -- the operands are held
  have operand (v : Value) (hv : v ∈ params) : v ∈ m₁.operands.items :=
    operands ▸ Machine.mem_of_matchOperands hparams hv
  have counted : Counted s.machine.memory.heap.cell? := hb.positive
  have cells : m₁.memory.Has s.machine.memory.heap.cell? := memory ▸ Memory.has_self hb.heap
  have taken := (Memory.retainAll_sure fun v hv => sound₁.referenced (operand v hv)).and
    (Memory.retainAll_has counted cells params)
  have pinned : (Machine.onMemory (Memory.retainAll params) m₁).Meets True
      (fun _ m₂ => s.machine.Engages v rest params m₂) fun _ => False :=
    Machine.meets_onMemory (taken.mono
      (fun _ μ h => ⟨hframes, ⟨h₁.scene, h₁.growth⟩, shaped, h.2, memory ▸ h.1⟩) fun _ h => h.1)
  obtain ⟨⟨⟩, m₂, held, ⟨sound₂, -⟩, engages⟩ := (((Machine.retainAll_meets sound₁
    fun v hv => Machine.knows_of_operand (operand v hv)).and pinned).mono
      (fun _ _ => id) fun _ h => h.2).exists_done
  exact ⟨m₂, engages, sound₂, dispatch_eq hparams moved held⟩

/-- **What a dispatch does once the builtin is done** is not refused either. -/
theorem settle_disengages {m : Machine} (sound : m.Sound Γ (rest.length + 1) (x + .refs params))
    (growing : m.Growing) (hframes : m.calls.frames = { value := v, state := .firstCall } :: rest)
    (hv : v.handle? = none) : ∃ t,
      (onMachine (Machine.onMemory (Memory.releaseAll params)) >>= fun _ =>
        settle rest.length .firstCall) { s with machine := m } = .done () t ∧
          t.machine.scene = { m.scene with frames := rest } ∧
            m.memory.Disengages params t.machine.memory := by
  -- the operands are let go
  have shed : (Machine.onMemory (Memory.releaseAll params) m).Yields
      (fun _ m' => m.Becomes m.scene m' ∧ m.memory.Sheds m'.memory) fun _ _ => True :=
    Machine.releaseAll_yields m params
  have kept (τ : Cells) (hτ : τ.Counted) (cells : m.memory.Has (τ.lend params)) :
      (Machine.onMemory (Memory.releaseAll params) m).Meets True
        (fun _ m' => m'.memory.Has τ) fun _ => True :=
    Machine.meets_onMemory ((Memory.releaseAll_has hτ cells).always fun _ _ => id)
  obtain ⟨⟨⟩, m₁, released, sound₁, -⟩ :=
    (Machine.releaseAll_meets sound).exists_done
  simp only [released] at shed kept
  obtain ⟨becomes, sheds⟩ := shed
  have frames := becomes.frames.trans hframes
  -- the frame goes
  obtain ⟨t, popped, becomes'⟩ := popFrame_done (s := { s with machine := m₁ }) sound₁.unframed
    (becomes.growing growing) frames
  have settled := settle_of_popFrame (c := .firstCall) frames (.inl ⟨rfl, .inl rfl⟩) popped
  obtain ⟨pop, -⟩ := popFrame_eq_done.1 popped
  have gone := Machine.popFrame_grants (becomes.growing growing) frames
  rw [pop] at gone
  refine ⟨t, ?_, becomes'.scene.trans ?_, sheds.trans gone.2, fun τ hτ cells => ?_⟩
  · rw [Action.bind_done (onMachine_done released)]
    exact settled
  · rw [becomes.scene]
  · have keeps := Machine.popFrame_keeps hτ (kept τ hτ cells) frames hv rfl rfl
    rwa [pop] at keeps

end Session

/-! ### Cycles that dispatch -/

section

variable {χ : Type} {natives : Natives χ} {options : Options} {m₀ : Machine} {owned : List Value}
  {s : Session χ} {rest : List Frame} {b : Builtin} {params operands : List Value}
  {E : Memory → Prop} {X : Exception → Prop}

namespace Session

/-- If what a cycle does fails and everything is as it was, the exception is all it leaves. -/
theorem declines_of_raised {f : Frame} {state : Continuation} {u : Session χ} {e : Exception}
    (hm₀ : m₀.Created options) (h : Served natives m₀ owned s) (alone : s.Alone)
    (hfed : s.machine.Fed (.refs owned)) (hpending : s.machine.pending = none)
    (hframes : s.machine.calls.frames = f :: rest)
    (hstep : step Natives.none rest.length f s = .raised e u) (he : e.condition ≠ .internal)
    (hscene : u.machine.scene = { s.machine.scene with frames := { f with state := state } :: rest })
    (hcells : u.machine.memory.heap.cell? = s.machine.memory.heap.cell?) :
    ∃ t, Declines natives owned rest e s t := by
  obtain ⟨Γ, -, sound⟩ := h.sound hm₀
  have raised := Machine.raise_reports (congrArg Scene.pending hscene |>.trans hpending) he
  have attempted : (step Natives.none rest.length f).attempt s = .done (.error e) u := by
    rw [Action.attempt, hstep]
  have cycled := cycle_meets (Behaviour.works_none Γ) sound hfed
  have ends : (cycle Natives.none s).Meets True (fun _ t => t.machine.Reports e ∧
      (t.machine.operands, t.machine.scopes, t.machine.calls) =
        (u.machine.operands, u.machine.scopes, u.machine.calls) ∧
          t.machine.memory.heap = u.machine.memory.heap) fun _ => False := by
    unfold cycle
    rw [theMachine_bind, hframes]
    dsimp only
    rw [Action.bind_done attempted]
    exact meets_onMachine_bind (raised.mono (fun _ _ h => h) fun _ => id)
  obtain ⟨more, t, ht, sound', reports, same, heap⟩ :=
    ((cycled.and ends).mono (fun _ _ => id) fun _ h => h.1).exists_done
  simp only [Prod.mk.injEq] at same
  obtain ⟨operands, scopes, calls⟩ := same
  have operands : t.machine.operands.items = s.machine.operands.items :=
    operands ▸ congrArg Scene.operands hscene
  have scopes : t.machine.scopes.items = s.machine.scopes.items :=
    scopes ▸ congrArg Scene.scopes hscene
  have frames : t.machine.calls.frames = { f with state := state } :: rest :=
    calls ▸ congrArg Scene.frames hscene
  have cells : t.machine.memory.heap.cell? = s.machine.memory.heap.cell? := by rw [heap, hcells]
  have leads : (cycle natives s).state? = some t := by
    rw [cycle_of_no_native alone, ht]
    rfl
  refine ⟨t, alone.conducts hfed leads, ⟨f, u, hframes, ?_⟩, reports, operands, scopes,
    ⟨f, state, hframes, frames⟩, sound.sameHoldings sound' cells ?_⟩
  · rw [step_of_no_native fun name looping => alone f rest name looping hframes]
    exact hstep
  · rw [Machine.stacked, Machine.stacked, operands, scopes, frames, hframes]
    rfl

/-- Beside the operands, a dispatch leaves the texts on the stacks that have been there. -/
theorem EndsIn.exists_texts {t : Session χ} {after : List Value}
    (ends : EndsIn natives owned rest { s.machine.scene with operands := after, frames := rest } s t)
    (d : s.Dispatches b rest) : ∃ others,
      s.machine.stacked.filterMap Value.string? =
        s.machine.operands.items.filterMap Value.string? ++ others ∧
      t.machine.stacked.filterMap Value.string? = after.filterMap Value.string? ++ others := by
  obtain ⟨v, hframes, hv⟩ := d.frame
  have operands : t.machine.operands.items = after := congrArg Scene.operands ends.scene
  have frames : t.machine.calls.frames = rest := congrArg Scene.frames ends.scene
  have scopes : t.machine.scopes.items = s.machine.scopes.items := congrArg Scene.scopes ends.scene
  refine ⟨(rest.map Frame.value ++ s.machine.scopes.items).filterMap Value.string?, ?_, ?_⟩ <;>
    simp [Machine.stacked, operands, frames, scopes, hframes, Machine.string?_of_toOperator? hv]

/-- A dispatch that leaves operands only leaves values only that have been on the stacks. -/
theorem EndsIn.stacked_subset {t : Session χ} {after : List Value}
    (ends : EndsIn natives owned rest { s.machine.scene with operands := after, frames := rest } s t)
    (d : s.Dispatches b rest) (sub : after ⊆ s.machine.operands.items) :
    t.machine.stacked ⊆ s.machine.stacked := by
  obtain ⟨v, hframes, -⟩ := d.frame
  have operands : t.machine.operands.items = after := congrArg Scene.operands ends.scene
  have frames : t.machine.calls.frames = rest := congrArg Scene.frames ends.scene
  have scopes : t.machine.scopes.items = s.machine.scopes.items := congrArg Scene.scopes ends.scene
  intro w hw
  simp only [Machine.stacked, operands, frames, scopes, hframes, List.mem_append, List.map_cons,
    List.mem_cons] at hw ⊢
  rcases hw with (hw | hw) | hw
  · exact .inl (.inl (sub hw))
  · exact .inl (.inr (.inr hw))
  · exact .inr hw

/-- A dispatch that leaves values among the operands has borrowed what they refer to. -/
theorem EndsIn.lends {t : Session χ} {Γ : Charter} {after values : List Value}
    (ends : EndsIn natives owned rest { s.machine.scene with operands := after, frames := rest } s t)
    (sound : s.machine.Sound Γ 0 (.refs owned)) (d : s.Dispatches b rest)
    (cells : t.machine.memory.heap.cell? = lend s.machine.memory.heap.cell? values)
    (texts : (after.filterMap Value.string?).Perm
      (values.filterMap Value.string? ++ s.machine.operands.items.filterMap Value.string?)) :
    s.machine.memory.Lends values t.machine.memory := by
  obtain ⟨others, before, left⟩ := ends.exists_texts d
  refine sound.lends (ends.conducts.owns Γ sound) cells ?_
  rw [before, left, ← List.append_assoc]
  exact texts.append_right others

/-- A dispatch that removes values from the operands gives back what they have borrowed. -/
theorem EndsIn.returns {t : Session χ} {Γ : Charter} {after values : List Value}
    (ends : EndsIn natives owned rest { s.machine.scene with operands := after, frames := rest } s t)
    (sound : s.machine.Sound Γ 0 (.refs owned)) (d : s.Dispatches b rest)
    (cells : s.machine.memory.heap.cell? = lend t.machine.memory.heap.cell? values)
    (texts : (s.machine.operands.items.filterMap Value.string?).Perm
      (values.filterMap Value.string? ++ after.filterMap Value.string?)) :
    t.machine.memory.Lends values s.machine.memory := by
  obtain ⟨others, before, left⟩ := ends.exists_texts d
  refine (ends.conducts.owns Γ sound).lends sound cells ?_
  rw [before, left, ← List.append_assoc]
  exact texts.append_right others

end Session

namespace Served

/-- **The cycle that dispatches a builtin** leaves what the builtin does on a machine that holds the
operands for it.  If it fails with everything as it was, the cycle fails so. -/
theorem exists_dispatched {E : List Value → Memory → Prop} (hm₀ : m₀.Created options) (h : Served natives m₀ owned s)
    (d : s.Dispatches b rest) (hb : b.constant? = none)
    (hoperands : s.machine.operands.items = params ++ operands)
    (hparams : List.Forall₂ (fun p v => Param.accepts p v = true) b.signature params)
    (hX : ∀ e, X e → e.condition ≠ .internal)
    (works : ∀ Γ v m, s.machine.Engages v rest params m →
      m.Sound Γ (rest.length + 1) (.refs owned + .refs params) → m.Growing →
        ((b.operation params).runOn (some rest.length) m).Yields
          (fun _ m' => ∃ after, m'.scene = { m.scene with operands := after } ∧ E after m'.memory)
          fun e m' => X e ∧ m.Unscathed (lend s.machine.memory.heap.cell? params) m') :
    (∃ after t μ, Session.EndsIn natives owned rest
      { s.machine.scene with operands := after, frames := rest } s t ∧ E after μ ∧
        μ.Disengages params t.machine.memory) ∨
      ∃ e t, X e ∧ Session.Declines natives owned rest e s t := by
  obtain ⟨hpending, v, hframes, hv⟩ := d
  obtain ⟨Γ, -, sound⟩ := h.sound hm₀
  have alone := Session.alone_of_builtin hframes hv
  have hfed : s.machine.Fed (.refs owned) := Session.fed_of_no_supply hframes rfl
  have invoked : s.machine.invoked? { value := v } = some (.builtin b) := by
    rw [Machine.invoked?, hpending, hv]
    rfl
  obtain ⟨m, engages, sound₁, dispatched⟩ := Session.dispatch_engages
    (fun params => Session.onMachine ((b.operation params).runOn (some rest.length)))
    sound hframes (Machine.matchOperands_of_accepts hoperands hparams)
  have step : Session.step Natives.none rest.length { value := v } s =
      ((Session.onMachine ((b.operation params).runOn (some rest.length))).ensuring
        (Session.onMachine (Machine.onMemory (Memory.releaseAll params))) >>=
          fun _ => Session.settle rest.length .firstCall) { s with machine := m } := by
    rw [Session.step_of_invoked invoked, Session.stepOperator_dispatches hb hframes rfl, dispatched]
  have growing : m.Growing := engages.becomes.growing (h.growing hm₀)
  have outcome := works Γ v m engages sound₁ growing
  have kept : ((b.operation params).runOn (some rest.length) m).Meets False _ _ :=
    b.operation_works sound₁ (by simp +contextual)
  have grown := growing.of_respects ((b.operation params).runOn (some rest.length))
  cases hrun : (b.operation params).runOn (some rest.length) m with
  | done a m₁ =>
    rw [hrun] at outcome kept grown
    obtain ⟨after, scene, hE⟩ := outcome
    have frames : m₁.calls.frames = { value := v, state := .firstCall } :: rest :=
      (congrArg Scene.frames scene).trans engages.frames
    obtain ⟨t, settled, ht, freed⟩ := Session.settle_disengages (s := s) kept.1 grown frames
      (Machine.handle?_of_toOperator? hv)
    refine .inl ⟨after, t, m₁.memory, h.endsIn_of_done hm₀ alone hfed hframes ?_ (ht.trans ?_), hE, freed⟩
    · rw [step, Action.ensuring_bind_done (Session.onMachine_done hrun)]
      exact settled
    · rw [scene, engages.becomes.scene]
  | raised e m₁ =>
    rw [hrun] at outcome kept
    obtain ⟨he, same, cells⟩ := outcome
    unfold Machine.SameStacks at same
    obtain ⟨-, _, hb, -⟩ := sound.memory
    have unheld : (Machine.onMemory (Memory.releaseAll params) m₁).Meets True
        (fun _ m₂ => m₂.scene = m₁.scene ∧ m₂.memory.Has s.machine.memory.heap.cell?)
        fun _ => False :=
      Machine.meets_onMemory ((Memory.releaseAll_has hb.positive cells).mono
        (fun _ _ hμ => ⟨rfl, hμ⟩) fun _ => id)
    obtain ⟨⟨⟩, m₂, released, -, scene, cells⟩ :=
      (((Machine.releaseAll_meets kept.1).and unheld).mono (fun _ _ => id)
        fun _ h => h.1).exists_done
    have failed : Session.onMachine ((b.operation params).runOn (some rest.length))
        { s with machine := m } = .raised e { s with machine := m₁ } := by
      unfold Session.onMachine Action.zoom
      rw [hrun]
    have raised := Action.ensuring_raised failed
      (Session.onMachine_done (s := { s with machine := m₁ }) released)
    have shown : m₂.scene = { s.machine.scene with
        frames := { value := v, state := .firstCall } :: rest } := by
      rw [scene, same, ← engages.becomes.scene]
      rfl
    obtain ⟨t, declines⟩ := Session.declines_of_raised hm₀ h alone hfed hpending
      hframes (step.trans (Action.bind_raised raised _)) (hX e he) shown cells.cells
    exact .inr ⟨e, t, he, declines⟩
  | broken b => rw [hrun] at kept; exact kept.elim

/-- The operands it leaves may be known beforehand. -/
theorem dispatches (hm₀ : m₀.Created options) (h : Served natives m₀ owned s)
    (d : s.Dispatches b rest) (hb : b.constant? = none)
    (hoperands : s.machine.operands.items = params ++ operands)
    (hparams : List.Forall₂ (fun p v => Param.accepts p v = true) b.signature params)
    (after : List Value) (hX : ∀ e, X e → e.condition ≠ .internal)
    (works : ∀ Γ v m, s.machine.Engages v rest params m →
      m.Sound Γ (rest.length + 1) (.refs owned + .refs params) → m.Growing →
        ((b.operation params).runOn (some rest.length) m).Yields
          (fun _ m' => m'.scene = { m.scene with operands := after } ∧ E m'.memory)
          fun e m' => X e ∧ m.Unscathed (lend s.machine.memory.heap.cell? params) m') :
    (∃ t μ, Session.EndsIn natives owned rest
      { s.machine.scene with operands := after, frames := rest } s t ∧ E μ ∧
        μ.Disengages params t.machine.memory) ∨
      ∃ e t, X e ∧ Session.Declines natives owned rest e s t := by
  refine (h.exists_dispatched (E := fun a μ => a = after ∧ E μ) hm₀ d hb hoperands hparams hX
    fun Γ v m engages sound growing => ?_).imp_left ?_
  · exact (works Γ v m engages sound growing).mono
      (fun _ m' ⟨scene, hE⟩ => ⟨after, scene, rfl, hE⟩) fun _ _ => id
  · rintro ⟨_, t, μ, ends, ⟨rfl, hE⟩, freed⟩
    exact ⟨t, μ, ends, hE, freed⟩

/-- **A builtin that does not fail** on a machine that holds the operands for it. -/
theorem performs (hm₀ : m₀.Created options) (h : Served natives m₀ owned s)
    (d : s.Dispatches b rest) (hb : b.constant? = none)
    (hoperands : s.machine.operands.items = params ++ operands)
    (hparams : List.Forall₂ (fun p v => Param.accepts p v = true) b.signature params)
    (after : List Value)
    (works : ∀ Γ v m, s.machine.Engages v rest params m →
      m.Sound Γ (rest.length + 1) (.refs owned + .refs params) → m.Growing →
        ((b.operation params).runOn (some rest.length) m).Meets True
          (fun _ m' => m'.scene = { m.scene with operands := after } ∧ E m'.memory)
          fun _ => False) :
    ∃ t μ, Session.EndsIn natives owned rest
      { s.machine.scene with operands := after, frames := rest } s t ∧ E μ ∧
        μ.Disengages params t.machine.memory := by
  refine (h.dispatches (X := fun _ => False) hm₀ d hb hoperands hparams after (fun _ => False.elim)
    fun Γ v m engages sound growing => ?_).resolve_right fun ⟨_, _, he, _⟩ => he
  exact (works Γ v m engages sound growing).yields.mono (fun _ _ => id) fun _ _ => False.elim

/-- **A builtin that fails** with everything as it was. -/
theorem declines (hm₀ : m₀.Created options) (h : Served natives m₀ owned s)
    (d : s.Dispatches b rest) (hb : b.constant? = none)
    (hoperands : s.machine.operands.items = params ++ operands)
    (hparams : List.Forall₂ (fun p v => Param.accepts p v = true) b.signature params)
    {e : Exception} (he : e.condition ≠ .internal)
    (fails : ∀ Γ v m, s.machine.Engages v rest params m →
      m.Sound Γ (rest.length + 1) (.refs owned + .refs params) → m.Growing →
        ((b.operation params).runOn (some rest.length) m).Yields (fun _ _ => False)
          fun e' m' => e' = e ∧ m.Unscathed (lend s.machine.memory.heap.cell? params) m') :
    ∃ t, Session.Declines natives owned rest e s t := by
  rcases h.dispatches (E := fun _ => False) (X := (· = e)) hm₀ d hb hoperands hparams []
    (fun _ h => h ▸ he) fun Γ v m engages sound growing =>
      (fails Γ v m engages sound growing).mono (fun _ _ => False.elim) fun _ _ => id with
    ⟨_, _, -, hE, -⟩ | ⟨e, t, rfl, declines⟩
  · exact hE.elim
  · exact ⟨t, declines⟩

/-- A builtin that fails on what it finds. -/
theorem declines_at_once (hm₀ : m₀.Created options) (h : Served natives m₀ owned s)
    (d : s.Dispatches b rest) (hb : b.constant? = none)
    (hoperands : s.machine.operands.items = params ++ operands)
    (hparams : List.Forall₂ (fun p v => Param.accepts p v = true) b.signature params)
    {e : Exception} (he : e.condition ≠ .internal)
    (fails : ∀ own m, s.machine.SameView m → (b.operation params).runOn own m = .raised e m) :
    ∃ t, Session.Declines natives owned rest e s t :=
  h.declines hm₀ d hb hoperands hparams he fun _ _ m engages _ _ => by
    rw [fails _ m engages.sameView]
    exact ⟨rfl, Machine.unscathed_self engages.cells⟩

/-- **A builtin that only puts operands in the place of others** that hold the same. -/
theorem rearranges (hm₀ : m₀.Created options) (h : Served natives m₀ owned s)
    (d : s.Dispatches b rest) (hb : b.constant? = none)
    (hoperands : s.machine.operands.items = params ++ operands)
    (hparams : List.Forall₂ (fun p v => Param.accepts p v = true) b.signature params)
    (drop : ℕ) (values : List Value) (hdrop : drop ≤ s.machine.operands.length)
    (hvalues : values.length ≤ drop)
    (handles : (values.filterMap Value.handle?).Perm
      ((s.machine.operands.items.take drop).filterMap Value.handle?))
    (texts : (values.filterMap Value.string?).Perm
      ((s.machine.operands.items.take drop).filterMap Value.string?))
    (exchanges : ∀ own m, m.operands.items = s.machine.operands.items →
      (b.operation params).runOn own m = Machine.exchangeOperands drop values m) :
    ∃ t, Session.EndsIn natives owned rest { s.machine.scene with
        operands := values.reverse ++ s.machine.operands.items.drop drop, frames := rest } s t ∧
      s.machine.memory.SameHoldings t.machine.memory := by
  obtain ⟨Γ, -, sound⟩ := h.sound hm₀
  obtain ⟨-, _, hb', -⟩ := sound.memory
  have counted : Counted s.machine.memory.heap.cell? := hb'.positive
  obtain ⟨t, μ, ends, cells, freed⟩ := h.performs
    (E := fun μ => μ.Has (lend s.machine.memory.heap.cell? params)) hm₀ d hb hoperands hparams
    (values.reverse ++ s.machine.operands.items.drop drop) fun Γ v m engages sound _ => by
      rw [exchanges _ m engages.operands]
      have items := engages.operands
      exact (Machine.exchangeOperands_swaps sound (counted.lend params) engages.cells
        (by rwa [Sequence.length, items]) hvalues (items ▸ handles) (items ▸ texts)).mono
          (fun _ m' h => ⟨h.1.trans (by rw [items]), h.2⟩) fun _ => id
  -- the texts are where they were, or among the values that have taken their place
  have split : s.machine.operands.items.filterMap Value.string? =
      (s.machine.operands.items.take drop).filterMap Value.string? ++
        (s.machine.operands.items.drop drop).filterMap Value.string? := by
    rw [← List.filterMap_append, List.take_append_drop]
  have kept := (freed.keeps _ counted cells).cells
  have lends : s.machine.memory.Lends [] t.machine.memory :=
    ends.lends sound d (by rw [kept, lend_nil]) <| by
      rw [List.filterMap_append, List.filterMap_reverse, split]
      exact ((List.reverse_perm _).trans texts).append_right _
  exact ⟨t, ends, sound.sameHoldings_of_references (ends.conducts.owns Γ sound) rfl kept
    lends.references⟩

end Served

end

end StackScript
