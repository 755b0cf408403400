import StackScript.Proofs.Machine.Doomed
import StackScript.Proofs.Operator.Binding

/-!
# The dispatch of a builtin that fails

Whatever builtin fails at its first invocation, the machine is as it was, the locals of the frame
apart, or the builtin is a loop and has removed its operands already (`Builtin.operation_fails`).

Its operands are held meanwhile.  When they are let go, what was in the containers is there, and no
container is new but the locals (`Machine.Aftermath.release`).  Nothing fails after that, since the
frame of an operator that is done can always go (`Session.settle_sure`), so this is what a cycle
leaves that dispatches a builtin and raises (`Session.step_spares`).
-/

namespace StackScript

open Machine (Unscathed Lodged Undone Aftermath Spared)
open Cells

namespace Builtin

variable {Γ : Charter} {x : Stake} {σ : Cells} {m : Machine} {i : ℕ} {g : Frame}
  {params : List Value}

/-- **Whatever builtin fails** at its first invocation leaves the machine as it was, or is a loop. -/
theorem operation_fails (b : Builtin) (hσ : σ.Counted) (h : m.memory.Has (σ.lend params))
    (hg : m.calls.frame? i = some g) (hlocals : g.locals = none)
    (htaken : params = m.operands.items.take params.length)
    (hlength : params.length = b.signature.length) (sound : m.Sound Γ (i + 1) x)
    (hx : ∀ v ∈ params, v ∈ x.values) (ready : m.Ready i b.signature.length) :
    (b.operation params).Fails (some i) m (m.Aftermath σ params i (b.isLoop = true)) := by
  have hτ : (σ.lend params).Counted := hσ.lend params
  have operands (v : Value) (hv : v ∈ m.operands.items) : (σ.lend params).Houses v :=
    sound.houses h (Machine.knows_of_operand hv)
  have hparams (v : Value) (hv : v ∈ params) : (σ.lend params).Houses v :=
    operands v (List.mem_of_mem_take (htaken ▸ hv))
  have houses (v : Value) (hv : v ∈ params) : σ.Houses v := houses_lend.1 (hparams v hv)
  -- most builtins leave nothing behind, others the locals of their frame
  have nothing {p : Operation Unit} (hp : p.Fails (some i) m (m.Unscathed (σ.lend params))) :
      p.Fails (some i) m (m.Aftermath σ params i (b.isLoop = true)) :=
    hp.mono (fun _ _ => id) fun _ h => .kept (.inl h)
  have locals {p : Operation Unit} (hp : p.Fails (some i) m (m.Undone (σ.lend params) i)) :
      p.Fails (some i) m (m.Aftermath σ params i (b.isLoop = true)) :=
    hp.mono (fun _ _ => id) fun _ h => .kept h
  have withdraws {p : Operation Unit} [Operation.Withdraws p] :
      p.Fails (some i) m (m.Aftermath σ params i (b.isLoop = true)) :=
    nothing (Operation.fails_of_withdraws hτ h)
  cases b with
  | trueValue | falseValue | nullValue | mark | openArray | openDictionary => trivial
  | drop | duplicate | exchange | clear | count | index | roll | clearToMark | countToMark | add | sub
  | mul | div | mod | neg | abs | equal | notEqual | less | greater | negate | conjoin | disjoin
  | unpack | length | get | closeScope | load | locate | known | currentScope | leaveLoop
  | stop =>
    dsimp only [operation]
    exact withdraws
  | closeArray => exact nothing (Operation.collectArray_fails hτ h .literal)
  | openBlock => exact nothing (Operation.beginBlock_fails hτ h params)
  | closeBlock => exact nothing (Operation.endBlock_fails hτ h params)
  | closeDictionary => exact nothing (Operation.endDictionary_fails hτ h params operands)
  | array => exact nothing (Operation.newArray_fails hτ h)
  | fill => exact nothing (Operation.fillArray_fails sound h hx ready)
  | put => exact nothing (Operation.putItem_fails hτ h ready)
  | dictionary => exact nothing (Operation.newDictionary_fails hτ h)
  | define => exact nothing (Operation.bindName_fails hτ h ready)
  | openScope => exact nothing (Operation.beginScope_fails hτ h ready)
  | execute => exact nothing (Operation.executeTop_fails hτ h ready)
  | execIf => exact nothing (Operation.executeIf_fails hτ h ready)
  | execEither => exact nothing (Operation.executeEither_fails hτ h ready)
  | stopped => exact nothing (Operation.stoppedBlock_fails hτ h ready)
  | ensure => exact locals (Operation.ensureFinalizer_fails hτ h hg hlocals hparams ready)
  | bind =>
    exact locals (Operation.bindBlock_fails hσ h hg hlocals htaken houses hlength sound hx ready)
  | loop =>
    exact (Operation.loopBlock_fails hσ h hg hlocals htaken houses hlength ready).mono
      (fun _ _ => id) fun _ h => h.imp fun _ => rfl
  | repeatBlock =>
    exact (Operation.repeatBlock_fails hσ h hg hlocals htaken houses hlength ready).mono
      (fun _ _ => id) fun _ h => h.imp fun _ => rfl

end Builtin

namespace Machine

variable {σ : Cells} {m m' : Machine} {f g : Frame} {rest : List Frame} {params : List Value}
  {loops : Prop} {k : ℕ}

/-- What has become of a machine with the cells `σ` and the frames `f :: rest` whose operator has
failed: the top frame may be in another state and have locals, and if the operator is a loop its `k`
operands may be gone; nothing else has changed, and no container is new but the locals. -/
structure Recovers (σ : Cells) (m : Machine) (f : Frame) (rest : List Frame) (loops : Prop) (k : ℕ)
    (m' : Machine) : Prop where
  operands : m'.operands = m.operands ∨ loops ∧ m'.operands.items = m.operands.items.drop k
  scopes : m'.scopes = m.scopes
  frames : ∃ state locals, m'.calls.frames = { f with state := state, locals := locals } :: rest ∧
    m'.Spared σ locals

/-- Nothing has happened at all. -/
theorem recovers_of_same (hframes : m.calls.frames = f :: rest) (hf : f.locals = none)
    (operands : m'.operands = m.operands) (scopes : m'.scopes = m.scopes)
    (calls : m'.calls = m.calls) (cells : m'.memory.Has σ) :
    m.Recovers σ f rest loops k m' := by
  refine ⟨.inl operands, scopes, f.state, f.locals, ?_, hf ▸ spared_of_has cells none⟩
  rw [calls, hframes]

theorem Unscathed.recovers (h : m.Unscathed σ m') (hframes : m.calls.frames = f :: rest)
    (hf : f.locals = none) : m.Recovers σ f rest loops k m' := by
  have same := h.same
  unfold SameStacks at same
  exact recovers_of_same hframes hf (by rw [same]) (by rw [same]) (by rw [same]) h.cells

/-- The frame has been dispatched before. -/
theorem Recovers.of_withFrame {state : Continuation}
    (h : (m.withFrame rest.length fun f => { f with state := state }).Recovers σ
      { f with state := state } rest loops k m') : m.Recovers σ f rest loops k m' :=
  ⟨h.operands, h.scopes, h.frames⟩

/-- The memory has changed before. -/
theorem Recovers.of_sameStacks {m₁ : Machine} (same : m.SameStacks m₁)
    (h : m₁.Recovers σ f rest loops k m') : m.Recovers σ f rest loops k m' := by
  unfold SameStacks at same
  have operands := h.operands
  have scopes := h.scopes
  rw [same] at operands scopes
  exact ⟨operands, scopes, h.frames⟩

/-- **When the operands are let go**, all that is left of the failure are locals. -/
theorem Aftermath.release (hσ : σ.Counted) (hframes : m.calls.frames = f :: rest)
    (hf : f.locals = none) (hparams : ∀ v ∈ params, σ.Houses v)
    (h : m.Aftermath σ params rest.length loops m') :
    (onMemory (Memory.releaseAll params) m').Meets True
      (fun _ m'' => m.Recovers σ f rest loops params.length m'') fun _ => False := by
  have lodged {j : Handle} {μ : Memory} (calls : m'.calls =
      m.calls.update rest.length (fun f => { f with locals := some j }))
      (spared : Spared σ (some j) { m' with memory := μ }) : ∃ state locals,
        m'.calls.frames = { f with state := state, locals := locals } :: rest ∧
          Spared σ locals { m' with memory := μ } :=
    ⟨f.state, some j, by rw [calls, CallStack.frames_update_head _ hframes], spared⟩
  cases h with
  | kept h =>
    rcases h with unscathed | ⟨entries, h⟩
    · refine meets_onMemory ((Memory.releaseAll_has hσ unscathed.cells).mono (fun _ μ hμ => ?_)
        fun _ => id)
      have same := unscathed.same
      unfold SameStacks at same
      exact recovers_of_same hframes hf (by rw [same]) (by rw [same]) (by rw [same]) hμ
    · obtain ⟨j, account, hj, calls, cells⟩ := h.lodging
      rw [lend_eq_none] at hj
      have apart : ∀ v ∈ params, v.handle? ≠ some j := fun v hv => (hparams v hv).ne hj
      rw [build, lend_lend, lend_perm List.perm_append_comm, ← lend_lend, ← lend_update apart]
        at cells
      have counted := (hσ.lend (entries.map Prod.snd)).update j (c := ⟨1,
        some (.dictionary { account := account, entries := entries })⟩) Nat.one_pos
      exact meets_onMemory ((Memory.releaseAll_has counted cells).mono (fun _ μ hμ =>
        ⟨.inl h.operands, h.scopes, lodged calls (spared_of_has_update hj hμ)⟩) fun _ => id)
  | @taken entries hloops items same h =>
    obtain ⟨j, account, hj, calls, cells⟩ := h.lodging
    have apart : ∀ v ∈ params, v.handle? ≠ some j := fun v hv => (hparams v hv).ne hj
    -- the locals hold what the operands were
    have held : σ.lend (Object.values (.dictionary { account := account, entries := entries })) =
        σ.lend params := same
    rw [build, held, ← lend_update apart] at cells
    have counted := hσ.update j (c := ⟨1,
      some (.dictionary { account := account, entries := entries })⟩) Nat.one_pos
    refine meets_onMemory ((Memory.releaseAll_has counted cells).mono (fun _ μ hμ =>
      ⟨.inr ⟨hloops, items⟩, h.scopes, lodged calls ?_⟩) fun _ => id)
    rw [← lend_nil σ] at hμ
    exact spared_of_has_update hj hμ

/-- Making an exception pending has to do with the ledger only. -/
theorem raise_spares_heap (e : Exception) (m : Machine) :
    (raise e m).Meets True (fun _ m' => (m'.operands, m'.scopes, m'.calls) =
      (m.operands, m.scopes, m.calls) ∧ m'.memory.heap = m.memory.heap ∧ m'.pending.isSome)
      fun _ => True := by
  have ledger {α : Type} (x : Action Ledger α) (μ : Memory) : (Memory.onLedger x μ).Meets True
      (fun _ μ' => μ'.heap = μ.heap) fun μ' => μ'.heap = μ.heap := by
    unfold Memory.onLedger Action.zoom
    cases x μ.ledger <;> first | rfl | trivial
  have discharged (p : Option PendingException) (m : Machine) : (discharge p m).Meets True
      (fun _ m' => (m'.operands, m'.scopes, m'.calls) = (m.operands, m.scopes, m.calls) ∧
        m'.memory.heap = m.memory.heap) fun _ => True := by
    cases p with
    | none => exact ⟨rfl, rfl⟩
    | some p => exact meets_onMemory ((ledger _ m.memory).mono (fun _ _ h => ⟨rfl, h⟩)
        fun _ _ => trivial)
  have recorded (e : Exception) (μ : Memory) : (PendingException.record e μ).Meets True
      (fun _ μ' => μ'.heap = μ.heap) fun _ => True := by
    refine Action.meets_bind (P := fun _ μ' => μ'.heap = μ.heap) (Action.meets_attempt
      ((ledger _ μ).mono (fun _ _ => id) fun _ h _ => h)) fun r μ' h => ?_
    cases r <;> exact h
  rw [raise, Action.get_bind]
  split
  · rename_i doomed
    exact ⟨rfl, rfl, isSome_pending_of_isDoomed doomed⟩
  refine Action.meets_bind (P := fun _ m' => m' = m) ?_ ?_
  · cases m.trail <;> first | rfl | trivial
  rintro trail _ rfl
  refine Action.meets_bind (discharged _ _) ?_
  rintro _ m₁ ⟨same, heap⟩
  exact meets_onMemory_bind ((recorded _ m₁.memory).mono (fun _ μ h => ⟨same, h.trans heap, rfl⟩)
    fun _ _ => trivial)

theorem Recovers.raise (h : m.Recovers σ f rest loops k m') (e : Exception) :
    (raise e m').Meets True (fun _ m'' => m.Recovers σ f rest loops k m'' ∧ m''.pending.isSome)
      fun _ => True := by
  refine (raise_spares_heap e m').mono (fun _ m'' h' => ⟨?_, h'.2.2⟩) fun _ => id
  obtain ⟨same, heap, -⟩ := h'
  injection same with operands same
  injection same with scopes calls
  obtain ⟨state, locals, frames, spared⟩ := h.frames
  refine ⟨operands ▸ h.operands, scopes ▸ h.scopes, state, locals, calls ▸ frames, ?_⟩
  unfold Spared
  rw [heap]
  exact spared

/-! ### Matching operands -/

/-- The operands a signature asks for are those at the top. -/
theorem params_of_matchOperands {signature : List Param}
    (h : m.matchOperands signature = .ok params) :
    params = m.operands.items.take params.length ∧ params.length = signature.length ∧
      signature.length ≤ m.operands.length := by
  obtain ⟨top, accepted⟩ := accepts_of_matchOperands h
  have length : params.length = signature.length := accepted.length_eq.symm
  unfold matchOperands at h
  split at h
  · cases h
  · rename_i enough
    exact ⟨length ▸ top, length, Nat.not_lt.1 enough⟩

end Machine

namespace Session

open Machine (Recovers)

variable {χ : Type} {Γ : Charter} {x : Stake} {i : ℕ} {s : Session χ} {f : Frame}
  {rest : List Frame} {b : Builtin} {natives : Natives χ}

/-- The frame of an operator that is done can always go. -/
theorem settle_sure (h : s.machine.Sound Γ (i + 1) x) :
    (settle i .firstCall s).Meets True (fun _ _ => True) fun _ => False := by
  refine meets_onMachine ?_
  obtain ⟨f, hf⟩ := h.exists_frame (Nat.lt_succ_self i)
  have last (m : Machine) (hm : m.Sound Γ (i + 1) x) (p : Prop) [Decidable p] :
      (((get : Action Machine Machine) >>= fun m => if p ∧ m.calls.length = i + 1 then
        Machine.popFrame else pure ()) m).Meets True (fun _ _ => True) fun _ => False := by
    rw [Action.get_bind]
    split
    · cases hframes : m.calls.frames with
      | nil =>
        have depth := hm.depth
        rw [CallStack.length, hframes] at depth
        exact absurd depth (by simp)
      | cons g rest => exact (Machine.popFrame_top hm hframes).mono (fun _ _ _ => trivial) fun _ => id
    · trivial
  rw [Action.get_bind, Machine.frame_bind hf]
  split
  · rename_i idle
    have permitted : f.state.canBecome .pop = true := by rw [idle.1]; rfl
    refine Action.meets_bind (P := fun _ m => m.Sound Γ (i + 1) x) ?_ fun _ m hm => last m hm _
    have sound : (Machine.setState i .pop s.machine).Meets True _ _ :=
      Machine.setState_meets h (Nat.lt_succ_self i)
    rw [Machine.setState_eq hf permitted] at sound ⊢
    exact sound.1
  · exact last s.machine h _

/-- The operands are held, the builtin is invoked, they are let go, and its frame too if it is done. -/
theorem invocation_spares {σ : Cells} {params : List Value} (hσ : σ.Counted)
    (cells : s.machine.memory.Has σ) (h : s.machine.Sound Γ (rest.length + 1) x)
    (hframes : s.machine.calls.frames = f :: rest) (hstate : f.state = .firstCall)
    (hlocals : f.locals = none) (htaken : params = s.machine.operands.items.take params.length)
    (hlength : params.length = b.signature.length)
    (enough : b.signature.length ≤ s.machine.operands.length) :
    ((onMachine (Machine.onMemory (Memory.retainAll params)) >>= fun _ =>
      (onMachine ((b.operation params).runOn (some rest.length))).ensuring
        (onMachine (Machine.onMemory (Memory.releaseAll params))) >>= fun _ =>
      settle rest.length .firstCall) s).Meets True (fun _ _ => True)
      fun t => s.machine.Recovers σ f rest (b.isLoop = true) b.signature.length t.machine := by
  have operand (v : Value) (hv : v ∈ params) : v ∈ s.machine.operands.items :=
    List.mem_of_mem_take (htaken ▸ hv)
  have houses (v : Value) (hv : v ∈ params) : σ.Houses v :=
    h.houses cells (Machine.knows_of_operand (operand v hv))
  have held : (Machine.onMemory (Memory.retainAll params) s.machine).Meets True
      (fun _ m => s.machine.Unscathed (σ.lend params) m) (s.machine.Unscathed σ) :=
    Machine.meets_onMemory ((Memory.retainAll_has hσ cells params).mono (fun _ _ h => ⟨rfl, h⟩)
      fun _ h => ⟨rfl, h⟩)
  have known : (Machine.onMemory (Memory.retainAll params) s.machine).Meets True _ _ :=
    Machine.retainAll_meets h fun v hv => Machine.knows_of_operand (operand v hv)
  refine meets_onMachine_bind ((known.and held).mono ?_ fun m hm => hm.2.recovers hframes hlocals)
  rintro _ m ⟨⟨sound, -⟩, same, cells⟩
  have unchanged := same
  unfold Machine.SameStacks at unchanged
  have operands : m.operands = s.machine.operands := by rw [unchanged]
  have frames : m.calls.frames = f :: rest := by rw [unchanged]; exact hframes
  have hf : m.calls.frame? rest.length = some f := CallStack.frame?_head frames
  have ready : m.Ready rest.length b.signature.length :=
    ⟨sound.operands, operands ▸ enough, f, hf, hstate⟩
  have pinned (v : Value) (hv : v ∈ params) : v ∈ (x + .refs params).values := by simp [hv]
  -- it is invoked
  have works := b.operation_works sound pinned
  have fails := b.operation_fails hσ cells hf hlocals (operands ▸ htaken) hlength sound pinned ready
  have invoked := Outcome.Meets.and fails works
  refine Action.meets_bind (P := fun _ t => t.machine.Sound Γ (rest.length + 1) x)
    (Action.meets_ensuring
      (B := fun _ t => t.machine.Sound Γ (rest.length + 1) (x + .refs params))
      (M := fun t => m.Aftermath σ params rest.length (b.isLoop = true) t.machine)
      (meets_onMachine (invoked.mono (fun _ _ h => h.2.1) fun _ h => h.1))
      (fun _ t ht => ?_) fun t ht => ?_) fun _ t ht => ?_
  · exact meets_onMachine ((Machine.releaseAll_meets ht).always fun _ _ h => h.1)
  · refine meets_onMachine ((ht.release hσ frames hlocals houses).always fun _ m' hm' => ?_)
    exact .of_sameStacks same (hlength ▸ hm')
  · exact (settle_sure ht).always fun _ _ => id

/-- **A dispatch that raises** recovers, whatever builtin it is of. -/
theorem dispatch_spares (h : s.machine.Sound Γ (rest.length + 1) x)
    (hframes : s.machine.calls.frames = f :: rest) (hstate : f.state = .unknown)
    (hlocals : f.locals = none) :
    (dispatch rest.length b.signature (fun params =>
      onMachine ((b.operation params).runOn (some rest.length))) s).Meets True (fun _ _ => True)
      fun t => s.machine.Recovers s.machine.memory.heap.cell? f rest (b.isLoop = true)
        b.signature.length t.machine := by
  obtain ⟨-, _, hb, -⟩ := h.memory
  have hf : s.machine.calls.frame? rest.length = some f := CallStack.frame?_head hframes
  have cells : s.machine.memory.Has s.machine.memory.heap.cell? := Memory.has_self hb.heap
  unfold dispatch
  rw [theMachine_bind]
  cases hparams : s.machine.matchOperands b.signature with
  | error c =>
    exact Machine.recovers_of_same hframes hlocals rfl rfl rfl cells
  | ok params =>
    obtain ⟨taken, length, enough⟩ := Machine.params_of_matchOperands hparams
    have permitted : f.state.canBecome .firstCall = true := by rw [hstate]; rfl
    have moved := Machine.setState_eq hf permitted
    have sound : (Machine.setState rest.length .firstCall s.machine).Meets True _ _ :=
      Machine.setState_meets h (Nat.lt_succ_self rest.length)
    rw [moved] at sound
    refine Action.meets_bind (P := fun a t => a = params ∧ t = s) ⟨rfl, rfl⟩ ?_
    rintro params t ⟨rfl, rfl⟩
    refine meets_onMachine_bind ?_
    rw [moved]
    have frames : (t.machine.withFrame rest.length
        fun f => { f with state := .firstCall }).calls.frames = { f with state := .firstCall } :: rest :=
      CallStack.frames_update_head _ hframes
    exact (invocation_spares (s := { t with machine := t.machine.withFrame rest.length _ })
      hb.positive cells sound.1 frames rfl hlocals taken length enough).mono (fun _ _ => id)
      fun _ => .of_withFrame

/-- A constant is pushed. -/
theorem constant_spares {v : Value} (h : s.machine.Sound Γ (rest.length + 1) x)
    (hframes : s.machine.calls.frames = f :: rest) (hlocals : f.locals = none)
    (hv : v.handle? = none) {loops : Prop} {k : ℕ} :
    ((pushOperand v >>= fun _ => popFrame) s).Meets True (fun _ _ => True)
      fun t => s.machine.Recovers s.machine.memory.heap.cell? f rest loops k t.machine := by
  obtain ⟨-, σ, hb, -⟩ := h.memory
  have hσ : Cells.Counted s.machine.memory.heap.cell? := hb.positive
  have cells : s.machine.memory.Has s.machine.memory.heap.cell? := Memory.has_self hb.heap
  have refused := Request.perform_refused (r := .exchange 0 [v]) none hσ cells trivial
  have pushed : (Machine.exchangeOperands 0 [v] s.machine).Meets True _ _ :=
    Machine.exchangeOperands_meets h (by simpa using Machine.knows_of_handle?_none hv)
  have calls : Machine.Spares Machine.calls (Machine.exchangeOperands 0 [v]) :=
    Machine.spares_exchangeOperands (fun _ _ _ => rfl) 0 [v]
  refine meets_onMachine_bind ((Outcome.Meets.and refused (pushed.and (calls s.machine))).mono ?_
    fun _ h => h.1.recovers hframes hlocals)
  rintro _ m ⟨-, ⟨sound, -⟩, same⟩
  have same : m.calls = s.machine.calls := same
  exact meets_onMachine ((Machine.popFrame_top sound (same ▸ hframes)).always fun _ _ _ => trivial)

/-- **A cycle that dispatches a builtin** and raises recovers. -/
theorem step_spares (h : s.machine.Sound Γ 0 x) (hframes : s.machine.calls.frames = f :: rest)
    (hpending : s.machine.pending = none) (hf : f.value.toOperator? = some (.builtin b))
    (hsupply : f.supply = none) (hstate : f.state = .unknown) (hlocals : f.locals = none) :
    (step natives rest.length f s).Meets True (fun _ _ => True)
      fun t => s.machine.Recovers s.machine.memory.heap.cell? f rest (b.isLoop = true)
        b.signature.length t.machine := by
  have h : s.machine.Sound Γ (rest.length + 1) x :=
    { h with depth := by simp [CallStack.length, hframes] }
  have invoked : s.machine.invoked? f = some (.builtin b) := by
    simp [Machine.invoked?, hpending, hsupply, hf]
  rw [step_of_invoked invoked]
  cases hb : b.constant? with
  | some v =>
    rw [stepOperator, Behaviour.ofOperator, Behaviour.ofBuiltin, hb]
    exact constant_spares h hframes hlocals (Builtin.handle?_of_constant hb)
  | none =>
    rw [stepOperator_dispatches hb hframes hstate]
    exact dispatch_spares h hframes hstate hlocals

end Session

end StackScript
