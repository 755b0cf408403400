import StackScript.Proofs.Guarantees.Protocol
import StackScript.Proofs.Machine.Courses
import StackScript.Proofs.Machine.Faultless
import StackScript.Proofs.Machine.Restoration
import StackScript.Proofs.Machine.Steered

/-!
# A step that fails can be tried again

A frame that is no operator at work attempts one thing in a cycle: to read a token, to pass on an
element of a block, to resolve a name, or to move a value (`Frame.attempt?`).  If that fails,
nothing is different afterwards but the exception, its record and what is charged for the record.
So when the exception has been taken away, the next cycle attempts the very same thing
(`failed_steps_lose_nothing`).
-/

namespace StackScript

variable {χ : Type}

/-! ### Attempts -/

/-- What a cycle attempts. -/
inductive Attempt where
  /-- To do what the next token of a text says, if there is one. -/
  | token (next : Except Cause (Option Token))
  /-- To pass on the next element of a block, if there is one. -/
  | element (next : Except Breach (Option Value))
  /-- To put in place of a name what it is bound to. -/
  | name (name : String)
  /-- To push an operand. -/
  | value (v : Value)

/-- What the next cycle of a frame attempts, unless it takes a value from a supply or invokes an
operator. -/
def Frame.attempt? (natives : Natives χ) (m : Memory) (f : Frame) : Option Attempt :=
  match f.supply with
  | some _ => none
  | none =>
    match f.value.datum with
    | .operator o =>
      match Behaviour.ofOperator natives o with
      | .constant v => some (.value v)
      | .function .. => none
    | .name name true => some (.name name)
    | .string text true => some (.token (Token.next text f.cursor))
    | .array handle .block => some (.element ((m.array handle).map (·.get? f.cursor)))
    | _ => some (.value f.value)

/-- It depends on nothing in the memory but what containers hold. -/
theorem Frame.attempt?_congr {natives : Natives χ} {m m' : Memory} (f : Frame)
    (h : m'.heap.cell? = m.heap.cell?) : f.attempt? natives m' = f.attempt? natives m := by
  have arrays : m'.array = m.array := by
    funext i
    simp only [Memory.array, Heap.get, h]
  simp only [attempt?, arrays]

/-! ### Records -/

namespace Ledger

/-- What was granted can be given back at once. -/
theorem release_grant (l : Ledger) (size : Size) (a : Account) :
    release size a (l.grant size.cost a) =
      .done () ((l.grant size.cost a).takeBack size.cost a) := by
  have held : size.cost ≤ (l.grant size.cost a).held a := by
    rw [held_grant, if_pos rfl]
    exact Nat.le_add_left ..
  exact if_pos ⟨held, Nat.le_add_left ..⟩

theorem grant_zero {total : Option ℕ} {l : Ledger} (h : l.Exact total) (a : Account) :
    l.grant 0 a = l := by
  have peak : max l.peak l.used = l.peak := max_eq_left h.used_le
  cases a <;> simp [grant, setHeld, held, peak]

end Ledger

/-- Giving back what was granted restores the memory. -/
theorem Memory.restored_of_granted (m : Memory) (n : ℕ) (a : Account) :
    m.Restored { m with ledger := (m.ledger.grant n a).takeBack n a } where
  cells := rfl
  strings := by simp
  capacity := by cases a <;> rfl
  used := Nat.add_sub_cancel ..
  held := by
    funext b
    rw [Ledger.held_takeBack, Ledger.held_grant]
    exact Nat.add_sub_cancel ..
  peak := by
    have raised : (m.ledger.grant n a).peak = max m.ledger.peak (m.ledger.used + n) := by
      cases a <;> rfl
    have kept : ((m.ledger.grant n a).takeBack n a).peak = (m.ledger.grant n a).peak := by
      cases a <;> rfl
    exact (le_max_left ..).trans (kept.trans raised).ge

namespace PendingException

/-- The record is one of the exception, or a bare one if that was too much. -/
def Records (e : Exception) (p : PendingException) : Prop :=
  p.exception.condition = e.condition ∨ p.exception.condition = .memoryOverflow

/-- A record is granted what it is charged for, which is nothing for a bare one. -/
theorem record_grants {total : Option ℕ} {m : Memory} (h : m.ledger.Exact total)
    (e : Exception) : ∃ p, p.Records e ∧ record e m =
      .done p { m with ledger := m.ledger.grant p.charge.cost .system } := by
  unfold record
  rw [Action.bind_apply, Action.attempt]
  unfold Memory.onLedger Action.zoom Ledger.allocate
  cases m.ledger.check e.size with
  | ok _ => exact ⟨_, .inl rfl, rfl⟩
  | error c =>
    refine ⟨_, ?_, congrArg (Outcome.done _) ?_⟩
    rotate_left
    · rw [show Size.cost {} = 0 from rfl, Ledger.grant_zero h]
    · dsimp only [Records]
      split
      · exact .inl rfl
      · exact .inr rfl

end PendingException

namespace Machine

variable {Γ : Charter} {n : ℕ} {x : Stake} {m : Machine}

/-- Where no exception is pending one is made pending by a record, which is charged for; block
definitions under way are abandoned. -/
theorem raise_records (h : m.Sound Γ n x) (hpending : m.pending = none) (e : Exception) :
    ∃ p : PendingException, p.Records e ∧ raise e m = .done () { m with
      memory := { m.memory with ledger := m.memory.ledger.grant p.charge.cost .system }
      pending := some p
      blockDepth := 0 } := by
  obtain ⟨lines, hlines⟩ := h.trail_ok
  obtain ⟨-, σ, hb, -⟩ := h.memory
  have notDoomed : m.isDoomed = false := by
    rw [isDoomed, condition, exception, hpending]
    rfl
  obtain ⟨p, records, recorded⟩ := PendingException.record_grants hb.exact { e with trail := lines }
  refine ⟨p, records, ?_⟩
  have stored : onMemory (PendingException.record { e with trail := lines }) m =
      .done p { m with memory :=
        { m.memory with ledger := m.memory.ledger.grant p.charge.cost .system } } := by
    unfold onMemory Action.zoom
    rw [recorded]
  unfold raise
  rw [Action.get_bind, notDoomed, hlines, hpending]
  change (onMemory (PendingException.record { e with trail := lines }) >>= _) m = _
  rw [Action.bind_done stored]
  rfl

/-- When it is taken away the charge is given back. -/
theorem intercept_granted {μ : Memory} {p : PendingException}
    (hp : p.exception.condition.isFatal = false) (hm : m.pending = some p)
    (hμ : m.memory = { μ with ledger := μ.ledger.grant p.charge.cost .system }) :
    intercept m = .done (some p.exception) { m with
      memory := { μ with ledger :=
        (μ.ledger.grant p.charge.cost .system).takeBack p.charge.cost .system }
      pending := none } := by
  have notDoomed : m.isDoomed = false := by
    rw [isDoomed, condition, exception, hm]
    exact hp
  have discharged : discharge m.pending m = .done () { m with memory := { μ with
      ledger := (μ.ledger.grant p.charge.cost .system).takeBack p.charge.cost .system } } := by
    rw [hm]
    unfold discharge onMemory PendingException.discharge Memory.onLedger Action.zoom
    dsimp only
    rw [hμ, Ledger.release_grant]
    dsimp only
    rw [hm]
  unfold intercept
  rw [Action.get_bind, notDoomed]
  change (discharge m.pending >>= _) m = _
  rw [Action.bind_done discharged, exception, hm]
  rfl

end Machine

/-! ### Steps that fail -/

namespace Session

variable {natives : Natives χ} {Γ : Charter} {x : Stake} {s t u : Session χ} {f : Frame}
  {rest : List Frame} {v : Value} {a : Attempt}

/-- If the action raises it has restored the session. -/
def Restores (Γ : Charter) (x : Stake) (s : Session χ) (a : Action (Session χ) Unit) : Prop :=
  (a s).Meets True (fun _ _ => True) fun t =>
    t.host = s.host ∧ s.machine.Restored t.machine ∧ t.machine.Sound Γ 0 x

theorem restores_fail (h : s.machine.Sound Γ 0 x) (c : Cause) :
    Restores Γ x s (Action.fail c) := ⟨rfl, .refl _, h⟩

/-- What follows does not raise. -/
theorem Restores.bind {y : Action (Session χ) Unit} {k : Unit → Action (Session χ) Unit}
    (hy : Restores Γ x s y) (hk : ∀ a, (k a).Raises fun _ => False) :
    Restores Γ x s (y >>= k) :=
  Action.meets_bind hy fun a t _ => (hk a).sure t

theorem restores_onMachine {y : Action Machine Unit} {P : Unit → Machine → Prop}
    (hy : Machine.Achieves y s.machine P)
    (h : (y s.machine).Meets True (fun _ _ => True) fun m => m.Sound Γ 0 x) :
    Restores Γ x s (onMachine y) :=
  meets_onMachine ((h.and hy).mono (fun _ _ _ => trivial) fun _ hm => ⟨rfl, hm.2, hm.1⟩)

theorem pushOperand_restores (h : s.machine.Sound Γ 0 x) (hv : s.machine.Knows x v) :
    Restores Γ x s (pushOperand v) := by
  have known : ∀ w ∈ [v], s.machine.Knows x w := by simpa using hv
  have pushed : (Machine.exchangeOperands 0 [v] s.machine).Meets True _ _ :=
    Machine.exchangeOperands_meets h known
  exact restores_onMachine (Machine.exchangeOperands_achieves h 0 known)
    (pushed.mono (fun _ _ _ => trivial) fun _ h => h.1)

theorem call_restores (h : s.machine.Sound Γ 0 x) (hv : s.machine.Knows x v) :
    Restores Γ x s (onMachine (Machine.call v)) := by
  have called : (Machine.call v s.machine).Meets True _ _ := Machine.call_meets h hv
  exact restores_onMachine (Machine.pushFrame_achieves (f := { value := v }) h hv rfl)
    (called.mono (fun _ _ _ => trivial) fun _ h => h.1)

theorem replaceFrame_restores (h : s.machine.Sound Γ 0 x) (hv : s.machine.Knows x v) :
    Restores Γ x s (onMachine (Machine.replaceFrame v)) := by
  have replaced : (Machine.replaceFrame v s.machine).Meets True _ _ :=
    Machine.replaceFrame_meets h hv
  exact restores_onMachine (Machine.replaceFrame_achieves h hv)
    (replaced.mono (fun _ _ _ => trivial) fun _ h => h.1)

/-- The top frame can go always. -/
theorem popFrame_sure (h : s.machine.Sound Γ 0 x) (hframes : s.machine.calls.frames = f :: rest)
    {F : Session χ → Prop} : (popFrame s).Meets True (fun _ _ => True) F :=
  (meets_onMachine ((Machine.popFrame_leaves h hframes).mono (fun _ _ _ => trivial)
    fun _ h => h.elim)).weaken

theorem pushOperand_popFrame_restores (h : s.machine.Sound Γ 0 x)
    (hframes : s.machine.calls.frames = f :: rest) (hv : s.machine.Knows x v) :
    Restores Γ x s (pushOperand v >>= fun _ => popFrame) := by
  have known : ∀ w ∈ [v], s.machine.Knows x w := by simpa using hv
  have pushed : (pushOperand v s).Meets True (fun _ t => t.machine.Sound Γ 0 x ∧
      t.machine.calls.frames = f :: rest) fun _ => True :=
    meets_onMachine ((Machine.exchangeOperands_meets h known).mono
      (fun _ _ hm => ⟨hm.1, hm.2.2 ▸ hframes⟩) fun _ _ => trivial)
  exact Action.meets_bind ((pushed.and (pushOperand_restores h hv)).mono (fun _ _ h => h.1)
    fun _ h => h.2) fun _ t ht => popFrame_sure ht.1 ht.2

theorem yieldItem_restores (h : s.machine.Sound Γ 0 x) (hv : s.machine.Knows x v) :
    Restores Γ x s (yieldItem v) := by
  unfold yieldItem
  split
  · exact pushOperand_restores h hv
  · exact call_restores h hv

theorem stepName_restores (h : s.machine.Sound Γ 0 x)
    (hframes : s.machine.calls.frames = f :: rest) (name : String) :
    Restores Γ x s (stepName f.value name) := by
  have token : s.machine.Knows x f.value := Machine.knows_of_frame (hframes ▸ .head rest)
  unfold Restores stepName
  rw [theMachine_bind]
  split
  · exact pushOperand_popFrame_restores h hframes token
  · obtain ⟨found, hfound, known⟩ := h.lookup_ok name
    rw [hfound]
    cases found with
    | error c => exact restores_fail h c
    | ok v => exact replaceFrame_restores h ((known v rfl).withSource _)

theorem stepSource_restores (h : s.machine.Sound Γ 0 x)
    (hframes : s.machine.calls.frames = f :: rest) (text : String) :
    Restores Γ x s (stepSource rest.length f text) := by
  unfold Restores stepSource
  cases hnext : Token.next text f.cursor with
  | error c => exact restores_fail h c
  | ok next =>
    cases next with
    | none => exact popFrame_sure h hframes
    | some token =>
      set v := token.value.withSource (some (tokenSource f.value text token)) with hv
      have known : s.machine.Knows x v := Machine.knows_of_handle?_none (handle?_of_token hnext)
      change Restores Γ x s (if v.isExecutable then onMachine (Machine.call v) >>= fun _ =>
        onMachine (Machine.updateFrame rest.length _) else pushOperand v >>= fun _ =>
          onMachine (Machine.updateFrame rest.length _))
      split
      · exact (call_restores h known).bind fun _ => raises_updateFrame _ _
      · exact (pushOperand_restores h known).bind fun _ => raises_updateFrame _ _

theorem stepBlock_restores (h : s.machine.Sound Γ 0 x)
    (hframes : s.machine.calls.frames = f :: rest) {handle : Handle}
    (hd : f.value.datum = .array handle .block) :
    Restores Γ x s (stepBlock rest.length f handle) := by
  obtain ⟨present, σ, hb, -⟩ := h.memory
  obtain ⟨block, ho⟩ :=
    hb.array_of_known present (Machine.knows_of_frame (hframes ▸ .head rest)) hd
  unfold Restores stepBlock
  rw [theMachine_bind, Memory.array_of_object? ho, read_bind]
  cases hitem : block.get? f.cursor with
  | none => exact popFrame_sure h hframes
  | some item =>
    have known : s.machine.Knows x item := by
      refine Machine.knows_of_item ho ?_
      unfold Sequence.get? at hitem
      split at hitem
      · exact List.mem_of_getElem? hitem
      · cases hitem
    dsimp only
    split
    · split
      · exact pushOperand_popFrame_restores h hframes known
      · exact replaceFrame_restores h known
    · exact (yieldItem_restores h known).bind fun _ => raises_updateFrame _ _

/-- What is attempted is what the cycle does. -/
theorem advance_of_attempt (index : ℕ) {m : Memory} (ha : f.attempt? natives m = some a) :
    (∃ v, a = .value v ∧ (v = f.value ∨ ∃ o, Behaviour.ofOperator natives o = .constant v) ∧
      advance natives index f = pushOperand v >>= fun _ => popFrame) ∨
    (∃ name, a = .name name ∧ advance natives index f = stepName f.value name) ∨
    (∃ text, a = .token (Token.next text f.cursor) ∧ f.value.datum = .string text true ∧
      advance natives index f = stepSource index f text) ∨
    ∃ handle, a = .element ((m.array handle).map (·.get? f.cursor)) ∧
      f.value.datum = .array handle .block ∧ advance natives index f = stepBlock index f handle := by
  unfold Frame.attempt? at ha
  unfold advance
  cases hsupply : f.supply with
  | some p => rw [hsupply] at ha; cases ha
  | none =>
    rw [hsupply] at ha
    have moved (h : a = .value f.value) : ∃ v, a = .value v ∧
        (v = f.value ∨ ∃ o, Behaviour.ofOperator natives o = .constant v) ∧
          (do pushOperand f.value; popFrame : Action (Session χ) Unit) =
            pushOperand v >>= fun _ => popFrame := ⟨_, h, .inl rfl, rfl⟩
    cases hd : f.value.datum with
    | operator o =>
      rw [hd] at ha
      dsimp only at ha ⊢
      unfold stepOperator
      cases hb : Behaviour.ofOperator natives o with
      | function signature invoke => rw [hb] at ha; cases ha
      | constant v =>
        rw [hb] at ha
        exact .inl ⟨v, (Option.some.inj ha).symm, .inr ⟨o, hb⟩, rfl⟩
    | name name executable =>
      rw [hd] at ha
      cases executable with
      | true => exact .inr (.inl ⟨name, (Option.some.inj ha).symm, rfl⟩)
      | false => exact .inl (moved (Option.some.inj ha).symm)
    | string text executable =>
      rw [hd] at ha
      cases executable with
      | true => exact .inr (.inr (.inl ⟨text, (Option.some.inj ha).symm, rfl, rfl⟩))
      | false => exact .inl (moved (Option.some.inj ha).symm)
    | array handle access =>
      rw [hd] at ha
      cases access with
      | block => exact .inr (.inr (.inr ⟨handle, (Option.some.inj ha).symm, rfl, rfl⟩))
      | literal | mutable => exact .inl (moved (Option.some.inj ha).symm)
    | _ =>
      rw [hd] at ha
      exact .inl (moved (Option.some.inj ha).symm)

/-- The constants of builtins are no containers. -/
theorem knows_of_constant {m : Machine} {o : Operator}
    (hn : ∀ name v, natives name = .constant v → m.Knows x v)
    (ho : Behaviour.ofOperator natives o = .constant v) : m.Knows x v := by
  rcases Behaviour.constant_cases ho with ⟨b, -, hb⟩ | ⟨name, looping, -, hname⟩
  · exact Machine.knows_of_handle?_none (Builtin.handle?_of_constant hb)
  · exact hn name v hname

/-- **An attempt that fails** has restored the session. -/
theorem advance_restores (h : s.machine.Sound Γ 0 x)
    (hframes : s.machine.calls.frames = f :: rest)
    (hn : ∀ name v, natives name = .constant v → s.machine.Knows x v)
    (ha : f.attempt? natives s.machine.memory = some a) :
    Restores Γ x s (advance natives rest.length f) := by
  rcases advance_of_attempt rest.length ha with ⟨v, -, origin, eq⟩ | ⟨name, -, eq⟩ |
    ⟨text, -, -, eq⟩ | ⟨handle, -, hd, eq⟩ <;> rw [eq]
  · refine pushOperand_popFrame_restores h hframes ?_
    rcases origin with rfl | ⟨o, ho⟩
    · exact Machine.knows_of_frame (hframes ▸ .head rest)
    · exact knows_of_constant hn ho
  · exact stepName_restores h hframes name
  · exact stepSource_restores h hframes text
  · exact stepBlock_restores h hframes hd

/-- It does not raise an internal exception, if a text is cut between its characters. -/
theorem advance_ordinary {index : ℕ} {m : Memory} {e : Exception}
    (ha : f.attempt? natives m = some a)
    (hcursor : ∀ text, f.value.datum = .string text true → Text.Boundary text f.cursor)
    (hraised : advance natives index f s = .raised e u) : e.Ordinary := by
  have calm : Calm s (advance natives index f) := by
    rcases advance_of_attempt index ha with ⟨v, -, -, eq⟩ | ⟨name, -, eq⟩ | ⟨text, -, hd, eq⟩ |
      ⟨handle, -, -, eq⟩ <;> rw [eq]
    · exact calm_pushOperand_popFrame v s
    · exact stepName_calm f.value name s
    · exact stepSource_calm index (hcursor text hd) s
    · exact stepBlock_calm index f handle s
  rw [Calm, hraised] at calm
  exact calm.1

/-! ### Cursors -/

end Session

/-- A text is cut between its characters. -/
def Frame.Cut (f : Frame) : Prop :=
  f.supply = none → ∀ text, f.value.datum = .string text true → Text.Boundary text f.cursor

namespace Session

variable {natives : Natives χ} {s t : Session χ} {f : Frame} {rest : List Frame}

theorem cut_fresh (v : Value) (supply : Option Supply) :
    Frame.Cut { value := v, supply := supply } :=
  fun _ text _ => Text.boundary_zero text

theorem cut_of_operator {o : Operator} (h : f.value.toOperator? = some o) : f.Cut := by
  intro _ text hd
  rw [Value.toOperator?, hd] at h
  cases h

theorem cut_of_turned {frames : List Frame} (hf : f.Cut) (h : ∀ g ∈ rest, g.Cut)
    (turned : f.Turned rest frames) : ∀ g ∈ frames, g.Cut := by
  cases turned with
  | kept => exact List.forall_mem_cons.2 ⟨hf, h⟩
  | removed => exact h
  | replaced v _ => exact List.forall_mem_cons.2 ⟨cut_fresh v none, h⟩
  | advanced cursor supply queued hcursor hsupply _ =>
    intro g hg
    rw [List.mem_append, List.mem_cons, List.mem_map] at hg
    rcases hg with ⟨v, -, rfl⟩ | rfl | hg
    · exact cut_fresh v none
    · intro hnone text hd
      have none : f.supply = none := by
        rw [show supply = none from hnone] at hsupply
        simpa using hsupply.symm
      rcases hcursor text none hd with rfl | ⟨token, htoken, rfl⟩
      · exact hf none text hd
      · exact Token.boundary_of_next htoken
    · exact h g hg

theorem cut_of_ran {frames : List Frame} {o : Operator} (ho : f.value.toOperator? = some o)
    (h : ∀ g ∈ rest, g.Cut) (ran : f.Ran rest frames) : ∀ g ∈ frames, g.Cut := by
  rcases ran with rfl | ⟨vs, g, rfl, hvalue, -, -⟩
  · exact h
  · intro f' hf'
    rcases List.mem_append.1 hf' with hf' | hf'
    · obtain ⟨v, -, rfl⟩ := Frame.mem_queued.1 hf'
      exact cut_fresh v none
    · rcases List.mem_cons.1 hf' with rfl | hf'
      · exact cut_of_operator (hvalue ▸ ho)
      · exact h f' hf'

theorem cycle_cut (he : Engaged natives s) (h : ∀ f ∈ s.machine.calls.frames, f.Cut)
    (ht : (Session.cycle natives s).state? = some t) : ∀ f ∈ t.machine.calls.frames, f.Cut := by
  cases hframes : s.machine.calls.frames with
  | nil =>
    unfold Session.cycle at ht
    rw [theMachine_bind, hframes] at ht
    exact Option.some.inj ht ▸ h
  | cons f rest =>
    obtain ⟨hf, hrest⟩ := List.forall_mem_cons.1 (hframes ▸ h)
    have stepped : (step natives rest.length f s).Meets True
        (fun _ t => ∀ g ∈ t.machine.calls.frames, g.Cut)
        fun t => ∀ g ∈ t.machine.calls.frames, g.Cut := by
      cases ho : s.machine.invoked? f with
      | none =>
        exact (step_turns hframes (he f (hframes ▸ .head rest)).supplied ho).mono
          (fun _ _ => cut_of_turned hf hrest) fun _ => cut_of_turned hf hrest
      | some o =>
        rw [step_of_invoked ho]
        cases hb : Behaviour.ofOperator natives o with
        | constant v =>
          unfold stepOperator
          rw [hb]
          exact (pushOperand_popFrame_turns v hframes).mono
            (fun _ _ => cut_of_turned hf hrest) fun _ => cut_of_turned hf hrest
        | function signature invoke =>
          have operator := Machine.toOperator?_of_invoked? ho
          exact (stepOperator_runs hb hframes).mono
            (fun _ _ => cut_of_ran operator hrest) fun _ => cut_of_ran operator hrest
    exact (cycle_frames (P := fun frames => ∀ g ∈ frames, g.Cut) hframes stepped).of_state? ht

/-- **Texts are cut between their characters**, whatever operators work on them. -/
theorem cut_of_goes (hs : s.machine.calls.frames = [])
    (h : Relation.ReflTransGen (Goes natives) s t) : ∀ f ∈ t.machine.calls.frames, f.Cut := by
  induction h with
  | refl => intro f hf; rw [hs] at hf; cases hf
  | @tail u t hu step ih =>
    have received (hr : u.machine.calls.Receives t.machine.calls) :
        ∀ f ∈ t.machine.calls.frames, f.Cut := by
      rcases hr with same | ⟨v, supply, -, hframes⟩
      · exact same ▸ ih
      · rw [hframes]
        exact List.forall_mem_cons.2 ⟨cut_fresh v supply, ih⟩
    cases step with
    | request r ht => exact received (receives_of_request ht)
    | execute work ht => exact received (receives_of_execute ht)
    | cycle ht => exact cycle_cut (engaged_of_goes hs hu) ih ht

/-! ### The guarantee -/

/-- What a failed step leaves: its exception is pending, and the record of it is charged for. -/
structure Interrupted (s : Session χ) (p : PendingException) (t : Session χ) : Prop where
  host : t.host = s.host
  machine : t.machine =
    { s.machine with memory := t.machine.memory, pending := some p, blockDepth := 0 }
  memory : ∃ μ, s.machine.memory.Restored μ ∧
    t.machine.memory = { μ with ledger := μ.ledger.grant p.charge.cost .system }

/-- Everything is as it was, but block definitions under way have been abandoned. -/
structure Recovered (s t : Session χ) : Prop where
  host : t.host = s.host
  machine : t.machine =
    { s.machine with memory := t.machine.memory, pending := none, blockDepth := 0 }
  memory : s.machine.memory.Restored t.machine.memory

/-- A cycle whose step has failed and restored the session. -/
theorem Restores.cycle {Γ : Charter} {x : Stake} {u : Session χ} {e : Exception}
    (hframes : s.machine.calls.frames = f :: rest) (hpending : s.machine.pending = none)
    (hstep : Restores Γ x s (step natives rest.length f))
    (hraised : step natives rest.length f s = .raised e u) :
    ∃ p t, p.Records e ∧ Session.cycle natives s = .done true t ∧ s.Interrupted p t := by
  rw [Restores, hraised] at hstep
  obtain ⟨host, ⟨same, memory⟩, sound⟩ := hstep
  unfold Machine.SameStacks at same
  obtain ⟨p, records, raised⟩ := Machine.raise_records sound (by rw [same]; exact hpending) e
  have attempted : (step natives rest.length f).attempt s = .done (.error e) u := by
    rw [Action.attempt, hraised]
  have frames : u.machine.calls.frames = f :: rest := by rw [same]; exact hframes
  refine ⟨p, { u with machine := { u.machine with
    memory := { u.machine.memory with
      ledger := u.machine.memory.ledger.grant p.charge.cost .system }
    pending := some p
    blockDepth := 0 } }, records, ?_, host, ?_, u.machine.memory, memory, rfl⟩
  · unfold Session.cycle
    rw [theMachine_bind, hframes]
    dsimp only
    rw [Action.bind_done attempted]
    dsimp only
    rw [Action.bind_done (onMachine_done raised), theMachine_bind]
    simp [CallStack.isEmpty, frames]
  · rw [same]

/-- Taking the exception away. -/
theorem Interrupted.intercept {p : PendingException} (h : s.Interrupted p t)
    (hp : p.exception.condition.isFatal = false) :
    ∃ u, onMachine Machine.intercept t = .done (some p.exception) u ∧ s.Recovered u := by
  obtain ⟨μ, restored, memory⟩ := h.memory
  have pending : t.machine.pending = some p := by rw [h.machine]
  refine ⟨_, onMachine_done (Machine.intercept_granted hp pending memory), h.host, ?_,
    restored.trans (Memory.restored_of_granted μ _ .system)⟩
  rw [h.machine]

end Session

theorem PendingException.Records.not_isFatal {e : Exception} {p : PendingException}
    (h : p.Records e) (he : e.Ordinary) : p.exception.condition.isFatal = false := by
  rcases h with h | h
  · rw [h]
    exact he.not_isFatal
  · rw [h]
    rfl

open Session in
/-- **A step that fails loses nothing.**  In any course of a host and its operators, if references
are counted right, the host has what its constants refer to, and what the top frame attempts fails,
then stacks and frames are as before, and so is the memory but for the charge of the record.  When
the exception has been taken away the frame attempts the same again. -/
theorem failed_steps_lose_nothing {natives : Natives χ} {Γ : Charter} {n : ℕ} {x : Stake}
    {s₀ s u : Session χ} {f : Frame} {rest : List Frame} {a : Attempt} {e : Exception}
    (hs₀ : s₀.machine.calls.frames = []) (hcourse : Relation.ReflTransGen (Goes natives) s₀ s)
    (h : s.machine.Sound Γ n x)
    (hn : ∀ name v, natives name = .constant v → s.machine.Knows x v)
    (hpending : s.machine.pending = none) (hframes : s.machine.calls.frames = f :: rest)
    (ha : f.attempt? natives s.machine.memory = some a)
    (hraised : step natives rest.length f s = .raised e u) :
    ∃ p t r, p.Records e ∧ cycle natives s = .done true t ∧ s.Interrupted p t ∧
      onMachine Machine.intercept t = .done (some p.exception) r ∧ s.Recovered r ∧
        f.attempt? natives r.machine.memory = some a := by
  have stepped : step natives rest.length f s = advance natives rest.length f s := by
    unfold step
    rw [theMachine_bind, hpending]
    rfl
  have restores : Restores Γ x s (step natives rest.length f) := by
    rw [Restores, stepped]
    exact advance_restores h.unframed hframes hn ha
  obtain ⟨p, t, records, cycled, interrupted⟩ := restores.cycle hframes hpending hraised
  have supply : f.supply = none := by
    cases hs : f.supply with
    | none => rfl
    | some _ => rw [Frame.attempt?, hs] at ha; cases ha
  have cut : f.Cut := cut_of_goes hs₀ hcourse f (hframes ▸ .head rest)
  have ordinary : e.Ordinary := advance_ordinary ha (cut supply) (stepped ▸ hraised)
  obtain ⟨r, taken, recovered⟩ := interrupted.intercept (records.not_isFatal ordinary)
  exact ⟨p, t, r, records, cycled, interrupted, taken, recovered,
    (f.attempt?_congr recovered.memory.cells).trans ha⟩

/-- What a host reaches is reached in the course of its calls. -/
theorem Reached.goes {m₀ : Machine} {owned : List Value} {s : Session χ}
    (h : Reached m₀ owned s) : ∃ host, Relation.ReflTransGen (Session.Goes Natives.none)
      { machine := m₀, host := host } s := by
  have requested {α : Type} {y : Action Machine α} {s : Session χ} {m : Machine}
      (hm : (y s.machine).state? = some m) :
      (Session.onMachine y s).state? = some { s with machine := m } := by
    rw [Session.state?_onMachine, hm]
    rfl
  induction h with
  | start host => exact ⟨host, .refl⟩
  | @answered _ _ s r a m _ _ _ hm ih =>
    exact ih.imp fun _ ih => ih.tail (.request r (requested (by rw [hm]; rfl)))
  | @refused _ _ s r e m _ _ _ hm ih =>
    exact ih.imp fun _ ih => ih.tail (.request r (requested (by rw [hm]; rfl)))
  | @execute _ s work m _ _ hm ih =>
    exact ih.imp fun _ ih => ih.tail (.execute work (requested hm))
  | cycle _ _ ht ih => exact ih.imp fun _ ih => ih.tail (.cycle ht)
  | run _ _ ht ih => exact ih.imp fun _ ih => ih.trans (Session.goes_of_run ht)
  | complete _ _ ht ih => exact ih.imp fun _ ih => ih.trans (Session.goes_of_runToCompletion ht)

/-- A name that is not bound is looked up again when the exception has been taken away. -/
theorem failed_lookup_loses_nothing :
    ∃ (s t r : Session Unit) (p : PendingException) (f : Frame),
      Session.trial {} "nowhere" 1 = some s ∧ s.machine.calls.frames.head? = some f ∧
        f.attempt? (Natives.none : Natives Unit) s.machine.memory = some (.name "nowhere") ∧
          Session.cycle Natives.none s = .done true t ∧ s.Interrupted p t ∧
            Session.onMachine Machine.intercept t = .done (some p.exception) r ∧ s.Recovered r ∧
              f.attempt? (Natives.none : Natives Unit) r.machine.memory =
                some (.name "nowhere") := by
  have facts : ((Session.trial {} "nowhere" 1).bind fun s =>
      s.machine.calls.frames.head?.map fun f => (s.machine.pending, f.supply, f.value.datum,
        (Session.step Natives.none s.machine.calls.frames.tail.length f s).failure?.isSome)) =
      some (none, none, .name "nowhere" true, true) := by decide +kernel
  obtain ⟨s, hs, facts⟩ := Option.bind_eq_some_iff.1 facts
  obtain ⟨f, hf, facts⟩ := Option.map_eq_some_iff.1 facts
  simp only [Prod.mk.injEq] at facts
  obtain ⟨pending, supply, datum, failed⟩ := facts
  obtain ⟨⟨e, u⟩, failed⟩ := Option.isSome_iff_exists.1 failed
  obtain ⟨m₀, created, reached⟩ := Reached.of_trial (by rintro t ⟨⟩) hs
  obtain ⟨Γ, -, kept⟩ := reached.sound created
  obtain ⟨host, course⟩ := reached.goes
  obtain ⟨-, α, setup, b, μ, -, hm₀⟩ := created
  obtain ⟨rest, hframes⟩ := List.head?_eq_some_iff.1 hf
  rw [hframes, List.tail_cons] at failed
  have attempt : f.attempt? (Natives.none : Natives Unit) s.machine.memory =
      some (.name "nowhere") := by
    rw [Frame.attempt?, supply, datum]
  obtain ⟨p, t, r, -, cycled, interrupted, taken, recovered, again⟩ :=
    failed_steps_lose_nothing (Machine.frames_of_create hm₀) course kept.sound nofun pending
      hframes attempt (Outcome.eq_raised failed)
  exact ⟨s, t, r, p, f, hs, hf, attempt, cycled, interrupted, taken, recovered, again⟩

end StackScript
