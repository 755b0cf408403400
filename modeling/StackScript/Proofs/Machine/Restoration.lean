import StackScript.Proofs.Machine.Holdings
import StackScript.Proofs.Machine.Withdrawal
import StackScript.Proofs.Memory.Restoration

/-!
# Machines that are restored

An operation of a machine that fails has restored it: the stacks are the ones that were there, and
nothing in the memory but the peak tells that it was tried (`Machine.Restored`).

* `Machine.exchangeOperands_achieves`, `Machine.pushFrame_achieves`,
  `Machine.replaceFrame_achieves`: operands and frames;
* `Machine.setLocal_equips`: binding a local restores the machine too, except that the frame may have
  been given a dictionary for its locals before (`Machine.Equips`).
-/

namespace StackScript

open Cells

/-- The exception an action ended with, and the state it left. -/
def Outcome.failure? {σ α : Type} : Outcome σ α → Option (Exception × σ)
  | .raised e s => some (e, s)
  | _ => none

theorem Outcome.eq_raised {σ α : Type} {o : Outcome σ α} {e : Exception} {s : σ}
    (h : o.failure? = some (e, s)) : o = .raised e s := by
  cases o with
  | raised e' s' =>
    obtain ⟨rfl, rfl⟩ := Prod.mk.inj (Option.some.inj h)
    rfl
  | done _ _ | broken _ => cases h

/-! ### The call stack -/

namespace CallStack

variable {total : Option ℕ} {σ : ℕ → Label} {x : Stake} {m : Memory} {c : CallStack} {f : Frame}
  {v : Value} {τ : Cells}

theorem push_refused (hτ : τ.Counted) (h : m.Has τ) (c : CallStack) (f : Frame) :
    (c.push f m).Meets True (fun _ _ => True) (Memory.Has τ) :=
  Action.meets_bind (c.reserve.exchange_refused hτ h _ _ _) fun _ _ _ => trivial

theorem replaceTop_refused (hτ : τ.Counted) (h : m.Has τ) (c : CallStack) (v : Value) :
    (c.replaceTop v m).Meets True (fun _ _ => True) (Memory.Has τ) := by
  cases hframes : c.frames with
  | nil =>
    have empty : c.replaceTop v = Action.fail .notEnoughOperands := by rw [replaceTop, hframes]
    rw [empty]
    exact h
  | cons f rest =>
    unfold replaceTop
    rw [hframes]
    -- what the frame holds is given up last, and that does not fail
    exact Action.meets_bind (c.reserve.exchange_refused hτ h _ _ _) fun _ _ _ =>
      Action.meets_bind ((Frame.raises_dispose _).sure _) fun _ _ _ => trivial

theorem achieves_push (hb : m.Balanced total σ (x + c.stake)) (hp : m.heap.Present)
    (hv : (x + c.stake + m.heap.stake).Knows f.value) (hf : f.extras = 0) :
    Memory.Achieves (c.push f) m fun c' _ => c'.frames = f :: c.frames := by
  have pushed : (c.push f m).Meets False _ _ := push_meets hb hv hf (.inr (hp.outSupported x))
  exact (Memory.achieves_of_meets hb (pushed.mono (fun _ _ h => h) fun _ h => h.1)
    (c.push_refused hb.counted hb.has f)).mono fun _ _ h => h.1.1.frames

theorem achieves_replaceTop (hb : m.Balanced total σ (x + c.stake)) (hp : m.heap.Present)
    (hv : (x + c.stake + m.heap.stake).Knows v) :
    Memory.Achieves (c.replaceTop v) m fun c' _ =>
      ∃ f rest, c.frames = f :: rest ∧ c'.frames = { value := v } :: rest := by
  cases hframes : c.frames with
  | nil =>
    have empty : c.replaceTop v = Action.fail .notEnoughOperands := by rw [replaceTop, hframes]
    rw [empty]
    exact .refl m
  | cons f rest =>
    have replaced : (c.replaceTop v m).Meets False _ _ :=
      replaceTop_meets hb hframes hv (.inr (hp.outSupported x))
    exact (Memory.achieves_of_meets hb (replaced.mono (fun _ _ h => h) fun _ h => h.1)
      (c.replaceTop_refused hb.counted hb.has v)).mono
        fun _ _ h => ⟨f, rest, rfl, h.1.1.frames⟩

end CallStack

/-! ### The machine -/

namespace Machine

variable {α : Type} {Γ : Charter} {n index : ℕ} {x : Stake} {m m' m'' : Machine} {v : Value}
  {f : Frame}

/-- Nothing is different but the peak of the memory, which may have risen. -/
structure Restored (m m' : Machine) : Prop where
  same : m.SameStacks m'
  memory : m.memory.Restored m'.memory

theorem Restored.refl (m : Machine) : m.Restored m := ⟨rfl, .refl _⟩

/-- The action does what `P` says, or it fails and has restored the machine. -/
def Achieves (a : Action Machine α) (m : Machine) (P : α → Machine → Prop) : Prop :=
  (a m).Meets False P m.Restored

theorem achieves_onOperands {a : Sequence → Action Memory Sequence} {P : Unit → Machine → Prop}
    (h : Memory.Achieves (a m.operands) m.memory fun s μ =>
      P () { m with memory := μ, operands := s }) : Achieves (onOperands a) m P :=
  meets_onOperands (Outcome.Meets.mono h (fun _ _ => id) fun _ h => ⟨rfl, h⟩)

theorem achieves_onCalls {a : CallStack → Action Memory CallStack} {P : Unit → Machine → Prop}
    (h : Memory.Achieves (a m.calls) m.memory fun c μ =>
      P () { m with memory := μ, calls := c }) : Achieves (onCalls a) m P :=
  meets_onCalls (Outcome.Meets.mono h (fun _ _ => id) fun _ h => ⟨rfl, h⟩)

theorem exchangeOperands_achieves (h : m.Sound Γ n x) (drop : ℕ) {values : List Value}
    (hv : ∀ v ∈ values, m.Knows x v) :
    Achieves (exchangeOperands drop values) m fun _ m' =>
      m'.operands.items = values.reverse ++ m.operands.items.drop drop := by
  obtain ⟨present, σ, hb, -⟩ := h.memory
  unfold Machine.Knows at hv
  rw [stake_eq_operands] at hb hv
  exact achieves_onOperands ((Sequence.achieves_exchange hb drop hv
    (present.outSupported _)).mono fun _ _ h => h.1)

theorem pushFrame_achieves (h : m.Sound Γ n x) (hv : m.Knows x f.value) (hf : f.extras = 0) :
    Achieves (onCalls fun c => c.push f) m fun _ m' => m'.calls.frames = f :: m.calls.frames := by
  obtain ⟨present, σ, hb, -⟩ := h.memory
  unfold Machine.Knows at hv
  rw [stake_eq_calls] at hb hv
  exact achieves_onCalls (CallStack.achieves_push hb present hv hf)

theorem replaceFrame_achieves (h : m.Sound Γ n x) (hv : m.Knows x v) :
    Achieves (replaceFrame v) m fun _ m' =>
      ∃ f rest, m.calls.frames = f :: rest ∧ m'.calls.frames = { value := v } :: rest := by
  obtain ⟨present, σ, hb, -⟩ := h.memory
  unfold Machine.Knows at hv
  rw [stake_eq_calls] at hb hv
  exact achieves_onCalls (CallStack.achieves_replaceTop hb present hv)

/-! ### Locals -/

/-- Nothing is different but that a frame has got a dictionary for its locals, an empty one, which is
charged for. -/
structure Equips (index : ℕ) (i : Handle) (m m' : Machine) : Prop where
  fresh : m.memory.heap.cell? i = none
  machine : m' = { m with
    calls := m.calls.update index fun f => { f with locals := some i }
    memory := m'.memory }
  cells : m'.memory.heap.cell? = Function.update m.memory.heap.cell? i
    (some ⟨1, some (.dictionary { account := .system })⟩)
  ledger : m'.memory.ledger = m.memory.ledger.grant Dictionary.header.cost .system

theorem ensureLocals_equips (h : m.Sound Γ n x) (hf : m.calls.frame? index = some f)
    (hl : f.locals = none) :
    (ensureLocals index m).Meets False (fun i m' => m.Equips index i m') fun m' => m' = m := by
  obtain ⟨-, σ, hb, -⟩ := h.memory
  rw [ensureLocals, Action.get_bind, frame_bind hf, hl]
  refine meets_onMemory_bind ((Memory.newDictionary_grants hb .system _).mono ?_ ?_)
  · rintro i μ ⟨fresh, cells, ledger⟩
    have hf' : CallStack.frame? (Machine.calls { m with memory := μ }) index = some f := hf
    rw [Action.bind_done (updateFrame_eq hf' _)]
    exact ⟨fresh, rfl, cells, ledger⟩
  · rintro _ rfl
    rfl

/-- **Binding a local** restores the machine if it fails, or the frame has got a dictionary for its
locals that is still empty. -/
theorem setLocal_equips (h : m.Sound Γ n x) (hf : m.calls.frame? index = some f) (hi : index < n)
    (name : String) (hv : m.Knows x v) :
    (setLocal index name v m).Meets False (fun _ m' => m'.LocalIs index name v) fun m' =>
      m.Restored m' ∨ f.locals = none ∧ ∃ i m₁, m.Equips index i m₁ ∧ m₁.Restored m' := by
  have bound : (setLocal index name v m).Meets False _ _ := setLocal_meets h hi hv
  suffices ended : (setLocal index name v m).Meets False (fun _ _ => True) fun m' =>
      m.Restored m' ∨ f.locals = none ∧ ∃ i m₁, m.Equips index i m₁ ∧ m₁.Restored m' from
    (bound.and ended).mono (fun _ _ h => h.1.2.1) fun _ h => h.2
  have ensured : (ensureLocals index m).Meets False _ _ := ensureLocals_meets h hi
  have equipped : (ensureLocals index m).Meets False
      (fun i m₁ => m₁ = m ∨ f.locals = none ∧ m.Equips index i m₁) fun m' => m' = m := by
    cases hl : f.locals with
    | some i =>
      rw [ensureLocals_of_some hf hl]
      exact .inl rfl
    | none => exact (ensureLocals_equips h hf hl).mono (fun _ _ h => .inr ⟨rfl, h⟩) fun _ => id
  refine Action.meets_bind ((ensured.and equipped).mono (fun _ _ => id) ?_) ?_
  · rintro _ ⟨rfl, -⟩
    exact .inl (.refl _)
  rintro i m₁ ⟨⟨⟨h₁, -⟩, ⟨f₁, hf₁, hl₁⟩, -, knows⟩, new⟩
  obtain ⟨present, σ, hb, -⟩ := h₁.memory
  have hloc : i ∈ (m₁.stake + x).locals := by
    rw [Stake.locals_add, Multiset.mem_add]
    exact .inl (mem_locals_stake hf₁ hl₁)
  obtain ⟨d, ho⟩ := hb.dictionary_of_locals present hloc
  have defined := Memory.achieves_define hb present ho
    (Heap.anchored_of_holders (Stake.holders_pos_of_local hloc)) name (knows v hv)
  refine meets_onMemory (Outcome.Meets.mono defined (fun _ _ _ => trivial) fun μ restored => ?_)
  have restored : m₁.Restored { m₁ with memory := μ } := ⟨rfl, restored⟩
  rcases new with rfl | ⟨hl, equips⟩
  · exact .inl restored
  · exact .inr ⟨hl, i, m₁, equips, restored⟩

end Machine

end StackScript
