import StackScript.Machine.Cycle
import StackScript.Proofs.Operator.Containers
import StackScript.Proofs.Operator.Flow
import StackScript.Proofs.Operator.Operands
import StackScript.Proofs.Operator.Regimes
import StackScript.Proofs.Text.Cursor

/-!
# Cycles keep a machine sound

An operator works on the frame at the top, with its operands pinned for the time of its first
invocation; afterwards the frame may be gone.  The locals of the frames below stay as they are
(`Session.step_advances`).  A cycle of a sound machine leaves a sound machine, be it that the work of
the cycle succeeds or that its exception becomes pending, and violates no invariant
(`Session.cycle_meets`).

The values a host supplies have to be known when they are taken (`Machine.Fed`).
-/

namespace StackScript

namespace Builtin

variable {Γ : Charter} {i : ℕ} {x : Stake} {m : Machine} {params : List Value}

/-- **Every builtin works**, whatever operands it got. -/
theorem operation_works (b : Builtin) (h : m.Sound Γ (i + 1) x)
    (hx : ∀ v ∈ params, v ∈ x.values) : Operation.Works Γ i x m (b.operation params) := by
  cases b with
  | trueValue | falseValue | nullValue | mark | openArray | openDictionary =>
    exact Operation.works_pure h
  | drop => exact Operation.pop_works h 1
  | duplicate => exact Operation.duplicateTop_works h hx
  | exchange => exact Operation.exchangeTop_works h hx
  | clear => exact Operation.clearOperands_works h
  | count => exact Operation.pushCount_works params h
  | index => exact Operation.copyOperand_works h
  | roll => exact Operation.rollOperands_works h
  | closeArray => exact Operation.collectArray_works .literal h
  | openBlock => exact Operation.beginBlock_works params h
  | closeBlock => exact Operation.endBlock_works params h
  | closeDictionary => exact Operation.endDictionary_works params h
  | clearToMark => exact Operation.clearToMark_works params h
  | countToMark => exact Operation.countToMark_works params h
  | add | sub | mul => exact Operation.combine_works h
  | div | mod => exact Operation.divide_works h
  | neg | abs => exact Operation.transform_works h
  | equal | notEqual => exact Operation.compareEqual_works h
  | less | greater => exact Operation.compareWords_works h
  | negate => exact Operation.negateLogic_works h
  | conjoin | disjoin => exact Operation.combineLogic_works h
  | array => exact Operation.newArray_works h
  | unpack => exact Operation.unpackArray_works h hx
  | fill => exact Operation.fillArray_works h hx
  | length => exact Operation.replaceByLength_works h hx
  | get => exact Operation.getItem_works h hx
  | put => exact Operation.putItem_works h hx
  | dictionary => exact Operation.newDictionary_works h
  | define => exact Operation.bindName_works h hx
  | openScope => exact Operation.beginScope_works h hx
  | closeScope => exact Operation.endScope_works params h
  | load => exact Operation.loadName_works h
  | locate => exact Operation.locateName_works h
  | known => exact Operation.isKnown_works h hx
  | currentScope => exact Operation.pushScope_works params h
  | execute => exact Operation.executeTop_works h hx
  | execIf => exact Operation.executeIf_works h hx
  | execEither => exact Operation.executeEither_works h hx
  | repeatBlock => exact Operation.repeatBlock_works h hx
  | loop => exact Operation.loopBlock_works h hx
  | leaveLoop => exact Operation.leaveLoop_works params h
  | stop => exact Operation.works_fail h
  | stopped => exact Operation.stoppedBlock_works h hx
  | ensure => exact Operation.ensureFinalizer_works h hx
  | bind => exact Operation.bindBlock_works h hx

theorem handle?_of_constant {b : Builtin} {v : Value} (h : b.constant? = some v) :
    v.handle? = none := by
  cases b <;> first | cases h; rfl | cases h

end Builtin

/-! ### Sessions -/

namespace Session

variable {χ : Type} {Γ : Charter} {n i : ℕ} {x : Stake} {s : Session χ} {v : Value} {lax : Prop}

theorem meets_onMachine {α : Type} {f : Action Machine α} {P : α → Session χ → Prop}
    {F : Session χ → Prop}
    (h : (f s.machine).Meets lax (fun a m => P a { s with machine := m })
      fun m => F { s with machine := m }) :
    (onMachine f s).Meets lax P F :=
  Action.meets_zoom h

theorem meets_onMachine_bind {α β : Type} {f : Action Machine α} {k : α → Action (Session χ) β}
    {P : β → Session χ → Prop} {F : Session χ → Prop}
    (h : (f s.machine).Meets lax (fun a m => (k a { s with machine := m }).Meets lax P F)
      fun m => F { s with machine := m }) :
    ((onMachine f >>= k) s).Meets lax P F :=
  Action.meets_bind (meets_onMachine (P := fun a t => (k a t).Meets lax P F) h) fun _ _ h => h

theorem read_bind {α β : Type} (a : α) (k : α → Action (Session χ) β) :
    ((liftM (.ok a : Except Breach α) : Action (Session χ) α) >>= k) s = k a s := rfl

theorem theMachine_bind {β : Type} (k : Machine → Action (Session χ) β) :
    ((theMachine >>= k) s) = k s.machine s := rfl

/-- Whether it succeeds or fails, the action leaves a sound machine, without the frame of the
operator perhaps, and the locals of the `i` frames below as they were. -/
def Advances (Γ : Charter) (i : ℕ) (x : Stake) (s : Session χ) (a : Action (Session χ) Unit) :
    Prop :=
  (a s).Meets False (fun _ t => t.machine.Sound Γ 0 x ∧ s.machine.Steady i t.machine) fun t =>
    t.machine.Sound Γ 0 x ∧ s.machine.Steady i t.machine

/-- Of the frames of which the locals stay, the operator's own may be left out. -/
theorem below {α : Type} {o : Outcome (Session χ) α} {m : Machine} {P : α → Session χ → Prop}
    {F : Session χ → Prop} (h : o.Meets False (fun a t => P a t ∧ m.Steady (i + 1) t.machine)
      fun t => F t ∧ m.Steady (i + 1) t.machine) :
    o.Meets False (fun a t => P a t ∧ m.Steady i t.machine) fun t => F t ∧ m.Steady i t.machine :=
  h.mono (fun _ _ h => ⟨h.1, h.2.mono (Nat.le_succ i)⟩) fun _ h => ⟨h.1, h.2.mono (Nat.le_succ i)⟩

/-- One action after the other. -/
theorem Advances.after {α : Type} {a : Action (Session χ) α} {k : α → Action (Session χ) Unit}
    {M : α → Session χ → Prop}
    (ha : (a s).Meets False (fun r t => M r t ∧ s.machine.Steady i t.machine) fun t =>
      t.machine.Sound Γ (i + 1) x ∧ s.machine.Steady i t.machine)
    (hk : ∀ r t, M r t → Advances Γ i x t (k r)) : Advances Γ i x s (a >>= k) :=
  Action.meets_bind (ha.mono (fun _ _ => id) fun _ h => ⟨h.1.unframed, h.2⟩) fun r t ⟨hr, steady⟩ =>
    (hk r t hr).mono (fun _ _ h => ⟨h.1, steady.trans h.2⟩) fun _ h => ⟨h.1, steady.trans h.2⟩

theorem advances_refused {c : Cause} (h : s.machine.Sound Γ n x) :
    Advances Γ i x s (Action.fail c) := ⟨h.unframed, .refl i _⟩

theorem pushOperand_meets (h : s.machine.Sound Γ n x) (hv : s.machine.Knows x v) :
    (pushOperand v s).Meets False
      (fun _ t => t.machine.Sound Γ n x ∧ s.machine.Steady n t.machine)
      fun t => t.machine.Sound Γ n x ∧ s.machine.Steady n t.machine := by
  refine meets_onMachine ((Machine.exchangeOperands_meets h ?_).mono
    (fun _ m ⟨h, steady, _⟩ => ⟨h, steady⟩) fun _ => id)
  simpa using hv

theorem popFrame_advances (h : s.machine.Sound Γ (i + 1) x) : Advances Γ i x s popFrame :=
  have hi : i ≤ s.machine.calls.length - 1 := Nat.le_sub_one_of_lt h.depth
  meets_onMachine ((Machine.popFrame_meets h).mono (fun _ _ h => ⟨h.1, h.2.mono hi⟩) fun _ h =>
    ⟨h.1, h.2.mono hi⟩)

theorem replaceFrame_advances (h : s.machine.Sound Γ (i + 1) x) (hv : s.machine.Knows x v) :
    Advances Γ i x s (onMachine (Machine.replaceFrame v)) :=
  meets_onMachine ((Machine.replaceFrame_meets h hv).mono
    (fun _ _ h' => ⟨h'.1, h'.2.mono (Nat.le_sub_one_of_lt h.depth)⟩) fun _ h' =>
      ⟨h'.1, h'.2.mono (Nat.le_of_lt h.depth)⟩)

/-- A value goes to the operands and the top frame goes. -/
theorem pushOperand_popFrame_advances (h : s.machine.Sound Γ (i + 1) x)
    (hv : s.machine.Knows x v) : Advances Γ i x s (pushOperand v >>= fun _ => popFrame) :=
  .after (below (pushOperand_meets h hv)) fun _ _ h' => popFrame_advances h'

theorem yieldItem_meets (h : s.machine.Sound Γ n x) (hv : s.machine.Knows x v) :
    (yieldItem v s).Meets False
      (fun _ t => t.machine.Sound Γ n x ∧ s.machine.Steady n t.machine)
      fun t => t.machine.Sound Γ n x ∧ s.machine.Steady n t.machine := by
  unfold yieldItem
  split
  · exact pushOperand_meets h hv
  · exact meets_onMachine (Machine.call_meets h hv)

/-! ### Operators -/

theorem frame_bind {β : Type} (h : s.machine.Sound Γ (i + 1) x) :
    ∃ f, s.machine.calls.frame? i = some f ∧ ∀ k : Frame → Action (Session χ) β,
      ((liftM (s.machine.frame i) : Action (Session χ) Frame) >>= k) s = k f s := by
  obtain ⟨f, hf⟩ := h.exists_frame (Nat.lt_succ_self i)
  refine ⟨f, hf, fun k => ?_⟩
  rw [Machine.frame_of_frame? hf]
  rfl

theorem settle_advances {invokedIn : Continuation} (h : s.machine.Sound Γ (i + 1) x) :
    Advances Γ i x s (settle i invokedIn) := by
  refine meets_onMachine ?_
  obtain ⟨f, hf⟩ := h.exists_frame (Nat.lt_succ_self i)
  -- the frame goes, unless something was queued above it
  have last (m : Machine) (hm : m.Sound Γ (i + 1) x) (p : Prop) [Decidable p] :
      (((get : Action Machine Machine) >>= fun m => if p ∧ m.calls.length = i + 1 then
        Machine.popFrame else pure ()) m).Meets False (fun _ m' => m'.Sound Γ 0 x ∧ m.Steady i m')
        fun m' => m'.Sound Γ 0 x ∧ m.Steady i m' := by
    rw [Action.get_bind]
    split
    · rename_i top
      have hlen : m.calls.length - 1 = i := by rw [top.2, Nat.add_sub_cancel]
      exact hlen ▸ Machine.popFrame_meets hm
    · exact ⟨hm.unframed, .refl i m⟩
  rw [Action.get_bind, Machine.frame_bind hf]
  split
  · refine Action.meets_bind ((Machine.setState_meets h (Nat.lt_succ_self i)).mono
      (fun _ _ => id) fun m hm => ⟨hm.1.unframed, hm.2.mono (Nat.le_succ i)⟩) ?_
    rintro _ m ⟨hm, steady, -⟩
    have steady := steady.mono (Nat.le_succ i)
    exact (last m hm _).mono (fun _ _ h => ⟨h.1, steady.trans h.2⟩) fun _ h =>
      ⟨h.1, steady.trans h.2⟩
  · exact last s.machine h _

end Session

/-- What an operator does keeps a machine sound, the operands it got being pinned, and leaves the
locals of the frames below alone; a constant is no container. -/
def Behaviour.Works {χ : Type} (Γ : Charter) : Behaviour χ → Prop
  | .constant v => v.handle? = none
  | .function _ invoke => ∀ i x params (s : Session χ), s.machine.Sound Γ (i + 1) x →
      (∀ v ∈ params, v ∈ x.values) → (invoke i params s).Meets False
        (fun _ t => t.machine.Sound Γ (i + 1) x ∧ s.machine.Steady i t.machine) fun t =>
          t.machine.Sound Γ (i + 1) x ∧ s.machine.Steady i t.machine

theorem Behaviour.works_builtin {χ : Type} (Γ : Charter) (b : Builtin) :
    (Behaviour.ofBuiltin b : Behaviour χ).Works Γ := by
  unfold ofBuiltin
  cases hb : b.constant? with
  | some v => exact Builtin.handle?_of_constant hb
  | none => exact fun i x params s h hx => Session.meets_onMachine (b.operation_works h hx)

/-- A host without operators. -/
theorem Behaviour.works_none {χ : Type} (Γ : Charter) (o : Operator) :
    (Behaviour.ofOperator (Natives.none : Natives χ) o).Works Γ := by
  cases o with
  | builtin b => exact works_builtin Γ b
  | native name looping => exact fun i x params s h _ => ⟨h, .refl i _⟩

namespace Machine

variable {Γ : Charter} {n : ℕ} {x : Stake} {m : Machine} {lax : Prop}

/-- Several references are taken, for others to hold. -/
theorem retainAll_meets {vs : List Value} (h : m.Sound Γ n x) (hv : ∀ v ∈ vs, m.Knows x v) :
    (onMemory (Memory.retainAll vs) m).Meets lax
      (fun _ m' => m'.Sound Γ n (x + .refs vs) ∧ m.Steady n m')
      fun m' => m'.Sound Γ n x ∧ m.Steady n m' := by
  obtain ⟨present, σ, hb, hc⟩ := h.memory
  refine meets_onMemory ((Memory.retainAll_meets vs hb hv (.inr (present.outSupported _))).mono
    ?_ ?_)
  · rintro _ μ ⟨hb', same⟩
    rw [add_assoc] at hb'
    exact ⟨h.withMemory (.of_loses present hc hb' (same.loses 0) (by simp)),
      steady_of_same same rfl⟩
  · exact fun μ released => h.of_released hc rfl released.1

/-- They are given up again. -/
theorem releaseAll_meets {vs : List Value} (h : m.Sound Γ n (x + .refs vs)) :
    (onMemory (Memory.releaseAll vs) m).Meets lax (fun _ m' => m'.Sound Γ n x ∧ m.Steady n m')
      fun _ => False := by
  obtain ⟨present, σ, hb, hc⟩ := h.memory
  rw [← add_assoc] at hb hc
  refine meets_onMemory ((Memory.releaseAll_meets vs hb (.inr (present.outSupported _))).mono
    ?_ fun _ => id)
  rintro _ μ ⟨hb', loses⟩
  exact ⟨h.withMemory (.of_loses present hc hb' loses (by simp)),
    steady_of_loses loses (fun i hi => by simp [hi]) fun _ _ => rfl⟩

/-- Matched operands are operands. -/
theorem mem_of_matchOperands {signature : List Param} {params : List Value} {v : Value}
    (h : m.matchOperands signature = .ok params) (hv : v ∈ params) : v ∈ m.operands.items :=
  List.mem_of_mem_take ((accepts_of_matchOperands h).1 ▸ hv)

end Machine

namespace Session

variable {χ : Type} {Γ : Charter} {n i : ℕ} {x : Stake} {s : Session χ} {v : Value}
  {natives : Natives χ} {f : Frame} {lax : Prop} {F : Session χ → Prop}

/-- The operands of an operator are pinned while it is invoked for the first time. -/
theorem dispatch_advances {signature : List Param}
    {invoke : ℕ → List Value → Action (Session χ) Unit}
    (hinvoke : (Behaviour.function signature invoke).Works Γ) (h : s.machine.Sound Γ (i + 1) x) :
    Advances Γ i x s (dispatch i signature (invoke i)) := by
  unfold Advances dispatch
  rw [theMachine_bind]
  cases hparams : s.machine.matchOperands signature with
  | error c => exact advances_refused h
  | ok params =>
    change Advances Γ i x s (onMachine (Machine.setState i .firstCall) >>= fun _ =>
      onMachine (Machine.onMemory (Memory.retainAll params)) >>= fun _ => (invoke i params).ensuring
        (onMachine (Machine.onMemory (Memory.releaseAll params))) >>= fun _ => settle i .firstCall)
    -- the operands stay where they are until they are pinned
    have operand (v : Value) (hv : v ∈ params) : v ∈ s.machine.operands.items :=
      Machine.mem_of_matchOperands hparams hv
    refine Advances.after (M := fun _ t => t.machine.Sound Γ (i + 1) x ∧
      t.machine.operands = s.machine.operands) (below (meets_onMachine
        ((Machine.setState_meets h (Nat.lt_succ_self i)).mono
          (fun _ m ⟨h, steady, operands⟩ => ⟨⟨h, operands⟩, steady⟩) fun _ => id))) ?_
    rintro _ s₁ ⟨h₁, operands⟩
    refine Advances.after (M := fun _ t => t.machine.Sound Γ (i + 1) (x + .refs params))
      (below (meets_onMachine (Machine.retainAll_meets h₁ fun v hv => ?_))) ?_
    · exact Machine.knows_of_operand (operands ▸ operand v hv)
    intro _ s₂ h₂
    have released (t : Session χ) (ht : t.machine.Sound Γ (i + 1) (x + .refs params) ∧
        s₂.machine.Steady i t.machine) :
        (onMachine (Machine.onMemory (Memory.releaseAll params)) t).Meets False
          (fun _ t => t.machine.Sound Γ (i + 1) x ∧ s₂.machine.Steady i t.machine)
          fun _ => False :=
      meets_onMachine ((Machine.releaseAll_meets ht.1).mono
        (fun _ _ h => ⟨h.1, ht.2.trans (h.2.mono (Nat.le_succ i))⟩) fun _ => id)
    have pinned (v : Value) (hv : v ∈ params) : v ∈ (x + .refs params).values := by simp [hv]
    refine Advances.after (Action.meets_ensuring (hinvoke i _ params s₂ h₂ pinned)
      (fun _ t ht => (released t ht).always fun _ _ => id) fun t ht =>
        (released t ht).always fun _ _ => id) ?_
    exact fun _ t ht => settle_advances ht

/-- A change of a frame that leaves what it holds as it is. -/
theorem updateFrame_meets {g : Frame → Frame} (h : s.machine.Sound Γ (i + 1) x)
    (hg : ∀ f, (g f).stake = f.stake) (hl : ∀ f, (g f).locals = f.locals)
    (hs : ∀ f, (∀ p, f.supply = some p → Γ.supplies p) → ∀ p, (g f).supply = some p →
      Γ.supplies p) :
    (onMachine (Machine.updateFrame i g) s).Meets lax
      (fun _ t => (t.machine.Sound Γ (i + 1) x ∧ ∀ v, s.machine.Knows x v → t.machine.Knows x v) ∧
        s.machine.Steady (i + 1) t.machine) F := by
  obtain ⟨f, hf⟩ := h.exists_frame (Nat.lt_succ_self i)
  refine meets_onMachine ?_
  rw [Machine.updateFrame_eq hf]
  refine ⟨⟨h.withFrame hf (by rw [hg]) (hs f (h.supplied f (CallStack.mem_frames_of_frame? hf))),
    fun v hv => ?_⟩, Machine.steady_withFrame hf (hl f)⟩
  have same := Machine.stake_withFrame hf g
  rw [hg] at same
  change ((s.machine.withFrame i g).stake + x + s.machine.memory.heap.stake).Knows v
  rwa [add_right_cancel same]

theorem updateFrame_advances (g : Frame → Frame) (h : s.machine.Sound Γ (i + 1) x)
    (hg : ∀ f, (g f).stake = f.stake) (hl : ∀ f, (g f).locals = f.locals)
    (hs : ∀ f, (g f).supply = f.supply) :
    Advances Γ i x s (onMachine (Machine.updateFrame i g)) :=
  below ((updateFrame_meets h hg hl fun f hf => hs f ▸ hf).mono
    (fun _ _ ht => ⟨ht.1.1.unframed, ht.2⟩) fun _ => id)

theorem abandon_meets (h : s.machine.Sound Γ (i + 1) x) :
    (abandon i s).Meets lax
      (fun _ t => t.machine.Sound Γ (i + 1) x ∧ s.machine.Steady (i + 1) t.machine) F :=
  (updateFrame_meets (g := fun f => { f with state := .pop }) h (fun _ => rfl) (fun _ => rfl)
    fun _ => id).mono (fun _ _ h => ⟨h.1.1, h.2⟩) fun _ => id

theorem resume_advances {state : Continuation} {signature : List Param}
    {invoke : ℕ → List Value → Action (Session χ) Unit}
    (hinvoke : (Behaviour.function signature invoke).Works Γ) (h : s.machine.Sound Γ (i + 1) x) :
    Advances Γ i x s (resume i state (invoke i)) := by
  refine Advances.after (Action.meets_onRaise (hinvoke i x [] s h (by simp)) fun t ht => ?_)
    fun _ t ht => settle_advances ht
  split
  · exact (abandon_meets ht.1).always fun _ t h => ⟨h.1, ht.2.trans (h.2.mono (Nat.le_succ i))⟩
  · exact ht

theorem stepOperator_advances {o : Operator} (ho : (Behaviour.ofOperator natives o).Works Γ)
    (h : s.machine.Sound Γ (i + 1) x) : Advances Γ i x s (stepOperator natives i o) := by
  unfold stepOperator
  cases hb : Behaviour.ofOperator natives o with
  | constant v =>
    rw [hb] at ho
    exact pushOperand_popFrame_advances h (Machine.knows_of_handle?_none ho)
  | function signature invoke =>
    rw [hb] at ho
    obtain ⟨f, hf, bound⟩ := frame_bind h
    unfold Advances
    dsimp only
    rw [theMachine_bind, bound]
    cases f.state with
    | pop => exact popFrame_advances h
    | unknown => exact dispatch_advances ho h
    | firstCall | callBeforePop | running | popping => exact resume_advances ho h

/-! ### Names, texts, supplies and blocks -/

theorem stepName_advances {token : Value} {name : String} (h : s.machine.Sound Γ (i + 1) x)
    (ht : s.machine.Knows x token) : Advances Γ i x s (stepName token name) := by
  unfold Advances stepName
  rw [theMachine_bind]
  split
  · exact pushOperand_popFrame_advances h ht
  · obtain ⟨found, hfound, known⟩ := h.lookup_ok name
    rw [hfound]
    cases found with
    | error c => exact advances_refused h
    | ok v => exact replaceFrame_advances h ((known v rfl).withSource _)

/-- What a token stands for is no container. -/
theorem handle?_of_token {text : String} {cursor : ℕ} {token : Token}
    (h : Token.next text cursor = .ok (some token)) : token.value.handle? = none := by
  rw [Value.handle?]
  rcases Token.datum_of_next h with ⟨_, hd⟩ | ⟨_, hd⟩ | ⟨_, _, hd⟩ <;> rw [hd]

theorem stepSource_advances {text : String} (h : s.machine.Sound Γ (i + 1) x) (f : Frame) :
    Advances Γ i x s (stepSource i f text) := by
  unfold Advances stepSource
  cases hnext : Token.next text f.cursor with
  | error c => exact advances_refused h
  | ok next =>
    cases next with
    | none => exact popFrame_advances h
    | some token =>
      set v := token.value.withSource (some (tokenSource f.value text token)) with hv
      have known : s.machine.Knows x v := Machine.knows_of_handle?_none (handle?_of_token hnext)
      set g : Frame → Frame := fun f => { f with cursor := token.stop } with hg
      have last (t : Session χ) (ht : t.machine.Sound Γ (i + 1) x) :
          Advances Γ i x t (onMachine (Machine.updateFrame i g)) :=
        updateFrame_advances g ht (fun _ => rfl) (fun _ => rfl) fun _ => rfl
      change Advances Γ i x s (if v.isExecutable then onMachine (Machine.call v) >>= fun _ =>
        onMachine (Machine.updateFrame i g) else pushOperand v >>= fun _ =>
          onMachine (Machine.updateFrame i g))
      split
      · exact .after (M := fun _ t => t.machine.Sound Γ (i + 1) x)
          (below (meets_onMachine (Machine.call_meets h known))) fun _ t ht => last t ht
      · exact .after (below (pushOperand_meets h known)) fun _ t ht => last t ht

theorem stepSupply_advances {p : Supply} (h : s.machine.Sound Γ (i + 1) x) (hp : Γ.supplies p)
    (hv : ∀ v rest, p.next? = some (v, rest) → s.machine.Knows x v) :
    Advances Γ i x s (stepSupply i p) := by
  unfold stepSupply
  cases hnext : p.next? with
  | none => exact popFrame_advances h
  | some next =>
    obtain ⟨v, rest⟩ := next
    refine .after (below (updateFrame_meets h (fun _ => rfl) (fun _ => rfl) ?_)) ?_
    · rintro f - q ⟨⟩
      exact Γ.supplies_next p v rest hp hnext
    · rintro _ t ⟨ht, known⟩
      exact (below (yieldItem_meets ht (known v (hv v rest hnext)))).mono
        (fun _ _ ht => ⟨ht.1.unframed, ht.2⟩) fun _ ht => ⟨ht.1.unframed, ht.2⟩

theorem stepBlock_advances {f : Frame} {handle : Handle} (h : s.machine.Sound Γ (i + 1) x)
    (hf : f ∈ s.machine.calls.frames) (hd : f.value.datum = .array handle .block) :
    Advances Γ i x s (stepBlock i f handle) := by
  obtain ⟨present, σ, hb, -⟩ := h.memory
  obtain ⟨block, ho⟩ := hb.array_of_known present (Machine.knows_of_frame hf) hd
  unfold Advances stepBlock
  rw [theMachine_bind, Memory.array_of_object? ho, read_bind]
  cases hitem : block.get? f.cursor with
  | none => exact popFrame_advances h
  | some item =>
    have known : s.machine.Knows x item := by
      refine Machine.knows_of_item ho ?_
      unfold Sequence.get? at hitem
      split at hitem
      · exact List.mem_of_getElem? hitem
      · cases hitem
    dsimp only
    split
    · split
      · exact pushOperand_popFrame_advances h known
      · exact replaceFrame_advances h known
    · exact Advances.after (below (yieldItem_meets h known)) fun _ t ht =>
        updateFrame_advances _ ht (fun _ => rfl) (fun _ => rfl) fun _ => rfl

/-! ### The cycle -/

end Session

namespace Machine

/-- The value the machine will take from its host in the next cycle. -/
def offered? (m : Machine) : Option Value :=
  if m.pending.isSome then none
  else m.calls.frames.head?.bind fun f => f.supply.bind fun p => p.next?.map Prod.fst

/-- The value the machine will take from its host, if it takes one, is known. -/
def Fed (x : Stake) (m : Machine) : Prop := ∀ v, m.offered? = some v → m.Knows x v

/-- A machine without supplies takes nothing. -/
theorem Sound.fed {Γ : Charter} {n : ℕ} {x : Stake} {m : Machine} (h : m.Sound Γ n x)
    (hΓ : ∀ p, ¬ Γ.supplies p) : m.Fed x := by
  intro v hv
  unfold offered? at hv
  split at hv
  · cases hv
  · obtain ⟨f, hf, hv⟩ := Option.bind_eq_some_iff.1 hv
    obtain ⟨p, hp, -⟩ := Option.bind_eq_some_iff.1 hv
    exact absurd (h.supplied f (List.mem_of_head? hf) p hp) (hΓ p)

end Machine

namespace Session

variable {χ : Type} {Γ : Charter} {i : ℕ} {x : Stake} {s : Session χ} {natives : Natives χ}
  {f : Frame} {rest : List Frame}

theorem unwind_advances (hn : ∀ o, (Behaviour.ofOperator natives o).Works Γ)
    (h : s.machine.Sound Γ (i + 1) x) (f : Frame) : Advances Γ i x s (unwind natives i f) := by
  unfold unwind
  split
  · split
    · exact stepOperator_advances (hn _) h
    · exact popFrame_advances h
  · exact popFrame_advances h

theorem advance_advances (hn : ∀ o, (Behaviour.ofOperator natives o).Works Γ)
    (h : s.machine.Sound Γ (i + 1) x) (hf : f ∈ s.machine.calls.frames)
    (hfed : ∀ p v q, f.supply = some p → p.next? = some (v, q) → s.machine.Knows x v) :
    Advances Γ i x s (advance natives i f) := by
  have known : s.machine.Knows x f.value := Machine.knows_of_frame hf
  unfold advance
  split
  · rename_i p hp
    exact stepSupply_advances h (h.supplied f hf p hp) fun v q => hfed p v q hp
  · split
    · exact stepOperator_advances (hn _) h
    · exact stepName_advances h known
    · exact stepSource_advances h f
    · rename_i handle hd
      exact stepBlock_advances h hf hd
    · exact pushOperand_popFrame_advances h known

/-- The work of one cycle. -/
theorem step_advances (hn : ∀ o, (Behaviour.ofOperator natives o).Works Γ)
    (h : s.machine.Sound Γ 0 x) (hfed : s.machine.Fed x)
    (hframes : s.machine.calls.frames = f :: rest) :
    Advances Γ rest.length x s (step natives rest.length f) := by
  have h : s.machine.Sound Γ (rest.length + 1) x :=
    { h with depth := by simp [CallStack.length, hframes] }
  unfold Advances step
  rw [theMachine_bind]
  split
  · exact unwind_advances hn h f
  · rename_i hpending
    refine advance_advances hn h (by simp [hframes]) fun p v q hp hnext => hfed v ?_
    rw [Machine.offered?, if_neg hpending, hframes]
    simp [hp, hnext]

/-- **A cycle keeps the machine sound**, it does not fail, and it violates no invariant. -/
theorem cycle_meets (hn : ∀ o, (Behaviour.ofOperator natives o).Works Γ)
    (h : s.machine.Sound Γ 0 x) (hfed : s.machine.Fed x) :
    (cycle natives s).Meets False (fun _ t => t.machine.Sound Γ 0 x) fun _ => False := by
  unfold cycle
  rw [theMachine_bind]
  cases hframes : s.machine.calls.frames with
  | nil => exact h
  | cons f rest =>
    refine Action.meets_bind (P := fun _ t => t.machine.Sound Γ 0 x)
      (Action.meets_attempt ((step_advances hn h hfed hframes).mono (fun _ _ ht => ht.1)
        fun _ ht _ => ht.1)) ?_
    intro result t ht
    cases result with
    | ok _ => exact ht
    | error e =>
      exact meets_onMachine_bind ((Machine.raise_meets ht e).mono (fun _ _ h => h.1) fun _ => id)

end Session

end StackScript
