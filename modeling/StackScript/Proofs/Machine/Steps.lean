import StackScript.Proofs.Machine.Cycle
import StackScript.Proofs.Machine.Isolation

/-!
# What a cycle does to the top frame

A cycle either invokes the operator of the top frame (`Machine.invoked?`) or does without one.  A
cycle that invokes no operator removes the top frame, lets a fresh one take its place, or advances
it, queueing one fresh frame perhaps; it never moves a continuation state
(`Session.step_turns`).
-/

namespace StackScript

/-- The operator that is invoked if `f` is the top frame. -/
def Machine.invoked? (m : Machine) (f : Frame) : Option Operator :=
  if m.pending.isSome then
    if f.state.isPopping then f.value.toOperator? else none
  else if f.supply.isSome then none
  else f.value.toOperator?

theorem Machine.toOperator?_of_invoked? {m : Machine} {f : Frame} {o : Operator}
    (h : m.invoked? f = some o) : f.value.toOperator? = some o := by
  unfold Machine.invoked? at h
  split at h
  · split at h
    · exact h
    · cases h
  · split at h
    · cases h
    · exact h

/-- What a cycle without an operator leaves of a top frame `f` above the frames `rest`. -/
inductive Frame.Turned (f : Frame) (rest : List Frame) : List Frame → Prop
  | kept : f.Turned rest (f :: rest)
  | removed : f.Turned rest rest
  | replaced (v : Value) (hf : f.value.toOperator? = none) :
    f.Turned rest ({ value := v } :: rest)
  | advanced (cursor : ℕ) (supply : Option Supply) (queued : Option Value)
      (hcursor : ∀ text, f.supply = none → f.value.datum = .string text true →
        cursor = f.cursor ∨ ∃ token, Token.next text f.cursor = .ok (some token) ∧
          cursor = token.stop)
      (hsupply : supply.isSome = f.supply.isSome) (hf : f.value.toOperator? = none) :
    f.Turned rest (queued.toList.map (fun v => { value := v }) ++
      { f with cursor := cursor, supply := supply } :: rest)

namespace Session

variable {χ : Type} {s : Session χ} {natives : Natives χ} {f : Frame} {rest : List Frame}

theorem toOperator?_eq_some {v : Value} {o : Operator} (h : v.datum = .operator o) :
    v.toOperator? = some o := by
  rw [Value.toOperator?, h]

theorem toOperator?_eq_none {v : Value} (h : ∀ o, v.datum ≠ .operator o) :
    v.toOperator? = none := by
  unfold Value.toOperator?
  split
  · rename_i o hd
    exact absurd hd (h o)
  · rfl

/-- The cycle invokes the operator. -/
theorem step_of_invoked {o : Operator} (h : s.machine.invoked? f = some o) (index : ℕ) :
    step natives index f s = stepOperator natives index o s := by
  unfold step
  rw [theMachine_bind]
  unfold Machine.invoked? at h
  split at h
  · rename_i hpending
    split at h
    · rename_i hpopping
      rw [if_pos hpending, unwind, h]
      simp only [hpopping, if_true]
    · cases h
  · rename_i hpending
    rw [if_neg hpending, advance]
    split at h
    · cases h
    · rename_i hsupply
      rw [Option.not_isSome_iff_eq_none.1 hsupply]
      have datum : f.value.datum = .operator o := by
        unfold Value.toOperator? at h
        split at h
        · rename_i o' hd
          rw [hd, Option.some.inj h]
        · cases h
      dsimp only
      rw [datum]

/-- Nothing is pending, so the top frame is advanced. -/
theorem step_of_not_pending (h : ¬ s.machine.pending.isSome) (index : ℕ) :
    step natives index f s = advance natives index f s := by
  rw [step, theMachine_bind, if_neg h]

/-- An exception is pending, and the top frame is not invoked on its way out. -/
theorem step_of_unwound (hpending : s.machine.pending.isSome) (h : s.machine.invoked? f = none)
    (index : ℕ) : step natives index f s = popFrame s := by
  rw [step, theMachine_bind, if_pos hpending, unwind]
  rw [Machine.invoked?, if_pos hpending] at h
  cases ho : f.value.toOperator? with
  | none => rfl
  | some o =>
    have hpopping : ¬ f.state.isPopping = true := fun hpopping => by
      rw [if_pos hpopping, ho] at h
      cases h
    simp only [if_neg hpopping]

theorem onMachine_done {α : Type} {y : Action Machine α} {r : α} {m : Machine}
    (h : y s.machine = .done r m) : onMachine y s = .done r { s with machine := m } :=
  Action.zoom_done h

/-- What invoking an operator for the first time comes to, when its operands have been matched and
pinned: its operation, the pins being dropped however it ends. -/
theorem dispatch_eq {index : ℕ} {m m' : Machine} {signature : List Param} {params : List Value}
    {invoke : List Value → Action (Session χ) Unit}
    (hparams : s.machine.matchOperands signature = .ok params)
    (hstate : Machine.setState index .firstCall s.machine = .done () m)
    (hpinned : Machine.onMemory (Memory.retainAll params) m = .done () m') :
    dispatch index signature invoke s =
      ((invoke params).ensuring (onMachine (Machine.onMemory (Memory.releaseAll params))) >>=
        fun _ => settle index .firstCall) { s with machine := m' } := by
  unfold dispatch
  rw [theMachine_bind, hparams]
  change ((onMachine (Machine.setState index .firstCall) : Action (Session χ) Unit) >>= fun _ =>
    onMachine (Machine.onMemory (Memory.retainAll params)) >>= fun _ => (invoke params).ensuring
      (onMachine (Machine.onMemory (Memory.releaseAll params))) >>= fun _ =>
        settle index .firstCall) s = _
  rw [Action.bind_done (onMachine_done hstate), Action.bind_done (onMachine_done hpinned)]

/-- A builtin that has not been dispatched yet. -/
theorem stepOperator_dispatches {b : Builtin} (hb : b.constant? = none)
    (hframes : s.machine.calls.frames = f :: rest) (hstate : f.state = .unknown) :
    stepOperator natives rest.length (.builtin b) s = dispatch rest.length b.signature
      (fun params => onMachine ((b.operation params).runOn (some rest.length))) s := by
  rw [stepOperator, Behaviour.ofOperator, Behaviour.ofBuiltin, hb]
  dsimp only
  rw [theMachine_bind, Machine.frame_of_frame? (CallStack.frame?_head hframes), read_bind, hstate]

/-! ### Cycles without an operator -/

/-- The frames are turned, whether the action succeeds or raises. -/
def Turns (f : Frame) (rest : List Frame) (s : Session χ) (x : Action (Session χ) Unit) : Prop :=
  (x s).Meets True (fun _ t => f.Turned rest t.machine.calls.frames)
    fun t => f.Turned rest t.machine.calls.frames

theorem turned_of_frames {c : CallStack} (hframes : s.machine.calls.frames = f :: rest)
    (h : c = s.machine.calls) : f.Turned rest c.frames := by
  rw [h, hframes]
  exact .kept

theorem popFrame_turns (hframes : s.machine.calls.frames = f :: rest) : Turns f rest s popFrame := by
  refine meets_onMachine ((Machine.popFrame_frames s.machine).mono ?_ ?_)
  · rintro _ m ⟨g, hg⟩
    rw [hframes] at hg
    obtain ⟨-, rfl⟩ := List.cons.inj hg
    exact .removed
  · exact fun m => turned_of_frames hframes

theorem pushOperand_frames (v : Value) (s : Session χ) :
    (pushOperand v s).Meets True (fun _ t => t.machine.calls = s.machine.calls)
      fun t => t.machine.calls = s.machine.calls :=
  meets_onMachine (Machine.spares_exchangeOperands (fun _ _ _ => rfl) 0 [v] s.machine)

theorem pushOperand_popFrame_turns (v : Value) (hframes : s.machine.calls.frames = f :: rest) :
    Turns f rest s (pushOperand v >>= fun _ => popFrame) := by
  exact Action.meets_bind ((pushOperand_frames v s).mono (fun _ _ => id)
    fun t => turned_of_frames hframes) fun _ t h => popFrame_turns (h ▸ hframes)

/-- A frame that is the top one is changed. -/
theorem updateFrame_top {top : List Frame} (g : Frame → Frame)
    (hframes : s.machine.calls.frames = top ++ f :: rest) :
    (onMachine (Machine.updateFrame rest.length g) s).Meets True
      (fun _ t => t.machine.calls.frames = top ++ g f :: rest) fun _ => False := by
  refine meets_onMachine ((Machine.updateFrame_frames rest.length g s.machine).always ?_)
  rintro _ _ ⟨rfl, -⟩
  have hi : rest.length < s.machine.calls.length := by
    simp [CallStack.length, hframes]
    omega
  change (s.machine.calls.update rest.length g).frames = _
  have hlen : rest.length < s.machine.calls.frames.reverse.length := by
    simpa [CallStack.length] using hi
  rw [← List.reverse_inj, CallStack.frames_update hi, List.modify_eq_take_cons_drop hlen]
  simp [hframes, List.drop_append]

theorem yieldItem_frames (v : Value) (s : Session χ) :
    (yieldItem v s).Meets True
      (fun _ t => ∃ queued : Option Value, t.machine.calls.frames =
        queued.toList.map (fun v => { value := v }) ++ s.machine.calls.frames)
      fun t => t.machine.calls = s.machine.calls := by
  unfold yieldItem
  split
  · exact (pushOperand_frames v s).mono (fun _ t h => ⟨none, by rw [h]; rfl⟩) fun _ => id
  · exact meets_onMachine ((Machine.pushFrame_frames _ s.machine).mono
      (fun _ m h => ⟨some v, h⟩) fun _ => id)

theorem replaceFrame_turns (v : Value) (hframes : s.machine.calls.frames = f :: rest)
    (hf : f.value.toOperator? = none) : Turns f rest s (onMachine (Machine.replaceFrame v)) := by
  refine meets_onMachine ((Machine.replaceFrame_frames v s.machine).mono ?_ fun m h => ?_)
  · rintro _ m ⟨g, below, hg, hm⟩
    rw [hframes] at hg
    obtain ⟨-, rfl⟩ := List.cons.inj hg
    change f.Turned rest m.calls.frames
    rw [hm]
    exact .replaced v hf
  · exact turned_of_frames hframes h

theorem stepName_turns {token : Value} {name : String} (hf : f.value.toOperator? = none)
    (hframes : s.machine.calls.frames = f :: rest) : Turns f rest s (stepName token name) := by
  unfold Turns stepName
  rw [theMachine_bind]
  split
  · exact pushOperand_popFrame_turns token hframes
  · cases hfound : (s.machine.lookup name).run with
    | error b => trivial
    | ok found =>
      cases found with
      | error c => exact turned_of_frames hframes rfl
      | ok v => exact replaceFrame_turns _ hframes hf

theorem stepSource_turns {text : String} (hdatum : f.value.datum = .string text true)
    (hframes : s.machine.calls.frames = f :: rest) :
    Turns f rest s (stepSource rest.length f text) := by
  unfold Turns stepSource
  cases hnext : Token.next text f.cursor with
  | error c => exact turned_of_frames hframes rfl
  | ok next =>
    cases next with
    | none => exact popFrame_turns hframes
    | some token =>
      set v := token.value.withSource (some (tokenSource f.value text token)) with hv
      set g : Frame → Frame := fun f => { f with cursor := token.stop } with hg
      -- the cursor comes last, below what has been queued
      have last (t : Session χ) (queued : Option Value) (ht : t.machine.calls.frames =
          queued.toList.map (fun v => { value := v }) ++ f :: rest) :
          Turns f rest t (onMachine (Machine.updateFrame rest.length g)) := by
        refine (updateFrame_top g ht).always fun _ u hu => ?_
        rw [hu]
        refine .advanced token.stop f.supply queued (fun text' _ hdatum' => .inr ?_) rfl
          (toOperator?_eq_none fun o ho => by rw [hdatum] at ho; cases ho)
        rw [hdatum] at hdatum'
        obtain rfl : text = text' := by injection hdatum'
        exact ⟨token, hnext, rfl⟩
      change ((if v.isExecutable then onMachine (Machine.call v) >>= fun _ =>
        onMachine (Machine.updateFrame rest.length g) else pushOperand v >>= fun _ =>
          onMachine (Machine.updateFrame rest.length g)) s).Meets _ _ _
      split
      · exact Action.meets_bind (meets_onMachine ((Machine.pushFrame_frames _ s.machine).mono
          (fun _ _ => id) fun m => turned_of_frames hframes)) fun _ t ht =>
            last t (some v) (hframes ▸ ht)
      · exact Action.meets_bind ((pushOperand_frames v s).mono (fun _ _ => id)
          fun t => turned_of_frames hframes) fun _ t ht => last t none (by rw [ht, hframes]; rfl)

theorem stepSupply_turns {supply : Supply} (hf : f.value.toOperator? = none)
    (hsupply : f.supply = some supply) (hframes : s.machine.calls.frames = f :: rest) :
    Turns f rest s (stepSupply rest.length supply) := by
  unfold stepSupply
  cases supply.next? with
  | none => exact popFrame_turns hframes
  | some next =>
    obtain ⟨v, left⟩ := next
    have hframes : s.machine.calls.frames = [] ++ f :: rest := hframes
    refine Action.meets_bind ((updateFrame_top _ hframes).always fun _ _ => id) ?_
    intro _ t ht
    have turned (queued : Option Value) : f.Turned rest
        (queued.toList.map (fun v => { value := v }) ++ t.machine.calls.frames) := by
      rw [ht]
      refine .advanced (f.cursor + 1) (some left) queued (fun _ h => ?_) (by rw [hsupply]; rfl) hf
      rw [hsupply] at h
      cases h
    refine (yieldItem_frames v t).mono (fun _ u hu => ?_) fun u hu => ?_
    · obtain ⟨queued, hu⟩ := hu
      rw [hu]
      exact turned queued
    · rw [hu]
      exact turned none

theorem stepBlock_turns {handle : Handle} (hdatum : f.value.datum = .array handle .block)
    (hframes : s.machine.calls.frames = f :: rest) :
    Turns f rest s (stepBlock rest.length f handle) := by
  have hf : f.value.toOperator? = none :=
    toOperator?_eq_none fun o ho => by rw [hdatum] at ho; cases ho
  unfold Turns stepBlock
  rw [theMachine_bind]
  cases hblock : s.machine.memory.array handle with
  | error b => trivial
  | ok block =>
    rw [read_bind]
    cases block.get? f.cursor with
    | none => exact popFrame_turns hframes
    | some item =>
      dsimp only
      split
      · split
        · exact pushOperand_popFrame_turns item hframes
        · exact replaceFrame_turns item hframes hf
      · refine Action.meets_bind ((yieldItem_frames item s).mono (fun _ _ => id)
          fun t => turned_of_frames hframes) ?_
        rintro _ t ⟨queued, ht⟩
        refine (updateFrame_top _ (hframes ▸ ht)).always fun _ u hu => ?_
        rw [hu]
        refine .advanced (f.cursor + 1) f.supply queued (fun text _ h => ?_) rfl hf
        rw [hdatum] at h
        cases h

theorem unwind_turns (hframes : s.machine.calls.frames = f :: rest)
    (h : f.state.isPopping = true → f.value.toOperator? = none) :
    Turns f rest s (unwind natives rest.length f) := by
  unfold unwind
  split
  · rename_i o ho
    split
    · rename_i hpopping
      rw [h hpopping] at ho
      cases ho
    · exact popFrame_turns hframes
  · exact popFrame_turns hframes

theorem advance_turns (hframes : s.machine.calls.frames = f :: rest)
    (hf : f.value.toOperator? = none) : Turns f rest s (advance natives rest.length f) := by
  unfold advance
  split
  · rename_i supply hsupply
    exact stepSupply_turns hf hsupply hframes
  · split
    · rename_i o hd
      rw [toOperator?_eq_some hd] at hf
      cases hf
    · exact stepName_turns hf hframes
    · rename_i hd
      exact stepSource_turns hd hframes
    · rename_i hd
      exact stepBlock_turns hd hframes
    · exact pushOperand_popFrame_turns _ hframes

/-- **A cycle without an operator.** -/
theorem step_turns (hframes : s.machine.calls.frames = f :: rest)
    (hf : f.supply.isSome → f.value.toOperator? = none) (h : s.machine.invoked? f = none) :
    Turns f rest s (step natives rest.length f) := by
  unfold Turns step
  rw [theMachine_bind]
  unfold Machine.invoked? at h
  split at h
  · rename_i hpending
    rw [if_pos hpending]
    refine unwind_turns hframes fun hpopping => ?_
    rwa [if_pos hpopping] at h
  · rename_i hpending
    rw [if_neg hpending]
    refine advance_turns hframes ?_
    split at h
    · rename_i hsupply
      exact hf hsupply
    · exact h

end Session

end StackScript
