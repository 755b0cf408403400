import StackScript.Proofs.Machine.Effects
import StackScript.Proofs.Machine.Steps

/-!
# What a cycle does to the call frames

A cycle works on the top frame.  It removes it, lets a fresh one take its place, or changes it and
queues fresh frames above it; the frames below stay as they are (`Session.cycle_handles`).  That is
so in every state, whatever the operator of the top frame asks for: its requests are about its own
frame and about the top of the call stack (`Operation.runOn_worked`).

A frame that stays below others, or meets no cycle, stays as it is (`Session.frame?_of_cycle`).
-/

namespace StackScript

/-! ### The frame of an operator at work -/

/-- What is left of the call frames `f :: rest` while the operator of `f` works: it has changed its
own frame perhaps, and queued fresh frames above it. -/
def Frame.Worked (f : Frame) (rest frames : List Frame) : Prop :=
  ∃ vs g, frames = Frame.queued vs ++ g :: rest ∧ g.value = f.value ∧ g.cursor = f.cursor ∧
    g.supply = f.supply

/-- What is left of the call frames `f :: rest` when the operator of `f` has been invoked: its frame
has gone, or it has worked. -/
def Frame.Ran (f : Frame) (rest frames : List Frame) : Prop :=
  frames = rest ∨ f.Worked rest frames

/-- What a cycle makes of the call frames `f :: rest`. -/
inductive Frame.Handled (f : Frame) (rest : List Frame) : List Frame → Prop
  | removed : f.Handled rest rest
  | replaced (v : Value) : f.Handled rest ({ value := v } :: rest)
  | updated (vs : List Value) (g : Frame) (hvalue : g.value = f.value) :
    f.Handled rest (Frame.queued vs ++ g :: rest)

section

variable {f g : Frame} {rest frames : List Frame} {c c' : CallStack} {m : Machine}

theorem Frame.worked_of_frames (h : c.frames = f :: rest) : f.Worked rest c.frames :=
  ⟨[], f, h, rfl, rfl, rfl⟩

theorem Frame.Ran.handled (h : f.Ran rest frames) : f.Handled rest frames := by
  rcases h with rfl | ⟨vs, g, rfl, hvalue, -, -⟩
  · exact .removed
  · exact .updated vs g hvalue

theorem Frame.Turned.handled (h : f.Turned rest frames) : f.Handled rest frames := by
  cases h with
  | kept => exact .updated [] f rfl
  | removed => exact .removed
  | replaced v _ => exact .replaced v
  | advanced cursor supply queued _ _ _ =>
    cases queued with
    | none => exact .updated [] _ rfl
    | some v => exact .updated [v] _ rfl

/-- A request of the operator. -/
theorem CallStack.Edited.worked (h : c.Edited (some rest.length) c')
    (hc : f.Worked rest c.frames) : f.Worked rest c'.frames := by
  cases h with
  | kept => exact hc
  | queued w h =>
    obtain ⟨vs, g, hframes, same⟩ := hc
    exact ⟨w :: vs, g, by rw [h, hframes]; rfl, same⟩
  | revised change howner hf hvalue hcursor hsupply _ =>
    obtain rfl := Option.some.inj howner
    obtain ⟨vs, g, hframes, same⟩ := hc
    rw [frame?_above hframes] at hf
    obtain rfl := Option.some.inj hf
    exact ⟨vs, change g, frames_update_above change hframes, hvalue.trans same.1,
      hcursor.trans same.2.1, hsupply.trans same.2.2⟩

/-- **Any operation** changes its own frame and queues fresh ones, whatever requests it makes. -/
theorem Operation.runOn_worked {α : Type} (p : Operation α) (h : f.Worked rest m.calls.frames) :
    (p.runOn (some rest.length) m).Meets True (fun _ m' => f.Worked rest m'.calls.frames)
      fun m' => f.Worked rest m'.calls.frames :=
  p.run_keeps (fun r m h => (r.perform_edits (some rest.length) m).mono
    (fun _ _ he => he.worked h) fun _ he => he.worked h) h

end

namespace Session

variable {χ : Type} {s : Session χ} {natives : Natives χ} {f : Frame} {rest : List Frame}
  {index : ℕ}

/-- The operator of `f` works, whether the action succeeds or raises. -/
def Works (f : Frame) (rest : List Frame) (s : Session χ) (x : Action (Session χ) Unit) : Prop :=
  (x s).Meets True (fun _ t => f.Worked rest t.machine.calls.frames)
    fun t => f.Worked rest t.machine.calls.frames

/-- The operator of `f` has been invoked, whether the action succeeds or raises. -/
def Runs (f : Frame) (rest : List Frame) (s : Session χ) (x : Action (Session χ) Unit) : Prop :=
  (x s).Meets True (fun _ t => f.Ran rest t.machine.calls.frames)
    fun t => f.Ran rest t.machine.calls.frames

/-- The call frames are handled, whether the action succeeds or raises. -/
def Handles (f : Frame) (rest : List Frame) (s : Session χ) (x : Action (Session χ) Unit) : Prop :=
  (x s).Meets True (fun _ t => f.Handled rest t.machine.calls.frames)
    fun t => f.Handled rest t.machine.calls.frames

theorem Turns.handles {x : Action (Session χ) Unit} (h : Turns f rest s x) : Handles f rest s x :=
  h.mono (fun _ _ ht => ht.handled) fun _ ht => ht.handled

theorem Runs.handles {x : Action (Session χ) Unit} (h : Runs f rest s x) : Handles f rest s x :=
  h.mono (fun _ _ ht => ht.handled) fun _ ht => ht.handled

/-- After work of the operator, the rest of its invocation. -/
theorem Works.bind {x : Action (Session χ) Unit} {k : Unit → Action (Session χ) Unit}
    (hx : Works f rest s x)
    (hk : ∀ t : Session χ, f.Worked rest t.machine.calls.frames → Runs f rest t (k ())) :
    Runs f rest s (x >>= k) :=
  Action.meets_bind (hx.mono (fun _ _ => id) fun _ ht => .inr ht) fun _ t ht => hk t ht

theorem popFrame_runs (hframes : s.machine.calls.frames = f :: rest) : Runs f rest s popFrame := by
  refine meets_onMachine ((Machine.popFrame_frames s.machine).mono ?_ fun m hm => ?_)
  · rintro _ m ⟨g, hg⟩
    exact .inl (List.cons.inj (hg.symm.trans hframes)).2
  · exact .inr (hm ▸ Frame.worked_of_frames hframes)

/-! ### Operators -/

/-- What is kept besides the machine plays no part. -/
theorem meets_runKeeping {own : Option ℕ} {p : χ → Operation (χ × Except Exception Unit)}
    {P : Machine → Prop}
    (h : ((p s.host).runOn own s.machine).Meets True (fun _ m => P m) P) :
    (runKeeping own p s).Meets True (fun _ t => P t.machine) fun t => P t.machine := by
  unfold runKeeping
  cases hp : (p s.host).runOn own s.machine with
  | done r m =>
    rw [hp] at h
    obtain ⟨host, result⟩ := r
    cases result <;> exact h
  | raised e m => rw [hp] at h; exact h
  | broken b => trivial

/-- **Whatever an operator is made of**, it works on its own frame. -/
theorem invoke_works {o : Operator} {signature : List Param}
    {invoke : ℕ → List Value → Action (Session χ) Unit}
    (ho : Behaviour.ofOperator natives o = .function signature invoke) (params : List Value)
    (h : f.Worked rest s.machine.calls.frames) :
    Works f rest s (invoke rest.length params) := by
  rcases Behaviour.function_cases ho with
    ⟨b, rfl, -, -, rfl⟩ | ⟨name, looping, operation, rfl, -, rfl⟩
  · exact meets_onMachine ((b.operation params).runOn_worked h)
  · exact meets_runKeeping ((operation params s.host).runOn_worked h)

/-- An action on the machine that changes the call frames as a request does. -/
theorem onMachine_works {x : Action Machine Unit} (h : f.Worked rest s.machine.calls.frames)
    (hx : (x s.machine).Meets True
      (fun _ m => s.machine.calls.Edited (some rest.length) m.calls)
      fun m => s.machine.calls.Edited (some rest.length) m.calls) :
    Works f rest s (onMachine x) :=
  meets_onMachine (hx.mono (fun _ _ he => he.worked h) fun _ he => he.worked h)

theorem abandon_works (h : f.Worked rest s.machine.calls.frames) :
    Works f rest s (abandon rest.length) := by
  obtain ⟨vs, g, hframes, same⟩ := h
  refine meets_onMachine ((Machine.updateFrame_frames rest.length _ s.machine).always ?_)
  rintro _ _ ⟨rfl, -⟩
  exact ⟨vs, _, CallStack.frames_update_above _ hframes, same⟩

theorem settle_runs (invokedIn : Continuation) (h : f.Worked rest s.machine.calls.frames) :
    Runs f rest s (settle rest.length invokedIn) := by
  -- the frame goes if it is the top one, and stays as it is if it is not
  have last (p : Prop) [Decidable p] (m : Machine) (hm : f.Worked rest m.calls.frames) :
      (((get : Action Machine Machine) >>= fun m => if p ∧ m.calls.length = rest.length + 1 then
        Machine.popFrame else pure ()) m).Meets True
        (fun _ m' => f.Ran rest m'.calls.frames) fun m' => f.Ran rest m'.calls.frames := by
    rw [Action.get_bind]
    split
    · rename_i top
      refine (Machine.popFrame_frames m).mono ?_ fun m' hm' => .inr (hm' ▸ hm)
      rintro _ m' ⟨g, hg⟩
      obtain ⟨vs, g', hframes, -⟩ := hm
      have short : vs = [] := by
        have hlen := congrArg List.length hframes
        simp only [List.length_append, List.length_cons, Frame.queued, List.length_map] at hlen
        rw [← List.length_eq_zero_iff]
        have := top.2
        rw [CallStack.length] at this
        omega
      rw [hg, short] at hframes
      exact .inl (List.cons.inj hframes).2
    · exact .inr hm
  refine meets_onMachine ?_
  rw [Action.get_bind]
  refine Machine.meets_frame fun g _ => ?_
  dsimp only
  split
  · exact Action.meets_bind ((Machine.setState_edits .pop).mono (fun _ _ he => he.worked h)
      fun _ he => .inr (he.worked h)) fun _ m hm => last _ m hm
  · exact last _ s.machine h

theorem dispatch_runs {o : Operator} {signature : List Param}
    {invoke : ℕ → List Value → Action (Session χ) Unit}
    (ho : Behaviour.ofOperator natives o = .function signature invoke)
    (h : f.Worked rest s.machine.calls.frames) :
    Runs f rest s (dispatch rest.length signature (invoke rest.length)) := by
  unfold Runs dispatch
  rw [theMachine_bind]
  refine Action.meets_bind (P := fun _ t => t = s)
    (Action.meets_ofExcept (fun _ _ => rfl) (.inr h)) ?_
  rintro params _ rfl
  refine Works.bind (onMachine_works h (Machine.setState_edits .firstCall)) fun t ht => ?_
  refine Works.bind (onMachine_works ht (Machine.onMemory_calls _).edits) fun t ht => ?_
  have released (t : Session χ) (ht : f.Worked rest t.machine.calls.frames) :
      Works f rest t (onMachine (Machine.onMemory (Memory.releaseAll params))) :=
    onMachine_works ht (Machine.onMemory_calls _).edits
  exact Works.bind (Action.meets_ensuring (invoke_works ho params ht) (fun _ => released) released)
    fun t ht => settle_runs .firstCall ht

theorem resume_runs {o : Operator} {signature : List Param} {state : Continuation}
    {invoke : ℕ → List Value → Action (Session χ) Unit}
    (ho : Behaviour.ofOperator natives o = .function signature invoke)
    (h : f.Worked rest s.machine.calls.frames) :
    Runs f rest s (resume rest.length state (invoke rest.length)) := by
  refine Works.bind (Action.meets_onRaise (invoke_works ho [] h) fun t ht => ?_)
    fun t ht => settle_runs state ht
  split
  · exact abandon_works ht
  · exact ht

/-- One cycle of the frame of an operator that is invoked. -/
theorem stepOperator_runs {o : Operator} {signature : List Param}
    {invoke : ℕ → List Value → Action (Session χ) Unit}
    (ho : Behaviour.ofOperator natives o = .function signature invoke)
    (hframes : s.machine.calls.frames = f :: rest) :
    Runs f rest s (stepOperator natives rest.length o) := by
  have worked : f.Worked rest s.machine.calls.frames := Frame.worked_of_frames hframes
  have hf : s.machine.calls.frame? rest.length = some f := CallStack.frame?_head hframes
  unfold Runs stepOperator
  rw [ho]
  dsimp only
  rw [theMachine_bind, Machine.frame_of_frame? hf, read_bind]
  cases f.state with
  | pop => exact popFrame_runs hframes
  | unknown => exact dispatch_runs ho worked
  | firstCall | running | callBeforePop | popping => exact resume_runs ho worked

theorem stepOperator_handles (o : Operator) (hframes : s.machine.calls.frames = f :: rest) :
    Handles f rest s (stepOperator natives rest.length o) := by
  cases ho : Behaviour.ofOperator natives o with
  | constant v =>
    unfold stepOperator
    rw [ho]
    exact (pushOperand_popFrame_turns v hframes).handles
  | function signature invoke => exact (stepOperator_runs ho hframes).handles

/-! ### The cycle -/

/-- A supply gives its next value. -/
theorem stepSupply_handles (supply : Supply) (hframes : s.machine.calls.frames = f :: rest) :
    Handles f rest s (stepSupply rest.length supply) := by
  unfold stepSupply
  cases supply.next? with
  | none => exact (popFrame_turns hframes).handles
  | some next =>
    obtain ⟨v, left⟩ := next
    have hframes : s.machine.calls.frames = [] ++ f :: rest := hframes
    refine Action.meets_bind ((updateFrame_top _ hframes).always fun _ _ => id) ?_
    intro _ t ht
    refine (yieldItem_frames v t).mono ?_ fun u hu => ?_
    · rintro _ u ⟨queued, hu⟩
      rw [hu, ht]
      exact .updated queued.toList _ rfl
    · rw [hu, ht]
      exact .updated [] _ rfl

theorem advance_handles (hframes : s.machine.calls.frames = f :: rest) :
    Handles f rest s (advance natives rest.length f) := by
  unfold advance
  split
  · exact stepSupply_handles _ hframes
  · have plain {v : Value} (h : ∀ o, v.datum ≠ .operator o) : v.toOperator? = none :=
      toOperator?_eq_none h
    split
    · exact stepOperator_handles _ hframes
    · rename_i hd
      exact (stepName_turns (plain fun o ho => by rw [hd] at ho; cases ho) hframes).handles
    · rename_i hd
      exact (stepSource_turns hd hframes).handles
    · rename_i hd
      exact (stepBlock_turns hd hframes).handles
    · exact (pushOperand_popFrame_turns _ hframes).handles

theorem step_handles (hframes : s.machine.calls.frames = f :: rest) :
    Handles f rest s (step natives rest.length f) := by
  cases ho : s.machine.invoked? f with
  | some o =>
    unfold Handles
    rw [step_of_invoked ho]
    exact stepOperator_handles o hframes
  | none =>
    unfold Handles
    by_cases hpending : s.machine.pending.isSome
    · rw [step_of_unwound hpending ho]
      exact (popFrame_turns hframes).handles
    · rw [step_of_not_pending hpending]
      exact advance_handles hframes

/-- What the work of a cycle leaves of the call frames is what the cycle leaves: an exception that
becomes pending spares them. -/
theorem cycle_frames {P : List Frame → Prop} (hframes : s.machine.calls.frames = f :: rest)
    (h : (step natives rest.length f s).Meets True (fun _ t => P t.machine.calls.frames)
      fun t => P t.machine.calls.frames) :
    (cycle natives s).Meets True (fun _ t => P t.machine.calls.frames)
      fun t => P t.machine.calls.frames := by
  unfold cycle
  rw [theMachine_bind, hframes]
  refine Action.meets_bind (P := fun _ t => P t.machine.calls.frames)
    (Action.meets_attempt (h.mono (fun _ _ => id) fun _ ht _ => ht)) ?_
  intro result t ht
  have left (m : Machine) (hm : m.calls = t.machine.calls) : P m.calls.frames := hm ▸ ht
  cases result with
  | ok _ => exact ht
  | error e =>
    exact Action.meets_bind (P := fun _ t => P t.machine.calls.frames)
      (meets_onMachine ((Machine.spares_raise (fun _ _ _ _ => rfl) e t.machine).mono
        (fun _ => left) left)) fun _ u (hu : P u.machine.calls.frames) => hu

/-- **What a cycle does to the call frames**, in every state. -/
theorem cycle_handles (hframes : s.machine.calls.frames = f :: rest) :
    (cycle natives s).Meets True (fun _ t => f.Handled rest t.machine.calls.frames)
      fun t => f.Handled rest t.machine.calls.frames :=
  cycle_frames hframes (step_handles hframes)

end Session

theorem Frame.Handled.length_le {f : Frame} {rest frames : List Frame} (h : f.Handled rest frames) :
    rest.length ≤ frames.length := by
  cases h <;> simp
  omega

/-- Below the top frame nothing changes. -/
theorem Frame.Handled.frame? {f : Frame} {rest : List Frame} {c c' : CallStack} {k : ℕ}
    (h : f.Handled rest c'.frames) (hc : c.frames = f :: rest) (hk : k < rest.length) :
    c'.frame? k = c.frame? k := by
  have below (top : List Frame) {d : CallStack} (hd : d.frames = top ++ rest) :
      d.frame? k = rest.reverse[k]? := CallStack.frame?_of_append hd hk
  rw [below [f] hc]
  generalize hframes : c'.frames = frames at h
  cases h with
  | removed => exact below [] hframes
  | replaced v => exact below [_] hframes
  | updated vs g _ => exact below (Frame.queued vs ++ [g]) (by rw [hframes]; simp)

/-! ### Requests about the operator's own frame -/

/-- What has been bound in a dictionary is read back. -/
theorem Memory.define_binds (handle : Handle) (name : String) (v : Value) (μ : Memory) :
    (Memory.define handle name v μ).Meets True
      (fun _ μ' => ∃ d, μ'.dictionary handle = .ok d ∧ d.get? name = some v) fun _ => True := by
  have anything {σ α : Type} (o : Outcome σ α) : o.Meets True (fun _ _ => True) fun _ => True :=
    Outcome.meets_of_forall (fun _ _ => trivial) fun _ => trivial
  unfold Memory.define Memory.modifyObject
  refine Action.meets_bind (anything _) fun object μ₁ _ => ?_
  refine Action.meets_bind (P := fun changed _ => ∃ d, changed = .dictionary d ∧
    d.get? name = some v) (Action.meets_onRaise (M := fun _ => True) ?_ fun _ _ => anything _) ?_
  · cases object with
    | array s => trivial
    | dictionary d =>
      refine Action.meets_bind (P := fun d' _ => d'.get? name = some v) ?_
        fun d' _ hd' => ⟨d', rfl, hd'⟩
      have bound : ({ d with entries := d.entries.put name v } : Dictionary).get? name = some v :=
        TextMap.find?_put_self d.entries name v
      unfold Dictionary.define
      cases d.get? name with
      | some previous =>
        exact Action.meets_bind (anything _) fun _ _ _ => Action.meets_bind (anything _)
          fun _ _ _ => bound
      | none =>
        exact Action.meets_bind (anything _) fun _ _ _ => Action.meets_bind (anything _)
          fun _ _ _ => bound
  · rintro _ μ₂ ⟨d, rfl, hd⟩
    refine Action.meets_zoom ?_
    unfold Heap.checkIn
    cases hcell : μ₂.heap.cell? handle with
    | none => trivial
    | some cell =>
      cases hobject : cell.object with
      | some o => simp [hobject]
      | none =>
        simp only [hobject, Outcome.meets_done]
        refine ⟨d, Memory.dictionary_of_object? ?_, hd⟩
        rw [Heap.object?, Heap.cell?_setCell_self (Heap.lt_size_of_cell? hcell)]
        rfl

/-- What the requests about an operator's own frame do to the frame `f` right above `rest`, with the
frames `above` on top of it. -/
structure Machine.Addresses (m : Machine) (above : List Frame) (f : Frame) (rest : List Frame) :
    Prop where
  setState : ∀ next, f.state.canBecome next = true → ∃ m',
    (Request.setState next).perform (some rest.length) m = .done () m' ∧
      m'.calls.frames = above ++ { f with state := next } :: rest
  setLocal : ∀ name v u m', (Request.setLocal name v).perform (some rest.length) m = .done u m' →
    ∃ handle, m'.calls.frames = above ++ { f with locals := some handle } :: rest ∧
      m'.localOf { f with locals := some handle } name = .ok (some v)
  stash : ∀ p u m', m.pending = some p → m.isDoomed = false →
    Request.stash.perform (some rest.length) m = .done u m' →
      m'.calls.frames = above ++ { f with stash := some p } :: rest ∧ m'.pending = none

namespace Machine

variable {m : Machine} {above rest : List Frame} {f : Frame}

theorem setLocal_addressed (h : m.calls.frames = above ++ f :: rest) (name : String) (v : Value) :
    (setLocal rest.length name v m).Meets True (fun _ m' => ∃ handle,
      m'.calls.frames = above ++ { f with locals := some handle } :: rest ∧
        m'.localOf { f with locals := some handle } name = .ok (some v)) fun _ => True := by
  have hf : m.calls.frame? rest.length = some f := CallStack.frame?_above h
  -- the handle is in the frame before anything is bound
  have ensured : (ensureLocals rest.length m).Meets True (fun handle m' =>
      m'.calls.frames = above ++ { f with locals := some handle } :: rest) fun _ => True := by
    rw [ensureLocals, Action.get_bind, frame_bind hf]
    cases hl : f.locals with
    | some handle =>
      change m.calls.frames = _
      rw [h, ← hl]
    | none =>
      refine Action.meets_bind ((onMemory_calls _ m).mono (fun _ _ => id) fun _ _ => trivial)
        fun handle m₁ (h₁ : m₁.calls = m.calls) => ?_
      refine Action.meets_bind ((updateFrame_frames rest.length _ m₁).always fun _ _ => id) ?_
      rintro _ _ ⟨rfl, -⟩
      exact CallStack.frames_update_above (fun f => { f with locals := some handle }) (h₁ ▸ h)
  refine Action.meets_bind ensured fun handle m₁ h₁ => meets_onMemory ?_
  refine (Memory.define_binds handle name v m₁.memory).mono ?_ fun _ => id
  rintro _ μ ⟨d, hd, hv⟩
  refine ⟨handle, h₁, ?_⟩
  change (μ.dictionary handle >>= fun d => pure (d.get? name)) = _
  rw [bind_of_ok hd, hv]
  rfl

theorem stash_addressed {p : PendingException} (h : m.calls.frames = above ++ f :: rest)
    (hp : m.pending = some p) (hdoomed : m.isDoomed = false) :
    (stash rest.length m).Meets True (fun _ m' =>
      m'.calls.frames = above ++ { f with stash := some p } :: rest ∧ m'.pending = none)
      fun _ => False := by
  have hf : m.calls.frame? rest.length = some f := CallStack.frame?_above h
  rw [stash, Action.get_bind]
  simp only [hdoomed, hp, Bool.false_eq_true, if_false]
  rw [frame_bind hf]
  refine Action.meets_bind ((raises_discharge f.stash).meets (discharge_calls f.stash m))
    fun _ m₁ (h₁ : m₁.calls = m.calls) => ?_
  refine Action.meets_bind ((updateFrame_frames rest.length _ m₁).always fun _ _ => id) ?_
  rintro _ _ ⟨rfl, -⟩
  exact ⟨CallStack.frames_update_above (fun f => { f with stash := some p }) (h₁ ▸ h), rfl⟩

/-- **An operator keeps addressing its own frame**, whatever has been queued above it. -/
theorem addresses (h : m.calls.frames = above ++ f :: rest) : m.Addresses above f rest where
  setState next hnext := by
    have hf : m.calls.frame? rest.length = some f := CallStack.frame?_above h
    exact ⟨m.withFrame rest.length fun f => { f with state := next },
      Machine.setState_eq hf hnext, CallStack.frames_update_above _ h⟩
  setLocal name v u m' hm' := by
    have addressed := setLocal_addressed h name v
    rwa [show setLocal rest.length name v m = .done u m' from hm'] at addressed
  stash p u m' hp hdoomed hm' := by
    have addressed := stash_addressed h hp hdoomed
    rwa [show Machine.stash rest.length m = .done u m' from hm'] at addressed

end Machine

end StackScript
