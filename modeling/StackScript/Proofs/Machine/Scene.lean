import StackScript.Proofs.Machine.Growing
import StackScript.Proofs.Machine.Moves

/-!
# What becomes of a machine

A machine shows its stacks, the pending exception, and how deep the block being defined is nested
(`Machine.scene`).  The operations on a machine that is growing either are refused an allocation or
leave a scene that is determined by the one before (`Machine.Becomes`), while no container changes but
those that are meant to, and containers go only if references have been given up.
-/

namespace StackScript

open StackScript.Action Memory

/-- What a machine shows beside its containers. -/
structure Scene where
  operands : List Value
  frames : List Frame
  scopes : List Value
  pending : Option PendingException
  blockDepth : ℕ

namespace Machine

variable {α : Type} {m m' m'' : Machine} {c c' : Scene} {v : Value} {f : Frame}
  {above rest : List Frame} {P : α → Machine → Prop} {drop : ℕ} {values : List Value}

/-- What the machine shows. -/
def scene (m : Machine) : Scene where
  operands := m.operands.items
  frames := m.calls.frames
  scopes := m.scopes.items
  pending := m.pending
  blockDepth := m.blockDepth

/-- The machine has become one that shows `c` and grows by the same. -/
structure Becomes (m : Machine) (c : Scene) (m' : Machine) : Prop where
  scene : m'.scene = c
  growth : m'.growth = m.growth

theorem Becomes.refl (m : Machine) : m.Becomes m.scene m := ⟨rfl, rfl⟩

theorem Becomes.trans (h : m.Becomes c m') (h' : m'.Becomes c' m'') : m.Becomes c' m'' :=
  ⟨h'.scene, h'.growth.trans h.growth⟩

theorem Becomes.growing (h : m.Becomes c m') (hm : m.Growing) : m'.Growing := hm.of_growth h.growth

theorem Becomes.frames (h : m.Becomes c m') : m'.calls.frames = c.frames :=
  congrArg Scene.frames h.scene

theorem Becomes.operands (h : m.Becomes c m') : m'.operands.items = c.operands :=
  congrArg Scene.operands h.scene

/-! ### Working on a part -/

theorem grants_onMemory {x : Action Memory α}
    (h : (x m.memory).Grants fun a μ => P a { m with memory := μ }) : (onMemory x m).Grants P :=
  grants_zoom h

theorem grants_onMemory_bind {β : Type} {x : Action Memory α} {k : α → Action Machine β}
    {Q : β → Machine → Prop}
    (h : (x m.memory).Grants fun a μ => (k a { m with memory := μ }).Grants Q) :
    ((onMemory x >>= k) m).Grants Q :=
  grants_bind (grants_onMemory h) fun _ _ => id

theorem grants_onOperands {x : Sequence → Action Memory Sequence} {P : Unit → Machine → Prop}
    (h : (x m.operands m.memory).Grants fun s μ => P () { m with memory := μ, operands := s }) :
    (onOperands x m).Grants P :=
  grants_onMemory_bind (x := x m.operands) h

theorem grants_onCalls {x : CallStack → Action Memory CallStack} {P : Unit → Machine → Prop}
    (h : (x m.calls m.memory).Grants fun c μ => P () { m with memory := μ, calls := c }) :
    (onCalls x m).Grants P :=
  grants_onMemory_bind (x := x m.calls) h

/-- Beside what an action shows, a machine grows as it did. -/
theorem becomes_of_grants {x : Action Machine α} [Respects SameGrowth x] {c : Scene}
    {Q : α → Memory → Prop}
    (h : (x m).Grants fun a m' => m'.scene = c ∧ Q a m'.memory) :
    (x m).Grants fun a m' => m.Becomes c m' ∧ Q a m'.memory :=
  (h.also (Respects.respects (R := SameGrowth) m)).mono fun _ _ ⟨⟨hc, hq⟩, hg⟩ => ⟨⟨hc, hg⟩, hq⟩

/-- References are taken. -/
theorem retainAll_grants (m : Machine) (values : List Value) :
    (onMemory (Memory.retainAll values) m).Grants fun _ m' =>
      m.Becomes m.scene m' ∧ m.memory.Recounts m'.memory :=
  grants_onMemory ((Memory.retainAll_grants values m.memory).mono fun _ _ hμ => ⟨⟨rfl, rfl⟩, hμ⟩)

/-- Nothing is done but to give references up. -/
theorem gives_onMemory {x : Action Memory Unit} [Respects Sheds x] (hx : x.Raises fun _ => False)
    (m : Machine) {E : Exception → Machine → Prop} : (onMemory x m).Yields
      (fun _ m' => m.Becomes m.scene m' ∧ m.memory.Sheds m'.memory) E := by
  have given := hx.yields (Respects.respects (R := Sheds) m.memory)
  exact yields_zoom (given.mono (fun _ μ hμ => ⟨⟨rfl, rfl⟩, hμ⟩) fun _ _ h => h.1.elim)

theorem release_yields (m : Machine) (v : Value) {E : Exception → Machine → Prop} :
    (Machine.release v m).Yields
      (fun _ m' => m.Becomes m.scene m' ∧ m.memory.Sheds m'.memory) E :=
  gives_onMemory (Memory.raises_release v) m

theorem releaseAll_yields (m : Machine) (values : List Value) {E : Exception → Machine → Prop} :
    (onMemory (Memory.releaseAll values) m).Yields
      (fun _ m' => m.Becomes m.scene m' ∧ m.memory.Sheds m'.memory) E :=
  gives_onMemory (Memory.raises_releaseAll values) m

/-! ### Operands -/

/-- Operands change hands. -/
theorem exchangeOperands_grants (hm : m.Growing) (hdrop : drop ≤ m.operands.length) :
    (exchangeOperands drop values m).Grants fun _ m' => m.Becomes
      { m.scene with operands := values.reverse ++ m.operands.items.drop drop } m' ∧
        m.memory.Sheds m'.memory :=
  becomes_of_grants (grants_onOperands ((Sequence.exchange_grants hdrop hm.operands m.memory).mono
    fun s μ ⟨hs, hμ⟩ => ⟨by simp only [scene, hs], hμ⟩))

/-- Operands are pushed. -/
theorem pushOperands_grants (hm : m.Growing) (values : List Value) :
    (exchangeOperands 0 values m).Grants fun _ m' => m.Becomes
      { m.scene with operands := values.reverse ++ m.operands.items } m' ∧
        m.memory.Recounts m'.memory :=
  becomes_of_grants (grants_onOperands ((Sequence.push_grants hm.operands m.memory).mono
    fun s μ ⟨hs, hμ⟩ => ⟨by simp only [scene, hs], hμ⟩))

/-- A value just created takes the place of operands. -/
theorem adopt_grants (hm : m.Growing) (hdrop : drop ≤ m.operands.length) (v : Value) :
    (adopt drop v m).Grants fun _ m' => m.Becomes
      { m.scene with operands := v :: m.operands.items.drop drop } m' ∧
        m.memory.Sheds m'.memory := by
  refine grants_ensuring (exchangeOperands_grants hm hdrop) (Machine.raises_release v)
    fun _ m₁ ⟨h₁, sheds⟩ => ?_
  refine (release_yields m₁ v).mono (fun _ m₂ ⟨h₂, sheds'⟩ => ⟨⟨?_, h₂.growth.trans h₁.growth⟩,
    sheds.trans sheds'⟩) fun _ _ => id
  exact h₂.scene.trans h₁.scene

/-! ### Call frames -/

/-- A frame is queued. -/
theorem pushFrame_grants (hm : m.Growing) (f : Frame) :
    (onCalls (fun c => c.push f) m).Grants fun _ m' => m.Becomes
      { m.scene with frames := f :: m.calls.frames } m' ∧ m.memory.Recounts m'.memory := by
  refine becomes_of_grants (grants_onCalls ?_)
  have exchanged : (m.calls.reserve.exchange m.calls.length [] [f.value] m.memory).Grants
      fun _ μ => m.memory.Recounts μ :=
    (Reserve.spends_exchange (Reserve.exists_capacityFor hm.calls _)).grants
      (m.calls.reserve.exchange_recounts _ _ _)
  exact grants_bind exchanged fun r μ hμ => ⟨rfl, hμ⟩

/-- The top frame goes. -/
theorem popFrame_grants (hm : m.Growing) (hframes : m.calls.frames = f :: rest) :
    (popFrame m).Grants fun _ m' => m.Becomes { m.scene with frames := rest } m' ∧
      m.memory.Sheds m'.memory := by
  refine becomes_of_grants (grants_onCalls ?_)
  unfold CallStack.pop
  rw [hframes]
  have exchanged : (m.calls.reserve.exchange m.calls.length [f.value] [] m.memory).Grants
      fun _ μ => m.memory.Sheds μ :=
    (Reserve.spends_exchange (Reserve.exists_capacityFor hm.calls _)).grants
      (Respects.respects (R := Sheds) m.memory)
  refine grants_bind exchanged fun r μ hμ => ?_
  refine grants_bind (Spends.grants (Frame.raises_dispose f) (Respects.respects (R := Sheds) μ))
    fun _ ν hν => ⟨rfl, hμ.trans hν⟩

/-- A fresh frame takes the place of the top one. -/
theorem replaceFrame_grants (hm : m.Growing) (hframes : m.calls.frames = f :: rest) (v : Value) :
    (replaceFrame v m).Grants fun _ m' =>
      m.Becomes { m.scene with frames := { value := v } :: rest } m' ∧
        m.memory.Sheds m'.memory := by
  refine becomes_of_grants (grants_onCalls ?_)
  unfold CallStack.replaceTop
  rw [hframes]
  have exchanged : (m.calls.reserve.exchange m.calls.length [f.value] [v] m.memory).Grants
      fun _ μ => m.memory.Sheds μ :=
    (Reserve.spends_exchange (Reserve.exists_capacityFor hm.calls _)).grants
      (Respects.respects (R := Sheds) m.memory)
  refine grants_bind exchanged fun r μ hμ => ?_
  refine grants_bind (Spends.grants (Frame.raises_dispose f) (Respects.respects (R := Sheds) μ))
    fun _ ν hν => ⟨rfl, hμ.trans hν⟩

/-- A frame that others have been queued above is changed. -/
theorem updateFrame_above (hframes : m.calls.frames = above ++ f :: rest) (g : Frame → Frame) :
    ∃ m', updateFrame rest.length g m = .done () m' ∧ m.memory = m'.memory ∧
      m.Becomes { m.scene with frames := above ++ g f :: rest } m' := by
  refine ⟨_, updateFrame_eq (CallStack.frame?_above hframes) g, rfl, ?_, growth_update m _ _⟩
  simp only [scene, withFrame, CallStack.frames_update_above g hframes]

/-- An operator moves as the protocol permits. -/
theorem setState_above (above : List Frame) (next : Continuation)
    (hframes : m.calls.frames = above ++ f :: rest)
    (hnext : f.state.canBecome next = true) :
    ∃ m', setState rest.length next m = .done () m' ∧ m.memory = m'.memory ∧
      m.Becomes { m.scene with frames := above ++ { f with state := next } :: rest } m' := by
  have hf := CallStack.frame?_above hframes
  obtain ⟨m', updated, same⟩ := updateFrame_above hframes fun f => { f with state := next }
  exact ⟨m', (setState_eq hf hnext).trans ((updateFrame_eq hf _).symm.trans updated), same⟩

/-! ### Creating arrays -/

/-- An array has been created that holds `items`, by the handle `i`. -/
structure Creates (m : Machine) (i : Handle) (items : List Value) (m' : Machine) : Prop where
  becomes : m.Becomes m.scene m'
  stored : ∃ s : Sequence, s.toList = items ∧ m.memory.heap.Stores i (.array s) m'.memory.heap

theorem createArray_grants (hw : m.memory.heap.WellFormed) (access : Access) (items : List Value) :
    (createArray access items m).Grants fun v m' =>
      ∃ i, v = .array i access ∧ m.Creates i items m' := by
  rw [createArray, Action.get_bind]
  cases m.allocationTrail with
  | error b => trivial
  | ok trail =>
    refine grants_onMemory_bind (x := Memory.newArray .user items trail)
      ((Memory.newArray_granted hw .user items trail).mono ?_)
    exact fun i μ stored => ⟨i, rfl, ⟨rfl, rfl⟩, stored⟩

/-- An empty dictionary has been created. -/
theorem createDictionary_grants (hw : m.memory.heap.WellFormed) :
    (createDictionary m).Grants fun v m' => ∃ i, v = .dictionary i true ∧ m.Becomes m.scene m' ∧
      m.memory.heap.Stores i (.dictionary { account := .user }) m'.memory.heap := by
  rw [createDictionary, Action.get_bind]
  cases m.allocationTrail with
  | error b => trivial
  | ok trail =>
    refine grants_onMemory_bind (x := Memory.newDictionary .user trail)
      ((Memory.newDictionary_granted hw .user trail).mono ?_)
    exact fun i μ stored => ⟨i, rfl, ⟨rfl, rfl⟩, stored⟩

/-! ### Modifying containers -/

/-- An item of a mutable array is replaced. -/
theorem setItem_grants {i : Handle} {items : List Value} {index : ℕ}
    (hitems : m.memory.heap.Shows i (Object.Lists items)) (hindex : index < items.length) (v : Value) :
    (setItem (.array i .mutable) index v m).Grants fun _ m' => m.Becomes m.scene m' ∧
      m.memory.heap.Replaces i (Object.Lists (items.set index v)) m'.memory.heap :=
  grants_onMemory ((Memory.setItem_grants hitems hindex).mono fun _ _ hr => ⟨⟨rfl, rfl⟩, hr⟩)

/-- A local is bound in the dictionary a frame has for that. -/
theorem setLocal_grants {d : Handle} {P : Dictionary → Prop}
    (hframes : m.calls.frames = above ++ f :: rest) (hlocals : f.locals = some d)
    (hd : m.memory.heap.Shows d fun o => ∃ D, o = .dictionary D ∧ P D) (name : String) (v : Value) :
    (setLocal rest.length name v m).Grants fun _ m' => m.Becomes m.scene m' ∧
      m.memory.heap.Replaces d (fun o => ∃ D, P D ∧
        o = .dictionary { D with entries := D.entries.put name v }) m'.memory.heap := by
  have found : ensureLocals rest.length m = .done d m := by
    rw [ensureLocals, Action.get_bind, frame_bind (CallStack.frame?_above hframes), hlocals]
    rfl
  rw [setLocal, Action.bind_done found]
  exact grants_onMemory ((Memory.define_grants hd).mono fun _ _ hr => ⟨⟨rfl, rfl⟩, hr⟩)

/-- The first local of a frame is bound in a dictionary created for that. -/
theorem setLocal_grants_of_none (hw : m.memory.heap.WellFormed)
    (hframes : m.calls.frames = above ++ f :: rest) (hlocals : f.locals = none) (name : String)
    (v : Value) : (setLocal rest.length name v m).Grants fun _ m' => ∃ d h₁,
      m.Becomes { m.scene with frames := above ++ { f with locals := some d } :: rest } m' ∧
        m.memory.heap.Stores d (.dictionary { account := .system }) h₁ ∧
          h₁.Replaces d (· = .dictionary { account := .system, entries := [(name, v)] })
            m'.memory.heap := by
  have created : (ensureLocals rest.length m).Grants fun d m' =>
      m.Becomes { m.scene with frames := above ++ { f with locals := some d } :: rest } m' ∧
        m.memory.heap.Stores d (.dictionary { account := .system }) m'.memory.heap := by
    unfold ensureLocals
    rw [Action.get_bind, frame_bind (CallStack.frame?_above hframes), hlocals]
    refine grants_onMemory_bind ((Memory.newDictionary_granted hw _ _).mono fun d μ stored => ?_)
    obtain ⟨m', updated, same, becomes⟩ := updateFrame_above (m := { m with memory := μ }) hframes
      fun f => { f with locals := some d }
    rw [Action.bind_done updated]
    exact ⟨⟨becomes.scene, becomes.growth⟩, same ▸ stored⟩
  refine grants_bind created fun d m₁ ⟨h₁, stored⟩ => grants_onMemory ?_
  refine (Memory.define_grants (P := (· = { account := .system }))
    (stored.shows ⟨_, rfl, rfl⟩)).mono fun _ μ hr => ⟨d, _, ⟨h₁.scene, h₁.growth⟩, stored,
      hr.others, fun o ho => ?_⟩
  obtain ⟨D, rfl, rfl⟩ := hr.shows o ho
  rfl

end Machine

/-! ### Sessions -/

namespace Session

variable {χ α β : Type} {s : Session χ} {P : α → Session χ → Prop}

theorem grants_onMachine {x : Action Machine α}
    (h : (x s.machine).Grants fun a m => P a { s with machine := m }) : (onMachine x s).Grants P :=
  grants_zoom h

theorem grants_onMachine_bind {x : Action Machine α} {k : α → Action (Session χ) β}
    {Q : β → Session χ → Prop}
    (h : (x s.machine).Grants fun a m => (k a { s with machine := m }).Grants Q) :
    ((onMachine x >>= k) s).Grants Q :=
  grants_bind (grants_onMachine h) fun _ _ => id

end Session

end StackScript
