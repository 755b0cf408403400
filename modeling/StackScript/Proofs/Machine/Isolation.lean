import StackScript.Operator.Operation
import StackScript.Proofs.Machine.Own

/-!
# What a request does to the call frames

A request queues one fresh frame, changes the frame of the operator that makes it, or leaves the
call frames alone (`Request.perform_edits`).  A change of the operator's own frame leaves what the
frame executes as it is, and moves its continuation state as the protocol permits, if at all.

So no operator, however it is made, touches the work that was queued by others.
-/

namespace StackScript

/-! ### The call stack -/

namespace CallStack

variable {c c' c'' : CallStack} {own : Option ℕ} {f g : Frame} {k i : ℕ}

theorem frame?_eq_none_iff : c.frame? k = none ↔ c.length ≤ k := by
  rw [frame?_eq_getElem?, List.getElem?_eq_none_iff, List.length_reverse, length]

theorem lt_length_of_frame? (h : c.frame? k = some f) : k < c.length := by
  by_contra hk
  rw [frame?_eq_none_iff.2 (not_lt.1 hk)] at h
  cases h

/-- The frames of a stack on which one has been queued. -/
theorem frame?_of_frames (h : c'.frames = f :: c.frames) (k : ℕ) :
    c'.frame? k = if k = c.length then some f else c.frame? k := by
  rw [frame?_eq_getElem?, h, List.reverse_cons, frame?_eq_getElem?, length,
    ← c.frames.length_reverse]
  split
  · rename_i hk
    rw [hk, List.getElem?_concat_length]
  · rename_i hk
    rcases Nat.lt_or_gt_of_ne hk with hk | hk
    · exact List.getElem?_append_left hk
    · rw [List.getElem?_eq_none hk.le, List.getElem?_eq_none]
      simpa using Nat.succ_le_of_lt hk

/-- The frames that are left when the top one has gone. -/
theorem frame?_of_frames_cons (h : c.frames = f :: c'.frames) (hk : k < c'.length) :
    c'.frame? k = c.frame? k := by
  rw [frame?_of_frames h, if_neg hk.ne]

/-- A call stack is as long as its frames say. -/
theorem length_of_cons {rest : List Frame} (h : c.frames = f :: rest) :
    c.length = rest.length + 1 := by
  rw [length, h, List.length_cons]

theorem length_of_frames (h : c'.frames = f :: c.frames) : c'.length = c.length + 1 := by
  rw [length, h, List.length_cons, length]

/-- The top frame has all the others below it. -/
theorem frame?_length_of_frames {rest : List Frame} (h : c.frames = f :: rest) :
    c.frame? rest.length = some f := by
  rw [frame?_of_frames (c := { c with frames := rest }) h]
  exact if_pos rfl

/-- What one request may do to the call frames, `own` being the address of its operator's. -/
inductive Edited (own : Option ℕ) (c : CallStack) : CallStack → Prop
  | kept : c.Edited own c
  | queued {c' : CallStack} (v : Value) (h : c'.frames = { value := v } :: c.frames) :
    c.Edited own c'
  | revised {i : ℕ} {f : Frame} (g : Frame → Frame) (howner : own = some i)
    (hf : c.frame? i = some f) (hvalue : (g f).value = f.value) (hcursor : (g f).cursor = f.cursor)
    (hsupply : (g f).supply = f.supply)
    (hstate : (g f).state = f.state ∨ f.state.canBecome (g f).state = true) :
    c.Edited own (c.update i g)

end CallStack

namespace Machine

variable {m m' : Machine} {own : Option ℕ} {index : ℕ} {F : Machine → Prop}

/-! ### Operations that leave a part of the machine alone -/

/-- The action leaves a part of the machine as it is. -/
def Spares {α δ : Type} (part : Machine → δ) (x : Action Machine α) : Prop :=
  ∀ m, (x m).Meets True (fun _ m' => part m' = part m) fun m' => part m' = part m

section Spares

variable {α β δ : Type} {part : Machine → δ} {x : Action Machine α} {f : α → Action Machine β}

theorem Spares.bind (hx : Spares part x) (hf : ∀ a, Spares part (f a)) : Spares part (x >>= f) :=
  fun m => Action.meets_bind (hx m) fun a m' h =>
    (hf a m').mono (fun _ _ h' => h'.trans h) fun _ h' => h'.trans h

theorem Spares.ensuring {clean : Action Machine Unit} (hx : Spares part x)
    (hc : Spares part clean) : Spares part (x.ensuring clean) := fun m =>
  have cleaned (m' : Machine) (h : part m' = part m) := (hc m').mono
    (fun _ m'' (h' : part m'' = part m') => h'.trans h) fun _ h' => h'.trans h
  Action.meets_ensuring (hx m) (fun _ => cleaned) cleaned

theorem spares_get : Spares part (get : Action Machine Machine) := fun _ => rfl

theorem spares_pure (a : α) : Spares part (pure a : Action Machine α) := fun _ => rfl

theorem spares_fail (c : Cause) : Spares part (Action.fail c : Action Machine α) := fun _ => rfl

theorem spares_ofSound (r : Except Breach α) : Spares part (Action.ofSound r : Action Machine α) :=
  fun _ => by cases r <;> first | rfl | trivial

theorem spares_modify {g : Machine → Machine} (hg : ∀ m, part (g m) = part m) :
    Spares part (modify g : Action Machine PUnit) := hg

/-- The part has nothing to do with the memory. -/
theorem spares_onMemory (hpart : ∀ m μ, part { m with memory := μ } = part m)
    (f : Action Memory α) : Spares part (onMemory f) := fun m => by
  unfold onMemory Action.zoom
  cases f m.memory <;> first | exact hpart _ _ | trivial

theorem spares_onOperands (hpart : ∀ m μ s, part { m with memory := μ, operands := s } = part m)
    (f : Sequence → Action Memory Sequence) : Spares part (onOperands f) :=
  spares_get.bind fun _ => (spares_onMemory (fun m μ => hpart m μ m.operands) _).bind fun s =>
    spares_modify fun m => hpart m m.memory s

theorem spares_exchangeOperands
    (hpart : ∀ m μ s, part { m with memory := μ, operands := s } = part m) (drop : ℕ)
    (values : List Value) : Spares part (exchangeOperands drop values) := spares_onOperands hpart _

theorem spares_onScopes (hpart : ∀ m μ s, part { m with memory := μ, scopes := s } = part m)
    (f : Sequence → Action Memory Sequence) : Spares part (onScopes f) :=
  spares_get.bind fun _ => (spares_onMemory (fun m μ => hpart m μ m.scopes) _).bind fun s =>
    spares_modify fun m => hpart m m.memory s

theorem spares_onCalls (hpart : ∀ m μ c, part { m with memory := μ, calls := c } = part m)
    (f : CallStack → Action Memory CallStack) : Spares part (onCalls f) :=
  spares_get.bind fun _ => (spares_onMemory (fun m μ => hpart m μ m.calls) _).bind fun c =>
    spares_modify fun m => hpart m m.memory c

theorem spares_discharge (hpart : ∀ m μ, part { m with memory := μ } = part m)
    (p : Option PendingException) : Spares part (discharge p) := by
  cases p with
  | none => exact spares_pure ()
  | some p => exact spares_onMemory hpart _

theorem spares_intercept (hpart : ∀ m μ p, part { m with memory := μ, pending := p } = part m) :
    Spares part intercept :=
  spares_get.bind fun m => by
    split
    · exact spares_pure none
    · exact (spares_discharge (fun m μ => hpart m μ m.pending) _).bind fun _ =>
        (spares_modify fun m => hpart m m.memory none).bind fun _ => spares_pure m.exception

theorem spares_raise
    (hpart : ∀ m μ p k, part { m with memory := μ, pending := p, blockDepth := k } = part m)
    (e : Exception) : Spares part (raise e) :=
  have memory (m : Machine) (μ : Memory) : part { m with memory := μ } = part m :=
    hpart m μ m.pending m.blockDepth
  spares_get.bind fun m => by
    split
    · exact spares_pure ()
    · exact (spares_ofSound _).bind fun _ => (spares_discharge memory _).bind fun _ =>
        (spares_onMemory memory _).bind fun p => spares_modify fun m => hpart m m.memory (some p) 0

theorem spares_createArray (hpart : ∀ m μ, part { m with memory := μ } = part m) (access : Access)
    (items : List Value) : Spares part (createArray access items) :=
  spares_get.bind fun _ => (spares_ofSound _).bind fun _ => (spares_onMemory hpart _).bind fun _ =>
    spares_pure _

theorem spares_createFilledArray (hpart : ∀ m μ, part { m with memory := μ } = part m)
    (access : Access) (length : ℕ) (v : Value) :
    Spares part (createFilledArray access length v) :=
  spares_get.bind fun _ => (spares_ofSound _).bind fun _ => (spares_onMemory hpart _).bind fun _ =>
    spares_pure _

theorem spares_createDictionary (hpart : ∀ m μ, part { m with memory := μ } = part m) :
    Spares part createDictionary :=
  spares_get.bind fun _ => (spares_ofSound _).bind fun _ => (spares_onMemory hpart _).bind fun _ =>
    spares_pure _

theorem spares_setItem (hpart : ∀ m μ, part { m with memory := μ } = part m) (container : Value)
    (index : ℕ) (v : Value) : Spares part (setItem container index v) := by
  unfold setItem
  split
  · exact spares_onMemory hpart _
  · exact spares_fail _
  · exact spares_fail _

theorem spares_define (hpart : ∀ m μ, part { m with memory := μ } = part m) (container : Value)
    (name : String) (v : Value) : Spares part (define container name v) := by
  unfold define
  split
  · exact spares_onMemory hpart _
  · exact spares_fail _
  · exact spares_fail _

theorem spares_openScope (hpart : ∀ m μ s, part { m with memory := μ, scopes := s } = part m)
    (v : Value) : Spares part (openScope v) := by
  unfold openScope
  split
  · exact spares_onScopes hpart _
  · exact spares_fail _

theorem spares_closeScope (hpart : ∀ m μ s, part { m with memory := μ, scopes := s } = part m) :
    Spares part closeScope :=
  spares_get.bind fun m => by
    split
    · exact (spares_fail _).bind fun _ => spares_onScopes hpart _
    · exact spares_onScopes hpart _

theorem onMemory_calls (f : Action Memory α) : Spares Machine.calls (onMemory f) :=
  spares_onMemory (fun _ _ => rfl) f

theorem discharge_calls (p : Option PendingException) : Spares Machine.calls (discharge p) :=
  spares_discharge (fun _ _ => rfl) p

end Spares

/-! ### Operations on the call frames -/

/-- A frame is queued, or the call frames stay as they are. -/
theorem pushFrame_frames (f : Frame) (m : Machine) :
    (onCalls (fun c => c.push f) m).Meets True
      (fun _ m' => m'.calls.frames = f :: m.calls.frames) fun m' => m'.calls = m.calls := by
  refine meets_onCalls (Action.meets_bind (P := fun _ _ => True) ?_ fun r μ _ => rfl)
  cases m.calls.reserve.exchange m.calls.length [] [f.value] m.memory <;> trivial

/-- The top frame goes, or the call frames stay as they are. -/
theorem popFrame_frames (m : Machine) :
    (popFrame m).Meets True
      (fun _ m' => ∃ f, m.calls.frames = f :: m'.calls.frames) fun m' => m'.calls = m.calls := by
  refine meets_onCalls ?_
  unfold CallStack.pop
  cases hframes : m.calls.frames with
  | nil => rfl
  | cons f rest =>
    refine Action.meets_bind (P := fun _ _ => True) ?_ fun r μ _ => ?_
    · cases m.calls.reserve.exchange m.calls.length [f.value] [] m.memory <;> trivial
    · refine Action.meets_bind (P := fun _ _ => True) ?_ fun _ _ _ => ⟨f, rfl⟩
      cases f.dispose μ <;> trivial

/-- A fresh frame takes the place of the top one, or the call frames stay as they are. -/
theorem replaceFrame_frames (v : Value) (m : Machine) :
    (replaceFrame v m).Meets True
      (fun _ m' => ∃ f rest, m.calls.frames = f :: rest ∧
        m'.calls.frames = { value := v } :: rest) fun m' => m'.calls = m.calls := by
  refine meets_onCalls ?_
  unfold CallStack.replaceTop
  cases hframes : m.calls.frames with
  | nil => rfl
  | cons f rest =>
    refine Action.meets_bind (P := fun _ _ => True) ?_ fun r μ _ => ?_
    · cases m.calls.reserve.exchange m.calls.length [f.value] [v] m.memory <;> trivial
    · refine Action.meets_bind (P := fun _ _ => True) ?_ fun _ _ _ => ⟨f, rest, rfl, rfl⟩
      cases f.dispose μ <;> trivial

/-- An action on a frame begins by looking at it. -/
theorem meets_frame {α : Type} {k : Frame → Action Machine α} {P : α → Machine → Prop}
    (h : ∀ f, m.calls.frame? index = some f → (k f m).Meets True P F) :
    (((liftM (m.frame index) : Action Machine Frame) >>= k) m).Meets True P F := by
  cases hf : m.calls.frame? index with
  | none =>
    rw [frame, hf]
    trivial
  | some f =>
    rw [frame_bind hf]
    exact h f hf

theorem updateFrame_frames (index : ℕ) (g : Frame → Frame) (m : Machine) :
    (updateFrame index g m).Meets True
      (fun _ m' => m' = m.withFrame index g ∧ (m.calls.frame? index).isSome) F := by
  unfold updateFrame
  rw [Action.get_bind]
  refine meets_frame fun f hf => ?_
  exact ⟨rfl, by rw [hf]; rfl⟩

/-- A frame moves as the protocol permits, or nothing happens. -/
theorem setState_frames (index : ℕ) (next : Continuation) (m : Machine) :
    (setState index next m).Meets True
      (fun _ m' => ∃ f, m.calls.frame? index = some f ∧ f.state.canBecome next = true ∧
        m' = m.withFrame index fun f => { f with state := next }) fun m' => m' = m := by
  unfold setState
  rw [Action.get_bind]
  refine meets_frame fun f hf => ?_
  split
  · rename_i hnext
    exact (updateFrame_frames (F := fun _ => False) index _ m).always
      fun _ _ h => ⟨f, hf, hnext, h.1⟩
  · rfl

end Machine

/-! ### Requests -/

namespace Machine

variable {own : Option ℕ} {m : Machine} {index : ℕ}

/-- A change of a frame that leaves its continuation state and what it executes. -/
theorem edited_withFrame {f : Frame} {g : Frame → Frame} (hf : m.calls.frame? index = some f)
    (hvalue : (g f).value = f.value) (hcursor : (g f).cursor = f.cursor)
    (hsupply : (g f).supply = f.supply) (hstate : (g f).state = f.state) :
    m.calls.Edited (some index) (m.withFrame index g).calls :=
  .revised g rfl hf hvalue hcursor hsupply (.inl hstate)

theorem call_edits (v : Value) :
    (call v m).Meets True (fun _ m' => m.calls.Edited own m'.calls)
      fun m' => m.calls.Edited own m'.calls :=
  (pushFrame_frames _ m).mono (fun _ _ h => .queued v h) fun _ h => h ▸ .kept

theorem setState_edits (next : Continuation) :
    (setState index next m).Meets True (fun _ m' => m.calls.Edited (some index) m'.calls)
      fun m' => m.calls.Edited (some index) m'.calls := by
  refine (setState_frames index next m).mono ?_ fun m' h => h ▸ .kept
  rintro _ _ ⟨f, hf, hnext, rfl⟩
  exact .revised _ rfl hf rfl rfl rfl (.inr hnext)

theorem setLocal_edits (name : String) (v : Value) :
    (setLocal index name v m).Meets True (fun _ m' => m.calls.Edited (some index) m'.calls)
      fun m' => m.calls.Edited (some index) m'.calls := by
  refine Action.meets_bind (P := fun _ m' => m.calls.Edited (some index) m'.calls) ?_ ?_
  · unfold ensureLocals
    rw [Action.get_bind]
    refine meets_frame fun f hf => ?_
    cases f.locals with
    | some handle => exact .kept
    | none =>
      refine Action.meets_bind ((onMemory_calls _ m).mono (fun _ _ => id) fun m' h => h ▸ .kept) ?_
      intro handle m₁ h₁
      refine Action.meets_bind (updateFrame_frames index _ m₁) ?_
      rintro _ _ ⟨rfl, -⟩
      have hf₁ : m₁.calls.frame? index = some f := h₁ ▸ hf
      exact h₁ ▸ edited_withFrame hf₁ rfl rfl rfl rfl
  · intro handle m₁ h₁
    exact (onMemory_calls _ m₁).mono (fun _ m' h => h ▸ h₁) fun m' h => h ▸ h₁

theorem stash_edits :
    (stash index m).Meets True (fun _ m' => m.calls.Edited (some index) m'.calls)
      fun m' => m.calls.Edited (some index) m'.calls := by
  unfold stash
  rw [Action.get_bind]
  split
  · exact .kept
  cases hpending : m.pending with
  | none => exact .kept
  | some p =>
    refine meets_frame fun f hf => ?_
    refine Action.meets_bind ((discharge_calls f.stash m).mono (fun _ _ => id)
      fun m' h => h ▸ .kept) fun _ m₁ h₁ => ?_
    have hf₁ : m₁.calls.frame? index = some f := h₁ ▸ hf
    refine Action.meets_bind (updateFrame_frames index _ m₁) ?_
    rintro _ _ ⟨rfl, -⟩
    exact h₁ ▸ edited_withFrame hf₁ rfl rfl rfl rfl

theorem restore_edits :
    (restore index m).Meets True (fun _ m' => m.calls.Edited (some index) m'.calls)
      fun m' => m.calls.Edited (some index) m'.calls := by
  unfold restore
  rw [Action.get_bind]
  refine meets_frame fun f hf => ?_
  cases f.stash with
  | none => exact .kept
  | some p =>
    refine Action.meets_bind (updateFrame_frames index _ m) ?_
    rintro _ _ ⟨rfl, -⟩
    have edited : m.calls.Edited (some index)
        (m.withFrame index fun f => { f with stash := none }).calls :=
      edited_withFrame hf rfl rfl rfl rfl
    split
    · exact (discharge_calls _ _).mono (fun _ m' h => h ▸ edited) fun m' h => h ▸ edited
    · exact edited

/-- An action that spares the call frames. -/
theorem Spares.edits {α : Type} {x : Action Machine α} (hx : Spares Machine.calls x) :
    (x m).Meets True (fun _ m' => m.calls.Edited own m'.calls)
      fun m' => m.calls.Edited own m'.calls :=
  (hx m).mono (fun _ _ h => h ▸ .kept) fun _ h => h ▸ .kept

end Machine

namespace Request

variable {m : Machine}

/-- A request about the operator's own frame. -/
theorem onOwn_edits {α : Type} (own : Option ℕ) {f : ℕ → Action Machine α}
    (hf : ∀ index, (f index m).Meets True (fun _ m' => m.calls.Edited (some index) m'.calls)
      fun m' => m.calls.Edited (some index) m'.calls) :
    (onOwn own f m).Meets True (fun _ m' => m.calls.Edited own m'.calls)
      fun m' => m.calls.Edited own m'.calls := by
  cases own with
  | none => exact .kept
  | some index => exact hf index

/-- **What a request does to the call frames.** -/
theorem perform_edits (r : Request) (own : Option ℕ) (m : Machine) :
    (r.perform own m).Meets True (fun _ m' => m.calls.Edited own m'.calls)
      fun m' => m.calls.Edited own m'.calls := by
  cases r with
  | observe => exact .kept
  | exchange drop values => exact (Machine.spares_exchangeOperands (fun _ _ _ => rfl) drop values).edits
  | adopt drop created =>
    exact ((Machine.spares_exchangeOperands (fun _ _ _ => rfl) drop _).ensuring
      (Machine.onMemory_calls _)).edits
  | release created => exact (Machine.onMemory_calls _).edits
  | clearOperands => exact (Machine.spares_onOperands (fun _ _ _ => rfl) _).edits
  | createArray access items => exact (Machine.spares_createArray (fun _ _ => rfl) access items).edits
  | createFilledArray access length v =>
    exact (Machine.spares_createFilledArray (fun _ _ => rfl) access length v).edits
  | createDictionary => exact (Machine.spares_createDictionary fun _ _ => rfl).edits
  | setItem container index v => exact (Machine.spares_setItem (fun _ _ => rfl) container index v).edits
  | define container name v => exact (Machine.spares_define (fun _ _ => rfl) container name v).edits
  | openScope v => exact (Machine.spares_openScope (fun _ _ _ => rfl) v).edits
  | closeScope => exact (Machine.spares_closeScope fun _ _ _ => rfl).edits
  | call v => exact Machine.call_edits v
  | setState next => exact onOwn_edits own fun _ => Machine.setState_edits next
  | setLocal name v => exact onOwn_edits own fun _ => Machine.setLocal_edits name v
  | openBlock | closeBlock => exact .kept
  | intercept => exact (Machine.spares_intercept fun _ _ _ => rfl).edits
  | stash => exact onOwn_edits own fun _ => Machine.stash_edits
  | restore => exact onOwn_edits own fun _ => Machine.restore_edits

end Request

end StackScript
