import StackScript.Proofs.Machine.Effects
import StackScript.Proofs.Machine.Holdings
import StackScript.Proofs.Memory.Contents

/-!
# What one move of a machine may change

Where a move takes the values it puts in the places of the machine, and which containers it writes
to.  What it puts there carries the datum of a value that was in a place before, or that was held by
whoever makes the move; and a container that is there before and after has another content only if it
was the locals of a frame, or if there was a value that lets it be modified (`Machine.Moves`).

Most moves write to no container at all and only let go of some (`Machine.Drifts`).
-/

namespace StackScript

open StackScript.Action Memory

/-- The handle of the container a datum refers to. -/
def Datum.handle? (d : Datum) : Option Handle := Value.handle? ⟨d, none⟩

theorem Value.handle?_datum (v : Value) : v.datum.handle? = v.handle? := rfl

namespace Machine

variable {K : Datum → Prop} {m m' m'' : Machine} {held created : List Value}

/-! ### Data in places -/

/-- All data in the places of the machine are in `K`. -/
structure Within (K : Datum → Prop) (m : Machine) : Prop where
  operands : ∀ v ∈ m.operands.items, K v.datum
  calls : ∀ f ∈ m.calls.frames, K f.value.datum
  scopes : ∀ v ∈ m.scopes.items, K v.datum
  slots : ∀ i o, m.memory.heap.object? i = some o → ∀ v ∈ o.values, K v.datum

theorem mem_slots {h : Heap} {v : Value} :
    v ∈ h.slots ↔ ∃ i o, h.object? i = some o ∧ v ∈ o.values := by
  rw [← Multiset.mem_coe, ← Heap.values_stake, Heap.mem_values_stake]

theorem within_iff : m.Within K ↔ ∀ v ∈ m.places, K v.datum := by
  simp only [places, List.mem_append, List.mem_map, mem_slots]
  constructor
  · rintro h v (((hv | ⟨f, hf, rfl⟩) | hv) | ⟨i, o, ho, hv⟩)
    · exact h.operands v hv
    · exact h.calls f hf
    · exact h.scopes v hv
    · exact h.slots i o ho v hv
  · exact fun h => ⟨fun v hv => h v (.inl (.inl (.inl hv))),
      fun f hf => h _ (.inl (.inl (.inr ⟨f, hf, rfl⟩))), fun v hv => h v (.inl (.inr hv)),
      fun i o ho v hv => h v (.inr ⟨i, o, ho, hv⟩)⟩

theorem mem_places_of_operand {v : Value} (hv : v ∈ m.operands.items) : v ∈ m.places := by
  simp [places, hv]

theorem mem_places_of_frame {f : Frame} (hf : f ∈ m.calls.frames) : f.value ∈ m.places := by
  simp only [places, List.mem_append, List.mem_map]
  exact .inl (.inl (.inr ⟨f, hf, rfl⟩))

theorem mem_places_of_scope {v : Value} (hv : v ∈ m.scopes.items) : v ∈ m.places := by
  simp [places, hv]

theorem mem_places_of_slot {i : Handle} {o : Object} {v : Value}
    (ho : m.memory.heap.object? i = some o) (hv : v ∈ o.values) : v ∈ m.places :=
  List.mem_append_right _ (mem_slots.2 ⟨i, o, ho, hv⟩)

/-! ### Moves that write to no container -/

/-- The data in places stay in `K`, containers only go, and so do the locals of frames. -/
structure Drifts (K : Datum → Prop) (m m' : Machine) : Prop where
  within : m.Within K → m'.Within K
  sheds : m.memory.heap.Sheds m'.memory.heap
  locals : m'.localDictionaries ⊆ m.localDictionaries

instance : IsPreorder Machine (Drifts K) where
  refl _ := ⟨id, .refl _, List.Subset.refl _⟩
  trans _ _ _ h h' := ⟨h'.within ∘ h.within, h.sheds.trans h'.sheds, fun _ hi => h.locals (h'.locals hi)⟩

theorem Within.sheds (h : m.Within K) {μ : Memory} (hμ : m.memory.heap.Sheds μ.heap) :
    Within K { m with memory := μ } :=
  { h with slots := fun i o ho => h.slots i o (hμ.object?_eq ho) }

instance {α : Type} (x : Action Memory α) [Respects Sheds x] :
    Respects (Drifts K) (onMemory x) where
  respects m := meets_onMemory ((Respects.respects (R := Sheds) m.memory).mono
    (fun _ _ hμ => ⟨fun h => h.sheds hμ, hμ, List.Subset.refl _⟩)
    fun _ hμ => ⟨fun h => h.sheds hμ, hμ, List.Subset.refl _⟩)

section

variable {f : Sequence → Action Memory Sequence} (hf : ∀ s, Respects Sheds (f s))
  (hitems : ∀ s μ, (f s μ).Meets True (fun s' _ => ∀ v ∈ s'.items, v ∈ s.items ∨ K v.datum)
    fun _ => True)
include hf hitems

theorem drifts_onOperands : Respects (Drifts K) (onOperands f) where
  respects m := meets_onOperands ((((hf m.operands).respects m.memory).and
    (hitems m.operands m.memory)).mono (fun _ _ ⟨hμ, hs⟩ =>
      ⟨fun h => { h.sheds hμ with operands := fun v hv => (hs v hv).elim (h.operands v) id }, hμ,
        List.Subset.refl _⟩) fun _ hμ => ⟨fun h => h.sheds hμ.1, hμ.1, List.Subset.refl _⟩)

theorem drifts_onScopes : Respects (Drifts K) (onScopes f) where
  respects m := meets_onScopes ((((hf m.scopes).respects m.memory).and
    (hitems m.scopes m.memory)).mono (fun _ _ ⟨hμ, hs⟩ =>
      ⟨fun h => { h.sheds hμ with scopes := fun v hv => (hs v hv).elim (h.scopes v) id }, hμ,
        List.Subset.refl _⟩) fun _ hμ => ⟨fun h => h.sheds hμ.1, hμ.1, List.Subset.refl _⟩)

end

theorem drifts_exchange (drop : ℕ) {values : List Value} (hv : ∀ v ∈ values, K v.datum)
    (s : Sequence) (μ : Memory) : (s.exchange drop values μ).Meets True
      (fun s' _ => ∀ v ∈ s'.items, v ∈ s.items ∨ K v.datum) fun _ => True := by
  refine (s.exchange_items drop values μ).mono (fun s' _ hs' v hv' => ?_) fun _ => id
  rw [hs'] at hv'
  exact (List.mem_append.1 hv').symm.imp List.mem_of_mem_drop
    fun h => hv v (List.mem_reverse.1 h)

theorem drifts_exchangeOperands (drop : ℕ) {values : List Value} (hv : ∀ v ∈ values, K v.datum) :
    Respects (Drifts K) (exchangeOperands drop values) :=
  drifts_onOperands (fun _ => inferInstance) (drifts_exchange drop hv)

instance (v : Value) : Respects (Drifts K) (release v) :=
  inferInstanceAs (Respects _ (onMemory (Memory.release v)))

theorem drifts_adopt (drop : ℕ) {v : Value} (hv : K v.datum) :
    Respects (Drifts K) (adopt drop v) := by
  have := drifts_exchangeOperands drop (List.forall_mem_singleton.2 hv)
  unfold adopt
  infer_instance

instance : Respects (Drifts K) clearOperands := by
  refine drifts_onOperands (fun _ => inferInstance) fun s μ => ?_
  have cleared := drifts_exchange (K := K) s.length (fun v hv => absurd hv List.not_mem_nil) s μ
  unfold Sequence.clear unfailing
  cases hs : s.exchange s.length [] μ with
  | done s' μ' => rw [hs] at cleared; exact cleared
  | raised e μ' => trivial
  | broken b => trivial

theorem drifts_openScope {v : Value} (hv : K v.datum) : Respects (Drifts K) (openScope v) := by
  unfold openScope
  split
  · exact drifts_onScopes (fun s => inferInstanceAs (Respects Sheds (s.exchange 0 [v])))
      (drifts_exchange 0 (List.forall_mem_singleton.2 hv))
  · infer_instance

instance : Respects (Drifts K) closeScope := by
  have : Respects (Drifts K) (onScopes fun s => s.pop 1) :=
    drifts_onScopes (fun s => inferInstanceAs (Respects Sheds (s.exchange 1 [])))
      (drifts_exchange 1 fun v hv => absurd hv List.not_mem_nil)
  unfold closeScope
  infer_instance

/-! ### Call frames -/

instance (p : PendingException) : Respects Sheds p.discharge :=
  inferInstanceAs (Respects Sheds (onLedger _))

instance (e : Exception) : Respects Sheds (PendingException.record e) :=
  Respects.bind inferInstance fun r => by cases r <;> infer_instance

instance (f : Frame) : Respects Sheds f.dispose := by
  unfold Frame.dispose
  cases f.locals <;> cases f.stash <;> infer_instance

theorem drifts_onCalls {f : CallStack → Action Memory CallStack} (hf : ∀ c, Respects Sheds (f c))
    (hframes : ∀ c μ, (f c μ).Meets True
      (fun c' _ => ∀ g ∈ c'.frames, g ∈ c.frames ∨ K g.value.datum ∧ g.locals = none)
      fun _ => True) : Respects (Drifts K) (onCalls f) where
  respects m := meets_onCalls ((((hf m.calls).respects m.memory).and
    (hframes m.calls m.memory)).mono (fun c _ ⟨hμ, hc⟩ => by
      refine ⟨fun h => { h.sheds hμ with
        calls := fun g hg => (hc g hg).elim (h.calls g) fun h => h.1 }, hμ, fun i hi => ?_⟩
      obtain ⟨g, hg, hl⟩ := List.mem_filterMap.1 hi
      refine List.mem_filterMap.2 ⟨g, (hc g hg).resolve_right fun ⟨_, hnone⟩ => ?_, hl⟩
      rw [hnone] at hl
      cases hl) fun μ hμ => ⟨fun h => h.sheds hμ.1, hμ.1, List.Subset.refl _⟩)

theorem drifts_push {f : Frame} (hf : K f.value.datum) (hl : f.locals = none) :
    Respects (Drifts K) (onCalls fun c => c.push f) := by
  refine drifts_onCalls (fun c => by unfold CallStack.push; infer_instance) fun c μ => ?_
  refine meets_bind (Outcome.meets_any _) fun r μ _ g hg => ?_
  rcases List.mem_cons.1 hg with rfl | hg
  · exact .inr ⟨hf, hl⟩
  · exact .inl hg

theorem drifts_call {v : Value} (hv : K v.datum) : Respects (Drifts K) (call v) :=
  drifts_push (f := { value := v }) hv rfl

instance : Respects (Drifts K) popFrame := by
  refine drifts_onCalls (fun c => by unfold CallStack.pop; split <;> infer_instance) fun c μ => ?_
  unfold CallStack.pop
  cases c.frames with
  | nil => trivial
  | cons f rest =>
    exact meets_bind (Outcome.meets_any _) fun _ _ _ => meets_bind (Outcome.meets_any _)
      fun _ _ _ g hg => .inl (List.mem_cons_of_mem f hg)

theorem drifts_replaceFrame {v : Value} (hv : K v.datum) :
    Respects (Drifts K) (replaceFrame v) := by
  refine drifts_onCalls (fun c => by unfold CallStack.replaceTop; split <;> infer_instance)
    fun c μ => ?_
  unfold CallStack.replaceTop
  cases c.frames with
  | nil => trivial
  | cons f rest =>
    refine meets_bind (Outcome.meets_any _) fun _ _ _ => meets_bind (Outcome.meets_any _)
      fun _ _ _ g hg => ?_
    rcases List.mem_cons.1 hg with rfl | hg
    · exact .inr ⟨hv, rfl⟩
    · exact .inl (List.mem_cons_of_mem f hg)

/-- A change of a frame that leaves what it executes, and its locals. -/
theorem drifts_updateFrame (index : ℕ) {g : Frame → Frame} (hvalue : ∀ f, (g f).value = f.value)
    (hlocals : ∀ f, (g f).locals = f.locals) : Respects (Drifts K) (updateFrame index g) := by
  refine Respects.bind inferInstance fun m => Respects.bind inferInstance fun _ =>
    respects_modify fun m => ⟨fun h => { h with calls := fun f hf => ?_ }, .refl _, fun i hi => ?_⟩
  · rcases CallStack.mem_update hf with old | ⟨f₀, at_index, rfl⟩
    · exact h.calls f old
    · exact hvalue f₀ ▸ h.calls f₀ (CallStack.mem_frames_of_frame? at_index)
  · obtain ⟨f, hf, hl⟩ := List.mem_filterMap.1 hi
    rcases CallStack.mem_update hf with old | ⟨f₀, at_index, rfl⟩
    · exact List.mem_filterMap.2 ⟨f, old, hl⟩
    · exact List.mem_filterMap.2
        ⟨f₀, CallStack.mem_frames_of_frame? at_index, hlocals f₀ ▸ hl⟩

instance (index : ℕ) (next : Continuation) : Respects (Drifts K) (setState index next) := by
  have := drifts_updateFrame (K := K) index (g := fun f => { f with state := next })
    (fun _ => rfl) fun _ => rfl
  unfold setState
  infer_instance

/-! ### The pending exception -/

/-- Neither places nor the heap have to do with the pending exception. -/
theorem drifts_modify {g : Machine → Machine} (hmemory : ∀ m, (g m).memory = m.memory)
    (hoperands : ∀ m, (g m).operands = m.operands) (hcalls : ∀ m, (g m).calls = m.calls)
    (hscopes : ∀ m, (g m).scopes = m.scopes) :
    Respects (Drifts K) (modify g : Action Machine PUnit) :=
  respects_modify fun m => by
    refine ⟨fun h => ⟨?_, ?_, ?_, ?_⟩, hmemory m ▸ .refl _, ?_⟩
    · exact hoperands m ▸ h.operands
    · exact hcalls m ▸ h.calls
    · exact hscopes m ▸ h.scopes
    · exact hmemory m ▸ h.slots
    · rw [localDictionaries, hcalls]
      exact List.Subset.refl _

instance (p : Option PendingException) : Respects (Drifts K) (discharge p) := by
  cases p with
  | none => exact inferInstanceAs (Respects _ (pure ()))
  | some p => exact inferInstanceAs (Respects _ (onMemory p.discharge))

instance (p : Option PendingException) :
    Respects (Drifts K) (modify fun m => { m with pending := p } : Action Machine PUnit) :=
  drifts_modify (fun _ => rfl) (fun _ => rfl) (fun _ => rfl) fun _ => rfl

instance (e : Exception) : Respects (Drifts K) (raise e) := by
  have (p : PendingException) : Respects (Drifts K)
      (modify fun m => { m with pending := some p, blockDepth := 0 } : Action Machine PUnit) :=
    drifts_modify (fun _ => rfl) (fun _ => rfl) (fun _ => rfl) fun _ => rfl
  unfold raise
  infer_instance

instance : Respects (Drifts K) intercept := by
  unfold intercept
  infer_instance

instance (index : ℕ) : Respects (Drifts K) (stash index) := by
  have update (p : Option PendingException) : Respects (Drifts K)
      (updateFrame index fun f => { f with stash := p }) :=
    drifts_updateFrame index (fun _ => rfl) fun _ => rfl
  refine Respects.bind inferInstance fun m => ?_
  split
  · infer_instance
  · cases m.pending <;> infer_instance

instance (index : ℕ) : Respects (Drifts K) (restore index) := by
  have update : Respects (Drifts K) (updateFrame index fun f => { f with stash := none }) :=
    drifts_updateFrame index (fun _ => rfl) fun _ => rfl
  refine Respects.bind inferInstance fun m => Respects.bind inferInstance fun f => ?_
  cases f.stash <;> infer_instance

instance : Respects (Drifts K) openBlock :=
  drifts_modify (fun _ => rfl) (fun _ => rfl) (fun _ => rfl) fun _ => rfl

instance : Respects (Drifts K) closeBlock :=
  drifts_modify (fun _ => rfl) (fun _ => rfl) (fun _ => rfl) fun _ => rfl

/-! ### Moves -/

/-- The datum refers to no container, or it is that of a value in a place, or of one that is held. -/
def Carries (m : Machine) (held : List Value) (d : Datum) : Prop :=
  d.handle?.isSome → ∃ w ∈ m.places ++ held, w.datum = d

theorem carries_of_handle?_none {v : Value} (hv : v.handle? = none) : m.Carries held v.datum := by
  intro h
  rw [v.handle?_datum, hv] at h
  cases h

theorem carries_of_place {v : Value} (hv : v ∈ m.places) : m.Carries held v.datum := fun _ =>
  ⟨v, List.mem_append_left _ hv, rfl⟩

theorem carries_of_held {v : Value} (hv : v ∈ held) : m.Carries held v.datum := fun _ =>
  ⟨v, List.mem_append_right _ hv, rfl⟩

theorem knows_of_carries {v : Value} (h : m.Carries held v.datum) : m.Knows (.refs held) v := by
  intro i hi
  obtain ⟨w, hw, hd⟩ := h (by rw [v.handle?_datum, hi]; rfl)
  refine ⟨w, ?_, by rw [← w.handle?_datum, hd, v.handle?_datum, hi], by
    rw [Value.kind, hd, ← Value.kind]⟩
  rw [add_right_comm, Stake.values_add, m.values_eq_places, Stake.values_refs, Multiset.coe_add]
  exact hw

theorem within_carries (m : Machine) (held : List Value) : m.Within (m.Carries held) :=
  within_iff.2 fun _ => carries_of_place

/-- What a move of someone who holds `held` may make of a machine, and what it may have created. -/
structure Moves (held created : List Value) (m m' : Machine) : Prop where
  within : m'.Within (m.Carries held)
  contents : ∀ i, m.memory.heap.content? i = none ∨ m'.memory.heap.content? i = none ∨
    m'.memory.heap.content? i = m.memory.heap.content? i ∨ i ∈ m.localDictionaries ∨
      ∃ w ∈ m.places ++ held, w.handle? = some i ∧ w.isReadOnly = false
  /-- A container that is there before and after is of the kind it was, and charged as it was. -/
  labels : ∀ i o o', m.memory.heap.object? i = some o → m'.memory.heap.object? i = some o' →
    o'.label = o.label
  locals : ∀ i ∈ m'.localDictionaries, i ∈ m.localDictionaries ∨ m.memory.heap.cell? i = none
  single : ∀ v ∈ created, ∀ w ∈ created, v = w
  unused : ∀ v ∈ created, ∀ i, v.handle? = some i → m.memory.heap.cell? i = none

theorem Drifts.moves (h : m.Drifts (m.Carries held) m') : m.Moves held [] m' where
  within := h.within (m.within_carries held)
  contents i := .inr ((h.sheds i).imp_right .inl)
  labels i o o' ho ho' := by
    rw [Option.some.inj (ho.symm.trans (h.sheds.object?_eq ho'))]
  locals i hi := .inl (h.locals hi)
  single _ hv := by cases hv
  unused v hv := by cases hv

theorem moves_of_respects {α : Type} {x : Action Machine α} (hx : Respects (Drifts (m.Carries held)) x) :
    (x m).Meets True (fun _ m' => m.Moves held [] m') (m.Moves held []) :=
  (hx.respects m).mono (fun _ _ h => h.moves) fun _ h => h.moves

/-- Something has been stored in a container that may be written to. -/
theorem moves_of_rewrites {i : Handle} {v : Value} {μ : Memory}
    (h : m.memory.heap.Rewrites i v μ.heap) (hv : m.Carries held v.datum)
    (hi : ∃ w ∈ m.places ++ held, w.handle? = some i ∧ w.isReadOnly = false) :
    m.Moves held [] { m with memory := μ } where
  within := { m.within_carries held with
    slots := fun j o ho w hw => by
      by_cases hj : j = i
      · subst hj
        obtain ⟨o₀, ho₀, hsub, -⟩ := h.object o ho
        rcases List.mem_cons.1 (hsub hw) with rfl | hw
        · exact hv
        · exact carries_of_place (mem_places_of_slot ho₀ hw)
      · refine carries_of_place (mem_places_of_slot (i := j) ?_ hw)
        rw [Heap.object?_eq_join] at ho ⊢
        rcases h.others j hj with gone | kept
        · rw [gone] at ho
          cases ho
        · rwa [← kept] }
  contents j := by
    by_cases hj : j = i
    · exact .inr (.inr (.inr (.inr (hj ▸ hi))))
    · exact .inr ((h.others j hj).imp_right .inl)
  labels j o o' ho ho' := by
    obtain ⟨o₀, ho₀, hlabel⟩ := h.exists_label_eq ho'
    rw [hlabel, Option.some.inj (ho₀.symm.trans ho)]
  locals _ hj := .inl hj
  single _ hv := by cases hv
  unused _ hw := by cases hw

/-- A container has been created. -/
theorem moves_of_stores {i : Handle} {o : Object} {v : Value} {μ : Memory}
    (h : m.memory.heap.Stores i o μ.heap) (ho : ∀ w ∈ o.values, m.Carries held w.datum)
    (hv : v.handle? = some i) : m.Moves held [v] { m with memory := μ } where
  within := { m.within_carries held with
    slots := fun j o' ho' w hw => by
      rw [Heap.object?_eq_join, h.content] at ho'
      split at ho'
      · obtain rfl := Option.some.inj ho'
        exact ho w hw
      · exact carries_of_place (mem_places_of_slot ((Heap.object?_eq_join ..).trans ho') hw) }
  contents j := by
    by_cases hj : j = i
    · exact .inl (Heap.content?_eq_none_iff.2 (hj ▸ h.unused))
    · exact .inr (.inr (.inl ((h.content j).trans (if_neg hj))))
  labels j o' o'' ho' ho'' := by
    rw [Heap.object?_eq_join, h.content] at ho''
    split at ho''
    · rename_i hj
      rw [hj, Heap.object?, h.unused] at ho'
      cases ho'
    · rw [Option.some.inj (ho'.symm.trans ((Heap.object?_eq_join ..).trans ho''))]
  locals _ hj := .inl hj
  single _ hv _ hw := (List.mem_singleton.1 hv).trans (List.mem_singleton.1 hw).symm
  unused w hw j hj := by
    obtain rfl := List.mem_singleton.1 hw
    obtain rfl : i = j := Option.some.inj (hv.symm.trans hj)
    exact h.unused

/-! ### The locals of a frame -/

/-- The dictionary `i` holds the locals of a frame: it did before, or it is new. -/
structure Lodges (m : Machine) (i : Handle) (m' : Machine) : Prop where
  within : ∀ held, m'.Within (m.Carries held)
  content : ∀ j, j ≠ i → m'.memory.heap.content? j = m.memory.heap.content? j
  labels : ∀ j o o', m.memory.heap.object? j = some o → m'.memory.heap.object? j = some o' →
    o'.label = o.label
  own : i ∈ m.localDictionaries ∨ m.memory.heap.cell? i = none
  locals : ∀ j ∈ m'.localDictionaries, j ∈ m.localDictionaries ∨ m.memory.heap.cell? j = none

theorem ensureLocals_lodges (hw : m.memory.heap.WellFormed) (index : ℕ) :
    (ensureLocals index m).Meets True (fun i m' => m.Lodges i m') (m.Moves held []) := by
  unfold ensureLocals
  rw [Action.get_bind]
  refine meets_frame fun f hf => ?_
  have mem := CallStack.mem_frames_of_frame? hf
  cases hl : f.locals with
  | some i => exact ⟨m.within_carries, fun _ _ => rfl,
      fun _ _ _ ho ho' => congrArg Object.label (Option.some.inj (ho'.symm.trans ho)),
      .inl (List.mem_filterMap.2 ⟨f, mem, hl⟩), fun _ => .inl⟩
  | none =>
    refine meets_onMemory_bind ((newDictionary_stores hw .system _).mono ?_ fun μ hμ =>
      Drifts.moves ⟨fun h => h.sheds hμ, hμ, List.Subset.refl _⟩)
    rintro i μ stored
    refine meets_bind (updateFrame_frames index _ _) ?_
    rintro _ _ ⟨rfl, -⟩
    have moved (held : List Value) : m.Moves held [.dictionary i true] { m with memory := μ } :=
      moves_of_stores stored (fun w hw => nomatch hw) rfl
    refine ⟨fun held => { (moved held).within with calls := fun g hg => ?_ }, fun j hj =>
      (stored.content j).trans (if_neg hj), (moved []).labels, .inr stored.unused, fun j hj => ?_⟩
    · rcases CallStack.mem_update hg with old | ⟨g₀, at_index, rfl⟩
      · exact carries_of_place (mem_places_of_frame old)
      · exact carries_of_place
          (mem_places_of_frame (f := g₀) (CallStack.mem_frames_of_frame? at_index))
    · obtain ⟨g, hg, hgl⟩ := List.mem_filterMap.1 hj
      rcases CallStack.mem_update hg with old | ⟨g₀, at_index, rfl⟩
      · exact .inl (List.mem_filterMap.2 ⟨g, old, hgl⟩)
      · obtain rfl : i = j := Option.some.inj hgl
        exact .inr stored.unused

theorem setLocal_moves (hw : m.memory.heap.WellFormed) (index : ℕ) (name : String) {v : Value}
    (hv : m.Carries held v.datum) :
    (setLocal index name v m).Meets True (fun _ m' => m.Moves held [] m') (m.Moves held []) := by
  refine meets_bind (ensureLocals_lodges hw index) fun i m₁ lodged => ?_
  have stored (μ : Memory) (h : m₁.memory.heap.Rewrites i v μ.heap) :
      m.Moves held [] { m₁ with memory := μ } := by
    have kept (j : Handle) (hj : j ≠ i) : μ.heap.content? j = none ∨
        μ.heap.content? j = m.memory.heap.content? j :=
      (h.others j hj).imp_right fun hj' => hj'.trans (lodged.content j hj)
    refine ⟨{ lodged.within held with slots := fun j o ho w hw => ?_ }, fun j => ?_,
      fun j o o' ho ho' => ?_, lodged.locals, (fun _ hw => by cases hw), fun _ hw => by cases hw⟩
    · by_cases hj : j = i
      · obtain ⟨o₀, ho₀, hsub, -⟩ := h.object o (hj ▸ ho)
        rcases List.mem_cons.1 (hsub hw) with rfl | hw
        · exact hv
        · exact (lodged.within held).slots i o₀ ho₀ w hw
      · refine carries_of_place (mem_places_of_slot (i := j) (o := o) ?_ hw)
        change μ.heap.object? j = some o at ho
        rw [Heap.object?_eq_join] at ho ⊢
        rcases kept j hj with gone | same
        · rw [gone] at ho
          cases ho
        · rwa [← same]
    · by_cases hj : j = i
      · rcases hj ▸ lodged.own with own | unused
        · exact .inr (.inr (.inr (.inl own)))
        · exact .inl (Heap.content?_eq_none_iff.2 unused)
      · exact .inr ((kept j hj).imp_right .inl)
    · obtain ⟨o₀, ho₀, hlabel⟩ := h.exists_label_eq ho'
      exact hlabel.trans (lodged.labels j o o₀ ho ho₀)
  exact meets_onMemory ((define_rewrites i name v m₁.memory).mono (fun _ μ => stored μ) stored)

end Machine

/-! ### Requests -/

namespace Request

variable {m : Machine} {held : List Value}

/-- **A request** is a move of the one who makes it, if all it passes on is carried by the machine or
held. -/
theorem perform_moves (own : Option ℕ) (r : Request) (hw : m.memory.heap.WellFormed)
    (hgives : r.surrendered ⊆ held) (hpasses : ∀ v ∈ r.passed, m.Carries held v.datum) :
    (r.perform own m).Meets True (fun a m' => m.Moves held (r.handedOut a) m') (m.Moves held []) := by
  have created {i : Handle} {o : Object} {v : Value} {values : List Value} {μ : Memory}
      (h : m.memory.heap.Stores i o μ.heap) (ho : o.values ⊆ values)
      (hvalues : ∀ w ∈ values, m.Carries held w.datum) (hv : v.handle? = some i) :
      m.Moves held [v] { m with memory := μ } :=
    Machine.moves_of_stores h (fun w hw => hvalues w (ho hw)) hv
  have writable {container : Value} {i : Handle} (hc : m.Carries held container.datum)
      (hi : container.handle? = some i) (hr : container.isReadOnly = false) :
      ∃ w ∈ m.places ++ held, w.handle? = some i ∧ w.isReadOnly = false := by
    obtain ⟨w, hw, hd⟩ := hc (by rw [container.handle?_datum, hi]; rfl)
    exact ⟨w, hw, by rw [← w.handle?_datum, hd, container.handle?_datum, hi], by
      rw [Value.isReadOnly, hd]; exact hr⟩
  have creating {f : List String → Action Memory Handle} {v : Handle → Value}
      {P : Handle → Memory → Prop}
      (hf : ∀ trail, (f trail m.memory).Meets True P (Memory.Sheds m.memory))
      (hP : ∀ i μ, P i μ → m.Moves held [v i] { m with memory := μ }) :
      (((get : Action Machine Machine) >>= fun m₁ => liftM m₁.allocationTrail >>= fun trail =>
        Machine.onMemory (f trail) >>= fun i => pure (v i)) m).Meets True
        (fun a m' => m.Moves held [a] m') (m.Moves held []) := by
    rw [Action.get_bind]
    cases m.allocationTrail with
    | error b => trivial
    | ok trail =>
      exact Machine.meets_onMemory_bind ((hf trail).mono hP fun μ hμ =>
        Machine.Drifts.moves ⟨fun within => within.sheds hμ, hμ, List.Subset.refl _⟩)
  cases r with
  | observe => exact Machine.Drifts.moves (refl_of _ m)
  | exchange drop values => exact Machine.moves_of_respects (Machine.drifts_exchangeOperands drop hpasses)
  | adopt drop v =>
    exact Machine.moves_of_respects (Machine.drifts_adopt drop
      (Machine.carries_of_held (hgives (List.mem_singleton_self v))))
  | release v =>
    exact Machine.moves_of_respects (x := Machine.release v) inferInstance
  | clearOperands => exact Machine.moves_of_respects (x := Machine.clearOperands) inferInstance
  | createArray access items =>
    exact creating (newArray_stores hw .user items) fun i μ ⟨s, hs, h⟩ =>
      created h (s.items_subset hs) hpasses rfl
  | createFilledArray access length v =>
    exact creating (newFilledArray_stores hw .user length v)
      fun i μ ⟨s, hs, h⟩ => created h hs hpasses rfl
  | createDictionary =>
    exact creating (newDictionary_stores hw .user) fun i μ h =>
      created h (List.Subset.refl []) (by simp) rfl
  | setItem container index v =>
    obtain ⟨hc, hv⟩ := List.forall_mem_cons.1 hpasses
    have refused (c : Cause) : (Action.fail c m : Outcome Machine Unit).Meets True
        (fun _ m' => m.Moves held [] m') (m.Moves held []) := Machine.Drifts.moves (refl_of _ m)
    change (Machine.setItem container index v m).Meets True (fun _ m' => m.Moves held [] m') _
    unfold Machine.setItem
    cases hd : container.datum with
    | array i access =>
      cases access with
      | block | literal => exact refused _
      | mutable =>
        have moved (μ : Memory) (h : m.memory.heap.Rewrites i v μ.heap) :=
          Machine.moves_of_rewrites h (hv v (List.mem_singleton_self v))
            (writable hc (by rw [Value.handle?, hd]) (by rw [Value.isReadOnly, hd]; rfl))
        exact Machine.meets_onMemory
          ((setItem_rewrites i index v m.memory).mono (fun _ => moved) moved)
    | _ => exact refused _
  | define container name v =>
    obtain ⟨hc, hv⟩ := List.forall_mem_cons.1 hpasses
    have refused (c : Cause) : (Action.fail c m : Outcome Machine Unit).Meets True
        (fun _ m' => m.Moves held [] m') (m.Moves held []) := Machine.Drifts.moves (refl_of _ m)
    change (Machine.define container name v m).Meets True (fun _ m' => m.Moves held [] m') _
    unfold Machine.define
    cases hd : container.datum with
    | dictionary i writes =>
      cases writes with
      | false => exact refused _
      | true =>
        have moved (μ : Memory) (h : m.memory.heap.Rewrites i v μ.heap) :=
          Machine.moves_of_rewrites h (hv v (List.mem_singleton_self v))
            (writable hc (by rw [Value.handle?, hd]) (by rw [Value.isReadOnly, hd]; rfl))
        exact Machine.meets_onMemory
          ((define_rewrites i name v m.memory).mono (fun _ => moved) moved)
    | _ => exact refused _
  | openScope v =>
    exact Machine.moves_of_respects (Machine.drifts_openScope (hpasses v (List.mem_singleton_self v)))
  | closeScope => exact Machine.moves_of_respects (x := Machine.closeScope) inferInstance
  | call v =>
    exact Machine.moves_of_respects (Machine.drifts_call (hpasses v (List.mem_singleton_self v)))
  | setState next =>
    cases own with
    | none => exact Machine.Drifts.moves (refl_of _ m)
    | some i => exact Machine.moves_of_respects (x := Machine.setState i next) inferInstance
  | setLocal name v =>
    cases own with
    | none => exact Machine.Drifts.moves (refl_of _ m)
    | some i => exact Machine.setLocal_moves hw i name (hpasses v (List.mem_singleton_self v))
  | openBlock => exact Machine.moves_of_respects (x := Machine.openBlock) inferInstance
  | closeBlock => exact Machine.moves_of_respects (x := Machine.closeBlock) inferInstance
  | intercept => exact Machine.moves_of_respects (x := Machine.intercept) inferInstance
  | stash =>
    cases own with
    | none => exact Machine.Drifts.moves (refl_of _ m)
    | some i => exact Machine.moves_of_respects (x := Machine.stash i) inferInstance
  | restore =>
    cases own with
    | none => exact Machine.Drifts.moves (refl_of _ m)
    | some i => exact Machine.moves_of_respects (x := Machine.restore i) inferInstance

end Request

end StackScript
