import StackScript.Proofs.Machine.Isolation
import StackScript.Proofs.Operator.Reading
import StackScript.Proofs.Ordinary

/-!
# What requests change

Most requests only work on values: they leave the pending exception and the frames there are alone,
queue a frame perhaps, and never close a permanent scope (`Request.perform_queues`).  Five requests
govern the operator's own frame and the pending exception.

Whatever an operator does, no exception becomes pending but those that are pending or set aside
already (`Operation.runOn_civil`), and the frame it is invoked in stays where it is, above the same
frames and below those it has queued (`Operation.runOn_above`).
-/

namespace StackScript

/-- What every request keeps is kept by every program. -/
theorem Program.run_keeps {R σ α : Type} {Answer : R → Type}
    {perform : (r : R) → Action σ (Answer r)} {I : σ → Prop}
    (hperform : ∀ r s, I s → (perform r s).Meets True (fun _ t => I t) I)
    (p : Program Answer α) {s : σ} (h : I s) :
    (p.run perform s).Meets True (fun _ t => I t) I := by
  induction p generalizing s with
  | done a => exact h
  | raise e => exact h
  | broken b => exact trivial
  | ask r next failed ihn ihf =>
    exact Program.meets_ask (hperform r s h) (fun a _ => ihn a) fun e _ => ihf e

/-- Frames that have just been queued. -/
def Frame.queued (vs : List Value) : List Frame := vs.map fun v => { value := v }

@[simp] theorem Frame.mem_queued {vs : List Value} {f : Frame} :
    f ∈ queued vs ↔ ∃ v ∈ vs, { value := v } = f := List.mem_map

namespace CallStack

variable {δ : Type} {c c' : CallStack} {own : Option ℕ} {f : Frame} {rest : List Frame} {i : ℕ}
  {v : Value}

/-- A change that leaves a part of every frame alone. -/
theorem map_update (π : Frame → δ) {g : Frame → Frame} (hg : ∀ f, π (g f) = π f) (i : ℕ) :
    (c.update i g).frames.map π = c.frames.map π := by
  unfold update
  split
  · refine List.ext_getElem? fun k => ?_
    simp only [List.getElem?_map, List.getElem?_modify]
    split <;> cases c.frames[k]? <;> simp [hg]
  · rfl

/-- A frame after a change of one of them. -/
theorem mem_update {g : Frame → Frame} (hf : f ∈ (c.update i g).frames) :
    f ∈ c.frames ∨ ∃ f', c.frame? i = some f' ∧ f = g f' := by
  by_cases hi : i < c.length
  · rw [← List.mem_reverse, frames_update hi] at hf
    obtain ⟨k, hk⟩ := List.mem_iff_getElem?.1 hf
    rw [List.getElem?_modify] at hk
    cases hget : c.frames.reverse[k]? with
    | none => simp [hget] at hk
    | some f' =>
      rw [hget] at hk
      by_cases hik : i = k
      · subst hik
        refine .inr ⟨f', by rw [frame?_eq_getElem?, hget], ?_⟩
        simpa using hk.symm
      · obtain rfl : f' = f := by simpa [hik] using hk
        exact .inl (List.mem_reverse.1 (List.mem_of_getElem? hget))
  · rw [update, if_neg hi] at hf
    exact .inl hf

/-- A frame that executes `v` is right above the frames `rest`, and below frames that have just been
queued. -/
def Above (c : CallStack) (v : Value) (rest : List Frame) : Prop :=
  ∃ vs f, c.frames = Frame.queued vs ++ f :: rest ∧ f.value = v

theorem above_of_frames (h : c.frames = f :: rest) : c.Above f.value rest := ⟨[], f, h, rfl⟩

theorem Above.queued (h : c.Above v rest) {w : Value} (hc' : c'.frames = { value := w } :: c.frames) :
    c'.Above v rest := by
  obtain ⟨vs, f, hf, hv⟩ := h
  exact ⟨w :: vs, f, by rw [hc', hf]; rfl, hv⟩

/-- The frame right above `rest` has as many frames below it. -/
theorem frame?_above {above : List Frame} (h : c.frames = above ++ f :: rest) :
    c.frame? rest.length = some f := by
  rw [frame?_eq_getElem?, h, List.reverse_append, List.reverse_cons, List.append_assoc,
    List.getElem?_append_right (by simp)]
  simp

theorem frame?_head (h : c.frames = f :: rest) : c.frame? rest.length = some f :=
  frame?_above (show c.frames = [] ++ f :: rest from h)

theorem frames_update_above {above : List Frame} (g : Frame → Frame)
    (h : c.frames = above ++ f :: rest) :
    (c.update rest.length g).frames = above ++ g f :: rest := by
  have hi : rest.length < c.length := by
    simp only [length, h, List.length_append, List.length_cons]
    omega
  rw [← List.reverse_inj, frames_update hi,
    List.modify_eq_take_cons_drop (by simpa [length] using hi)]
  simp [h, List.drop_append]

theorem frames_update_head (g : Frame → Frame) (h : c.frames = f :: rest) :
    (c.update rest.length g).frames = g f :: rest :=
  frames_update_above g (show c.frames = [] ++ f :: rest from h)

theorem Edited.above (h : c.Edited (some rest.length) c') (hc : c.Above v rest) :
    c'.Above v rest := by
  cases h with
  | kept => exact hc
  | queued w h => exact hc.queued h
  | revised g howner hf hvalue _ _ _ =>
    obtain rfl := Option.some.inj howner
    obtain ⟨vs, f', hframes, hv⟩ := hc
    rw [frame?_above hframes] at hf
    obtain rfl := Option.some.inj hf
    exact ⟨vs, g f', frames_update_above g hframes, hvalue.trans hv⟩

end CallStack

/-- The frame an operator is invoked in stays where it is, and so do the frames below. -/
theorem Operation.runOn_above {α : Type} {rest : List Frame} {v : Value} {m : Machine}
    (p : Operation α) (h : m.calls.Above v rest) :
    (p.runOn (some rest.length) m).Meets True (fun _ m' => m'.calls.Above v rest) fun m' =>
      m'.calls.Above v rest :=
  p.run_keeps (fun r m h => (r.perform_edits (some rest.length) m).mono
    (fun _ _ he => he.above h) fun _ he => he.above h) h

namespace Machine

variable {m m' m'' : Machine} {i : ℕ} {c : Continuation} {own : Option ℕ}

/-! ### Requests that queue -/

/-- Nothing has happened to the pending exception, to the frames that were there, nor to the
permanent scopes; frames may have been queued. -/
structure Queues (m m' : Machine) : Prop where
  pending : m'.pending = m.pending
  frames : ∃ vs, m'.calls.frames = Frame.queued vs ++ m.calls.frames
  scopes : permanentScopes ≤ m.scopes.length → permanentScopes ≤ m'.scopes.length

theorem Queues.refl (m : Machine) : m.Queues m := ⟨rfl, ⟨[], rfl⟩, id⟩

theorem Queues.trans (h : m.Queues m') (h' : m'.Queues m'') : m.Queues m'' := by
  obtain ⟨vs, hvs⟩ := h.frames
  obtain ⟨ws, hws⟩ := h'.frames
  refine ⟨h'.pending.trans h.pending, ⟨ws ++ vs, ?_⟩, h'.scopes ∘ h.scopes⟩
  rw [hws, hvs, Frame.queued, Frame.queued, Frame.queued, List.map_append, List.append_assoc]

/-- What a request that only works on values leaves alone. -/
def course (m : Machine) : Option PendingException × CallStack × Sequence :=
  (m.pending, m.calls, m.scopes)

theorem Queues.of_course (h : m'.course = m.course) : m.Queues m' := by
  injection h with hpending h
  injection h with hcalls hscopes
  exact ⟨hpending, ⟨[], by rw [hcalls]; rfl⟩, by rw [hscopes]; exact id⟩

theorem Spares.queues {α : Type} {x : Action Machine α} (hx : Spares course x) :
    (x m).Meets True (fun _ m' => m.Queues m') fun m' => m.Queues m' :=
  (hx m).mono (fun _ _ => .of_course) fun _ => .of_course

theorem call_queues (v : Value) :
    (call v m).Meets True (fun _ m' => m.Queues m') fun m' => m.Queues m' := by
  have rest : Spares (fun m => (m.pending, m.scopes)) (call v) :=
    spares_onCalls (fun _ _ _ => rfl) fun c => c.push { value := v }
  refine ((pushFrame_frames { value := v } m).and (rest m)).mono ?_ ?_
  · rintro _ m' ⟨hframes, h⟩
    injection h with hpending hscopes
    exact ⟨hpending, ⟨[v], hframes⟩, by rw [hscopes]; exact id⟩
  · rintro m' ⟨hcalls, h⟩
    injection h with hpending hscopes
    exact ⟨hpending, ⟨[], by rw [hcalls]; rfl⟩, by rw [hscopes]; exact id⟩

/-- A change of the scopes that leaves enough of them. -/
theorem onScopes_queues {f : Sequence → Action Memory Sequence}
    (hf : permanentScopes ≤ m.scopes.length → (f m.scopes m.memory).Meets True
      (fun s _ => permanentScopes ≤ s.length) fun _ => True) :
    (onScopes f m).Meets True (fun _ m' => m.Queues m') fun m' => m.Queues m' := by
  by_cases hm : permanentScopes ≤ m.scopes.length
  · exact meets_onScopes ((hf hm).mono (fun s μ hs => ⟨rfl, ⟨[], rfl⟩, fun _ => hs⟩)
      fun μ _ => ⟨rfl, ⟨[], rfl⟩, id⟩)
  · have rest : Spares (fun m => (m.pending, m.calls)) (onScopes f) :=
      spares_onScopes (fun _ _ _ => rfl) f
    refine (rest m).mono (fun _ m' h => ?_) fun m' h => ?_ <;>
    · injection h with hpending hcalls
      exact ⟨hpending, ⟨[], by rw [hcalls]; rfl⟩, (absurd · hm)⟩

theorem exchange_length (s : Sequence) (drop : ℕ) (values : List Value) (μ : Memory) :
    (s.exchange drop values μ).Meets True
      (fun s' _ => s'.length = values.length + (s.length - drop)) fun _ => True := by
  have exchanged : ((do
      let reserve ← s.reserve.exchange s.length (s.items.take drop).reverse values
      return { reserve := reserve, items := values.reverse ++ s.items.drop drop } :
      Action Memory Sequence) μ).Meets True
      (fun s' _ => s'.length = values.length + (s.length - drop)) fun _ => True := by
    refine Action.meets_bind (P := fun _ _ => True) ?_ fun r _ _ => by simp [Sequence.length]
    cases s.reserve.exchange s.length (s.items.take drop).reverse values μ <;> trivial
  unfold Sequence.exchange
  split
  · trivial
  · exact exchanged

theorem openScope_queues (v : Value) :
    (openScope v m).Meets True (fun _ m' => m.Queues m') fun m' => m.Queues m' := by
  unfold openScope
  split
  · exact onScopes_queues fun hm => (exchange_length m.scopes 0 [v] m.memory).mono
      (fun s _ hs => by rw [hs]; simp; omega) fun _ => id
  · exact .refl m

/-- The permanent scopes stay. -/
theorem closeScope_queues :
    (closeScope m).Meets True (fun _ m' => m.Queues m') fun m' => m.Queues m' := by
  rw [closeScope, Action.get_bind]
  split
  · exact .refl m
  · rename_i hmany
    exact onScopes_queues fun _ => (exchange_length m.scopes 1 [] m.memory).mono
      (fun s _ hs => by rw [hs]; simp; omega) fun _ => id

end Machine

namespace Request

variable {m : Machine} {own : Option ℕ}

/-- The request is about the operator's own frame, or takes the pending exception away. -/
def governs : Request → Bool
  | .setState _ | .setLocal .. | .intercept | .stash | .restore => true
  | _ => false

/-- **A request that only works on values.** -/
theorem perform_queues {r : Request} (hr : r.governs = false) (own : Option ℕ) (m : Machine) :
    (r.perform own m).Meets True (fun _ m' => m.Queues m') fun m' => m.Queues m' := by
  cases r with
  | setState | setLocal | intercept | stash | restore => cases hr
  | observe => exact .refl m
  | openBlock | closeBlock => exact .of_course rfl
  | exchange drop values =>
    exact (Machine.spares_exchangeOperands (fun _ _ _ => rfl) drop values).queues
  | adopt drop created =>
    exact ((Machine.spares_exchangeOperands (fun _ _ _ => rfl) drop _).ensuring
      (Machine.spares_onMemory (fun _ _ => rfl) _)).queues
  | release created => exact (Machine.spares_onMemory (fun _ _ => rfl) _).queues
  | clearOperands => exact (Machine.spares_onOperands (fun _ _ _ => rfl) _).queues
  | createArray access items =>
    exact (Machine.spares_createArray (fun _ _ => rfl) access items).queues
  | createFilledArray access length v =>
    exact (Machine.spares_createFilledArray (fun _ _ => rfl) access length v).queues
  | createDictionary => exact (Machine.spares_createDictionary fun _ _ => rfl).queues
  | setItem container index v =>
    exact (Machine.spares_setItem (fun _ _ => rfl) container index v).queues
  | define container name v =>
    exact (Machine.spares_define (fun _ _ => rfl) container name v).queues
  | openScope v => exact Machine.openScope_queues v
  | closeScope => exact Machine.closeScope_queues
  | call v => exact Machine.call_queues v

/-- **What a request raises**, made by an operator that does not ask for a transition. -/
theorem perform_ordinary {r : Request} (hr : ∀ next, r ≠ .setState next) (i : ℕ) :
    (r.perform (some i)).Ordinary := by
  cases r with
  | setState next => exact absurd rfl (hr next)
  | observe => exact fun _ _ _ h => by cases h
  | exchange drop values => exact Machine.ordinary_exchangeOperands drop values
  | adopt drop created => exact Machine.ordinary_adopt drop created
  | release created => exact Machine.raises_release created
  | clearOperands => exact Machine.ordinary_clearOperands
  | createArray access items => exact Machine.ordinary_createArray access items
  | createFilledArray access length v => exact Machine.ordinary_createFilledArray access length v
  | createDictionary => exact Machine.ordinary_createDictionary
  | setItem container index v => exact Machine.ordinary_setItem container index v
  | define container name v => exact Machine.ordinary_define container name v
  | openScope v => exact Machine.ordinary_openScope v
  | closeScope => exact Machine.ordinary_closeScope
  | call v => exact Machine.ordinary_call v
  | setLocal name v => exact Machine.ordinary_setLocal i name v
  | openBlock | closeBlock => exact Action.raises_modify _
  | intercept => exact Machine.raises_intercept
  | stash => exact Machine.ordinary_stash i
  | restore => exact Machine.ordinary_restore i

end Request

/-! ### Requests about the operator's own frame -/

namespace Machine

variable {α δ : Type} {part : Machine → δ} {m m' : Machine} {i : ℕ} {c : Continuation}
  {own : Option ℕ}

theorem spares_frame {r : Except Breach Frame} {k : Frame → Action Machine α}
    (hk : ∀ f, Spares part (k f)) :
    Spares part ((liftM r : Action Machine Frame) >>= k) :=
  (spares_ofSound r).bind hk

theorem spares_updateFrame {g : Frame → Frame}
    (hpart : ∀ m, part { m with calls := m.calls.update i g } = part m) :
    Spares part (updateFrame i g) :=
  spares_get.bind fun _ => (spares_ofSound _).bind fun _ => spares_modify hpart

theorem spares_setState (next : Continuation)
    (hpart : ∀ m, part { m with calls := m.calls.update i fun f => { f with state := next } } =
      part m) : Spares part (setState i next) :=
  spares_get.bind fun m => spares_frame fun f => by
    split
    · exact spares_updateFrame hpart
    · exact spares_fail _

theorem spares_setLocal (hmemory : ∀ m μ, part { m with memory := μ } = part m)
    (hpart : ∀ m handle, part { m with
      calls := m.calls.update i fun f => { f with locals := some handle } } = part m)
    (name : String) (v : Value) : Spares part (setLocal i name v) := by
  have ensured : Spares part (ensureLocals i) := spares_get.bind fun m => spares_frame fun f => by
    split
    · exact spares_pure _
    · exact (spares_onMemory hmemory _).bind fun handle =>
        (spares_updateFrame fun m => hpart m handle).bind fun _ => spares_pure handle
  exact ensured.bind fun _ => spares_onMemory hmemory _

theorem spares_stash
    (hpart : ∀ m μ p, part { m with memory := μ, pending := p } = part m)
    (hframe : ∀ m p, part { m with
      calls := m.calls.update i fun f => { f with stash := p } } = part m) :
    Spares part (stash i) :=
  spares_get.bind fun m => by
    split
    · exact spares_pure ()
    · split
      · exact spares_pure ()
      · exact spares_frame fun f => (spares_discharge (fun m μ => hpart m μ m.pending) _).bind
          fun _ => (spares_updateFrame fun m => hframe m _).bind fun _ =>
            spares_modify fun m => hpart m m.memory none

theorem spares_restore
    (hpart : ∀ m μ p, part { m with memory := μ, pending := p } = part m)
    (hframe : ∀ m p, part { m with
      calls := m.calls.update i fun f => { f with stash := p } } = part m) :
    Spares part (restore i) :=
  spares_get.bind fun m => spares_frame fun f => by
    split
    · exact spares_pure ()
    · refine (spares_updateFrame fun m => hframe m none).bind fun _ => ?_
      split
      · exact spares_discharge (fun m μ => hpart m μ m.pending) _
      · exact spares_modify fun m => hpart m m.memory _

theorem spares_onOwn {f : ℕ → Action Machine α} (hf : ∀ i, Spares part (f i)) :
    Spares part (Request.onOwn own f) := by
  cases own with
  | none => exact spares_fail _
  | some i => exact hf i

/-! ### Continuation states -/

/-- The operator of the frame with `i` frames below it is in this state. -/
def StateIs (m : Machine) (i : ℕ) (c : Continuation) : Prop :=
  ∃ f, m.calls.frame? i = some f ∧ f.state = c

/-- The continuation states of all frames. -/
def states (m : Machine) : List Continuation := m.calls.frames.map Frame.state

theorem stateIs_iff : m.StateIs i c ↔ m.states.reverse[i]? = some c := by
  rw [StateIs, states, ← List.map_reverse, List.getElem?_map, CallStack.frame?_eq_getElem?]
  simp

theorem StateIs.of_states (h : m.StateIs i c) (hs : m'.states = m.states) : m'.StateIs i c := by
  rw [stateIs_iff] at h ⊢
  rwa [hs]

theorem StateIs.of_queues (h : m.StateIs i c) (hq : m.Queues m') : m'.StateIs i c := by
  obtain ⟨vs, hvs⟩ := hq.frames
  rw [stateIs_iff] at h ⊢
  rw [states, hvs, List.map_append, List.reverse_append]
  exact (List.getElem?_append_left (List.getElem?_eq_some_iff.1 h).1).trans h

end Machine

/-- Nothing but a request for a transition moves the operator to another state. -/
theorem Request.perform_stateIs {r : Request} (hr : ∀ next, r ≠ .setState next) {m : Machine}
    {i : ℕ} {c : Continuation} (own : Option ℕ) (h : m.StateIs i c) :
    (r.perform own m).Meets True (fun _ m' => m'.StateIs i c) fun m' => m'.StateIs i c := by
  by_cases hg : r.governs = false
  · exact (perform_queues hg own m).mono (fun _ _ => h.of_queues) fun _ => h.of_queues
  -- the other requests change no state
  have spared {α : Type} {x : Action Machine α} (hx : Machine.Spares Machine.states x) :
      (x m).Meets True (fun _ m' => m'.StateIs i c) fun m' => m'.StateIs i c :=
    (hx m).mono (fun _ _ => h.of_states) fun _ => h.of_states
  have states {g : Frame → Frame} (hg : ∀ f, (g f).state = f.state) (m : Machine) (j : ℕ) :
      Machine.states { m with calls := m.calls.update j g } = m.states :=
    CallStack.map_update _ hg j
  cases r with
  | setState next => exact absurd rfl (hr next)
  | intercept => exact spared (Machine.spares_intercept fun _ _ _ => rfl)
  | setLocal name v =>
    exact spared (Machine.spares_onOwn fun j => Machine.spares_setLocal (fun _ _ => rfl)
      (fun m _ => states (by exact fun _ => rfl) m j) name v)
  | stash =>
    exact spared (Machine.spares_onOwn fun j => Machine.spares_stash (fun _ _ _ => rfl)
      fun m _ => states (by exact fun _ => rfl) m j)
  | restore =>
    exact spared (Machine.spares_onOwn fun j => Machine.spares_restore (fun _ _ _ => rfl)
      fun m _ => states (by exact fun _ => rfl) m j)
  | _ => exact absurd rfl hg

/-! ### Exceptions pending and set aside -/

/-- The record of an ordinary exception is ordinary, also if there is no room for it. -/
theorem PendingException.record_ordinary {e : Exception} (he : e.Ordinary) (μ : Memory) :
    (record e μ).Meets True (fun p _ => p.exception.Ordinary) fun _ => True := by
  unfold record
  refine Action.meets_bind (P := fun _ _ => True) (Action.meets_attempt ?_) fun r μ' _ => ?_
  · exact Outcome.meets_of_forall (fun _ _ => trivial) fun _ _ => trivial
  · cases r with
    | ok => exact he
    | error =>
      change (if e.condition.isFatal then e.condition else .memoryOverflow) ≠ Condition.internal
      split
      · exact he
      · decide

namespace Machine

variable {m m' : Machine} {i : ℕ} {own : Option ℕ}

/-- Every exception that is pending or set aside is in `R`. -/
structure Recorded (R : PendingException → Prop) (m : Machine) : Prop where
  pending : ∀ p, m.pending = some p → R p
  stashed : ∀ f ∈ m.calls.frames, ∀ p, f.stash = some p → R p

/-- No exception that is pending or set aside is internal. -/
abbrev Civil (m : Machine) : Prop := m.Recorded fun p => p.exception.Ordinary

variable {R : PendingException → Prop}

/-- The exceptions that are pending or set aside. -/
def records (m : Machine) : Option PendingException × List (Option PendingException) :=
  (m.pending, m.calls.frames.map Frame.stash)

theorem Recorded.of_records (h : m.Recorded R) (hr : m'.records = m.records) : m'.Recorded R := by
  injection hr with hpending hstashes
  refine ⟨fun p hp => h.pending p (hpending ▸ hp), fun f hf p hp => ?_⟩
  have : some p ∈ m.calls.frames.map Frame.stash :=
    hstashes ▸ List.mem_map.2 ⟨f, hf, hp⟩
  obtain ⟨f', hf', hp'⟩ := List.mem_map.1 this
  exact h.stashed f' hf' p hp'

theorem Recorded.of_queues (h : m.Recorded R) (hq : m.Queues m') : m'.Recorded R := by
  obtain ⟨vs, hvs⟩ := hq.frames
  refine ⟨fun p hp => h.pending p (hq.pending ▸ hp), fun f hf p hp => ?_⟩
  rw [hvs] at hf
  rcases List.mem_append.1 hf with hf | hf
  · obtain ⟨v, -, rfl⟩ := Frame.mem_queued.1 hf
    cases hp
  · exact h.stashed f hf p hp

theorem Civil.isDoomed (h : m.Civil) : m.isDoomed = false := by
  unfold Machine.isDoomed condition exception
  cases hp : m.pending with
  | none => rfl
  | some p => exact (h.pending p hp).not_isFatal

/-- With another pending exception, and another one set aside in a frame. -/
theorem Recorded.exchanged (h : m.Recorded R) {p q : Option PendingException}
    (hp : ∀ e, p = some e → R e) (hq : ∀ e, q = some e → R e) (hpending : m'.pending = p)
    (hcalls : m'.calls = m.calls.update i fun f => { f with stash := q }) : m'.Recorded R := by
  refine ⟨hpending ▸ hp, fun f hf e he => ?_⟩
  rw [hcalls] at hf
  rcases CallStack.mem_update hf with hf | ⟨f', -, rfl⟩
  · exact h.stashed f hf e he
  · exact hq e he

theorem records_discharge (p : Option PendingException) : Spares records (discharge p) :=
  spares_discharge (fun _ _ => rfl) p

theorem intercept_recorded (h : m.Recorded R) :
    (intercept m).Meets True (fun _ m' => m'.Recorded R) fun m' => m'.Recorded R := by
  rw [intercept, Action.get_bind]
  split
  · exact h
  · refine Action.meets_bind ((records_discharge m.pending m).mono
      (fun _ _ => h.of_records) fun _ => h.of_records) fun _ m₁ h₁ => ?_
    exact ⟨fun _ he => (by cases he), h₁.stashed⟩

theorem stash_recorded (h : m.Recorded R) :
    (stash i m).Meets True (fun _ m' => m'.Recorded R) fun m' => m'.Recorded R := by
  rw [stash, Action.get_bind]
  split
  · exact h
  cases hpending : m.pending with
  | none => exact h
  | some p =>
    refine meets_frame fun f _ => ?_
    refine Action.meets_bind ((records_discharge f.stash m).mono
      (fun _ _ => h.of_records) fun _ => h.of_records) fun _ m₁ h₁ => ?_
    refine Action.meets_bind ((updateFrame_frames (F := fun _ => False) i _ m₁).always
      fun _ _ h => h.1) ?_
    rintro _ _ rfl
    refine h₁.exchanged (p := none) (q := some p) (fun _ he => by cases he) ?_ rfl rfl
    rintro _ ⟨⟩
    exact h.pending p hpending

theorem restore_recorded (h : m.Recorded R) :
    (restore i m).Meets True (fun _ m' => m'.Recorded R) fun m' => m'.Recorded R := by
  rw [restore, Action.get_bind]
  refine meets_frame fun f hf => ?_
  cases hstash : f.stash with
  | none => exact h
  | some p =>
    refine Action.meets_bind ((updateFrame_frames (F := fun _ => False) i _ m).always
      fun _ _ h => h.1) ?_
    rintro _ _ rfl
    have bare : (m.withFrame i fun f => { f with stash := none }).Recorded R :=
      h.exchanged (q := none) h.pending (fun _ he => by cases he) rfl rfl
    split
    · exact (records_discharge (some p) _).mono
        (fun _ _ => bare.of_records) fun _ => bare.of_records
    · refine ⟨?_, bare.stashed⟩
      rintro _ ⟨⟩
      exact h.stashed f (CallStack.mem_frames_of_frame? hf) p hstash

/-- Making an ordinary exception pending. -/
theorem raise_civil {e : Exception} (h : m.Civil) (he : e.Ordinary) :
    (raise e m).Meets True (fun _ m' => m'.Civil ∧ m'.pending.isSome) fun _ => True := by
  have trail : Spares id (Action.ofSound m.trail) := spares_ofSound _
  rw [raise, Action.get_bind]
  simp only [h.isDoomed]
  refine Action.meets_bind ((trail m).mono (fun _ _ => id) fun _ _ => trivial) ?_
  rintro lines _ rfl
  refine Action.meets_bind ((records_discharge _ _).mono (fun _ _ => h.of_records)
    fun _ _ => trivial) fun _ m₁ h₁ => ?_
  have ordinary : Exception.Ordinary { e with trail := lines } := he
  refine meets_onMemory_bind ((PendingException.record_ordinary ordinary m₁.memory).mono
    (fun p μ hp => ?_) fun _ => id)
  refine ⟨⟨?_, h₁.stashed⟩, rfl⟩
  rintro _ ⟨⟩
  exact hp

end Machine

/-- No request makes a new exception pending. -/
theorem Request.perform_recorded (r : Request) {R : PendingException → Prop} {m : Machine}
    (own : Option ℕ) (h : m.Recorded R) :
    (r.perform own m).Meets True (fun _ m' => m'.Recorded R) fun m' => m'.Recorded R := by
  by_cases hg : r.governs = false
  · exact (perform_queues hg own m).mono (fun _ _ => h.of_queues) fun _ => h.of_queues
  have spared {α : Type} {x : Action Machine α} (hx : Machine.Spares Machine.records x) :
      (x m).Meets True (fun _ m' => m'.Recorded R) fun m' => m'.Recorded R :=
    (hx m).mono (fun _ _ => h.of_records) fun _ => h.of_records
  have stashes {g : Frame → Frame} (hg : ∀ f, (g f).stash = f.stash) (m : Machine) (i : ℕ) :
      Machine.records { m with calls := m.calls.update i g } = m.records :=
    congrArg (Prod.mk m.pending) (CallStack.map_update _ hg i)
  cases r with
  | intercept => exact Machine.intercept_recorded h
  | setState next =>
    exact spared (Machine.spares_onOwn fun j => Machine.spares_setState next fun m =>
      stashes (by exact fun _ => rfl) m j)
  | setLocal name v =>
    exact spared (Machine.spares_onOwn fun j => Machine.spares_setLocal (fun _ _ => rfl)
      (fun m _ => stashes (by exact fun _ => rfl) m j) name v)
  | stash =>
    cases own with
    | none => exact h
    | some j => exact Machine.stash_recorded h
  | restore =>
    cases own with
    | none => exact h
    | some j => exact Machine.restore_recorded h
  | _ => exact absurd rfl hg

/-- An operator makes no new exception pending: what is pending or set aside after it was pending or
set aside before. -/
theorem Operation.runOn_recorded {α : Type} {R : PendingException → Prop} {m : Machine}
    (p : Operation α) (own : Option ℕ) (h : m.Recorded R) :
    (p.runOn own m).Meets True (fun _ m' => m'.Recorded R) fun m' => m'.Recorded R :=
  p.run_keeps (fun r _ h => r.perform_recorded own h) h

/-- So it makes none internal. -/
theorem Operation.runOn_civil {α : Type} {m : Machine} (p : Operation α) (own : Option ℕ)
    (h : m.Civil) : (p.runOn own m).Meets True (fun _ m' => m'.Civil) fun m' => m'.Civil :=
  p.runOn_recorded own h

end StackScript
