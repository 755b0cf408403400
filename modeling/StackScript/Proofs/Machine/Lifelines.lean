import StackScript.Proofs.Machine.Watched

/-!
# The continuation states a frame goes through

The lifeline of a frame lists the continuation states it has had since it was queued, one for each
time it changed.  Every moment of a watched session follows the one before it: frames that are there
before and after keep their continuation state or move it as the protocol permits, and a frame that
is new has not been dispatched yet (`CallStack.Proceeds`).  So every lifeline is a path of the
protocol that begins with `Continuation.unknown`.

Nothing has to be known of the operators: it is the requests they are made of, and the machine's own
transitions, that proceed (`Watched.cycle_faithful`).
-/

namespace StackScript

namespace Continuation

/-- The transitions of the continuation protocol. -/
inductive Moves : Continuation → Continuation → Prop
  | dispatch : Moves .unknown .firstCall
  | begin (step : Word) (h : 0 < step.toInt) : Moves .firstCall (.running step)
  | defer : Moves .firstCall .callBeforePop
  | finish : Moves .firstCall .pop
  | continue (step next : Word) (h : 0 < next.toInt) : Moves (.running step) (.running next)
  | deferRunning (step : Word) : Moves (.running step) .callBeforePop
  | finishRunning (step : Word) : Moves (.running step) .pop
  | restart : Moves .callBeforePop .firstCall
  | beginPopping (step : Word) (h : step.toInt < -1) : Moves .callBeforePop (.popping step)
  | finishDeferred : Moves .callBeforePop .pop
  | continuePopping (step next : Word) (h : next.toInt < -1) : Moves (.popping step) (.popping next)
  | finishPopping (step : Word) : Moves (.popping step) .pop

variable {c next : Continuation}

theorem canBecome_iff : c.canBecome next = true ↔ c.Moves next := by
  constructor
  · intro h
    simp only [canBecome, Bool.and_eq_true] at h
    obtain ⟨valid, permitted⟩ := h
    -- the table has at most one row for a pair of states
    cases c <;> cases next <;>
      first
      | (simp [permits] at permitted; done)
      | (constructor <;> simpa [isValid] using valid)
  · rintro (_ | _) <;> simp_all [canBecome, isValid, permits]

/-- What a continuation moves to carries a step in its range. -/
theorem Moves.isValid (h : c.Moves next) : next.isValid = true :=
  isValid_of_canBecome (canBecome_iff.2 h)

theorem Moves.ne_unknown (h : c.Moves next) : next ≠ .unknown := by
  cases h <;> simp

theorem Moves.ne_pop (h : c.Moves next) : c ≠ .pop := by
  cases h <;> simp

/-- Every operator that has been dispatched may be done. -/
theorem moves_pop (h : c ≠ .unknown) : c = .pop ∨ c.Moves .pop := by
  cases c with
  | unknown => exact absurd rfl h
  | pop => exact .inl rfl
  | firstCall => exact .inr .finish
  | running step => exact .inr (.finishRunning step)
  | callBeforePop => exact .inr .finishDeferred
  | popping step => exact .inr (.finishPopping step)

end Continuation

/-! ### From one moment to the next -/

/-- Only frames of operators are dispatched, only frames that have been dispatched have locals, and
supplies are no frames of operators. -/
structure Frame.Orderly (f : Frame) : Prop where
  idle : f.value.toOperator? = none → f.state = .unknown
  supplied : f.supply.isSome → f.value.toOperator? = none
  bare : f.state = .unknown → f.locals = none

theorem Frame.orderly_fresh (v : Value) : Frame.Orderly { value := v } where
  idle _ := rfl
  supplied h := by cases h
  bare _ := rfl

/-- The frame of an operator that has been dispatched is in another state. -/
theorem Frame.Orderly.withState {f : Frame} (h : f.Orderly) (operator : f.value.toOperator?.isSome)
    {next : Continuation} (hnext : next ≠ .unknown) : Frame.Orderly { f with state := next } where
  idle ho := by
    change f.value.toOperator? = none at ho
    rw [ho] at operator
    cases operator
  supplied := h.supplied
  bare same := absurd same hnext

namespace CallStack

variable {c c' : CallStack} {own : Option ℕ} {f g : Frame} {k : ℕ}

/-- Frames keep their continuation state or move it, and new frames have not been dispatched. -/
def Proceeds (c c' : CallStack) : Prop :=
  ∀ k g, c'.frame? k = some g →
    (c.frame? k).elim (g.state = .unknown) fun f => g.state = f.state ∨ f.state.Moves g.state

/-- Every frame is orderly. -/
def Orderly (c : CallStack) : Prop := ∀ f ∈ c.frames, f.Orderly

/-- The operator at work, if there is one, has been dispatched. -/
def Hosts (own : Option ℕ) (c : CallStack) : Prop :=
  ∀ i, own = some i → ∃ f, c.frame? i = some f ∧ f.value.toOperator?.isSome ∧ f.state ≠ .unknown

theorem Proceeds.refl (c : CallStack) : c.Proceeds c := by
  intro k g hg
  rw [hg]
  exact .inl rfl

theorem mem_iff_frame? : f ∈ c.frames ↔ ∃ k, c.frame? k = some f := by
  rw [← List.mem_reverse, List.mem_iff_getElem?]
  simp only [frame?_eq_getElem?]

/-- The top frame moves perhaps, and frames that have not been dispatched are queued. -/
theorem proceeds_of_frames (top : List Frame) {rest : List Frame} (hc : c.frames = f :: rest)
    (hc' : c'.frames = top ++ g :: rest) (hg : g.state = f.state ∨ f.state.Moves g.state)
    (htop : ∀ f ∈ top, f.state = .unknown) : c.Proceeds c' := by
  intro k f' hf'
  rw [frame?_eq_getElem?, hc', List.reverse_append, List.reverse_cons, List.append_assoc] at hf'
  rw [frame?_eq_getElem?, hc, List.reverse_cons]
  rcases lt_trichotomy k rest.reverse.length with hk | hk | hk
  · rw [List.getElem?_append_left hk] at hf' ⊢
    rw [hf']
    exact .inl rfl
  · rw [List.getElem?_append_right hk.ge, hk, Nat.sub_self] at hf' ⊢
    obtain rfl : g = f' := by simpa using hf'
    exact hg
  · have old : (rest.reverse ++ [f])[k]? = none := by
      rw [List.getElem?_eq_none_iff, List.length_append, List.length_singleton]
      omega
    rw [old]
    rw [List.getElem?_append_right hk.le, List.getElem?_append_right
      (by rw [List.length_singleton]; omega)] at hf'
    exact htop f' (List.mem_reverse.1 (List.mem_of_getElem? hf'))

/-- A frame that has not been dispatched is queued. -/
theorem proceeds_of_queued (h : c'.frames = f :: c.frames) (hf : f.state = .unknown) :
    c.Proceeds c' := by
  intro k g hg
  rw [frame?_of_frames h] at hg
  split at hg
  · rename_i hk
    rw [frame?_eq_none_iff.2 hk.ge]
    exact Option.some.inj hg ▸ hf
  · rw [hg]
    exact .inl rfl

/-- The top frame goes. -/
theorem proceeds_of_removed (h : c.frames = f :: c'.frames) : c.Proceeds c' := by
  intro k g hg
  rw [← frame?_of_frames_cons h (lt_length_of_frame? hg), hg]
  exact .inl rfl

/-- One frame moves. -/
theorem proceeds_update {i : ℕ} {g : Frame → Frame} (hf : c.frame? i = some f)
    (hg : (g f).state = f.state ∨ f.state.Moves (g f).state) : c.Proceeds (c.update i g) := by
  intro k f' hf'
  rw [frame?_update (lt_length_of_frame? hf)] at hf'
  split at hf'
  · rename_i hik
    subst hik
    rw [hf] at hf' ⊢
    obtain rfl := Option.some.inj hf'
    exact hg
  · rw [hf']
    exact .inl rfl

theorem orderly_update {i : ℕ} {g : Frame → Frame} (h : c.Orderly) (hf : c.frame? i = some f)
    (hg : (g f).Orderly) : (c.update i g).Orderly := by
  intro f' hf'
  obtain ⟨k, hk⟩ := mem_iff_frame?.1 hf'
  rw [frame?_update (lt_length_of_frame? hf)] at hk
  split at hk
  · rename_i hik
    subst hik
    rw [hf] at hk
    exact Option.some.inj hk ▸ hg
  · exact h f' (mem_iff_frame?.2 ⟨k, hk⟩)

/-- What a request does to the call frames. -/
theorem Edited.proceeds (h : c.Edited own c') : c.Proceeds c' := by
  cases h with
  | kept => exact .refl c
  | queued v h => exact proceeds_of_queued h rfl
  | revised g _ hf _ _ _ hstate =>
    exact proceeds_update hf (hstate.imp_right Continuation.canBecome_iff.1)

theorem Edited.orderly (h : c.Edited own c') (hc : c.Orderly) (hosts : c.Hosts own) :
    c'.Orderly := by
  cases h with
  | kept => exact hc
  | queued v h =>
    intro f hf
    rw [h] at hf
    rcases List.mem_cons.1 hf with rfl | hf
    · exact Frame.orderly_fresh v
    · exact hc f hf
  | revised g howner hf hvalue _ hsupply hstate =>
    obtain ⟨f, hf', operator, dispatched⟩ := hosts _ howner
    rw [hf] at hf'
    obtain rfl := Option.some.inj hf'
    refine orderly_update hc hf ⟨fun h => ?_, fun h => ?_, fun h => ?_⟩
    · rw [hvalue] at h
      rw [h] at operator
      cases operator
    · rw [hvalue]
      exact (hc _ (mem_iff_frame?.2 ⟨_, hf⟩)).supplied (hsupply ▸ h)
    · rcases hstate with same | moved
      · exact absurd (same.symm.trans h) dispatched
      · exact absurd h (Continuation.canBecome_iff.1 moved).ne_unknown

theorem Edited.hosts (h : c.Edited own c') (hosts : c.Hosts own) : c'.Hosts own := by
  intro i hi
  obtain ⟨f, hf, operator, dispatched⟩ := hosts i hi
  cases h with
  | kept => exact ⟨f, hf, operator, dispatched⟩
  | queued v h =>
    refine ⟨f, ?_, operator, dispatched⟩
    rw [frame?_of_frames h, if_neg (lt_length_of_frame? hf).ne, hf]
  | @revised j f' g howner hf' hvalue _ _ hstate =>
    obtain rfl : i = j := Option.some.inj (hi.symm.trans howner)
    rw [hf] at hf'
    obtain rfl := Option.some.inj hf'
    refine ⟨g f, ?_, hvalue ▸ operator, ?_⟩
    · rw [frame?_update (lt_length_of_frame? hf), if_pos rfl, hf]
      rfl
    · rcases hstate with same | moved
      · rwa [same]
      · exact (Continuation.canBecome_iff.1 moved).ne_unknown

end CallStack

/-! ### Watched sessions proceed -/

/-- One machine follows another. -/
structure Machine.Follows (m m' : Machine) : Prop where
  proceeds : m.calls.Proceeds m'.calls
  orderly : m'.calls.Orderly

/-- Every moment follows the one before it, and the first one had no work. -/
structure Watched.Faithful {χ : Type} (w : Watched χ) : Prop where
  present : w.moments.head? = some w.machine
  chain : w.moments.IsChain fun later earlier => earlier.calls.Proceeds later.calls
  origin : ∀ m, w.moments.getLast? = some m → m.calls.frames = []
  orderly : w.machine.calls.Orderly

namespace Machine

variable {m m' : Machine} {own : Option ℕ}

theorem Follows.of_eq (h : m.calls.Orderly) (hc : m'.calls = m.calls) : m.Follows m' where
  proceeds := hc ▸ .refl _
  orderly := hc ▸ h

theorem Follows.of_edited (h : m.calls.Orderly) (hosts : m.calls.Hosts own)
    (he : m.calls.Edited own m'.calls) : m.Follows m' where
  proceeds := he.proceeds
  orderly := he.orderly h hosts

theorem Follows.of_removed {f : Frame} (h : m.calls.Orderly)
    (hm' : m.calls.frames = f :: m'.calls.frames) : m.Follows m' where
  proceeds := CallStack.proceeds_of_removed hm'
  orderly g hg := h g (hm' ▸ List.mem_cons_of_mem f hg)

theorem Follows.of_queued {f : Frame} (h : m.calls.Orderly)
    (hm' : m'.calls.frames = f :: m.calls.frames) (hf : f.state = .unknown) (ho : f.Orderly) :
    m.Follows m' where
  proceeds := CallStack.proceeds_of_queued hm' hf
  orderly g hg := by
    rw [hm'] at hg
    rcases List.mem_cons.1 hg with rfl | hg
    · exact ho
    · exact h g hg

/-- A cycle without an operator moves no continuation state. -/
theorem Follows.of_turned {f : Frame} {rest : List Frame} (h : m.calls.Orderly)
    (hm : m.calls.frames = f :: rest) (turned : f.Turned rest m'.calls.frames) : m.Follows m' := by
  have hf : f.Orderly := h f (by simp [hm])
  have hrest (g : Frame) (hg : g ∈ rest) : g.Orderly := h g (by simp [hm, hg])
  generalize hm' : m'.calls.frames = frames at turned
  cases turned with
  | kept =>
    refine ⟨CallStack.proceeds_of_frames [] hm hm' (.inl rfl) (by simp), fun g hg => ?_⟩
    rw [hm', ← hm] at hg
    exact h g hg
  | removed => exact .of_removed h (hm' ▸ hm)
  | replaced v hv =>
    -- what is replaced has never been dispatched
    refine ⟨CallStack.proceeds_of_frames [] hm hm' (.inl (hf.idle hv).symm) (by simp),
      fun g hg => ?_⟩
    rw [hm'] at hg
    rcases List.mem_cons.1 hg with rfl | hg
    · exact Frame.orderly_fresh v
    · exact hrest g hg
  | advanced cursor supply queued _ hsupply hv =>
    refine ⟨CallStack.proceeds_of_frames _ hm hm' (.inl rfl) (by simp), fun g hg => ?_⟩
    rw [hm', List.mem_append, List.mem_cons, List.mem_map] at hg
    rcases hg with ⟨v, -, rfl⟩ | rfl | hg
    · exact Frame.orderly_fresh v
    · exact ⟨hf.idle, fun _ => hv, hf.bare⟩
    · exact hrest g hg

end Machine

namespace Watched

variable {χ α : Type} {natives : Natives χ} {w : Watched χ} {own : Option ℕ} {index : ℕ}

/-- Noting what an action leaves that proceeds. -/
theorem note_faithful {x : Action (Session χ) α} {P F : Machine → Prop} (h : w.Faithful)
    (hx : (x w.session).Meets True (fun _ t => w.machine.Follows t.machine ∧ P t.machine)
      fun t => w.machine.Follows t.machine ∧ F t.machine) :
    (note x w).Meets True (fun _ v => v.Faithful ∧ P v.machine)
      fun v => v.Faithful ∧ F v.machine := by
  have noted (t : Session χ) (ht : w.machine.Follows t.machine) :
      Faithful ⟨t, t.machine :: w.moments⟩ := by
    refine ⟨rfl, List.isChain_cons.2 ⟨fun m hm => ?_, h.chain⟩, fun m hm => ?_, ht.orderly⟩
    · rw [h.present] at hm
      exact Option.some.inj hm ▸ ht.proceeds
    · cases hmoments : w.moments with
      | nil =>
        have := h.present
        rw [hmoments] at this
        cases this
      | cons m' earlier =>
        simp only [hmoments, List.getLast?_cons_cons] at hm
        exact h.origin m (hmoments ▸ hm)
  unfold note
  cases ho : x w.session with
  | done a t => rw [ho] at hx; exact ⟨noted t hx.1, hx.2⟩
  | raised e t => rw [ho] at hx; exact ⟨noted t hx.1, hx.2⟩
  | broken b => trivial

/-- The machine is faithful to its history, and the operator at work is there. -/
def AtWork (own : Option ℕ) (w : Watched χ) : Prop := w.Faithful ∧ w.machine.calls.Hosts own

/-- Noting what an action leaves that changes the call frames as a request does. -/
theorem note_atWork {x : Action Machine α} (h : AtWork own w)
    (hx : (x w.machine).Meets True (fun _ m => w.machine.calls.Edited own m.calls)
      fun m => w.machine.calls.Edited own m.calls) :
    (note (Session.onMachine x) w).Meets True (fun _ v => AtWork own v) fun v => AtWork own v := by
  have edited (m : Machine) (hm : w.machine.calls.Edited own m.calls) :
      w.machine.Follows m ∧ m.calls.Hosts own :=
    ⟨.of_edited h.1.orderly h.2 hm, hm.hosts h.2⟩
  exact note_faithful (P := fun m => m.calls.Hosts own) (F := fun m => m.calls.Hosts own) h.1
    (Session.meets_onMachine (hx.mono (fun _ m => edited m) edited))

/-- **Any operation proceeds**, whatever requests it makes. -/
theorem runOn_atWork (p : Operation α) (h : AtWork own w) :
    (runOn own p w).Meets True (fun _ v => AtWork own v) fun v => AtWork own v := by
  induction p generalizing w with
  | done a => exact h
  | raise e => exact h
  | broken b => trivial
  | ask r next failed ihn ihf =>
    exact Program.meets_ask (note_atWork h (r.perform_edits own w.machine))
      (fun a v hv => ihn a hv) fun e v hv => ihf e hv

theorem runKeeping_atWork (p : χ → Operation (χ × Except Exception Unit)) (h : AtWork own w) :
    (runKeeping own p w).Meets True (fun _ v => AtWork own v) fun v => AtWork own v := by
  have keeping (host : χ) (v : Watched χ) (hv : AtWork own v) :
      AtWork own { v with session := { v.session with host := host } } :=
    ⟨⟨hv.1.present, hv.1.chain, hv.1.origin, hv.1.orderly⟩, hv.2⟩
  have step := runOn_atWork (p w.session.host) h
  unfold runKeeping
  cases ho : runOn own (p w.session.host) w with
  | done r v =>
    rw [ho] at step
    obtain ⟨host, result⟩ := r
    cases result <;> exact keeping host v step
  | raised e v => rw [ho] at step; exact step
  | broken b => trivial

theorem invoke_atWork (natives : Natives χ) (o : Operator) (params : List Value) (h : AtWork (some index) w) :
    (invoke natives o index params w).Meets True (fun _ v => AtWork (some index) v)
      fun v => AtWork (some index) v := by
  unfold invoke
  cases o with
  | builtin b => exact runOn_atWork _ h
  | native name looping =>
    dsimp only
    cases natives name with
    | constant v => exact h
    | function signature operation => exact runKeeping_atWork _ h

/-! ### The cycle -/

/-- An action that leaves the call frames alone. -/
theorem note_spares {x : Action Machine α} (hx : Machine.Spares Machine.calls x) (h : AtWork own w) :
    (note (Session.onMachine x) w).Meets True (fun _ v => AtWork own v) fun v => AtWork own v :=
  note_atWork h hx.edits

theorem popFrame_faithful (h : w.Faithful) :
    (note Session.popFrame w).Meets True (fun _ v => v.Faithful) fun v => v.Faithful := by
  refine (note_faithful (P := fun _ => True) (F := fun _ => True) h ?_).mono
    (fun _ _ hv => hv.1) fun _ hv => hv.1
  refine Session.meets_onMachine ((Machine.popFrame_frames w.machine).mono ?_ fun m hm =>
    ⟨.of_eq h.orderly hm, trivial⟩)
  rintro _ m ⟨f, hf⟩
  exact ⟨.of_removed h.orderly hf, trivial⟩

/-- The frame of the operator at work. -/
theorem frame_bind {β : Type} (h : AtWork (some index) w) (k : Frame → Action (Watched χ) β) :
    ∃ f, w.machine.calls.frame? index = some f ∧ f.state ≠ .unknown ∧
      ((liftM (w.machine.frame index) : Action (Watched χ) Frame) >>= k) w = k f w := by
  obtain ⟨f, hf, -, dispatched⟩ := h.2 index rfl
  refine ⟨f, hf, dispatched, ?_⟩
  rw [Machine.frame_of_frame? hf]
  rfl

theorem settle_faithful (invokedIn : Continuation) (h : AtWork (some index) w) :
    (settle index invokedIn w).Meets True (fun _ v => v.Faithful) fun v => v.Faithful := by
  have last (p : Prop) [Decidable p] (v : Watched χ) (hv : AtWork (some index) v) :
      ((theMachine >>= fun m => if p ∧ m.calls.length = index + 1 then
        note Session.popFrame else (pure () : Action (Watched χ) Unit)) v).Meets True
        (fun _ v => v.Faithful) fun v => v.Faithful := by
    rw [theMachine_bind]
    split
    · exact popFrame_faithful hv.1
    · exact hv.1
  unfold settle
  rw [theMachine_bind]
  obtain ⟨f, -, -, bound⟩ := frame_bind (β := Unit) h _
  rw [bound]
  dsimp only
  split
  · exact Action.meets_bind ((note_atWork h (Machine.setState_edits _)).mono (fun _ _ => id)
      fun _ hv => hv.1) fun _ v hv => last _ v hv
  · exact last _ w h

/-- An operator that is abandoned has been dispatched. -/
theorem abandon_faithful (h : AtWork (some index) w) :
    (note (Session.abandon index) w).Meets True (fun _ v => v.Faithful) fun v => v.Faithful := by
  obtain ⟨f, hf, operator, dispatched⟩ := h.2 index rfl
  refine (note_faithful (P := fun _ => True) (F := fun _ => True) h.1 ?_).mono
    (fun _ _ hv => hv.1) fun _ hv => hv.1
  refine Session.meets_onMachine ((Machine.updateFrame_frames index _ w.machine).mono ?_
    fun m hm => ⟨.of_eq h.1.orderly hm, trivial⟩)
  rintro _ _ ⟨rfl, -⟩
  refine ⟨⟨CallStack.proceeds_update hf ?_, CallStack.orderly_update h.1.orderly hf ?_⟩, trivial⟩
  · exact (Continuation.moves_pop dispatched).imp_left Eq.symm
  · exact (h.1.orderly f (CallStack.mem_frames_of_frame? hf)).withState operator (by simp)

theorem dispatch_faithful {signature : List Param}
    {invoke : List Value → Action (Watched χ) Unit} (h : w.Faithful)
    (operator : ∃ f, w.machine.calls.frame? index = some f ∧ f.value.toOperator?.isSome)
    (hinvoke : ∀ params v, AtWork (some index) v →
      (invoke params v).Meets True (fun _ v => AtWork (some index) v)
        fun v => AtWork (some index) v) :
    (dispatch index signature invoke w).Meets True (fun _ v => v.Faithful)
      fun v => v.Faithful := by
  unfold dispatch
  rw [theMachine_bind]
  refine Action.meets_bind (P := fun _ v => w = v)
    (Action.meets_ofExcept (fun _ _ => rfl) h) ?_
  rintro params _ rfl
  obtain ⟨f, hf, ho⟩ := operator
  -- from here on the operator has been dispatched
  have begun : (note (Session.onMachine (Machine.setState index .firstCall)) w).Meets True
      (fun _ v => AtWork (some index) v) fun v => v.Faithful := by
    refine (note_faithful (P := fun m => m.calls.Hosts (some index)) (F := fun _ => True) h
      (Session.meets_onMachine ((Machine.setState_frames index _ w.machine).mono ?_ ?_))).mono
      (fun _ _ hv => hv) fun _ hv => hv.1
    · rintro _ _ ⟨f', hf', hnext, rfl⟩
      rw [hf] at hf'
      obtain rfl := Option.some.inj hf'
      have orderly := h.orderly f (CallStack.mem_frames_of_frame? hf)
      refine ⟨⟨CallStack.proceeds_update hf (.inr (Continuation.canBecome_iff.1 hnext)),
        CallStack.orderly_update h.orderly hf (orderly.withState ho (by simp))⟩, ?_⟩
      rintro _ ⟨⟩
      exact ⟨_, Machine.frame?_withFrame hf _, ho, by simp⟩
    · rintro _ rfl
      exact ⟨.of_eq h.orderly rfl, trivial⟩
  refine Action.meets_bind begun fun _ v hv => ?_
  refine Action.meets_bind ((note_spares (Machine.onMemory_calls _) hv).mono (fun _ _ => id)
    fun _ hv => hv.1) fun _ v hv => ?_
  have released (v : Watched χ) (hv : AtWork (some index) v) :
      (note (Session.onMachine (Machine.onMemory (Memory.releaseAll params))) v).Meets True
        (fun _ v => AtWork (some index) v) fun v => v.Faithful :=
    (note_spares (Machine.onMemory_calls _) hv).mono (fun _ _ => id) fun _ hv => hv.1
  refine Action.meets_bind (Action.meets_ensuring (hinvoke params v hv)
    (fun _ => released) fun v hv => (released v hv).mono (fun _ _ hv => hv.1) fun _ => id) ?_
  exact fun _ v hv => settle_faithful _ hv

theorem resume_faithful {state : Continuation} {invoke : List Value → Action (Watched χ) Unit}
    (h : AtWork (some index) w)
    (hinvoke : ∀ params v, AtWork (some index) v →
      (invoke params v).Meets True (fun _ v => AtWork (some index) v)
        fun v => AtWork (some index) v) :
    (resume index state invoke w).Meets True (fun _ v => v.Faithful) fun v => v.Faithful := by
  refine Action.meets_bind (Action.meets_onRaise (hinvoke [] w h) fun v hv => ?_)
    fun _ v hv => settle_faithful _ hv
  split
  · exact abandon_faithful hv
  · exact hv.1

/-- Noting a cycle without an operator. -/
theorem note_turns {f : Frame} {rest : List Frame} {x : Action (Session χ) Unit} (h : w.Faithful)
    (hframes : w.machine.calls.frames = f :: rest) (hx : Session.Turns f rest w.session x) :
    (note x w).Meets True (fun _ v => v.Faithful) fun v => v.Faithful :=
  (note_faithful (P := fun _ => True) (F := fun _ => True) h (hx.mono
    (fun _ _ ht => ⟨.of_turned h.orderly hframes ht, trivial⟩)
    fun _ ht => ⟨.of_turned h.orderly hframes ht, trivial⟩)).mono (fun _ _ hv => hv.1)
      fun _ hv => hv.1

theorem stepOperator_faithful {f : Frame} {rest : List Frame} {o : Operator} (h : w.Faithful)
    (hframes : w.machine.calls.frames = f :: rest) (ho : f.value.toOperator? = some o) :
    (stepOperator natives rest.length o w).Meets True (fun _ v => v.Faithful)
      fun v => v.Faithful := by
  have hf : w.machine.calls.frame? rest.length = some f :=
    CallStack.frame?_length_of_frames hframes
  have operator : f.value.toOperator?.isSome := by rw [ho]; rfl
  have invoked (params : List Value) (v : Watched χ) (hv : AtWork (some rest.length) v) :=
    invoke_atWork natives o params hv
  unfold stepOperator
  cases Behaviour.ofOperator natives o with
  | constant v => exact note_turns h hframes (Session.pushOperand_popFrame_turns v hframes)
  | function signature _ =>
    dsimp only
    rw [theMachine_bind, Machine.frame_of_frame? hf, read_bind]
    have again (state : Continuation) (hstate : f.state ≠ .unknown) :
        (resume rest.length state (invoke natives o rest.length) w).Meets True
          (fun _ v => v.Faithful) fun v => v.Faithful := by
      refine resume_faithful ⟨h, ?_⟩ invoked
      rintro _ ⟨⟩
      exact ⟨f, hf, operator, hstate⟩
    cases hstate : f.state with
    | pop => exact popFrame_faithful h
    | unknown => exact dispatch_faithful h ⟨f, hf, operator⟩ invoked
    | firstCall | running | callBeforePop | popping => exact again _ (by rw [hstate]; simp)

theorem step_faithful {f : Frame} {rest : List Frame} (h : w.Faithful)
    (hframes : w.machine.calls.frames = f :: rest) :
    (step natives rest.length f w).Meets True (fun _ v => v.Faithful) fun v => v.Faithful := by
  rw [step, theMachine_bind]
  cases ho : w.machine.invoked? f with
  | some o => exact stepOperator_faithful h hframes (Machine.toOperator?_of_invoked? ho)
  | none =>
    have hf : f.Orderly := h.orderly f (by simp [hframes])
    exact note_turns h hframes (Session.step_turns hframes hf.supplied ho)

/-- **Every moment of a cycle follows the one before it.** -/
theorem cycle_faithful (h : w.Faithful) :
    (cycle natives w).Meets True (fun _ v => v.Faithful) fun v => v.Faithful := by
  unfold cycle
  rw [theMachine_bind]
  cases hframes : w.machine.calls.frames with
  | nil => exact h
  | cons f rest =>
    refine Action.meets_bind (P := fun _ v => v.Faithful) (Action.meets_attempt
      ((step_faithful h hframes).mono (fun _ _ => id) fun _ hv _ => hv)) fun result v hv => ?_
    cases result with
    | ok _ => exact hv
    | error e =>
      have spared : AtWork none v := ⟨hv, by rintro _ ⟨⟩⟩
      exact Action.meets_bind ((note_spares (Machine.spares_raise (fun _ _ _ _ => rfl) e) spared).mono
        (fun _ _ hv => hv.1) fun _ hv => hv.1) fun _ _ hv => hv

/-! ### Runs -/

theorem runFrom_faithful (budget count : ℕ) (h : w.Faithful) :
    (runFrom natives count budget w).Meets True (fun _ v => v.Faithful) fun v => v.Faithful := by
  induction budget generalizing count w with
  | zero => exact h
  | succ budget ih =>
    rw [runFrom, theMachine_bind]
    split
    · exact h
    · exact Action.meets_bind (cycle_faithful h) fun _ v hv => ih (count + 1) hv

theorem run_faithful (budget : ℕ) (h : w.Faithful) :
    (run natives budget w).Meets True (fun _ v => v.Faithful) fun v => v.Faithful := by
  refine Action.meets_bind (runFrom_faithful budget 0 h) fun count v hv => ?_
  rw [theMachine_bind]
  cases v.machine.exception with
  | none => exact hv
  | some e =>
    dsimp only
    split
    · exact hv
    · exact hv

theorem runToCompletion_faithful (h : w.Faithful) :
    (runToCompletion natives w).Meets True (fun _ v => v.Faithful) fun v => v.Faithful := by
  unfold runToCompletion
  rw [theMachine_bind]
  refine Action.meets_bind (run_faithful _ h) fun count v hv => ?_
  rw [theMachine_bind]
  split
  · exact hv
  · exact hv

/-- Queueing work. -/
theorem execute_faithful (work : Work) (h : w.Faithful) :
    (note (Session.onMachine (Machine.execute work)) w).Meets True (fun _ v => v.Faithful)
      fun v => v.Faithful := by
  have queued (f : Frame) (hf : f.state = .unknown) (ho : f.Orderly) (m m' : Machine)
      (hm : m.calls = w.machine.calls) (hm' : m'.calls.frames = f :: m.calls.frames) :
      w.machine.Follows m' := .of_queued h.orderly (hm ▸ hm') hf ho
  have step : (Machine.execute work w.machine).Meets True (fun _ m => w.machine.Follows m)
      fun m => w.machine.Follows m := by
    cases work with
    | source text origin =>
      exact (Machine.pushFrame_frames _ w.machine).mono
        (fun _ m hm => queued _ rfl (Frame.orderly_fresh _) w.machine m rfl hm)
        fun m hm => .of_eq h.orderly hm
    | values values =>
      refine Action.meets_bind ((Machine.spares_createArray (fun _ _ => rfl) _ _ w.machine).mono (fun _ _ => id)
        fun m hm => .of_eq h.orderly hm) fun block m hm => ?_
      have released (m' : Machine) (hm' : w.machine.Follows m') :
          (Machine.release block m').Meets True (fun _ m => w.machine.Follows m)
            fun m => w.machine.Follows m :=
        (Machine.onMemory_calls _ m').mono
          (fun _ _ hc => ⟨hc ▸ hm'.proceeds, hc ▸ hm'.orderly⟩)
          fun _ hc => ⟨hc ▸ hm'.proceeds, hc ▸ hm'.orderly⟩
      exact Action.meets_ensuring ((Machine.pushFrame_frames _ m).mono
        (fun _ m' hm' => queued _ rfl (Frame.orderly_fresh _) m m' hm hm')
        fun m' hm' => .of_eq h.orderly (hm'.trans hm)) (fun _ => released) released
    | supply supply =>
      exact (Machine.pushFrame_frames _ w.machine).mono
        (fun _ m hm => queued _ rfl ⟨fun _ => rfl, fun _ => rfl, fun _ => rfl⟩
          w.machine m rfl hm)
        fun m hm => .of_eq h.orderly hm
  exact (note_faithful (P := fun _ => True) (F := fun _ => True) h (Session.meets_onMachine
    (step.mono (fun _ _ hm => ⟨hm, trivial⟩) fun _ hm => ⟨hm, trivial⟩))).mono
      (fun _ _ hv => hv.1) fun _ hv => hv.1

end Watched

/-- **Whatever a host does**, every moment follows the one before it. -/
theorem HostAct.watch_faithful {χ : Type} {natives : Natives χ} {w : Watched χ} (c : HostAct)
    (h : w.Faithful) :
    (c.watch natives w).Meets True (fun _ v => v.Faithful) fun v => v.Faithful := by
  cases c with
  | request r =>
    have alone : Watched.AtWork none w := ⟨h, by rintro _ ⟨⟩⟩
    exact Action.meets_bind ((Watched.note_atWork alone (r.perform_edits none w.machine)).mono
      (fun _ _ hv => hv.1) fun _ hv => hv.1) fun _ _ hv => hv
  | execute work => exact Watched.execute_faithful work h
  | cycle => exact Action.meets_bind (Watched.cycle_faithful h) fun _ _ hv => hv
  | run budget => exact Action.meets_bind (Watched.run_faithful budget h) fun _ _ hv => hv
  | complete => exact Action.meets_bind (Watched.runToCompletion_faithful h) fun _ _ hv => hv

end StackScript
