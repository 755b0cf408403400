import StackScript.Machine.Operations
import StackScript.Proofs.Outcome

/-!
# Exceptions hosted code may meet

Every exception but an internal one reports a mistake of hosted code or a lack of memory.  The
operations on memory, and those on a machine, raise no other exception from any state whatever, and
none by which a loop is left (`Action.Ordinary`).  The only ones that may raise an internal exception
are those that move an operator along the continuation protocol, or that take a text to be cut where
no character begins.

Giving something back raises nothing at all: what it raises is in every `R`.

There is one rule for each way of putting actions together.
-/

namespace StackScript

/-- Not a defect of the machine. -/
def Exception.Ordinary (e : Exception) : Prop := e.condition ≠ .internal

/-- Not a defect of the machine. -/
def Cause.Ordinary (c : Cause) : Prop := c.condition ≠ .internal

theorem Exception.Ordinary.not_isFatal {e : Exception} (h : e.Ordinary) :
    e.condition.isFatal = false :=
  Bool.eq_false_iff.2 fun hf => h (Condition.isFatal_iff.1 hf)

/-- What no operation of a machine raises: a defect, or a request to leave a loop. -/
def Condition.Common (c : Condition) : Prop := c ≠ .internal ∧ c ≠ .loopBreak

/-- What is raised when a stack cannot get or give what it is asked for. -/
def Condition.Strained (c : Condition) : Prop :=
  c = .memoryOverflow ∨ c = .limitCheck ∨ c = .stackUnderflow

theorem Condition.Strained.common {c : Condition} (h : c.Strained) : c.Common := by
  rcases h with rfl | rfl | rfl <;> exact ⟨nofun, nofun⟩

namespace Action

variable {σ τ α β : Type} {x : Action σ α} {R R' : Condition → Prop}

/-- The conditions of the exceptions the action raises are in `R`. -/
def Raises (R : Condition → Prop) (x : Action σ α) : Prop :=
  ∀ s e t, x s = .raised e t → R e.condition

/-- The action raises ordinary exceptions only, and does not ask for a loop to be left. -/
abbrev Ordinary (x : Action σ α) : Prop := x.Raises Condition.Common

theorem Raises.mono (hx : x.Raises R) (h : ∀ c, R c → R' c) : x.Raises R' :=
  fun s e t hs => h _ (hx s e t hs)

/-- What is raised, beside what else is known of the outcome. -/
theorem Raises.yields {lax : Prop} {P : α → σ → Prop} {F : σ → Prop} {s : σ} (hx : x.Raises R)
    (h : (x s).Meets lax P F) : (x s).Yields P fun e t => R e.condition ∧ F t := by
  cases hs : x s with
  | done a t => rw [hs] at h; exact h
  | raised e t => rw [hs] at h; exact ⟨hx s e t hs, h⟩
  | broken b => trivial

/-- An action that raises nothing. -/
theorem Raises.meets {lax : Prop} {P : α → σ → Prop} {F : σ → Prop} {s : σ}
    (hx : x.Raises fun _ => False) (h : (x s).Meets lax P F) :
    (x s).Meets lax P fun _ => False := by
  cases hs : x s with
  | done a t => rw [hs] at h; exact h
  | raised e t => exact (hx s e t hs).elim
  | broken b => rw [hs] at h; exact h

theorem raises_pure (a : α) : (pure a : Action σ α).Raises R := fun _ _ _ h => by cases h

theorem Raises.bind {f : α → Action σ β} (hx : x.Raises R) (hf : ∀ a, (f a).Raises R) :
    (x >>= f).Raises R := by
  intro s e t h
  rw [bind_apply] at h
  cases hs : x s with
  | done a u => rw [hs] at h; exact hf a u e t h
  | raised e' u => rw [hs] at h; cases h; exact hx s e _ hs
  | broken b => rw [hs] at h; cases h

theorem raises_raise {e : Exception} (he : R e.condition) : (raise e : Action σ α).Raises R := by
  rintro s _ t ⟨⟩
  exact he

theorem raises_fail {c : Cause} (hc : R c.condition) : (fail c : Action σ α).Raises R :=
  raises_raise hc

theorem raises_ofExcept {r : Except Cause α} (h : ∀ c, r = .error c → R c.condition) :
    (ofExcept r : Action σ α).Raises R := by
  cases r with
  | ok a => exact raises_pure a
  | error c => exact raises_fail (h c rfl)

theorem raises_ofSound (r : Except Breach α) : (ofSound r : Action σ α).Raises R := by
  intro s e t h
  cases r <;> cases h

theorem raises_get : Raises R (get : Action σ σ) := fun _ _ _ h => by cases h

theorem raises_modify (f : σ → σ) : Raises R (modify f : Action σ PUnit) :=
  fun _ _ _ h => by cases h

theorem raises_unfailing (x : Action σ α) (breach : Exception → Breach) :
    (x.unfailing breach).Raises R := by
  intro s e t h
  unfold unfailing at h
  split at h <;> cases h

theorem Raises.onRaise {clean : Action σ Unit} (hx : x.Raises R) (hc : clean.Raises R) :
    (x.onRaise clean).Raises R := by
  intro s e t h
  unfold Action.onRaise at h
  split at h
  · cases h
  · rename_i e' u hs
    exact (hc.bind fun _ => raises_raise (hx s e' u hs)) u e t h
  · cases h

theorem Raises.ensuring {clean : Action σ Unit} (hx : x.Raises R) (hc : clean.Raises R) :
    (x.ensuring clean).Raises R := by
  intro s e t h
  unfold Action.ensuring at h
  split at h
  · rename_i a u hs
    exact (hc.bind fun _ => raises_pure a) u e t h
  · rename_i e' u hs
    exact (hc.bind fun _ => raises_raise (hx s e' u hs)) u e t h
  · cases h

theorem Raises.zoom {get : τ → σ} {put : σ → τ → τ} (hx : x.Raises R) :
    (x.zoom get put).Raises R := by
  intro t e u h
  unfold Action.zoom at h
  split at h
  · cases h
  · rename_i e' s hs
    cases h
    exact hx _ e s hs
  · cases h

end Action

/-! ### Judging what is raised -/

namespace Outcome

variable {σ α : Type} {lax : Prop} {o : Outcome σ α} {P P' : α → σ → Prop} {F F' : σ → Prop}

/-- The outcome is in `P`, is an ordinary exception in `F`, or is a breach. -/
def Fair (o : Outcome σ α) (P : α → σ → Prop) (F : σ → Prop) : Prop :=
  match o with
  | .done a s => P a s
  | .raised e s => e.Ordinary ∧ F s
  | .broken _ => True

theorem Fair.mono (h : o.Fair P F) (hp : ∀ a s, P a s → P' a s) (hf : ∀ s, F s → F' s) :
    o.Fair P' F' := by
  cases o with
  | done a s => exact hp a s h
  | raised e s => exact ⟨h.1, hf s h.2⟩
  | broken b => trivial

theorem Fair.and (h : o.Fair P F) (h' : o.Meets lax P' F') :
    o.Fair (fun a s => P a s ∧ P' a s) fun s => F s ∧ F' s := by
  cases o with
  | done a s => exact ⟨h, h'⟩
  | raised e s => exact ⟨h.1, h.2, h'⟩
  | broken b => trivial

theorem Fair.meets (h : o.Fair P F) : o.Meets True P F := by
  cases o with
  | done a s => exact h
  | raised e s => exact h.2
  | broken b => trivial

/-- Nothing is raised. -/
theorem Meets.fair (h : o.Meets lax P fun _ => False) : o.Fair P F := by
  cases o with
  | done a s => exact h
  | raised e s => exact h.elim
  | broken b => trivial

end Outcome

namespace Action

variable {σ τ α β : Type} {lax : Prop} {x : Action σ α} {s : σ} {P : α → σ → Prop} {F : σ → Prop}

theorem Ordinary.fair (hx : x.Ordinary) (h : (x s).Meets lax P F) : (x s).Fair P F := by
  cases hs : x s with
  | done a t => rw [hs] at h; exact h
  | raised e t => rw [hs] at h; exact ⟨(hx s e t hs).1, h⟩
  | broken b => trivial

theorem fair_bind {f : α → Action σ β} {Q : β → σ → Prop} (hx : (x s).Fair P F)
    (hf : ∀ a t, P a t → (f a t).Fair Q F) : ((x >>= f) s).Fair Q F := by
  rw [bind_apply]
  cases h : x s with
  | done a t => rw [h] at hx; exact hf a t hx
  | raised e t => rw [h] at hx; exact hx
  | broken b => trivial

theorem fair_onRaise {M : σ → Prop} {clean : Action σ Unit} (hx : (x s).Fair P M)
    (hc : ∀ t, M t → (clean t).Fair (fun _ u => F u) F) : (x.onRaise clean s).Fair P F := by
  unfold onRaise
  cases h : x s with
  | done a t => rw [h] at hx; exact hx
  | raised e t =>
    rw [h] at hx
    exact fair_bind (f := fun _ => raise e) (hc t hx.2) fun _ u hu => ⟨hx.1, hu⟩
  | broken b => trivial

theorem fair_ensuring {B : α → σ → Prop} {M : σ → Prop} {clean : Action σ Unit}
    (hx : (x s).Fair B M) (hd : ∀ a t, B a t → (clean t).Fair (fun _ u => P a u) F)
    (hr : ∀ t, M t → (clean t).Fair (fun _ u => F u) F) : (x.ensuring clean s).Fair P F := by
  unfold ensuring
  cases h : x s with
  | done a t =>
    rw [h] at hx
    exact fair_bind (f := fun _ => Action.pure a) (hd a t hx) fun _ u hu => hu
  | raised e t =>
    rw [h] at hx
    exact fair_bind (f := fun _ => raise e) (hr t hx.2) fun _ u hu => ⟨hx.1, hu⟩
  | broken b => trivial

/-- A caught exception is ordinary. -/
theorem fair_attempt {Q : Except Exception α → σ → Prop} {E : σ → Prop} (hx : (x s).Fair P F)
    (hok : ∀ a t, P a t → Q (.ok a) t) (herror : ∀ e t, e.Ordinary → F t → Q (.error e) t) :
    (x.attempt s).Fair Q E := by
  unfold attempt
  cases h : x s with
  | done a t => rw [h] at hx; exact hok a t hx
  | raised e t => rw [h] at hx; exact herror e t hx.1 hx.2
  | broken b => trivial

theorem fair_zoom {get : τ → σ} {put : σ → τ → τ} {t : τ} {Q : α → τ → Prop} {E : τ → Prop}
    (hx : (x (get t)).Fair (fun a s => Q a (put s t)) fun s => E (put s t)) :
    (x.zoom get put t).Fair Q E := by
  unfold zoom
  cases h : x (get t) with
  | done a s => rw [h] at hx; exact hx
  | raised e s => rw [h] at hx; exact hx
  | broken b => trivial

end Action

open StackScript.Action

variable {R : Condition → Prop}

/-! ### The ledger and the heap -/

namespace Ledger

theorem strained_allocate (size : Size) (a : Account) :
    (allocate size a).Raises Condition.Strained := by
  intro l e t h
  unfold allocate check at h
  split at h
  · rename_i c hc
    split at hc
    · cases hc
      cases h
      exact .inl rfl
    · cases hc
  · cases h

theorem ordinary_allocate (size : Size) (a : Account) : (allocate size a).Ordinary :=
  (strained_allocate size a).mono fun _ => Condition.Strained.common

theorem raises_release (size : Size) (a : Account) : (release size a).Raises R := by
  intro l e t h
  unfold release at h
  split at h <;> cases h

theorem strained_addReference (text : String) :
    (addReference text).Raises Condition.Strained :=
  raises_get.bind fun l => by
    split
    · exact raises_modify _
    · exact (strained_allocate _ _).bind fun _ => raises_modify _

theorem raises_dropReference (text : String) : (dropReference text).Raises R :=
  raises_get.bind fun l => by
    split
    · exact fun _ _ _ h => by cases h
    · split
      · exact raises_modify _
      · exact (raises_modify _).bind fun _ => raises_release _ _

end Ledger

namespace Heap

theorem ordinary_allocate (object : Object) : (allocate object).Ordinary := by
  intro h e t hr
  unfold allocate at hr
  dsimp only at hr
  split at hr <;> cases hr

theorem raises_retain (handle : Handle) : (retain handle).Raises R := by
  intro h e t hr
  unfold retain at hr
  split at hr <;> cases hr

theorem raises_release (handle : Handle) : (release handle).Raises R := by
  intro h e t hr
  unfold release at hr
  split at hr
  · cases hr
  · split at hr
    · cases hr
    · split at hr <;> cases hr

theorem ordinary_checkOut (handle : Handle) : (checkOut handle).Ordinary := by
  intro h e t hr
  unfold checkOut at hr
  split at hr
  · cases hr
  · split at hr <;> cases hr

theorem raises_checkIn (handle : Handle) (object : Object) :
    (checkIn handle object).Raises R := by
  intro h e t hr
  unfold checkIn at hr
  split at hr
  · cases hr
  · split at hr <;> cases hr

end Heap

/-! ### References -/

namespace Memory

variable {α : Type}

theorem ordinary_onLedger {x : Action Ledger α} (hx : x.Ordinary) : (onLedger x).Ordinary :=
  hx.zoom

theorem ordinary_onHeap {x : Action Heap α} (hx : x.Ordinary) : (onHeap x).Ordinary := hx.zoom

theorem strained_retain (v : Value) : (retain v).Raises Condition.Strained := by
  unfold retain
  split
  · exact (Ledger.strained_addReference _).zoom
  · exact (Heap.raises_retain _).zoom
  · exact (Heap.raises_retain _).zoom
  · exact raises_pure ()

theorem ordinary_retain (v : Value) : (retain v).Ordinary :=
  (strained_retain v).mono fun _ => Condition.Strained.common

theorem raises_giveBack (object : Object) : (giveBack object).Raises R := by
  cases object with
  | array s => exact Ledger.raises_release _ _
  | dictionary d =>
    refine Raises.bind (x := d.entries.forM _) ?_ fun _ => Ledger.raises_release _ _
    induction d.entries with
    | nil => exact raises_pure _
    | cons entry rest ih =>
      exact (Ledger.raises_release _ _).bind fun _ => ih

theorem raises_giveUp (v : Value) : (giveUp v).Raises R := by
  unfold giveUp
  split
  case h_1 =>
    exact (Ledger.raises_dropReference _).zoom.bind fun _ => raises_pure _
  case h_2 | h_3 =>
    refine (Heap.raises_release _).zoom.bind fun object => ?_
    cases object with
    | none => exact raises_pure _
    | some object =>
      exact (raises_modify _).bind fun _ => (raises_giveBack object).zoom.bind fun _ =>
        raises_pure _
  case h_4 => exact raises_pure _

theorem raises_giveUpAll (fuel : Nat) (values : List Value) :
    Raises R (giveUpAll fuel values) := by
  intro m e t h
  fun_induction giveUpAll fuel values m with
  | case1 | case2 | case5 => cases h
  | case3 fuel m v rest freed m' hm ih => exact ih h
  | case4 fuel m v rest e' m' hm =>
    cases h
    exact raises_giveUp _ _ _ _ hm

theorem raises_release (v : Value) : (release v).Raises R := by
  intro m e t h
  unfold release at h
  split at h
  · cases h
  · exact raises_giveUpAll _ _ _ e t h
  · rename_i e' m' hm
    cases h
    exact raises_giveUp v m e t hm
  · cases h

theorem raises_releaseAll (values : List Value) : (releaseAll values).Raises R := by
  induction values with
  | nil => exact raises_pure ()
  | cons v rest ih => exact (raises_release v).bind fun _ => ih

theorem strained_retainAll (values : List Value) :
    (retainAll values).Raises Condition.Strained := by
  induction values with
  | nil => exact raises_pure ()
  | cons v rest ih => exact (strained_retain v).bind fun _ => ih.onRaise (raises_release v)

theorem ordinary_retainAll (values : List Value) : (retainAll values).Ordinary :=
  (strained_retainAll values).mono fun _ => Condition.Strained.common

theorem ordinary_retainTimes (v : Value) (count : Nat) : Ordinary (retainTimes v count) := by
  intro m e t h
  fun_induction retainTimes v count m with
  | case1 | case4 => cases h
  | case2 count m _ m' hm ih => exact ih h
  | case3 count m e' m' hm =>
    cases h
    exact ordinary_retain _ _ _ _ hm

end Memory

/-! ### Containers -/

open Memory

namespace Reserve

theorem ordinary_acquire (slot : Size) (account : Account) (initial increment : Nat) :
    (acquire slot account initial increment).Ordinary := by
  refine raises_get.bind fun m => (raises_ofExcept fun c hc => ?_).bind fun _ => ?_
  · unfold Ledger.check at hc
    split at hc <;> cases hc
    exact ⟨nofun, nofun⟩
  · split
    · exact (raises_fail ⟨nofun, nofun⟩).bind fun _ =>
        (ordinary_onLedger (Ledger.ordinary_allocate _ _)).bind fun _ => raises_pure _
    · exact (ordinary_onLedger (Ledger.ordinary_allocate _ _)).bind fun _ => raises_pure _

theorem strained_resize (r : Reserve) (capacity : Nat) :
    (r.resize capacity).Raises Condition.Strained := by
  unfold resize
  extract_lets shrink shrunk
  have shrinks (u : Unit) : (shrunk u).Raises Condition.Strained := by
    dsimp only [shrunk]
    split
    · exact (Ledger.raises_release _ _).zoom.bind fun _ => raises_pure _
    · exact raises_pure _
  split
  · exact (Ledger.strained_allocate _ _).zoom.bind shrinks
  · exact shrinks ()

theorem strained_exchange (r : Reserve) (length : Nat) (removed added : List Value) :
    (r.exchange length removed added).Raises Condition.Strained := by
  refine (raises_ofExcept fun c hc => ?_).bind fun capacity =>
    (strained_retainAll added).bind fun _ =>
      ((strained_resize r capacity).onRaise (raises_releaseAll added)).bind fun _ =>
        (raises_releaseAll removed).bind fun _ => raises_pure _
  unfold capacityFor at hc
  split at hc
  · cases hc
  · split at hc <;> cases hc
    exact .inr (.inl rfl)

theorem ordinary_exchange (r : Reserve) (length : Nat) (removed added : List Value) :
    (r.exchange length removed added).Ordinary :=
  (r.strained_exchange length removed added).mono fun _ => Condition.Strained.common

theorem raises_surrender (r : Reserve) : r.surrender.Raises R := (Ledger.raises_release _ _).zoom

end Reserve

namespace Sequence

theorem ordinary_acquire (slot : Size) (account : Account) (initial increment : Nat) :
    (acquire slot account initial increment).Ordinary :=
  (Reserve.ordinary_acquire _ _ _ _).bind fun _ => raises_pure _

theorem strained_exchange (s : Sequence) (drop : Nat) (values : List Value) :
    (s.exchange drop values).Raises Condition.Strained := by
  unfold exchange
  split
  · exact (raises_fail (.inr (.inr rfl))).bind fun _ =>
      (Reserve.strained_exchange _ _ _ _).bind fun _ => raises_pure _
  · exact (Reserve.strained_exchange _ _ _ _).bind fun _ => raises_pure _

theorem ordinary_exchange (s : Sequence) (drop : Nat) (values : List Value) :
    (s.exchange drop values).Ordinary :=
  (s.strained_exchange drop values).mono fun _ => Condition.Strained.common

theorem ordinary_set (s : Sequence) (index : Nat) (v : Value) : (s.set index v).Ordinary := by
  unfold set
  split
  · exact raises_fail ⟨nofun, nofun⟩
  · exact (ordinary_retain v).bind fun _ => (raises_release _).bind fun _ => raises_pure _

theorem ordinary_fill (s : Sequence) (v : Value) (count : Nat) : (s.fill v count).Ordinary := by
  unfold fill
  split
  · exact (raises_fail ⟨nofun, nofun⟩).bind fun _ =>
      (ordinary_retainTimes v count).bind fun _ => raises_pure _
  · exact Raises.bind (ordinary_retainTimes v count) fun _ => raises_pure _

theorem raises_dispose (s : Sequence) : s.dispose.Raises R :=
  (raises_unfailing _ _).bind fun _ => Reserve.raises_surrender _

end Sequence

theorem Dictionary.ordinary_define (d : Dictionary) (name : String) (v : Value) :
    (d.define name v).Ordinary := by
  unfold define
  split
  · exact (ordinary_retain v).bind fun _ => (raises_release _).bind fun _ => raises_pure _
  · exact (ordinary_onLedger (Ledger.ordinary_allocate _ _)).bind fun _ =>
      ((ordinary_retain v).onRaise (ordinary_onLedger (Ledger.raises_release _ _))).bind
        fun _ => raises_pure _

namespace Memory

theorem ordinary_store (object : Object) (account : Account) (trail : List String) :
    (store object account trail).Ordinary :=
  (ordinary_onHeap (Heap.ordinary_allocate _)).bind fun _ => (raises_modify _).bind fun _ =>
    raises_pure _

theorem ordinary_newArray (account : Account) (items : List Value) (trail : List String) :
    (newArray account items trail).Ordinary :=
  (Sequence.ordinary_acquire _ _ _ _).bind fun s =>
    ((s.ordinary_exchange 0 items).onRaise s.raises_dispose).bind fun _ => ordinary_store _ _ _

theorem ordinary_newFilledArray (account : Account) (length : Nat) (v : Value)
    (trail : List String) : (newFilledArray account length v trail).Ordinary :=
  (Sequence.ordinary_acquire _ _ _ _).bind fun s =>
    ((s.ordinary_fill v length).onRaise s.raises_dispose).bind fun _ => ordinary_store _ _ _

theorem ordinary_newDictionary (account : Account) (trail : List String) :
    (newDictionary account trail).Ordinary :=
  (ordinary_onLedger (Ledger.ordinary_allocate _ _)).bind fun _ => ordinary_store _ _ _

theorem ordinary_modifyObject {handle : Handle} {f : Object → Action Memory Object}
    (hf : ∀ object, (f object).Ordinary) : (modifyObject handle f).Ordinary :=
  (ordinary_onHeap (Heap.ordinary_checkOut handle)).bind fun object =>
    ((hf object).onRaise (ordinary_onHeap (Heap.raises_checkIn handle object))).bind
      fun changed => ordinary_onHeap (Heap.raises_checkIn handle changed)

theorem ordinary_setItem (handle : Handle) (index : Nat) (v : Value) :
    (setItem handle index v).Ordinary :=
  ordinary_modifyObject fun
    | .array s => (s.ordinary_set index v).bind fun _ => raises_pure _
    | .dictionary _ => fun _ _ _ h => by cases h

theorem ordinary_define (handle : Handle) (name : String) (v : Value) :
    (define handle name v).Ordinary :=
  ordinary_modifyObject fun
    | .dictionary d => (d.ordinary_define name v).bind fun _ => raises_pure _
    | .array _ => fun _ _ _ h => by cases h

end Memory

/-! ### Call frames -/

theorem PendingException.raises_discharge (p : PendingException) : p.discharge.Raises R :=
  (Ledger.raises_release _ _).zoom

theorem Frame.raises_dispose (f : Frame) : f.dispose.Raises R := by
  unfold dispose
  cases f.locals with
  | none =>
    cases f.stash with
    | none => exact raises_pure ()
    | some p => exact p.raises_discharge
  | some handle =>
    refine (raises_release _).bind fun _ => ?_
    cases f.stash with
    | none => exact raises_pure ()
    | some p => exact p.raises_discharge

namespace CallStack

theorem ordinary_push (c : CallStack) (f : Frame) : (c.push f).Ordinary :=
  (Reserve.ordinary_exchange _ _ _ _).bind fun _ => raises_pure _

theorem ordinary_pop (c : CallStack) : c.pop.Ordinary := by
  unfold pop
  split
  · exact raises_fail ⟨nofun, nofun⟩
  · exact (Reserve.ordinary_exchange _ _ _ _).bind fun _ =>
      (Frame.raises_dispose _).bind fun _ => raises_pure _

theorem strained_replaceTop (c : CallStack) (v : Value) :
    (c.replaceTop v).Raises Condition.Strained := by
  unfold replaceTop
  split
  · exact raises_fail (.inr (.inr rfl))
  · exact (Reserve.strained_exchange _ _ _ _).bind fun _ =>
      (Frame.raises_dispose _).bind fun _ => raises_pure _

end CallStack

/-! ### The machine -/

namespace Machine

variable {α : Type}

/-- Looking a name up fails only if the name is not bound. -/
theorem condition_of_lookup {m : Machine} {name : String} {c : Cause}
    (h : (m.lookup name).run = .ok (.error c)) : c.condition = .undefinedName := by
  unfold Machine.lookup at h
  cases hl : m.locate name with
  | error b => rw [hl] at h; cases h
  | ok found =>
    rw [hl] at h
    cases found <;> cases h
    rfl

theorem raises_onMemory {x : Action Memory α} (hx : x.Raises R) : (onMemory x).Raises R := hx.zoom

theorem raises_onOperands {f : Sequence → Action Memory Sequence} (hf : ∀ s, (f s).Raises R) :
    (onOperands f).Raises R :=
  raises_get.bind fun _ => (raises_onMemory (hf _)).bind fun _ => raises_modify _

theorem raises_onScopes {f : Sequence → Action Memory Sequence} (hf : ∀ s, (f s).Raises R) :
    (onScopes f).Raises R :=
  raises_get.bind fun _ => (raises_onMemory (hf _)).bind fun _ => raises_modify _

theorem raises_onCalls {f : CallStack → Action Memory CallStack} (hf : ∀ c, (f c).Raises R) :
    (onCalls f).Raises R :=
  raises_get.bind fun _ => (raises_onMemory (hf _)).bind fun _ => raises_modify _

theorem strained_exchangeOperands (drop : Nat) (values : List Value) :
    (exchangeOperands drop values).Raises Condition.Strained :=
  raises_onOperands fun s => s.strained_exchange drop values

theorem ordinary_exchangeOperands (drop : Nat) (values : List Value) :
    (exchangeOperands drop values).Ordinary :=
  (strained_exchangeOperands drop values).mono fun _ => Condition.Strained.common

theorem raises_release (v : Value) : (release v).Raises R := (Memory.raises_release v).zoom

theorem ordinary_adopt (drop : Nat) (created : Value) : (adopt drop created).Ordinary :=
  (ordinary_exchangeOperands drop _).ensuring (raises_release created)

theorem ordinary_clearOperands : clearOperands.Ordinary :=
  raises_onOperands fun _ => raises_unfailing _ _

theorem ordinary_createArray (access : Access) (items : List Value) :
    (createArray access items).Ordinary :=
  raises_get.bind fun _ => (raises_ofSound _).bind fun _ =>
    (raises_onMemory (ordinary_newArray _ _ _)).bind fun _ => raises_pure _

theorem ordinary_createFilledArray (access : Access) (length : Nat) (v : Value) :
    (createFilledArray access length v).Ordinary :=
  raises_get.bind fun _ => (raises_ofSound _).bind fun _ =>
    (raises_onMemory (ordinary_newFilledArray _ _ _ _)).bind fun _ => raises_pure _

theorem ordinary_createDictionary : createDictionary.Ordinary :=
  raises_get.bind fun _ => (raises_ofSound _).bind fun _ =>
    (raises_onMemory (ordinary_newDictionary _ _)).bind fun _ => raises_pure _

theorem ordinary_setItem (container : Value) (index : Nat) (v : Value) :
    (setItem container index v).Ordinary := by
  unfold setItem
  split
  · exact raises_onMemory (Memory.ordinary_setItem _ _ _)
  · exact raises_fail ⟨nofun, nofun⟩
  · exact raises_fail ⟨nofun, nofun⟩

theorem ordinary_define (container : Value) (name : String) (v : Value) :
    (define container name v).Ordinary := by
  unfold define
  split
  · exact raises_onMemory (Memory.ordinary_define _ _ _)
  · exact raises_fail ⟨nofun, nofun⟩
  · exact raises_fail ⟨nofun, nofun⟩

theorem ordinary_openScope (v : Value) : (openScope v).Ordinary := by
  unfold openScope
  split
  · exact raises_onScopes fun s => s.ordinary_exchange 0 [v]
  · exact raises_fail ⟨nofun, nofun⟩

theorem ordinary_closeScope : closeScope.Ordinary :=
  raises_get.bind fun m => by
    have close : (onScopes fun s => s.pop 1).Ordinary :=
      raises_onScopes fun s => s.ordinary_exchange 1 []
    split
    · exact (raises_fail ⟨nofun, nofun⟩).bind fun _ => close
    · exact close

theorem ordinary_pushFrame (f : Frame) : (onCalls fun c => c.push f).Ordinary :=
  raises_onCalls fun c => c.ordinary_push f

theorem ordinary_call (v : Value) : (call v).Ordinary := ordinary_pushFrame _

theorem ordinary_popFrame : popFrame.Ordinary := raises_onCalls CallStack.ordinary_pop

theorem strained_replaceFrame (v : Value) : (replaceFrame v).Raises Condition.Strained :=
  raises_onCalls fun c => c.strained_replaceTop v

theorem ordinary_replaceFrame (v : Value) : (replaceFrame v).Ordinary :=
  (strained_replaceFrame v).mono fun _ => Condition.Strained.common

theorem raises_updateFrame (index : Nat) (f : Frame → Frame) :
    (updateFrame index f).Raises R :=
  raises_get.bind fun _ => (raises_ofSound _).bind fun _ => raises_modify _

theorem raises_discharge (p : Option PendingException) : (discharge p).Raises R := by
  cases p with
  | none => exact raises_pure ()
  | some p => exact p.raises_discharge.zoom

theorem raises_intercept : intercept.Raises R :=
  raises_get.bind fun m => by
    split
    · exact raises_pure none
    · exact (raises_discharge _).bind fun _ => (raises_modify _).bind fun _ =>
        raises_pure m.exception

/-- A frame is there, or an invariant is violated. -/
theorem ordinary_frame_bind {r : Except Breach Frame} {k : Frame → Action Machine α}
    (hk : ∀ f, (k f).Ordinary) : ((liftM r : Action Machine Frame) >>= k).Ordinary :=
  (raises_ofSound r).bind hk

theorem ordinary_ensureLocals (index : Nat) : (ensureLocals index).Ordinary :=
  raises_get.bind fun m => ordinary_frame_bind fun f => by
    split
    · exact raises_pure _
    · exact (raises_onMemory (ordinary_newDictionary _ _)).bind fun _ =>
        (raises_updateFrame _ _).bind fun _ => raises_pure _

theorem ordinary_setLocal (index : Nat) (name : String) (v : Value) :
    (setLocal index name v).Ordinary :=
  (ordinary_ensureLocals index).bind fun _ => raises_onMemory (Memory.ordinary_define _ _ _)

theorem ordinary_stash (index : Nat) : (stash index).Ordinary :=
  raises_get.bind fun m => by
    split
    · exact raises_pure ()
    · split
      · exact raises_pure ()
      · exact ordinary_frame_bind fun f => (raises_discharge _).bind fun _ =>
          (raises_updateFrame _ _).bind fun _ => raises_modify _

theorem ordinary_restore (index : Nat) : (restore index).Ordinary :=
  raises_get.bind fun m => ordinary_frame_bind fun f => by
    split
    · exact raises_pure ()
    · refine (raises_updateFrame _ _).bind fun _ => ?_
      split
      · exact raises_discharge _
      · exact raises_modify _

end Machine

end StackScript
