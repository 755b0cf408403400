import StackScript.Proofs.Machine.Refusals
import StackScript.Proofs.Memory.Reaching
import StackScript.Proofs.Ordinary

/-!
# What is granted unless memory is short

Operations on memory that are asked for what is there fail for one reason only: an allocation is
refused.  `o.Grants P` says that the outcome is a success in `P`, or that an allocation was refused, or
a breach; `Action.Spends` that an action never fails for another reason.

An operation whose outcome is granted, that violates no invariant, and to which no allocation is
refused, is done (`Outcome.Grants.done`).
-/

namespace StackScript

open StackScript.Action

namespace Outcome

variable {σ α : Type} {o : Outcome σ α} {P P' : α → σ → Prop}

/-- The outcome is in `P`, an allocation was refused, or it is a breach. -/
abbrev Grants (o : Outcome σ α) (P : α → σ → Prop) : Prop :=
  o.Yields P fun e _ => e.condition = .memoryOverflow

theorem Grants.mono (h : o.Grants P) (hp : ∀ a s, P a s → P' a s) : o.Grants P' :=
  Yields.mono h hp fun _ _ => id

/-- Beside what is known of every outcome. -/
theorem Grants.also {L : Prop} {F : σ → Prop} (h : o.Grants P) (h' : o.Meets L P' F) :
    o.Grants fun a s => P a s ∧ P' a s :=
  (h.and h'.yields).mono (fun _ _ => id) fun _ _ h => h.1

theorem Meets.granted {L : Prop} {F : σ → Prop} (h : o.Meets L P F) (h' : o.Grants P') :
    o.Meets L (fun a s => P a s ∧ P' a s) F := by
  cases o with
  | done a s => exact ⟨h, h'⟩
  | raised e s => exact h
  | broken b => exact h

theorem Grants.done {F : σ → Prop} (h : o.Grants P) (h' : o.Meets False P' F)
    (ho : o.overflows = false) : ∃ a s, o = .done a s ∧ P a s ∧ P' a s := by
  cases o with
  | done a s => exact ⟨a, s, rfl, h, h'⟩
  | raised e s =>
    have overflow : e.condition = .memoryOverflow := h
    rw [overflows, overflow] at ho
    cases ho
  | broken b => exact h'.elim

end Outcome

namespace Action

variable {σ τ α β : Type} {x : Action σ α} {s : σ} {P : α → σ → Prop}

/-- The action fails only if an allocation is refused. -/
abbrev Spends (x : Action σ α) : Prop := x.Raises (· = .memoryOverflow)

theorem Spends.grants {L : Prop} {F : σ → Prop} (hx : x.Spends) (h : (x s).Meets L P F) :
    (x s).Grants P :=
  (hx.yields h).mono (fun _ _ => id) fun _ _ h => h.1

theorem spends_of_grants (h : ∀ s, (x s).Grants fun _ _ => True) : x.Spends := by
  intro s e t hs
  have granted := h s
  rwa [hs] at granted

theorem grants_bind {f : α → Action σ β} {Q : β → σ → Prop} (hx : (x s).Grants P)
    (hf : ∀ a t, P a t → (f a t).Grants Q) : ((x >>= f) s).Grants Q :=
  yields_bind hx hf

/-- Cleaning up raises nothing. -/
theorem grants_ensuring {clean : Action σ Unit} {B : α → σ → Prop} (hx : (x s).Grants B)
    (hc : clean.Raises fun _ => False)
    (hd : ∀ a t, B a t → (clean t).Yields (fun _ u => P a u) fun _ _ => True) :
    (x.ensuring clean s).Grants P := by
  refine yields_ensuring hx (fun a t ht => ?_) fun e t he => ?_
  · cases hclean : clean t with
    | done r u => have := hd a t ht; rw [hclean] at this; exact this
    | raised e u => exact (hc t e u hclean).elim
    | broken b => trivial
  · cases hclean : clean t with
    | done r u => exact he
    | raised e u => exact (hc t e u hclean).elim
    | broken b => trivial

theorem grants_onRaise {clean : Action σ Unit} (hx : (x s).Grants P)
    (hc : clean.Raises fun _ => False) : (x.onRaise clean s).Grants P := by
  refine yields_onRaise hx fun e t he => ?_
  cases hclean : clean t with
  | done r u => exact he
  | raised e u => exact (hc t e u hclean).elim
  | broken b => trivial

/-- What an attempt returns says whether an allocation was refused. -/
theorem grants_attempt (hx : (x s).Grants P) : (x.attempt s).Grants fun r t =>
    (∃ a, r = .ok a ∧ P a t) ∨ ∃ e, r = .error e ∧ e.condition = .memoryOverflow := by
  unfold attempt
  cases hs : x s with
  | done a t => rw [hs] at hx; exact .inl ⟨a, rfl, hx⟩
  | raised e t => rw [hs] at hx; exact .inr ⟨e, rfl, hx⟩
  | broken b => trivial

theorem grants_zoom {get : τ → σ} {put : σ → τ → τ} {t : τ} {Q : α → τ → Prop}
    (hx : (x (get t)).Grants fun a s => Q a (put s t)) : (x.zoom get put t).Grants Q :=
  yields_zoom hx

end Action

/-! ### References and slots -/

namespace Ledger

theorem spends_allocate (size : Size) (a : Account) : (allocate size a).Spends := by
  intro l e t h
  unfold allocate check at h
  split at h
  · rename_i hc
    split at hc <;> cases hc
    cases h
    rfl
  · cases h

theorem spends_addReference (text : String) : (addReference text).Spends := by
  refine raises_get.bind fun l => ?_
  split
  · exact raises_modify _
  · exact (spends_allocate _ _).bind fun _ => raises_modify _

end Ledger

namespace Memory

theorem spends_retain (v : Value) : (retain v).Spends := by
  unfold retain
  split
  · exact (Ledger.spends_addReference _).zoom
  · exact (Heap.raises_retain _).zoom
  · exact (Heap.raises_retain _).zoom
  · exact raises_pure ()

theorem spends_retainAll (values : List Value) : (retainAll values).Spends := by
  induction values with
  | nil => exact raises_pure ()
  | cons v rest ih => exact (spends_retain v).bind fun _ => ih.onRaise (raises_release v)

end Memory

namespace Reserve

variable {r : Reserve}

theorem spends_resize (r : Reserve) (capacity : ℕ) : (r.resize capacity).Spends := by
  unfold resize
  extract_lets shrink shrunk
  have shrinks (u : Unit) : (shrunk u).Spends := by
    dsimp only [shrunk]
    split
    · exact (Ledger.raises_release _ _).zoom.bind fun _ => raises_pure _
    · exact raises_pure _
  split
  · exact (Ledger.spends_allocate _ _).zoom.bind shrinks
  · exact shrinks ()

/-- There are slots for any number of items if slots can be added. -/
theorem exists_capacityFor (hr : r.increment ≠ 0) (length : ℕ) :
    ∃ c, r.capacityFor length = .ok c := by
  unfold capacityFor
  rw [if_neg hr]
  split <;> exact ⟨_, rfl⟩

/-- Slots and references change hands if there are as many slots as needed. -/
theorem spends_exchange {length : ℕ} {removed added : List Value}
    (hr : ∃ c, r.capacityFor (length - removed.length + added.length) = .ok c) :
    (r.exchange length removed added).Spends := by
  obtain ⟨c, hc⟩ := hr
  refine (raises_ofExcept fun e he => ?_).bind fun capacity =>
    (Memory.spends_retainAll added).bind fun _ =>
      ((spends_resize r capacity).onRaise (Memory.raises_releaseAll added)).bind fun _ =>
        (Memory.raises_releaseAll removed).bind fun _ => raises_pure _
  rw [hc] at he
  cases he

theorem spends_acquire (slot : Size) (account : Account) (initial increment : ℕ) :
    (acquire slot account initial increment).Spends := by
  have granted : (do
      Memory.onLedger (Ledger.allocate (slot.times initial) account)
      return ⟨slot, account, initial, increment, initial⟩ : Action Memory Reserve).Spends :=
    (Ledger.spends_allocate _ _).zoom.bind fun _ => raises_pure _
  refine raises_get.bind fun m => (raises_ofExcept fun c hc => ?_).bind fun _ => ?_
  · unfold Ledger.check at hc
    split at hc <;> cases hc
    rfl
  · split
    · exact (raises_fail (show Cause.condition (.unreservable initial) = .memoryOverflow from rfl)).bind
        fun _ => granted
    · exact granted

/-- New slots are those that are asked for. -/
theorem acquire_acquires (slot : Size) (account : Account) (initial increment : ℕ) (m : Memory) :
    (acquire slot account initial increment m).Meets True
      (fun r _ => r = ⟨slot, account, initial, increment, initial⟩) fun _ => True := by
  rw [acquire_eq]
  split
  · trivial
  · split
    · trivial
    · exact rfl

end Reserve

/-! ### Containers -/

open Memory

namespace Sequence

variable {s : Sequence} {drop : ℕ} {values : List Value}

theorem spends_exchange (hdrop : drop ≤ s.length)
    (hs : ∃ c, s.reserve.capacityFor (s.length - drop + values.length) = .ok c) :
    (s.exchange drop values).Spends := by
  unfold exchange
  rw [if_neg (by omega)]
  refine (Reserve.spends_exchange ?_).bind fun _ => raises_pure _
  rwa [List.length_reverse, List.length_take, min_eq_left (by exact hdrop)]

/-- Items at the top change hands. -/
theorem exchange_grants (hdrop : drop ≤ s.length) (hs : s.reserve.increment ≠ 0) (m : Memory) :
    (s.exchange drop values m).Grants fun s' m' =>
      s'.items = values.reverse ++ s.items.drop drop ∧ m.Sheds m' :=
  ((spends_exchange hdrop (Reserve.exists_capacityFor hs _)).grants
    (s.exchange_items drop values m)).also (Respects.respects (R := Sheds) m)

/-- Items are pushed, and no container goes. -/
theorem push_grants (hs : s.reserve.increment ≠ 0) (m : Memory) :
    (s.exchange 0 values m).Grants fun s' m' =>
      s'.items = values.reverse ++ s.items ∧ m.Recounts m' :=
  (spends_exchange (Nat.zero_le _) (Reserve.exists_capacityFor hs _)).grants
    (s.push_recounts values m)

end Sequence

namespace Memory

variable {m : Memory}

/-- A reference is taken. -/
theorem retainAll_grants (values : List Value) (m : Memory) :
    (retainAll values m).Grants fun _ m' => m.Recounts m' :=
  (spends_retainAll values).grants (retainAll_recounts values m)

theorem raises_store {R : Condition → Prop} (object : Object) (account : Account)
    (trail : List String) : (store object account trail).Raises R := by
  refine Raises.bind (Raises.zoom fun h e t hs => ?_) fun _ => (raises_modify _).bind fun _ =>
    raises_pure _
  unfold Heap.allocate at hs
  cases hfree : h.free <;> rw [hfree] at hs <;> cases hs

theorem spends_newArray (account : Account) (items : List Value) (trail : List String) :
    (newArray account items trail).Spends := by
  refine spends_of_grants fun m => ?_
  -- an array is given the slots it needs from the start
  have acquired : (Sequence.acquire Sequence.valueSlot account items.length 0 m).Grants
      fun s _ => s = ⟨⟨Sequence.valueSlot, account, items.length, 0, items.length⟩, []⟩ := by
    have spends : (Sequence.acquire Sequence.valueSlot account items.length 0).Spends :=
      (Reserve.spends_acquire _ _ _ _).bind fun _ => raises_pure _
    exact spends.grants (L := True) (F := fun _ => True) (meets_bind
      (Reserve.acquire_acquires _ account items.length 0 m) fun _ _ hr => hr ▸ rfl)
  refine grants_bind acquired ?_
  rintro _ m₁ rfl
  have fits : ∃ c, (⟨Sequence.valueSlot, account, items.length, 0, items.length⟩ :
      Reserve).capacityFor (0 - 0 + items.length) = .ok c :=
    ⟨items.length, if_pos (by simp)⟩
  refine grants_bind (grants_onRaise ((Sequence.spends_exchange (Nat.zero_le _) fits).grants
    (Outcome.meets_any _)) (Sequence.raises_dispose _)) fun s m₂ _ => ?_
  exact Spends.grants (raises_store _ _ _) (Outcome.meets_any _)

/-- A new array holds the items it is made of. -/
theorem newArray_granted (hw : m.heap.WellFormed) (account : Account) (items : List Value)
    (trail : List String) : (newArray account items trail m).Grants fun i m' =>
      ∃ s : Sequence, s.toList = items ∧ m.heap.Stores i (.array s) m'.heap :=
  (spends_newArray account items trail).grants (newArray_stores hw account items trail)

/-- A new dictionary is empty. -/
theorem newDictionary_granted (hw : m.heap.WellFormed) (account : Account) (trail : List String) :
    (newDictionary account trail m).Grants fun i m' =>
      m.heap.Stores i (.dictionary { account := account }) m'.heap :=
  Spends.grants ((Ledger.spends_allocate _ _).zoom.bind fun _ => raises_store _ _ _)
    (newDictionary_stores hw account trail)

end Memory

/-! ### Objects that are replaced -/

namespace Heap

variable {h h' : Heap} {i j : Handle} {P Q : Object → Prop}

/-- Whatever object is in the cell has the property. -/
def Shows (h : Heap) (i : Handle) (P : Object → Prop) : Prop := ∀ o, h.object? i = some o → P o

/-- An object with the property has taken the place of one, and others may have gone. -/
structure Replaces (h : Heap) (i : Handle) (P : Object → Prop) (h' : Heap) : Prop where
  others : ∀ j, j ≠ i → h'.content? j = none ∨ h'.content? j = h.content? j
  shows : h'.Shows i P

theorem Shows.of_content? (hs : h.Shows j P)
    (hj : h'.content? j = none ∨ h'.content? j = h.content? j) : h'.Shows j P := by
  intro o ho
  rw [object?_eq_join] at ho
  rcases hj with hj | hj
  · rw [hj] at ho
    cases ho
  · rw [hj, ← object?_eq_join] at ho
    exact hs o ho

theorem Shows.sheds (hs : h.Shows j P) (hh : h.Sheds h') : h'.Shows j P := hs.of_content? (hh j)

theorem Replaces.mono (hr : h.Replaces i P h') (hp : ∀ o, P o → Q o) : h.Replaces i Q h' :=
  ⟨hr.others, fun o ho => hp o (hr.shows o ho)⟩

theorem Replaces.shows_of_ne (hr : h.Replaces i P h') (hj : j ≠ i) (hs : h.Shows j Q) :
    h'.Shows j Q :=
  hs.of_content? (hr.others j hj)

/-- Only what is in the container of the handle has changed. -/
theorem Replaces.drifts (hr : h.Replaces i P h') : h.Drifts (· = i) h' := by
  intro j hj hne
  have same := (hr.others j hne).resolve_left (live_iff_content?.1 hj)
  exact ⟨(live_iff_of_content? same).1 hj, same⟩

theorem Stores.shows {o : Object} (hs : h.Stores i o h') (ho : P o) : h'.Shows i P := by
  intro o' ho'
  rw [object?_eq_join, hs.content i, if_pos rfl] at ho'
  cases ho'
  exact ho

theorem Stores.shows_of_ne {o : Object} (hs : h.Stores i o h') (hj : j ≠ i) (hq : h.Shows j Q) :
    h'.Shows j Q :=
  hq.of_content? (.inr ((hs.content j).trans (if_neg hj)))

end Heap

/-- The object is an array of these items. -/
def Object.Lists (items : List Value) (o : Object) : Prop :=
  ∃ s : Sequence, o = .array s ∧ s.toList = items

namespace Memory

variable {m : Memory} {i : Handle}

/-- An object is replaced as its modification says. -/
theorem modifyObject_grants {f : Object → Action Memory Object} {P : Object → Prop}
    (hsheds : ∀ o, Respects Sheds (f o))
    (hf : ∀ o, m.heap.object? i = some o → ∀ m₁, (f o m₁).Grants fun o' _ => P o') :
    (modifyObject i f m).Grants fun _ m' => m.heap.Replaces i P m'.heap := by
  unfold modifyObject
  rcases checkOut_cases i m with ⟨b, out⟩ | ⟨c, o, hc, hco, out⟩
  · rw [Action.bind_apply, out]
    trivial
  · have ho : m.heap.object? i = some o := (Heap.object?_of_cell? hc).trans hco
    rw [Action.bind_done out]
    refine grants_bind (grants_onRaise ((hf o ho _).also ((hsheds o).respects _))
      (Heap.raises_checkIn i o).zoom) fun o' m₁ ⟨hp, sheds⟩ => ?_
    have back : (onHeap (Heap.checkIn i o')).Spends := (Heap.raises_checkIn i o').zoom
    refine (back.grants (checkIn_replaces i o' m₁)).mono fun _ m' ⟨object, same⟩ =>
      ⟨fun j hj => ?_, fun o'' ho'' => ?_⟩
    · rw [same j hj]
      exact others_of_sheds hc sheds j hj
    · rw [object] at ho''
      cases ho''
      exact hp

/-- An item takes the place of another one. -/
theorem setItem_replaces {P : Sequence → Prop} {index : ℕ} {v : Value}
    (hs : m.heap.Shows i fun o => ∃ s, o = .array s ∧ P s) (hindex : ∀ s, P s → index < s.length) :
    (setItem i index v m).Grants fun _ m' => m.heap.Replaces i
      (fun o => ∃ s, P s ∧ o = .array (s.replace index v)) m'.heap := by
  refine modifyObject_grants (fun o => by cases o <;> infer_instance) fun o ho m₁ => ?_
  obtain ⟨s, rfl, hp⟩ := hs o ho
  dsimp only
  obtain ⟨previous, hprevious⟩ := Sequence.exists_get? (hindex s hp)
  have spends : (s.set index v).Spends := by
    unfold Sequence.set
    rw [hprevious]
    exact (spends_retain v).bind fun _ => (raises_release previous).bind fun _ => raises_pure _
  have replaced : (s.set index v m₁).Meets True (fun s' _ => s' = s.replace index v) fun _ => True := by
    unfold Sequence.set
    rw [hprevious]
    exact meets_bind (Outcome.meets_any _) fun _ _ _ =>
      meets_bind (Outcome.meets_any _) fun _ _ _ => rfl
  refine grants_bind (spends.grants replaced) ?_
  rintro _ m₂ rfl
  exact ⟨s, hp, rfl⟩

/-- An item takes the place of another one in the list of the items. -/
theorem setItem_grants {items : List Value} {index : ℕ} {v : Value}
    (hitems : m.heap.Shows i (Object.Lists items)) (hindex : index < items.length) :
    (setItem i index v m).Grants fun _ m' =>
      m.heap.Replaces i (Object.Lists (items.set index v)) m'.heap := by
  have inside (s : Sequence) (hs : s.toList = items) : index < s.length := by
    rwa [← hs, Sequence.toList, List.length_reverse] at hindex
  refine (setItem_replaces hitems inside).mono fun _ m' replaced => replaced.mono ?_
  rintro _ ⟨s, rfl, rfl⟩
  exact ⟨_, rfl, s.toList_replace index v⟩

/-- A name is bound in a dictionary. -/
theorem define_grants {P : Dictionary → Prop} {name : String} {v : Value}
    (hd : m.heap.Shows i fun o => ∃ d, o = .dictionary d ∧ P d) :
    (define i name v m).Grants fun _ m' => m.heap.Replaces i (fun o => ∃ d, P d ∧
      o = .dictionary { d with entries := d.entries.put name v }) m'.heap := by
  refine modifyObject_grants (fun o => by cases o <;> infer_instance) fun o ho m₁ => ?_
  obtain ⟨d, rfl, hp⟩ := hd o ho
  have spends : (d.define name v).Spends := by
    unfold Dictionary.define
    cases d.get? name with
    | some previous =>
      exact (spends_retain v).bind fun _ => (raises_release previous).bind fun _ => raises_pure _
    | none =>
      exact (Ledger.spends_allocate _ _).zoom.bind fun _ =>
        ((spends_retain v).onRaise (Ledger.raises_release _ _).zoom).bind fun _ => raises_pure _
  have defined : (d.define name v m₁).Meets True
      (fun d' _ => d' = { d with entries := d.entries.put name v }) fun _ => True := by
    unfold Dictionary.define
    cases d.get? name <;>
      exact meets_bind (Outcome.meets_any _) fun _ _ _ => meets_bind (Outcome.meets_any _) fun _ _ _ => rfl
  refine grants_bind (spends.grants defined) ?_
  rintro _ m₂ rfl
  exact ⟨d, hp, rfl⟩

end Memory

end StackScript
