import Mathlib.Order.Defs.Unbundled
import StackScript.Proofs.Memory.Modification
import StackScript.Proofs.Peaks

/-!
# What becomes of the contents of cells

An object changes in two ways only: a value is stored in it where it stands (`Memory.setItem`,
`Memory.define`), or its cell is given to another object after it has gone.  All other operations on
containers leave the objects alone; they change counts, or let cells go.

* `Action.Respects`: whatever the action does, a relation holds between the states before and after;
  there is one rule for each way of putting actions together;
* `Heap.Recounts`: nothing but counts changes;
* `Heap.Stores`: an object has got an empty cell;
* `Heap.Rewrites`: one object has been replaced, and others may have gone.
-/

namespace StackScript

theorem Outcome.meets_any {σ α : Type} (o : Outcome σ α) :
    o.Meets True (fun _ _ => True) fun _ => True :=
  meets_of_forall (fun _ _ => trivial) fun _ => trivial

/-! ### Relations that actions respect -/

namespace Action

variable {σ τ α β : Type}

/-- The state an action leaves, if it leaves any, is related to the one it was given. -/
class Respects (R : σ → σ → Prop) (x : Action σ α) : Prop where
  respects : ∀ s, (x s).Meets True (fun _ t => R s t) (R s)

section

variable {R R' : σ → σ → Prop} {x : Action σ α} {f : α → Action σ β} {clean : Action σ Unit}

theorem Respects.mono (hx : Respects R x) (h : ∀ s t, R s t → R' s t) : Respects R' x :=
  ⟨fun s => (hx.respects s).mono (fun _ t => h s t) (h s)⟩

variable [IsPreorder σ R]

theorem Respects.trans [Respects R x] {s t : σ} (h : R s t) :
    (x t).Meets True (fun _ u => R s u) (R s) :=
  (Respects.respects (R := R) (x := x) t).mono (fun _ _ h' => trans_of R h h')
    fun _ h' => trans_of R h h'

instance (a : α) : Respects R (pure a : Action σ α) := ⟨refl_of R⟩

instance (e : Exception) : Respects R (raise e : Action σ α) := ⟨refl_of R⟩

instance (c : Cause) : Respects R (fail c : Action σ α) := ⟨refl_of R⟩

instance (b : Breach) : Respects R (breach b : Action σ α) := ⟨fun _ => trivial⟩

instance (r : Except Cause α) : Respects R (ofExcept r : Action σ α) :=
  ⟨fun s => by cases r <;> exact refl_of R s⟩

instance (r : Except Breach α) : Respects R (ofSound r : Action σ α) :=
  ⟨fun s => by cases r <;> first | exact refl_of R s | trivial⟩

instance (r : Except Breach α) : Respects R (liftM r : Action σ α) :=
  inferInstanceAs (Respects R (ofSound r))

instance : Respects R (get : Action σ σ) := ⟨refl_of R⟩

instance [Respects R x] [∀ a, Respects R (f a)] : Respects R (x >>= f) where
  respects s := meets_bind (Respects.respects s) fun _ _ => Respects.trans

theorem Respects.bind (hx : Respects R x) (hf : ∀ a, Respects R (f a)) : Respects R (x >>= f) :=
  inferInstance

instance {c : Prop} [Decidable c] {y : Action σ α} [Respects R x] [Respects R y] :
    Respects R (if c then x else y) := by
  split <;> infer_instance

instance [Respects R x] : Respects R x.attempt where
  respects s := meets_attempt ((Respects.respects s).mono (fun _ _ => id) fun _ h _ => h)

instance [Respects R x] [Respects R clean] : Respects R (x.onRaise clean) where
  respects s := meets_onRaise (Respects.respects s) fun _ => Respects.trans

instance [Respects R x] [Respects R clean] : Respects R (x.ensuring clean) where
  respects s := meets_ensuring (Respects.respects s) (fun _ _ => Respects.trans)
    fun _ => Respects.trans

instance (breach : Exception → Breach) [Respects R x] : Respects R (x.unfailing breach) where
  respects s := by
    have h := Respects.respects (R := R) (x := x) s
    unfold unfailing
    cases hs : x s with
    | done a t => rw [hs] at h; exact h
    | raised e t => trivial
    | broken b => trivial

end

theorem respects_modify {R : σ → σ → Prop} {g : σ → σ} (hg : ∀ s, R s (g s)) :
    Respects R (modify g : Action σ PUnit) := ⟨hg⟩

end Action

open StackScript.Action

/-! ### Heaps -/

namespace Heap

variable {h h₁ h₂ h₃ : Heap} {i : Handle}

/-- Counts change, but neither cells nor objects do. -/
structure Recounts (h₁ h₂ : Heap) : Prop where
  content : ∀ i, h₂.content? i = h₁.content? i
  wellFormed : h₁.WellFormed → h₂.WellFormed

theorem Recounts.refl (h : Heap) : h.Recounts h := ⟨fun _ => rfl, id⟩

theorem Recounts.trans (h₁₂ : h₁.Recounts h₂) (h₂₃ : h₂.Recounts h₃) : h₁.Recounts h₃ :=
  ⟨fun i => (h₂₃.content i).trans (h₁₂.content i), h₂₃.wellFormed ∘ h₁₂.wellFormed⟩

theorem Recounts.sheds (h : h₁.Recounts h₂) : h₁.Sheds h₂ := fun i => .inr (h.content i)

theorem retain_recounts (i : Handle) (h : Heap) :
    (retain i h).Meets True (fun _ h' => h.Recounts h') fun _ => False := by
  unfold retain
  cases hc : h.cell? i with
  | none => trivial
  | some c =>
    exact ⟨content?_setCell_of_object hc rfl, fun hw => hw.setCell_some hc _⟩

theorem release_sheds (i : Handle) (h : Heap) :
    (release i h).Meets True (fun _ h' => h.Sheds h') fun _ => False := by
  unfold release
  cases hc : h.cell? i with
  | none => trivial
  | some c =>
    dsimp only
    split
    · refine fun j => .inr ?_
      apply content?_setCell_of_object hc
      rfl
    · cases c.object with
      | none => trivial
      | some o =>
        intro j
        change (h.freed i).content? j = none ∨ (h.freed i).content? j = h.content? j
        rw [content?_freed (lt_size_of_cell? hc)]
        split
        · exact .inl rfl
        · exact .inr rfl

/-- An object has got a cell that was empty. -/
structure Stores (h : Heap) (i : Handle) (o : Object) (h' : Heap) : Prop where
  unused : h.cell? i = none
  content : ∀ j, h'.content? j = if j = i then some (some o) else h.content? j

theorem Stores.of_recounts {o : Object} (h₂₃ : h₂.Stores i o h₃) (h₁₂ : h₁.Recounts h₂) :
    h₁.Stores i o h₃ where
  unused := by
    rw [← content?_eq_none_iff, ← h₁₂.content, content?_eq_none_iff]
    exact h₂₃.unused
  content j := by rw [h₂₃.content, h₁₂.content]

/-- A value may have been stored in the object of one cell, and objects may have gone. -/
structure Rewrites (h : Heap) (i : Handle) (v : Value) (h' : Heap) : Prop where
  others : ∀ j, j ≠ i → h'.content? j = none ∨ h'.content? j = h.content? j
  object : ∀ o', h'.object? i = some o' → ∃ o, h.object? i = some o ∧ o'.values ⊆ v :: o.values ∧
    o'.label = o.label

/-- An object that is there afterwards has the label it had before. -/
theorem Rewrites.exists_label_eq {v : Value} {h' : Heap} (r : h.Rewrites i v h') {j : Handle}
    {o' : Object} (ho' : h'.object? j = some o') :
    ∃ o, h.object? j = some o ∧ o'.label = o.label := by
  by_cases hj : j = i
  · obtain ⟨o, ho, -, hlabel⟩ := r.object o' (hj ▸ ho')
    exact ⟨o, hj ▸ ho, hlabel⟩
  · refine ⟨o', ?_, rfl⟩
    rw [object?_eq_join] at ho' ⊢
    rcases r.others j hj with gone | kept
    · rw [gone] at ho'
      cases ho'
    · rwa [← kept]

end Heap

/-! ### References -/

namespace Memory

variable {α : Type}

/-- Nothing but counts and the ledger changes. -/
def Recounts (m m' : Memory) : Prop := m.heap.Recounts m'.heap

/-- Cells go and counts change, but no object does. -/
def Sheds (m m' : Memory) : Prop := m.heap.Sheds m'.heap

instance : IsPreorder Memory Recounts where
  refl m := .refl m.heap
  trans _ _ _ := .trans

instance : IsPreorder Memory Sheds where
  refl m := .refl m.heap
  trans _ _ _ := .trans

/-- The ledger has nothing to do with the heap. -/
instance (x : Action Ledger α) : Respects Recounts (onLedger x) where
  respects m := by
    unfold onLedger Action.zoom
    cases x m.ledger <;> first | exact .refl m.heap | trivial

instance (x : Action Ledger α) : Respects Sheds (onLedger x) :=
  Respects.mono (R := Recounts) inferInstance fun _ _ h => h.sheds

instance (handle : Handle) : Respects Recounts (onHeap (Heap.retain handle)) where
  respects m := meets_zoom ((Heap.retain_recounts handle m.heap).always fun _ _ => id)

instance (handle : Handle) : Respects Sheds (onHeap (Heap.release handle)) where
  respects m := meets_zoom ((Heap.release_sheds handle m.heap).always fun _ _ => id)

instance (v : Value) : Respects Recounts (retain v) := by
  unfold retain
  split <;> infer_instance

instance (v : Value) : Respects Sheds (retain v) :=
  Respects.mono (R := Recounts) inferInstance fun _ _ h => h.sheds

theorem recounts_retainTimes (v : Value) (count : ℕ) :
    Respects Recounts (retainTimes v count : Action Memory Unit) := by
  induction count with
  | zero => exact ⟨refl_of Recounts⟩
  | succ count ih =>
    rw [retainTimes_succ]
    exact Respects.bind inferInstance fun _ => ih

instance (handle : Handle) : Respects Sheds (forgetTrail handle) :=
  respects_modify fun m => .refl m.heap

instance (handle : Handle) (o : Option Object) : Respects Sheds (discard handle o) := by
  unfold discard
  cases o <;> infer_instance

instance (v : Value) : Respects Sheds (giveUp v) := by
  unfold giveUp
  split <;> infer_instance

theorem sheds_giveUpAll (fuel : ℕ) (values : List Value) :
    Respects Sheds (giveUpAll fuel values : Action Memory Unit) := by
  induction fuel generalizing values with
  | zero => exact ⟨refl_of Sheds⟩
  | succ fuel ih =>
    cases values with
    | nil => exact ⟨refl_of Sheds⟩
    | cons v rest =>
      rw [giveUpAll_succ]
      exact Respects.bind inferInstance fun freed => ih _

instance (freed : List Value) : Respects Sheds (giveUpFreed freed) where
  respects m := by
    cases freed with
    | nil => exact refl_of Sheds m
    | cons w rest => exact (sheds_giveUpAll _ (w :: rest)).respects m

instance (v : Value) : Respects Sheds (release v) := by
  rw [release_eq]
  infer_instance

instance (values : List Value) : Respects Sheds (releaseAll values) := by
  induction values with
  | nil => exact inferInstanceAs (Respects Sheds (pure ()))
  | cons v rest ih => exact Respects.bind inferInstance fun _ => ih

/-- References that have been taken are given up again if one of them is refused. -/
theorem retainAll_recounts (values : List Value) (m : Memory) :
    (retainAll values m).Meets True (fun _ m' => m.Recounts m') (m.Sheds ·) := by
  induction values generalizing m with
  | nil => exact refl_of Recounts m
  | cons v rest ih =>
    refine meets_bind ((Respects.respects (R := Recounts) m).mono (fun _ _ => id)
      fun _ h => h.sheds) fun _ m₁ h₁ => ?_
    refine meets_onRaise ((ih m₁).mono (fun _ _ h => trans_of Recounts h₁ h)
      fun _ h => trans_of Sheds h₁.sheds h) fun _ => Respects.trans

instance (values : List Value) : Respects Sheds (retainAll values) where
  respects m := (retainAll_recounts values m).mono (fun _ _ h => h.sheds) fun _ => id

end Memory

/-! ### Slots -/

open Memory

namespace Reserve

instance (slot : Size) (account : Account) (initial increment : ℕ) :
    Respects Recounts (acquire slot account initial increment) := by
  unfold acquire
  infer_instance

instance (r : Reserve) (capacity : ℕ) : Respects Recounts (r.resize capacity) := by
  unfold resize
  infer_instance

instance (r : Reserve) (capacity : ℕ) : Respects Sheds (r.resize capacity) :=
  Respects.mono (R := Recounts) inferInstance fun _ _ h => h.sheds

instance (r : Reserve) (length : ℕ) (removed added : List Value) :
    Respects Sheds (r.exchange length removed added) := by
  unfold exchange
  infer_instance

/-- Where nothing is removed, nothing goes. -/
theorem exchange_recounts (r : Reserve) (length : ℕ) (added : List Value) (m : Memory) :
    (r.exchange length [] added m).Meets True (fun _ m' => m.Recounts m') (m.Sheds ·) := by
  refine meets_bind (P := fun _ m' => m.Recounts m') ?_ fun capacity m₁ h₁ => ?_
  · exact (Respects.respects (R := Recounts) m).mono (fun _ _ => id) fun _ h => h.sheds
  refine meets_bind (P := fun _ m' => m.Recounts m') ((retainAll_recounts added m₁).mono
    (fun _ _ h => trans_of Recounts h₁ h) fun _ h => trans_of Sheds h₁.sheds h) fun _ m₂ h₂ => ?_
  refine meets_bind (P := fun _ m' => m.Recounts m') (meets_onRaise
    ((Respects.respects (R := Recounts) m₂).mono (fun _ _ h => trans_of Recounts h₂ h)
      fun _ h => trans_of Sheds h₂.sheds h.sheds) fun _ => Respects.trans) fun _ m₃ h₃ => ?_
  exact h₃

instance (r : Reserve) : Respects Sheds r.surrender := by
  unfold surrender
  infer_instance

end Reserve

namespace Sequence

instance (slot : Size) (account : Account) (initial increment : ℕ) :
    Respects Recounts (acquire slot account initial increment) := by
  unfold acquire
  infer_instance

instance (s : Sequence) (drop : ℕ) (values : List Value) :
    Respects Sheds (s.exchange drop values) := by
  unfold exchange
  infer_instance

/-- Pushing gives nothing up. -/
theorem push_recounts (s : Sequence) (values : List Value) (m : Memory) :
    (s.exchange 0 values m).Meets True
      (fun s' m' => s'.items = values.reverse ++ s.items ∧ m.Recounts m') (m.Sheds ·) := by
  unfold exchange
  rw [if_neg (Nat.not_lt_zero _), List.take_zero, List.reverse_nil]
  exact meets_bind (s.reserve.exchange_recounts _ values m) fun r m' h => ⟨rfl, h⟩

theorem exchange_items (s : Sequence) (drop : ℕ) (values : List Value) (m : Memory) :
    (s.exchange drop values m).Meets True
      (fun s' _ => s'.items = values.reverse ++ s.items.drop drop) fun _ => True := by
  unfold exchange
  split
  · trivial
  · exact meets_bind (Outcome.meets_any _) fun _ _ _ => rfl

instance (s : Sequence) : Respects Sheds s.clear := by
  unfold clear
  infer_instance

instance (s : Sequence) (index : ℕ) (v : Value) : Respects Sheds (s.set index v) := by
  unfold set
  split <;> infer_instance

instance (s : Sequence) : Respects Sheds s.dispose := by
  unfold dispose
  infer_instance

end Sequence

instance (d : Dictionary) (name : String) (v : Value) : Respects Sheds (d.define name v) := by
  unfold Dictionary.define
  split <;> infer_instance

/-! ### Objects that are stored -/

theorem Sequence.items_subset {s : Sequence} {items : List Value} (h : s.toList = items) :
    s.items ⊆ items :=
  fun _ hv => h ▸ List.mem_reverse.2 hv

theorem Sequence.values_replace (s : Sequence) (index : ℕ) (v : Value) :
    Object.values (.array (s.replace index v)) ⊆ v :: s.items := by
  intro w hw
  change w ∈ (s.replace index v).items at hw
  unfold replace at hw
  dsimp only at hw
  split at hw
  · exact List.mem_cons.2 (List.mem_or_eq_of_mem_set hw).symm
  · exact List.mem_cons_of_mem v hw

theorem Sequence.length_replace (s : Sequence) (index : ℕ) (v : Value) :
    (s.replace index v).length = s.length := by
  unfold replace length
  dsimp only
  split
  · rw [List.length_set]
  · rfl

theorem Sequence.exists_get? {s : Sequence} {index : ℕ} (h : index < s.length) : ∃ v, s.get? index = some v := by
  have inside : index < s.toList.length := by rwa [toList, List.length_reverse]
  rw [get?_eq_getElem?]
  exact ⟨_, List.getElem?_eq_getElem inside⟩

/-- Replacing an item by itself. -/
theorem Sequence.replace_self {s : Sequence} {index : ℕ} {v : Value} (h : s.get? index = some v) :
    s.replace index v = s := by
  unfold get? at h
  unfold replace
  split at h
  · rename_i inside
    obtain ⟨hi, rfl⟩ := List.getElem?_eq_some_iff.1 h
    rw [if_pos inside, List.set_getElem_self]
  · cases h

theorem Dictionary.values_put (d : Dictionary) (name : String) (v : Value) :
    Object.values (.dictionary { d with entries := d.entries.put name v }) ⊆ v :: d.values := by
  intro w hw
  change w ∈ (d.entries.put name v).map Prod.snd at hw
  rw [List.mem_cons, Dictionary.values]
  cases hget : d.entries.find? name with
  | none =>
    rw [TextMap.put_of_unbound hget] at hw
    simpa [or_comm] using hw
  | some previous =>
    obtain ⟨l, r, hl, hput, -, -⟩ := TextMap.exists_split hget
    rw [hput] at hw
    rw [hl]
    simp only [List.map_append, List.map_cons, List.mem_append, List.mem_cons] at hw ⊢
    tauto

namespace Memory

theorem store_stores {m : Memory} (hw : m.heap.WellFormed) (o : Object) (a : Account)
    (trail : List String) :
    (store o a trail m).Meets True (fun i m' => m.heap.Stores i o m'.heap) fun _ => False := by
  refine (store_allocates hw o a trail).mono ?_ fun _ => id
  rintro i _ ⟨h', unused, -, -, cells, rfl⟩
  refine ⟨unused, fun j => ?_⟩
  rw [Heap.content?, cells]
  split <;> rfl

section

variable {m : Memory} (hw : m.heap.WellFormed)
include hw

/-- A new array in the making, filled by `fill`, gets its cell or is disposed of. -/
theorem array_stores {fill : Sequence → Action Memory Sequence} {Q : Sequence → Prop}
    (hfill : ∀ s m₁, s.items = [] → (fill s m₁).Meets True
      (fun s' m₂ => Q s' ∧ m₁.Recounts m₂) (m₁.Sheds ·))
    (slot : Size) (a : Account) (initial : ℕ) (trail : List String) :
    ((Sequence.acquire slot a initial 0 >>= fun s => (fill s).onRaise s.dispose >>= fun filled =>
      store (.array filled) a trail) m).Meets True
      (fun i m' => ∃ s, Q s ∧ m.heap.Stores i (.array s) m'.heap) (m.Sheds ·) := by
  refine meets_bind (P := fun s m' => s.items = [] ∧ m.Recounts m') ?_ fun s m₁ ⟨hs, h₁⟩ => ?_
  · exact meets_bind ((Respects.respects (R := Recounts) m).mono (fun _ _ => id) fun _ h => h.sheds)
      fun r m₁ h₁ => ⟨rfl, h₁⟩
  refine meets_bind (P := fun s m' => Q s ∧ m.Recounts m') (meets_onRaise
    ((hfill s m₁ hs).mono (fun s' m₂ h₂ => ⟨h₂.1, trans_of Recounts h₁ h₂.2⟩)
      fun _ h => trans_of Sheds h₁.sheds h) fun m₂ => Respects.trans) fun s m₂ ⟨hs, h₂⟩ => ?_
  exact (store_stores (h₂.wellFormed hw) _ a trail).mono
    (fun i m₃ h₃ => ⟨s, hs, h₃.of_recounts h₂⟩) fun _ h => h.elim

/-- What is in a new array is what it has been made of. -/
theorem newArray_stores (a : Account) (items : List Value) (trail : List String) :
    (newArray a items trail m).Meets True
      (fun i m' => ∃ s : Sequence, s.toList = items ∧ m.heap.Stores i (.array s) m'.heap)
      (m.Sheds ·) :=
  array_stores hw (fun s m₁ hs => (s.push_recounts items m₁).mono
    (fun s' m₂ h => ⟨by simp [Sequence.toList, h.1, hs], h.2⟩) fun _ => id) _ a _ trail

theorem newFilledArray_stores (a : Account) (length : ℕ) (v : Value) (trail : List String) :
    (newFilledArray a length v trail m).Meets True
      (fun i m' => ∃ s : Sequence, s.items ⊆ [v] ∧ m.heap.Stores i (.array s) m'.heap)
      (m.Sheds ·) := by
  refine array_stores hw (fun s m₁ hs => ?_) _ a _ trail
  unfold Sequence.fill
  split
  · exact refl_of Sheds m₁
  · refine meets_bind (((recounts_retainTimes v length).respects m₁).mono (fun _ _ => id)
      fun _ h => h.sheds) fun _ m₂ h₂ => ⟨fun w hw => ?_, h₂⟩
    rw [hs, List.append_nil] at hw
    exact List.mem_singleton.2 (List.eq_of_mem_replicate hw)

/-- A new dictionary is empty. -/
theorem newDictionary_stores (a : Account) (trail : List String) :
    (newDictionary a trail m).Meets True
      (fun i m' => m.heap.Stores i (.dictionary { account := a }) m'.heap) (m.Sheds ·) := by
  refine meets_bind ((Respects.respects (R := Recounts) m).mono (fun _ _ => id) fun _ h => h.sheds)
    fun _ m₁ h₁ => ?_
  exact (store_stores (h₁.wellFormed hw) _ a trail).mono
    (fun i m₂ h₂ => h₂.of_recounts h₁) fun _ h => h.elim

end

/-- An object goes back to its cell if that is still there, and then the others are as they were. -/
theorem checkIn_replaces (i : Handle) (o : Object) (m : Memory) :
    (onHeap (Heap.checkIn i o) m).Meets True (fun _ m' => m'.heap.object? i = some o ∧
      ∀ j, j ≠ i → m'.heap.content? j = m.heap.content? j) fun _ => False := by
  refine meets_zoom ?_
  unfold Heap.checkIn
  cases hc : m.heap.cell? i with
  | none => trivial
  | some c =>
    dsimp only
    cases c.object with
    | some _ => trivial
    | none =>
      refine ⟨?_, fun j hj => Heap.content?_setCell_ne hj.symm _⟩
      rw [Heap.object?, Heap.cell?_setCell_self (Heap.lt_size_of_cell? hc)]
      rfl

/-- While an object is out, the others stay or go. -/
theorem others_of_sheds {m m₁ : Memory} {i : Handle} {c : Cell} (hc : m.heap.cell? i = some c)
    (h : Memory.Sheds { m with heap := m.heap.lent i c } m₁) (j : Handle) (hj : j ≠ i) :
    m₁.heap.content? j = none ∨ m₁.heap.content? j = m.heap.content? j := by
  have := h j
  rwa [Heap.content?_lent hc, if_neg hj] at this

/-- An object is modified by an action that does nothing but give references up, and stores no value
but `v`.  Its label stays. -/
theorem modifyObject_rewrites (i : Handle) {f : Object → Action Memory Object} {v : Value}
    (hf : ∀ o, Respects Sheds (f o))
    (hobject : ∀ o m, (f o m).Meets True
      (fun o' _ => o'.values ⊆ v :: o.values ∧ o'.label = o.label) fun _ => True)
    (m : Memory) :
    (modifyObject i f m).Meets True (fun _ m' => m.heap.Rewrites i v m'.heap)
      fun m' => m.heap.Rewrites i v m'.heap := by
  -- the object is back in its cell, as it was or with another value
  have back (o o' : Object) (ho : m.heap.object? i = some o)
      (ho' : o'.values ⊆ v :: o.values ∧ o'.label = o.label) (m₁ : Memory) (others : ∀ j, j ≠ i →
        m₁.heap.content? j = none ∨ m₁.heap.content? j = m.heap.content? j) :
      (onHeap (Heap.checkIn i o') m₁).Meets True (fun _ m' => m.heap.Rewrites i v m'.heap)
        fun m' => m.heap.Rewrites i v m'.heap := by
    refine (checkIn_replaces i o' m₁).mono (fun _ m' ⟨object, same⟩ => ⟨fun j hj => ?_,
      fun o'' ho'' => ⟨o, ho, ?_⟩⟩) fun _ h => h.elim
    · rw [same j hj]
      exact others j hj
    · rw [object] at ho''
      exact Option.some.inj ho'' ▸ ho'
  unfold modifyObject
  rcases checkOut_cases i m with ⟨b, out⟩ | ⟨c, o, hc, hco, out⟩
  · rw [Action.bind_apply, out]
    trivial
  · have ho : m.heap.object? i = some o := (Heap.object?_of_cell? hc).trans hco
    rw [Action.bind_done out]
    refine meets_bind (meets_onRaise (((hf o).respects _).and (hobject o _)) fun m₁ h₁ =>
      back o o ho ⟨List.subset_cons_self .., rfl⟩ m₁ (others_of_sheds hc h₁.1)) fun o' m₁ h₁ =>
        back o o' ho h₁.2 m₁ (others_of_sheds hc h₁.1)

theorem setItem_rewrites (i : Handle) (index : ℕ) (v : Value) (m : Memory) :
    (setItem i index v m).Meets True (fun _ m' => m.heap.Rewrites i v m'.heap)
      fun m' => m.heap.Rewrites i v m'.heap := by
  refine modifyObject_rewrites i (fun o => by cases o <;> infer_instance) (fun o m => ?_) m
  cases o with
  | dictionary d => trivial
  | array s =>
    refine meets_bind (P := fun s' _ => s' = s.replace index v) ?_ fun s' _ hs' =>
      hs' ▸ ⟨s.values_replace index v, rfl⟩
    unfold Sequence.set
    cases s.get? index with
    | none => trivial
    | some previous =>
      exact meets_bind (Outcome.meets_any _) fun _ _ _ =>
        meets_bind (Outcome.meets_any _) fun _ _ _ => rfl

theorem define_rewrites (i : Handle) (name : String) (v : Value) (m : Memory) :
    (define i name v m).Meets True (fun _ m' => m.heap.Rewrites i v m'.heap)
      fun m' => m.heap.Rewrites i v m'.heap := by
  refine modifyObject_rewrites i (fun o => by cases o <;> infer_instance) (fun o m => ?_) m
  cases o with
  | array s => trivial
  | dictionary d =>
    refine meets_bind (P := fun d' _ => d' = { d with entries := d.entries.put name v }) ?_
      fun d' _ hd' => hd' ▸ ⟨d.values_put name v, rfl⟩
    unfold Dictionary.define
    cases d.get? name <;>
      exact meets_bind (Outcome.meets_any _) fun _ _ _ => meets_bind (Outcome.meets_any _) fun _ _ _ => rfl

end Memory

end StackScript
