import StackScript.Proofs.Memory.Contents
import StackScript.Proofs.Ordinary

/-!
# References on loan

References that are taken and given up again leave every cell as it was, its count included, as long
as something else refers to the cell.  So an operation on containers that fails, which gives up
whatever it has taken, leaves no trace in the heap at all.

What is in the cells is followed as a function from handles to cells:

* `Cells.lend` adds references, and `Memory.Has` says that these are the cells of a memory;
* `Memory.release_has`: a reference on loan is given back, and nothing is disposed of;
* `Memory.release_built`: a container just made is disposed of, with what it has borrowed.
-/

namespace StackScript

open StackScript.Action
open Memory (onLedger onHeap)

/-- Nothing can be said of the failure of an action that does not fail. -/
theorem Action.Raises.sure {σ α : Type} {x : Action σ α} (hx : x.Raises fun _ => False) (s : σ)
    {F : σ → Prop} : (x s).Meets True (fun _ _ => True) F :=
  (hx.meets (Outcome.meets_any _)).always fun _ _ => id

/-- What is in each cell of a heap. -/
abbrev Cells := Handle → Option Cell

namespace Cells

variable {σ : Cells} {vs ws : List Value} {i : Handle} {c : Cell}

/-- The cells with one more reference for each of the values. -/
def lend (σ : Cells) (vs : List Value) : Cells := fun i =>
  (σ i).map fun c => { c with count := c.count + vs.countP fun v => v.handle? = some i }

/-- Every cell in use is referred to. -/
def Counted (σ : Cells) : Prop := ∀ i c, σ i = some c → 0 < c.count

@[simp] theorem lend_nil (σ : Cells) : σ.lend [] = σ := by
  funext i
  simp [lend]

@[simp] theorem lend_eq_none : σ.lend vs i = none ↔ σ i = none := by
  simp [lend]

theorem lend_lend (σ : Cells) (vs ws : List Value) : (σ.lend vs).lend ws = σ.lend (vs ++ ws) := by
  funext i
  unfold lend
  cases σ i with
  | none => rfl
  | some c => simp [Nat.add_assoc]

theorem lend_perm (h : vs.Perm ws) : σ.lend vs = σ.lend ws := by
  funext i
  simp [lend, h.countP_eq]

theorem lend_reverse (σ : Cells) (vs : List Value) : σ.lend vs.reverse = σ.lend vs :=
  lend_perm (List.reverse_perm vs)

theorem lend_cons (σ : Cells) (v : Value) (vs : List Value) :
    σ.lend (v :: vs) = (σ.lend vs).lend [v] := by
  rw [lend_lend]
  exact lend_perm (List.perm_append_singleton v vs).symm

/-- Only handles count. -/
theorem lend_congr (h : (vs.filterMap Value.handle?).Perm (ws.filterMap Value.handle?)) :
    σ.lend vs = σ.lend ws := by
  have counted (us : List Value) (j : Handle) :
      us.countP (fun v => v.handle? = some j) = (us.filterMap Value.handle?).count j := by
    rw [List.count_filterMap]
    simp only [beq_eq_decide]
  funext j
  simp only [lend, counted, h.count_eq]

/-- Values that are no containers are not counted. -/
theorem lend_cons_of_handle?_none {v : Value} (hv : v.handle? = none) :
    σ.lend (v :: vs) = σ.lend vs := lend_congr (by simp [hv])

theorem lend_singleton_of_handle?_none {v : Value} (hv : v.handle? = none) : σ.lend [v] = σ := by
  rw [lend_cons_of_handle?_none hv, lend_nil]

/-- A container is counted in its own cell. -/
theorem lend_singleton {v : Value} (hc : σ i = some c) (hv : v.handle? = some i) :
    σ.lend [v] = Function.update σ i (some { c with count := c.count + 1 }) := by
  funext j
  by_cases hj : j = i
  · subst hj
    simp [lend, hc, hv]
  · have : i ≠ j := Ne.symm hj
    simp [lend, Function.update_of_ne hj, hv, this]

/-- One reference less, and one more. -/
theorem lend_singleton_update {v : Value} (hc : σ i = some c) (positive : 0 < c.count)
    (hv : v.handle? = some i) :
    lend (Function.update σ i (some { c with count := c.count - 1 })) [v] = σ := by
  rw [lend_singleton (Function.update_self ..) hv, Function.update_idem, Nat.sub_add_cancel positive, ← hc,
    Function.update_eq_self]

theorem Counted.lend (h : σ.Counted) (vs : List Value) : (σ.lend vs).Counted := by
  intro i c hc
  obtain ⟨d, hd, rfl⟩ := Option.map_eq_some_iff.1 hc
  exact Nat.add_pos_left (h i d hd) _

theorem Counted.update (h : σ.Counted) (i : Handle) (hc : 0 < c.count) :
    Counted (Function.update σ i (some c)) := by
  intro j d hd
  by_cases hj : j = i
  · subst hj
    rw [Function.update_self] at hd
    exact Option.some.inj hd ▸ hc
  · rw [Function.update_of_ne hj] at hd
    exact h j d hd

/-- A cell nobody borrows is not touched. -/
theorem lend_update (hvs : ∀ v ∈ vs, v.handle? ≠ some i) :
    lend (Function.update σ i (some c)) vs = Function.update (σ.lend vs) i (some c) := by
  funext j
  by_cases hj : j = i
  · subst hj
    have none : vs.countP (fun v => v.handle? = some j) = 0 := by
      simpa [List.countP_eq_zero] using hvs
    simp [lend, none]
  · simp [lend, Function.update_of_ne hj]

end Cells

open Cells

/-- These are the cells of the memory. -/
structure Memory.Has (σ : Cells) (m : Memory) : Prop where
  wellFormed : m.heap.WellFormed
  cells : m.heap.cell? = σ

namespace Memory

variable {α : Type} {σ τ : Cells} {m : Memory} {v : Value} {vs ws : List Value} {i : Handle}

theorem has_self (h : m.heap.WellFormed) : m.Has m.heap.cell? := ⟨h, rfl⟩

/-- References on loan leave what is in the containers. -/
theorem Has.content {μ : Memory} (h : μ.Has (lend m.heap.cell? vs)) (j : Handle) :
    μ.heap.content? j = m.heap.content? j := by
  rw [Heap.content?, Heap.content?, h.cells, lend]
  cases m.heap.cell? j <;> rfl

/-- The ledger has nothing to do with the cells. -/
theorem has_onLedger (h : m.Has σ) (x : Action Ledger α) :
    (onLedger x m).Meets True (fun _ m' => m'.Has σ) (Has σ) := by
  unfold onLedger Action.zoom
  cases x m.ledger with
  | done a l => exact ⟨h.wellFormed, h.cells⟩
  | raised e l => exact ⟨h.wellFormed, h.cells⟩
  | broken b => trivial

theorem Has.setCell {c d : Cell} (h : m.Has σ) (hc : σ i = some c) :
    Has (Function.update σ i (some d)) { m with heap := m.heap.setCell i (some d) } := by
  have cell : m.heap.cell? i = some c := h.cells ▸ hc
  refine ⟨h.wellFormed.setCell_some cell d, funext fun j => ?_⟩
  rw [Heap.cell?_setCell (Heap.lt_size_of_cell? cell), Function.update_apply, h.cells]

/-! ### Taking and giving back -/

/-- A reference is refused to strings only. -/
theorem retain_has (h : m.Has σ) (v : Value) :
    (retain v m).Meets True (fun _ m' => m'.Has (σ.lend [v]))
      fun m' => v.handle? = none ∧ m'.Has σ := by
  have tracked (i : Handle) (hv : v.handle? = some i) :
      (onHeap (Heap.retain i) m).Meets True (fun _ m' => m'.Has (σ.lend [v]))
        fun m' => v.handle? = none ∧ m'.Has σ := by
    refine meets_zoom ?_
    unfold Heap.retain
    cases hc : m.heap.cell? i with
    | none => trivial
    | some c =>
      have hσ : σ i = some c := h.cells ▸ hc
      rw [lend_singleton hσ hv]
      exact h.setCell hσ
  unfold retain
  cases hd : v.datum with
  | string text executable =>
    have hv : v.handle? = none := by rw [Value.handle?, hd]
    rw [lend_singleton_of_handle?_none hv]
    exact (has_onLedger h _).mono (fun _ _ => id) fun _ h => ⟨hv, h⟩
  | array i access => exact tracked i (by rw [Value.handle?, hd])
  | dictionary i writable => exact tracked i (by rw [Value.handle?, hd])
  | _ =>
    rw [lend_singleton_of_handle?_none (by rw [Value.handle?, hd])]
    exact h

theorem giveUp_of_handle? (hv : v.handle? = some i) :
    giveUp v = (onHeap (Heap.release i) >>= discard i) := by
  unfold giveUp
  cases hd : v.datum with
  | array j access | dictionary j writable =>
    obtain rfl : j = i := by rw [Value.handle?, hd] at hv; exact Option.some.inj hv
    rfl
  | _ => rw [Value.handle?, hd] at hv; cases hv

/-- **A reference on loan** is given back without anything being disposed of. -/
theorem giveUp_has (hσ : σ.Counted) (h : m.Has (σ.lend [v])) :
    (giveUp v m).Meets True (fun freed m' => freed = [] ∧ m'.Has σ) fun _ => False := by
  have tracked (i : Handle) (hv : v.handle? = some i) :
      (giveUp v m).Meets True (fun freed m' => freed = [] ∧ m'.Has σ) fun _ => True := by
    rw [giveUp_of_handle? hv]
    refine meets_bind (P := fun o m' => o = none ∧ m'.Has σ) ?_ ?_
    · refine meets_zoom ?_
      unfold Heap.release
      rw [h.cells]
      cases hc : σ i with
      | none =>
        rw [lend_eq_none.2 hc]
        trivial
      | some c =>
        have cell : σ.lend [v] i = some { c with count := c.count + 1 } := by
          simp [lend, hc, hv]
        have more : 1 < c.count + 1 := by
          have := hσ i c hc
          omega
        rw [cell]
        dsimp only
        rw [if_pos more]
        refine ⟨rfl, ?_⟩
        have key := h.setCell (d := { c with count := c.count + 1 - 1 }) cell
        have same : Function.update (σ.lend [v]) i (some { c with count := c.count + 1 - 1 }) = σ := by
          rw [lend_singleton hc hv, Function.update_idem, Nat.add_sub_cancel, ← hc, Function.update_eq_self]
        exact same ▸ key
    · rintro _ m' ⟨rfl, hm'⟩
      exact ⟨rfl, hm'⟩
  refine (raises_giveUp v).meets ((?_ : (giveUp v m).Meets True _ fun _ => True))
  cases hd : v.datum with
  | array i access => exact tracked i (by rw [Value.handle?, hd])
  | dictionary i writable => exact tracked i (by rw [Value.handle?, hd])
  | string text executable =>
    rw [lend_singleton_of_handle?_none (by rw [Value.handle?, hd])] at h
    rw [giveUp, hd]
    exact meets_bind ((has_onLedger h _).mono (fun _ _ => id) fun _ _ => trivial)
      fun _ m' hm' => ⟨rfl, hm'⟩
  | _ =>
    rw [lend_singleton_of_handle?_none (by rw [Value.handle?, hd])] at h
    rw [giveUp, hd]
    exact ⟨rfl, h⟩

/-- Many of them are given back one after the other. -/
theorem giveUpAll_has {fuel : ℕ} (hσ : σ.Counted) (hfuel : vs.length ≤ fuel)
    (h : m.Has (σ.lend vs)) :
    (giveUpAll fuel vs m).Meets True (fun _ m' => m'.Has σ) fun _ => False := by
  induction vs generalizing fuel m with
  | nil =>
    rw [lend_nil] at h
    cases fuel <;> exact h
  | cons v rest ih =>
    obtain ⟨fuel, rfl⟩ : ∃ k, fuel = k + 1 := ⟨fuel - 1, by simp at hfuel; omega⟩
    rw [giveUpAll_succ]
    rw [lend_cons] at h
    refine meets_bind ((giveUp_has (hσ.lend rest) h)) ?_
    rintro _ m₁ ⟨rfl, h₁⟩
    exact ih (by simpa using hfuel) h₁

theorem giveUpFreed_has (hσ : σ.Counted) (h : m.Has (σ.lend vs)) :
    (giveUpFreed vs m).Meets True (fun _ m' => m'.Has σ) fun _ => False := by
  cases vs with
  | nil => rwa [lend_nil] at h
  | cons v rest => exact giveUpAll_has hσ (by simp) h

theorem release_has (hσ : σ.Counted) (h : m.Has (σ.lend [v])) :
    (release v m).Meets True (fun _ m' => m'.Has σ) fun _ => False := by
  rw [release_eq]
  refine meets_bind (giveUp_has hσ h) ?_
  rintro _ m₁ ⟨rfl, h₁⟩
  exact h₁

theorem releaseAll_has (hσ : σ.Counted) (h : m.Has (σ.lend vs)) :
    (releaseAll vs m).Meets True (fun _ m' => m'.Has σ) fun _ => False := by
  induction vs generalizing m with
  | nil => rwa [lend_nil] at h
  | cons v rest ih =>
    rw [lend_cons] at h
    exact meets_bind (release_has (hσ.lend rest) h) fun _ m₁ h₁ => ih h₁

/-- All references are taken, or none. -/
theorem retainAll_has (hσ : σ.Counted) (h : m.Has σ) (vs : List Value) :
    (retainAll vs m).Meets True (fun _ m' => m'.Has (σ.lend vs)) (Has σ) := by
  induction vs generalizing σ m with
  | nil =>
    rw [lend_nil]
    exact h
  | cons v rest ih =>
    refine meets_bind ((retain_has h v).mono (fun _ _ => id) fun _ h => h.2) fun _ m₁ h₁ => ?_
    refine meets_onRaise ((ih (hσ.lend [v]) h₁).mono (fun _ m₂ h₂ => ?_) fun _ => id) fun m₂ h₂ =>
      (release_has hσ h₂).always fun _ _ => id
    rwa [lend_lend] at h₂

theorem retainTimes_has (h : m.Has σ) (v : Value) (count : ℕ) :
    (retainTimes v count m).Meets True (fun _ m' => m'.Has (σ.lend (List.replicate count v)))
      fun m' => v.handle? = none ∧ m'.Has σ := by
  induction count generalizing σ m with
  | zero =>
    rw [List.replicate_zero, lend_nil]
    exact h
  | succ count ih =>
    rw [retainTimes_succ]
    refine meets_bind (retain_has h v) fun _ m₁ h₁ => ?_
    refine (ih h₁).mono (fun _ m₂ h₂ => ?_) fun m₂ ⟨hv, h₂⟩ => ⟨hv, ?_⟩
    · rwa [lend_lend, List.singleton_append, ← List.replicate_succ] at h₂
    · rwa [lend_singleton_of_handle?_none hv] at h₂

end Memory

/-! ### Slots -/

open Memory

variable {σ : Cells} {m : Memory} {v : Value} {i : Handle}

namespace Reserve

theorem acquire_has (h : m.Has σ) (slot : Size) (account : Account) (initial increment : ℕ) :
    (acquire slot account initial increment m).Meets True (fun _ m' => m'.Has σ) (Has σ) := by
  unfold acquire
  rw [get_bind]
  refine meets_bind (meets_ofExcept (fun _ _ => h) h) fun _ m₁ h₁ => ?_
  split
  · exact h₁
  · exact meets_bind (has_onLedger h₁ _) fun _ _ h₂ => h₂

theorem resize_has (h : m.Has σ) (r : Reserve) (capacity : ℕ) :
    (r.resize capacity m).Meets True (fun _ m' => m'.Has σ) (Has σ) := by
  unfold resize
  split
  · refine meets_bind (has_onLedger h _) fun _ m₁ h₁ => ?_
    split
    · exact meets_bind (has_onLedger h₁ _) fun _ _ h₂ => h₂
    · exact h₁
  · split
    · exact meets_bind (has_onLedger h _) fun _ _ h₁ => h₁
    · exact h

/-- An exchange that fails has given back what it has taken. -/
theorem exchange_refused (hσ : σ.Counted) (h : m.Has σ) (r : Reserve) (length : ℕ)
    (removed added : List Value) :
    (r.exchange length removed added m).Meets True (fun _ _ => True) (Has σ) := by
  unfold exchange
  refine meets_bind (meets_ofExcept (P := fun _ m' => m'.Has σ) (fun _ _ => h) h)
    fun capacity m₁ h₁ => ?_
  refine meets_bind (retainAll_has hσ h₁ added) fun _ m₂ h₂ => ?_
  refine meets_bind (meets_onRaise (resize_has h₂ r capacity) fun m₃ h₃ =>
    (releaseAll_has hσ h₃).always fun _ _ => id) fun _ m₃ h₃ => ?_
  -- what is removed is given up last, and that does not fail
  exact meets_bind ((raises_releaseAll removed).sure _) fun _ _ _ => trivial

/-- One that succeeds has borrowed what is added, and given back what is removed. -/
theorem exchange_swaps {τ : Cells} {removed added : List Value} (hσ : σ.Counted) (hτ : τ.Counted)
    (h : m.Has σ) (same : σ.lend added = τ.lend removed) (r : Reserve) (length : ℕ) :
    (r.exchange length removed added m).Meets True (fun _ m' => m'.Has τ) fun _ => True := by
  unfold exchange
  refine meets_bind (meets_ofExcept (P := fun _ m' => m'.Has σ) (fun _ _ => h) trivial)
    fun capacity m₁ h₁ => ?_
  refine meets_bind ((retainAll_has hσ h₁ added).mono (fun _ _ => id) fun _ _ => trivial)
    fun _ m₂ h₂ => ?_
  refine meets_bind (meets_onRaise (resize_has h₂ r capacity) fun m₃ h₃ =>
    (releaseAll_has hσ h₃).always fun _ _ _ => trivial) fun _ m₃ h₃ => ?_
  rw [same] at h₃
  exact meets_bind ((releaseAll_has hτ h₃).always fun _ _ => id) fun _ _ h₄ => h₄

theorem surrender_has (h : m.Has σ) (r : Reserve) :
    (r.surrender m).Meets True (fun _ m' => m'.Has σ) (Has σ) := has_onLedger h _

end Reserve

namespace Sequence

theorem acquire_has (h : m.Has σ) (slot : Size) (account : Account) (initial increment : ℕ) :
    (acquire slot account initial increment m).Meets True
      (fun s m' => s.items = [] ∧ m'.Has σ) (Has σ) :=
  meets_bind (Reserve.acquire_has h slot account initial increment) fun _ _ h₁ => ⟨rfl, h₁⟩

theorem exchange_refused (hσ : σ.Counted) (h : m.Has σ) (s : Sequence) (drop : ℕ)
    (values : List Value) : (s.exchange drop values m).Meets True (fun _ _ => True) (Has σ) := by
  unfold exchange
  split
  · exact h
  · exact meets_bind (s.reserve.exchange_refused hσ h _ _ _) fun _ _ _ => trivial

theorem exchange_swaps {τ : Cells} {s : Sequence} {drop : ℕ} {values : List Value} (hσ : σ.Counted)
    (hτ : τ.Counted) (h : m.Has σ) (same : σ.lend values = τ.lend (s.items.take drop)) :
    (s.exchange drop values m).Meets True
      (fun s' m' => s'.items = values.reverse ++ s.items.drop drop ∧ m'.Has τ) fun _ => True := by
  rw [← lend_reverse τ] at same
  unfold exchange
  split
  · trivial
  · exact meets_bind (s.reserve.exchange_swaps hσ hτ h same _) fun _ _ h₁ => ⟨rfl, h₁⟩

theorem exchange_has {drop : ℕ} (hσ : σ.Counted) (s : Sequence)
    (h : m.Has (σ.lend (s.items.take drop))) (values : List Value) :
    (s.exchange drop values m).Meets True
      (fun s' m' => s'.items = values.reverse ++ s.items.drop drop ∧ m'.Has (σ.lend values))
      fun _ => True :=
  exchange_swaps (hσ.lend _) (hσ.lend values) h
    (by rw [lend_lend, lend_lend, lend_perm List.perm_append_comm])

/-- Pushing borrows what is pushed. -/
theorem push_has (hσ : σ.Counted) (h : m.Has σ) (s : Sequence) (values : List Value) :
    (s.exchange 0 values m).Meets True
      (fun s' m' => s'.items = values.reverse ++ s.items ∧ m'.Has (σ.lend values)) (Has σ) := by
  have h₀ : m.Has (σ.lend (s.items.take 0)) := by rwa [List.take_zero, lend_nil]
  refine ((exchange_has hσ s h₀ values).and (exchange_refused hσ h s 0 values)).mono
    (fun s' m' h' => ?_) fun _ h' => h'.2
  rw [List.drop_zero] at h'
  exact h'.1

theorem dispose_has (hσ : σ.Counted) (h : m.Has σ) {s : Sequence} (hs : s.items = []) :
    (s.dispose m).Meets True (fun _ m' => m'.Has σ) fun _ => False := by
  refine (s.raises_dispose).meets (F := fun _ => True) (meets_bind (P := fun _ m' => m'.Has σ) ?_
    fun s' m₁ h₁ => (Reserve.surrender_has h₁ _).mono (fun _ _ => id) fun _ _ => trivial)
  have h₀ : m.Has (σ.lend (s.items.take s.length)) := by
    rwa [hs, List.take_nil, lend_nil]
  have cleared := exchange_has hσ s h₀ []
  unfold clear unfailing
  cases hc : s.exchange s.length [] m with
  | done s' m' =>
    rw [hc] at cleared
    simpa using cleared.2
  | raised e m' => trivial
  | broken b => trivial

theorem fill_has (h : m.Has σ) (s : Sequence) (v : Value) (count : ℕ) :
    (s.fill v count m).Meets True
      (fun s' m' => s'.items = List.replicate count v ++ s.items ∧
        m'.Has (σ.lend (List.replicate count v))) (Has σ) := by
  unfold fill
  split
  · exact h
  · exact meets_bind ((retainTimes_has h v count).mono (fun _ _ => id) fun _ h => h.2)
      fun _ _ h₁ => ⟨rfl, h₁⟩

/-- Storing a value fails before anything is stored. -/
theorem set_refused (h : m.Has σ) (s : Sequence) (index : ℕ) (v : Value) :
    (s.set index v m).Meets True (fun _ _ => True) (Has σ) := by
  unfold set
  cases s.get? index with
  | none => exact h
  | some previous =>
    refine meets_bind ((retain_has h v).mono (fun _ _ => id) fun _ h => h.2) fun _ m₁ h₁ => ?_
    exact meets_bind ((raises_release _).sure _) fun _ _ _ => trivial

end Sequence

namespace Dictionary

theorem define_refused (h : m.Has σ) (d : Dictionary) (name : String) (v : Value) :
    (d.define name v m).Meets True (fun _ _ => True) (Has σ) := by
  unfold define
  cases d.get? name with
  | some previous =>
    refine meets_bind ((retain_has h v).mono (fun _ _ => id) fun _ h => h.2) fun _ m₁ h₁ => ?_
    exact meets_bind ((raises_release _).sure _) fun _ _ _ => trivial
  | none =>
    refine meets_bind (has_onLedger h _) fun _ m₁ h₁ => ?_
    refine meets_bind (meets_onRaise (P := fun _ _ => True) ((retain_has h₁ v).mono
      (fun _ _ _ => trivial) fun _ h => h.2) fun m₂ h₂ => has_onLedger h₂ _) fun _ _ _ => trivial

/-- Binding a name in a dictionary borrows what it is bound to, and gives back what it was bound to,
which the dictionary has borrowed. -/
theorem define_has (hσ : σ.Counted) (d : Dictionary) (h : m.Has (σ.lend d.values)) (name : String)
    (v : Value) :
    (d.define name v m).Meets True (fun d' m' => d' = { d with entries := d.entries.put name v } ∧
      m'.Has (σ.lend d'.values)) (Has (σ.lend d.values)) := by
  have refused := define_refused h d name v
  suffices (d.define name v m).Meets True (fun d' m' =>
      d' = { d with entries := d.entries.put name v } ∧ m'.Has (σ.lend d'.values))
      fun _ => True from (this.and refused).mono (fun _ _ h => h.1) fun _ h => h.2
  unfold define
  have retained := (retain_has h v).mono (fun _ _ => id) fun _ _ => trivial
  cases hget : d.get? name with
  | some previous =>
    obtain ⟨l, r, hl, hput, -, -⟩ := TextMap.exists_split hget
    have values : d.values = l.map Prod.snd ++ previous :: r.map Prod.snd := by
      simp [Dictionary.values, hl]
    refine meets_bind retained fun _ m₁ h₁ => ?_
    have h₁ : m₁.Has ((σ.lend (l.map Prod.snd ++ v :: r.map Prod.snd)).lend [previous]) := by
      rw [lend_lend] at h₁ ⊢
      rw [values] at h₁
      refine lend_perm ?_ ▸ h₁
      simp only [List.append_assoc, List.cons_append]
      refine List.Perm.append_left _ ?_
      rw [← List.cons_append, ← List.cons_append]
      refine (List.perm_append_comm).trans ?_
      simpa using (List.perm_append_singleton previous (r.map Prod.snd)).symm
    refine meets_bind ((release_has (hσ.lend _) h₁).always fun _ _ => id) fun _ m₂ h₂ => ⟨rfl, ?_⟩
    simpa [Dictionary.values, hput] using h₂
  | none =>
    refine meets_bind ((has_onLedger h _).mono (fun _ _ => id) fun _ _ => trivial) fun _ m₁ h₁ => ?_
    refine meets_bind (meets_onRaise (P := fun _ m' => m'.Has ((σ.lend d.values).lend [v]))
      ((retain_has h₁ v).mono (fun _ _ => id) fun _ h => h.2) fun m₂ h₂ =>
        (has_onLedger h₂ _).mono (fun _ _ _ => trivial) fun _ _ => trivial) fun _ m₂ h₂ => ⟨rfl, ?_⟩
    rw [lend_lend] at h₂
    have put : d.entries.put name v = d.entries ++ [(name, v)] := TextMap.put_of_unbound hget v
    simpa [Dictionary.values, put] using h₂

end Dictionary

/-! ### Containers just made -/

/-- The cells with a container just made in one that was empty: its creator has the only reference to
it, and what is in it is borrowed. -/
def Cells.build (σ : Cells) (i : Handle) (o : Object) : Cells :=
  Function.update (σ.lend o.values) i (some ⟨1, some o⟩)

namespace Memory

variable {o : Object}

theorem store_has (h : m.Has σ) (o : Object) (account : Account) (trail : List String) :
    (store o account trail m).Meets True (fun i m' => σ i = none ∧
      m'.Has (Function.update σ i (some ⟨1, some o⟩))) fun _ => False := by
  refine (store_allocates h.wellFormed o account trail).mono ?_ fun _ => id
  rintro i _ ⟨h', unused, wellFormed, -, cells, rfl⟩
  refine ⟨h.cells ▸ unused, wellFormed, ?_⟩
  funext j
  rw [← h.cells, Function.update_apply]
  exact cells j

/-- A new array in the making, filled by `fill`, gets its cell or is disposed of. -/
theorem array_has {fill : Sequence → Action Memory Sequence} {values : List Value}
    (hσ : σ.Counted) (h : m.Has σ) (hfill : ∀ s m₁, s.items = [] → m₁.Has σ → (fill s m₁).Meets True
      (fun s' m₂ => s'.items = values ∧ m₂.Has (σ.lend values)) (Has σ))
    (slot : Size) (a : Account) (initial : ℕ) (trail : List String) :
    ((Sequence.acquire slot a initial 0 >>= fun s => (fill s).onRaise s.dispose >>= fun filled =>
      store (.array filled) a trail) m).Meets True
      (fun i m' => ∃ s : Sequence, s.items = values ∧ σ i = none ∧
        m'.Has (σ.build i (.array s))) (Has σ) := by
  refine meets_bind (Sequence.acquire_has h slot a initial 0) fun s m₁ ⟨hs, h₁⟩ => ?_
  refine meets_bind (meets_onRaise (hfill s m₁ hs h₁) fun m₂ h₂ =>
    (Sequence.dispose_has hσ h₂ hs).always fun _ _ => id) fun s m₂ ⟨hs, h₂⟩ => ?_
  refine (store_has h₂ (.array s) a trail).mono (fun i m₃ ⟨unused, h₃⟩ => ?_)
    fun _ h => h.elim
  exact ⟨s, hs, lend_eq_none.1 unused, by rwa [build, Object.values, hs]⟩

theorem newArray_has (hσ : σ.Counted) (h : m.Has σ) (a : Account) (items : List Value)
    (trail : List String) :
    (newArray a items trail m).Meets True
      (fun i m' => ∃ s : Sequence, s.items = items.reverse ∧ σ i = none ∧
        m'.Has (σ.build i (.array s))) (Has σ) :=
  array_has hσ h (fun s m₁ hs h₁ => (Sequence.push_has hσ h₁ s items).mono
    (fun s' m₂ ⟨hs', h₂⟩ => ⟨by simp [hs', hs], by rwa [lend_reverse]⟩) fun _ => id) _ a _ trail

theorem newFilledArray_has (hσ : σ.Counted) (h : m.Has σ) (a : Account) (length : ℕ) (v : Value)
    (trail : List String) :
    (newFilledArray a length v trail m).Meets True
      (fun i m' => ∃ s : Sequence, s.items = List.replicate length v ∧ σ i = none ∧
        m'.Has (σ.build i (.array s))) (Has σ) :=
  array_has hσ h (fun s m₁ hs h₁ => (Sequence.fill_has h₁ s v length).mono
    (fun s' m₂ ⟨hs', h₂⟩ => ⟨by simp [hs', hs], h₂⟩) fun _ => id) _ a _ trail

theorem newDictionary_has (h : m.Has σ) (a : Account) (trail : List String) :
    (newDictionary a trail m).Meets True
      (fun i m' => ∃ d : Dictionary, d.values = [] ∧ σ i = none ∧
        m'.Has (σ.build i (.dictionary d))) (Has σ) := by
  refine meets_bind (has_onLedger h _) fun _ m₁ h₁ => ?_
  refine (store_has h₁ _ a trail).mono (fun i m₂ ⟨unused, h₂⟩ => ?_) fun _ h => h.elim
  refine ⟨{ account := a }, rfl, unused, ?_⟩
  have empty : Object.values (.dictionary { account := a }) = [] := rfl
  rwa [build, empty, lend_nil]

/-- **A container just made** is disposed of with its creator's reference, and gives back what it has
borrowed. -/
theorem release_built (hσ : σ.Counted) (hi : σ i = none) (h : m.Has (σ.build i o))
    (hv : v.handle? = some i) :
    (release v m).Meets True (fun _ m' => m'.Has σ) fun _ => False := by
  refine (raises_release v).meets (F := fun _ => True) ?_
  rw [release_eq]
  refine meets_bind (P := fun freed m' => freed = o.values ∧ m'.Has (σ.lend o.values)) ?_ ?_
  · rw [giveUp_of_handle? hv]
    have cell : m.heap.cell? i = some ⟨1, some o⟩ := by
      rw [h.cells, build, Function.update_self]
    refine meets_bind (P := fun r m' => r = some o ∧ m'.Has (σ.lend o.values)) ?_ ?_
    · refine meets_zoom ?_
      unfold Heap.release
      rw [cell]
      refine ⟨rfl, h.wellFormed.freed cell, funext fun j => ?_⟩
      change (m.heap.freed i).cell? j = _
      rw [Heap.cell?_freed (Heap.lt_size_of_cell? cell)]
      split
      · rename_i hj
        rw [hj, lend_eq_none.2 hi]
      · rename_i hj
        rw [h.cells, build, Function.update_of_ne hj]
    · rintro _ m' ⟨rfl, hm'⟩
      -- forgetting the trail leaves the cells as they are
      have forgotten : (forgetTrail i m').Meets True (fun _ m₁ => m₁.Has (σ.lend o.values))
          fun _ => True := ⟨hm'.wellFormed, hm'.cells⟩
      exact meets_bind forgotten fun _ m₁ h₁ =>
        meets_bind ((has_onLedger h₁ _).mono (fun _ _ => id) fun _ _ => trivial)
          fun _ m₂ h₂ => ⟨rfl, h₂⟩
  · rintro _ m' ⟨rfl, hm'⟩
    exact (giveUpFreed_has hσ hm').always fun _ _ => id

/-! ### Modification -/

theorem checkOut_has (h : m.Has σ) (i : Handle) :
    (onHeap (Heap.checkOut i) m).Meets True (fun o m' => ∃ c, σ i = some c ∧ c.object = some o ∧
      m'.Has (Function.update σ i (some { c with object := none }))) (Has σ) := by
  refine meets_zoom ?_
  unfold Heap.checkOut
  cases hc : m.heap.cell? i with
  | none => trivial
  | some c =>
    have hσ : σ i = some c := h.cells ▸ hc
    dsimp only
    cases hco : c.object with
    | none => trivial
    | some o => exact ⟨c, hσ, hco, h.setCell hσ⟩

theorem checkIn_has {c : Cell} (h : m.Has (Function.update σ i (some c))) (o : Object) :
    (onHeap (Heap.checkIn i o) m).Meets True
      (fun _ m' => m'.Has (Function.update σ i (some { c with object := some o })))
      fun _ => False := by
  refine meets_zoom ?_
  unfold Heap.checkIn
  rw [h.cells, Function.update_self]
  dsimp only
  cases c.object with
  | some _ => trivial
  | none =>
    have key := h.setCell (d := { c with object := some o }) (Function.update_self ..)
    rwa [Function.update_idem] at key

/-- An object is put back if it cannot be modified. -/
theorem modifyObject_refused (h : m.Has σ) (i : Handle) {f : Object → Action Memory Object}
    (hf : ∀ o (m₁ : Memory) τ, m₁.Has τ → (f o m₁).Meets True (fun _ _ => True) (Has τ)) :
    (modifyObject i f m).Meets True (fun _ _ => True) (Has σ) := by
  refine meets_bind (checkOut_has h i) fun o m₁ ⟨c, hσ, hco, h₁⟩ => ?_
  refine meets_bind (meets_onRaise (hf o m₁ _ h₁) fun m₂ h₂ => ?_) fun o' m₂ _ =>
    (Heap.raises_checkIn i o').zoom.sure m₂
  -- the object goes back into its cell
  refine (checkIn_has h₂ o).mono (fun _ m₃ h₃ => ?_) fun _ h => h.elim
  rwa [← hco, ← hσ, Function.update_eq_self] at h₃

theorem setItem_refused (h : m.Has σ) (i : Handle) (index : ℕ) (v : Value) :
    (setItem i index v m).Meets True (fun _ _ => True) (Has σ) := by
  refine modifyObject_refused h i fun o m₁ τ h₁ => ?_
  cases o with
  | array s => exact meets_bind (Sequence.set_refused h₁ s index v) fun _ _ _ => trivial
  | dictionary d => trivial

/-- Storing what is there already changes nothing. -/
theorem setItem_keeps {s : Sequence} {index : ℕ} {v : Value} (hσ : σ.Counted) (h : m.Has σ)
    (ho : m.heap.object? i = some (.array s)) (hv : s.get? index = some v) :
    (setItem i index v m).Meets True (fun _ m' => m'.Has σ) fun _ => True := by
  unfold setItem modifyObject
  refine meets_bind ((checkOut_has h i).mono (fun _ _ => id) fun _ _ => trivial) ?_
  rintro o m₁ ⟨c, hc, hco, h₁⟩
  have hcell : m.heap.cell? i = some c := h.cells ▸ hc
  obtain rfl : o = .array s := Option.some.inj ((Heap.object?_of_cell? hcell).trans hco ▸ ho)
  have counted : Counted (Function.update σ i (some { c with object := none })) :=
    hσ.update i (hσ i c hc)
  have same : (s.set index v m₁).Meets True (fun s' m₂ => s' = s ∧
      m₂.Has (Function.update σ i (some { c with object := none }))) fun _ => True := by
    rw [Sequence.set, hv]
    refine meets_bind ((retain_has h₁ v).mono (fun _ _ => id) fun _ _ => trivial) fun _ m₂ h₂ => ?_
    refine meets_bind ((release_has counted h₂).always fun _ _ => id) fun _ m₃ h₃ => ?_
    exact ⟨s.replace_self hv, h₃⟩
  have stored := meets_bind (f := fun s' => (pure (.array s') : Action Memory Object))
    (Q := fun o' m₂ => o' = .array s ∧
      m₂.Has (Function.update σ i (some { c with object := none }))) same
    fun s' m₂ h₂ => ⟨congrArg Object.array h₂.1, h₂.2⟩
  refine meets_bind (meets_onRaise (M := fun _ => True) stored fun m₂ _ =>
    (Heap.raises_checkIn i _).zoom.sure m₂) ?_
  rintro _ m₂ ⟨rfl, h₂⟩
  refine (checkIn_has h₂ _).mono (fun _ m₃ h₃ => ?_) fun _ _ => trivial
  rwa [← hco, ← hc, Function.update_eq_self] at h₃

theorem define_refused (h : m.Has σ) (i : Handle) (name : String) (v : Value) :
    (define i name v m).Meets True (fun _ _ => True) (Has σ) := by
  refine modifyObject_refused h i fun o m₁ τ h₁ => ?_
  cases o with
  | array s => trivial
  | dictionary d => exact meets_bind (Dictionary.define_refused h₁ d name v) fun _ _ _ => trivial

/-- A dictionary just made has borrowed what is bound in it. -/
theorem define_built {d : Dictionary} (hσ : σ.Counted)
    (h : m.Has (σ.build i (.dictionary d))) (name : String) (v : Value)
    (hv : v.handle? ≠ some i) (hd : ∀ w ∈ d.values, w.handle? ≠ some i) :
    (define i name v m).Meets True
      (fun _ m' => m'.Has (σ.build i (.dictionary { d with entries := d.entries.put name v })))
      (Has (σ.build i (.dictionary d))) := by
  have refused := define_refused h i name v
  suffices (define i name v m).Meets True (fun _ m' =>
      m'.Has (σ.build i (.dictionary { d with entries := d.entries.put name v })))
      fun _ => True from (this.and refused).mono (fun _ _ h => h.1) fun _ h => h.2
  unfold define modifyObject
  refine meets_bind ((checkOut_has h i).mono (fun _ _ => id) fun _ _ => trivial) ?_
  rintro o m₁ ⟨c, hc, ho, h₁⟩
  -- while it is out, the dictionary is still the one that has borrowed its values
  rw [build, Function.update_self] at hc
  obtain rfl := Option.some.inj hc
  obtain rfl := Option.some.inj ho
  rw [build, Function.update_idem, Object.values, ← lend_update hd] at h₁
  have counted : Counted (Function.update σ i (some ⟨1, none⟩)) := hσ.update i Nat.one_pos
  have defined := Dictionary.define_has counted d h₁ name v
  refine meets_bind (P := fun o' m₂ => o' = .dictionary { d with entries := d.entries.put name v } ∧
      m₂.Has (lend (Function.update σ i (some ⟨1, none⟩)) o'.values)) (meets_onRaise
    (meets_bind defined ?_) fun m₂ _ => (Heap.raises_checkIn i _).zoom.sure m₂) ?_
  · rintro _ m₂ ⟨rfl, h₂⟩
    exact ⟨rfl, h₂⟩
  rintro _ m₂ ⟨rfl, h₂⟩
  rw [lend_update] at h₂
  · exact (checkIn_has h₂ _).always fun _ _ => id
  · intro w hw
    rcases List.mem_cons.1 (Dictionary.values_put d name v hw) with rfl | hw
    · exact hv
    · exact hd w hw

end Memory

end StackScript
