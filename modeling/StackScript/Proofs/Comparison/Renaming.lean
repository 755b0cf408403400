import StackScript.Proofs.Comparison.Capacity
import StackScript.Proofs.Machine.Growing
import StackScript.Proofs.Memory.Release

/-!
# Comparing machines up to the handles of their containers

The same is done to two machines whose containers go by other handles.  A `Renaming` says which handle
of the one machine stands for which of the other, now and for the containers to come: a heap gives out
its handles in an order that is settled (`Heap.upcoming`), and the handles that two heaps give out next
stand for each other.  The second heap may have cells that stand for none of the first; they stay as
they are.

Nothing but the contents of containers is compared, and how often they are referred to: texts of
exceptions, sources of values and the books of the memories may differ.  The comparison is given up
when an allocation has been refused in one of the machines, or an invariant violated.
-/

namespace StackScript

open Likeness
open Metered (peak)

/-! ### Handles to come -/

namespace Heap

variable {h h' : Heap} {i : Handle} {n : ℕ}

/-- The handle that a container will have after `n` others, if none goes before that. -/
def upcoming (h : Heap) (n : ℕ) : Handle := (h.free[n]?).getD (h.cells.size + (n - h.free.length))

@[simp] theorem upcoming_setCell (h : Heap) (i : Handle) (c : Option Cell) (n : ℕ) :
    (h.setCell i c).upcoming n = h.upcoming n := by
  unfold upcoming
  rw [size_setCell]
  rfl

theorem upcoming_freed_succ (h : Heap) (i : Handle) (n : ℕ) :
    (h.freed i).upcoming (n + 1) = h.upcoming n := by
  change ((i :: h.free)[n + 1]?).getD ((h.setCell i none).cells.size +
    (n + 1 - (i :: h.free).length)) = _
  rw [size_setCell, List.getElem?_cons_succ, List.length_cons, Nat.add_sub_add_right]
  rfl

/-- The empty cells are cells. -/
def Bounded (h : Heap) : Prop := ∀ i ∈ h.free, i < h.cells.size

theorem Bounded.setCell (h₀ : h.Bounded) (i : Handle) (c : Option Cell) : (h.setCell i c).Bounded := by
  intro j hj
  rw [size_setCell]
  exact h₀ j hj

theorem Bounded.freed (h₀ : h.Bounded) {c : Cell} (hc : h.cell? i = some c) : (h.freed i).Bounded := by
  intro j hj
  rw [show (h.freed i).cells.size = h.cells.size from size_setCell h i none]
  rcases List.mem_cons.1 hj with rfl | hj
  · exact lt_size_of_cell? hc
  · exact h₀ j hj

/-- An object is stored in the cell that comes next. -/
structure Receives (h : Heap) (o : Object) (h' : Heap) : Prop where
  cell : ∀ j, h'.cell? j = if j = h.upcoming 0 then some ⟨1, some o⟩ else h.cell? j
  upcoming : ∀ n, h'.upcoming n = h.upcoming (n + 1)
  bounded : h'.Bounded

theorem allocate_receives (h₀ : h.Bounded) (o : Object) :
    ∃ h', allocate o h = .done (h.upcoming 0) h' ∧ h.Receives o h' := by
  unfold allocate
  cases hfree : h.free with
  | nil =>
    have first : h.upcoming 0 = h.cells.size := by simp [upcoming, hfree]
    refine ⟨_, by rw [first], fun j => ?_, fun n => ?_, fun _ hj => absurd hj List.not_mem_nil⟩
    · rw [first, cell?, Array.getElem?_push]
      split <;> rfl
    · simp [upcoming, hfree, Nat.add_assoc, Nat.add_comm 1 n]
  | cons i free =>
    have first : h.upcoming 0 = i := by simp [upcoming, hfree]
    have hi : i < h.cells.size := h₀ i (by rw [hfree]; exact List.mem_cons_self)
    refine ⟨_, by rw [first], fun j => ?_, fun n => ?_, fun j hj => ?_⟩
    · rw [first]
      exact cell?_setCell hi _ j
    · simp only [upcoming, hfree, size_setCell, List.getElem?_cons_succ, List.length_cons]
      rw [Nat.add_sub_add_right]
    · rw [show (Heap.mk _ free).cells = (h.setCell i _).cells from rfl, size_setCell]
      exact h₀ j (by rw [hfree]; exact List.mem_cons_of_mem _ hj)

end Heap

/-! ### What giving up weighs -/

namespace Memory

variable {α : Type} {μ ν : Memory} {v : Value} {freed : List Value}

/-- The heap is the same. -/
def SameHeap (μ ν : Memory) : Prop := ν.heap = μ.heap

instance : IsPreorder Memory SameHeap where
  refl _ := rfl
  trans _ _ _ h h' := h'.trans h

instance (x : Action Ledger α) : Action.Respects SameHeap (onLedger x) where
  respects μ := by
    unfold onLedger Action.zoom
    cases x μ.ledger <;> trivial

instance (t : Trail) : Action.Respects SameHeap (recordTrail t) := Action.respects_modify fun _ => rfl

instance (i : Handle) : Action.Respects SameHeap (forgetTrail i) := Action.respects_modify fun _ => rfl

instance (i : Handle) (o : Option Object) : Action.Respects SameHeap (discard i o) := by
  unfold discard
  cases o <;> infer_instance

theorem heap_eq_of_done {x : Action Memory α} [Action.Respects SameHeap x] {a : α}
    (h : x μ = .done a ν) : ν.heap = μ.heap := by
  have kept := Action.Respects.respects (R := SameHeap) (x := x) μ
  rw [h] at kept
  exact kept

theorem done_of_bind {β : Type} {x : Action Memory α} {f : α → Action Memory β} {b : β}
    (h : (x >>= f) μ = .done b ν) : ∃ a κ, x μ = .done a κ ∧ f a κ = .done b ν := by
  rw [Action.bind_apply] at h
  cases hx : x μ with
  | done a κ => exact ⟨a, κ, rfl, by rw [hx] at h; exact h⟩
  | raised e κ | broken b => rw [hx] at h; cases h

/-- What is left of an object is the values it held. -/
theorem freed_of_discard {i : Handle} {o : Option Object} (h : discard i o μ = .done freed ν) :
    freed = o.elim [] Object.values := by
  cases o with
  | none => exact (Outcome.done.inj h).1.symm
  | some o =>
    obtain ⟨_, _, -, h⟩ := done_of_bind h
    obtain ⟨_, _, -, h⟩ := done_of_bind h
    exact (Outcome.done.inj h).1.symm

/-- Each reference given up makes the weight of the heap and the number of values to go smaller
together. -/
theorem weight_of_giveUp (h : giveUp v μ = .done freed ν) :
    ν.heap.weight + freed.length ≤ μ.heap.weight := by
  -- a cell loses a reference, or it goes, and the values it held are still to be given up
  have container (i : Handle) (h : (do discard i (← onHeap (Heap.release i))) μ = .done freed ν) :
      ν.heap.weight + freed.length ≤ μ.heap.weight := by
    obtain ⟨o, κ, released, discarded⟩ := done_of_bind h
    rw [heap_eq_of_done discarded, freed_of_discard discarded]
    unfold onHeap Action.zoom Heap.release at released
    cases hc : μ.heap.cell? i with
    | none => rw [hc] at released; cases released
    | some c =>
      rw [hc] at released
      dsimp only at released
      split at released
      · rename_i hr
        split at hr
        · obtain ⟨rfl, rfl⟩ := Outcome.done.inj hr
          obtain ⟨rfl, rfl⟩ := Outcome.done.inj released
          have weight := Heap.weight_setCell (Heap.lt_size_of_cell? hc)
            (some { c with count := c.count - 1 })
          rw [hc] at weight
          simp only [Heap.cellWeight, Option.elim] at weight ⊢
          simp only [List.length_nil]
          omega
        · cases ho : c.object with
          | none => rw [ho] at hr; cases hr
          | some o =>
            rw [ho] at hr
            obtain ⟨rfl, rfl⟩ := Outcome.done.inj hr
            obtain ⟨rfl, rfl⟩ := Outcome.done.inj released
            have weight := weight_freed hc ho
            change (μ.heap.freed i).weight + o.values.length ≤ _
            omega
      · cases released
      · cases released
  unfold giveUp at h
  generalize v.datum = d at h
  cases d with
  | string text _ =>
    obtain ⟨_, κ, dropped, h⟩ := done_of_bind h
    obtain ⟨rfl, rfl⟩ := Outcome.done.inj h
    exact (congrArg Heap.weight (heap_eq_of_done dropped)).le
  | array i _ | dictionary i _ => exact container i h
  | null | boolean _ | integer _ | name _ _ | mark | operator _ =>
    obtain ⟨rfl, rfl⟩ := Outcome.done.inj h
    exact le_rfl

end Memory

/-! ### Slots -/

namespace Reserve

open Memory

instance (slot : Size) (account : Account) (initial increment : ℕ) :
    Action.Respects SameHeap (acquire slot account initial increment) := by
  unfold acquire
  infer_instance

instance (r : Reserve) (capacity : ℕ) : Action.Respects SameHeap (r.resize capacity) := by
  unfold resize
  infer_instance

/-- New slots are those that are asked for. -/
theorem acquire_grants (slot : Size) (account : Account) (initial increment : ℕ) (μ : Memory) :
    (acquire slot account initial increment μ).Grants fun r ν =>
      r = ⟨slot, account, initial, increment, initial⟩ ∧ SameHeap μ ν :=
  ((spends_acquire slot account initial increment).grants
    (acquire_acquires slot account initial increment μ)).also
      (Action.Respects.respects (R := SameHeap) μ)

theorem resize_grants (r : Reserve) (capacity : ℕ) (μ : Memory) :
    (r.resize capacity μ).Grants fun r' ν => r'.increment = r.increment ∧ SameHeap μ ν :=
  ((spends_resize r capacity).grants ((r.resize_shape capacity μ).mono
    (fun _ _ h => congrArg Reserve.increment h) fun _ => id)).also
      (Action.Respects.respects (R := SameHeap) μ)

end Reserve

/-! ### Renamings -/

/-- Which handle of the one machine stands for which of the other, and what is in the cells of the
other one that stand for none. -/
structure Renaming where
  handles : Handle → Handle → Prop
  unique {i i' j j' : Handle} : handles i j → handles i' j' → (i = i' ↔ j = j')
  apart : Handle → Option Cell

namespace Renaming

variable {R : Renaming} {σ α β : Type} [Metered σ] {h k h' k' : Heap} {i j : Handle} {c d : Cell}
  {o p : Object} {μ ν : Memory} {v w : Value} {vs ws : List Value} {A : α → β → Prop}

/-- The comparison is given up when one of the machines has failed. -/
def likeness (R : Renaming) : Likeness where
  exact := False
  traced := False
  traces := id
  handles := R.handles
  unique := R.unique
  lost f g := f.Failed ∨ g.Failed
  leads h hf hg := h.imp (·.leads hf) (·.leads hg)
  broken := .inl .broken
  breached _ := ⟨.inl .broken, .inr .broken⟩

/-- Cells that are alike. -/
structure Cells (R : Renaming) (c d : Cell) : Prop where
  count : c.count = d.count
  object : Option.Rel R.likeness.Objects c.object d.object

/-- Heaps that are alike. -/
structure Heaps (R : Renaming) (h k : Heap) : Prop where
  cell {i j : Handle} (hij : R.handles i j) : Option.Rel R.Cells (h.cell? i) (k.cell? j)
  upcoming (n : ℕ) : R.handles (h.upcoming n) (k.upcoming n)
  bounded : h.Bounded
  bounded' : k.Bounded
  apart (j : Handle) (hj : ∀ i, ¬ R.handles i j) : k.cell? j = R.apart j

/-- Memories that are alike. -/
def Memories (R : Renaming) (μ ν : Memory) : Prop := R.Heaps μ.heap ν.heap

/-- Two actions on the memory that are parallel. -/
abbrev Beside (R : Renaming) (A : α → β → Prop) (x : Action Memory α) (y : Action Memory β) : Prop :=
  R.likeness.Parallel R.Memories A x y

/-! ### What fails only if an allocation is refused -/

theorem agree_of_grants {x : Outcome σ α} {y : Outcome σ β} {P : α → σ → Prop} {Q : β → σ → Prop}
    {S : σ → σ → Prop} (hx : x.Grants P) (hy : y.Grants Q)
    (h : ∀ a s b t, P a s → Q b t → A a b ∧ S s t) : R.likeness.Agree A S x y := by
  cases x with
  | raised e s => exact .lost (.inl (.of_raised hx))
  | broken b => exact .lost (.inl .broken)
  | done a s =>
    cases y with
    | raised e t => exact .lost (.inr (.of_raised hy))
    | broken b => exact .lost (.inr .broken)
    | done b t =>
      obtain ⟨ha, hs⟩ := h a s b t hx hy
      exact .done ha hs

theorem Memories.of_sameHeap {μ' ν' : Memory} (h : R.Memories μ ν) (hμ : Memory.SameHeap μ μ')
    (hν : Memory.SameHeap ν ν') : R.Memories μ' ν' := by
  rw [Memories, show μ'.heap = μ.heap from hμ, show ν'.heap = ν.heap from hν]
  exact h

/-- Two actions that leave the heaps alone. -/
theorem parallel_sameHeap {x : Action Memory α} {y : Action Memory β}
    [Action.Respects Memory.SameHeap x] [Action.Respects Memory.SameHeap y] (hx : x.Spends)
    (hy : y.Spends) : R.Beside (fun _ _ => True) x y := by
  intro μ ν h
  exact agree_of_grants (hx.grants (Action.Respects.respects (R := Memory.SameHeap) μ))
    (hy.grants (Action.Respects.respects (R := Memory.SameHeap) ν))
    fun _ _ _ _ hμ hν => ⟨trivial, h.of_sameHeap hμ hν⟩

theorem parallel_onLedger {x : Action Ledger α} {y : Action Ledger β} (hx : x.Spends) (hy : y.Spends) :
    R.Beside (fun _ _ => True) (Memory.onLedger x) (Memory.onLedger y) :=
  parallel_sameHeap hx.zoom hy.zoom

/-! ### Heaps -/

theorem Heaps.setCell (h₀ : R.Heaps h k) (hij : R.handles i j) (hi : i < h.cells.size)
    (hj : j < k.cells.size) (hcd : R.Cells c d) :
    R.Heaps (h.setCell i (some c)) (k.setCell j (some d)) where
  cell {i' j'} hij' := by
    by_cases same : i = i'
    · obtain rfl := same
      obtain rfl := (R.unique hij hij').1 rfl
      rw [Heap.cell?_setCell_self hi, Heap.cell?_setCell_self hj]
      exact .some hcd
    · rw [Heap.cell?_setCell_ne same, Heap.cell?_setCell_ne (mt (R.unique hij hij').2 same)]
      exact h₀.cell hij'
  upcoming n := by
    rw [Heap.upcoming_setCell, Heap.upcoming_setCell]
    exact h₀.upcoming n
  bounded := h₀.bounded.setCell _ _
  bounded' := h₀.bounded'.setCell _ _
  apart j' hj' := by
    rw [Heap.cell?_setCell_ne fun (same : j = j') => hj' i (same ▸ hij)]
    exact h₀.apart j' hj'

theorem Heaps.freed (h₀ : R.Heaps h k) (hij : R.handles i j) (hc : h.cell? i = some c)
    (hd : k.cell? j = some d) : R.Heaps (h.freed i) (k.freed j) where
  cell {i' j'} hij' := by
    rw [Heap.cell?_freed (Heap.lt_size_of_cell? hc), Heap.cell?_freed (Heap.lt_size_of_cell? hd)]
    by_cases same : i' = i
    · rw [if_pos same, if_pos ((R.unique hij' hij).1 same)]
      exact .none
    · rw [if_neg same, if_neg (mt (R.unique hij' hij).2 same)]
      exact h₀.cell hij'
  upcoming n := by
    cases n with
    | zero => exact hij
    | succ n =>
      rw [Heap.upcoming_freed_succ, Heap.upcoming_freed_succ]
      exact h₀.upcoming n
  bounded := h₀.bounded.freed hc
  bounded' := h₀.bounded'.freed hd
  apart j' hj' := by
    rw [Heap.cell?_freed (Heap.lt_size_of_cell? hd), if_neg fun (same : j' = j) => hj' i (same ▸ hij)]
    exact h₀.apart j' hj'

theorem Heaps.receives (h₀ : R.Heaps h k) (hop : R.likeness.Objects o p) (hh : h.Receives o h')
    (hk : k.Receives p k') : R.Heaps h' k' where
  cell {i j} hij := by
    rw [hh.cell, hk.cell]
    by_cases same : i = h.upcoming 0
    · rw [if_pos same, if_pos ((R.unique hij (h₀.upcoming 0)).1 same)]
      exact .some ⟨rfl, .some hop⟩
    · rw [if_neg same, if_neg (mt (R.unique hij (h₀.upcoming 0)).2 same)]
      exact h₀.cell hij
  upcoming n := by
    rw [hh.upcoming, hk.upcoming]
    exact h₀.upcoming (n + 1)
  bounded := hh.bounded
  bounded' := hk.bounded
  apart j hj := by
    rw [hk.cell, if_neg fun (same : j = _) => hj _ (same ▸ h₀.upcoming 0)]
    exact h₀.apart j hj

/-- What two actions on the heaps come to: they end alike, or each violates an invariant. -/
inductive Paired (R : Renaming) (A : α → β → Prop) : Outcome Heap α → Outcome Heap β → Prop
  | done {a : α} {b : β} {h k : Heap} (ha : A a b) (hk : R.Heaps h k) : Paired R A (.done a h) (.done b k)
  | broken (b b' : Breach) : Paired R A (.broken b) (.broken b')

theorem parallel_onHeap {x : Action Heap α} {y : Action Heap β}
    (h : ∀ h k, R.Heaps h k → R.Paired A (x h) (y k)) :
    R.Beside A (Memory.onHeap x) (Memory.onHeap y) := by
  intro μ ν hμ
  have paired := h _ _ hμ
  unfold Memory.onHeap Action.zoom
  generalize x μ.heap = a at paired
  generalize y ν.heap = b at paired
  cases paired with
  | done ha hk => exact .done ha hk
  | broken b b' => exact agree_broken b b'

theorem rel_cases {γ δ : Type} {r : γ → δ → Prop} {x : Option γ} {y : Option δ} (h : Option.Rel r x y) :
    (x = none ∧ y = none) ∨ ∃ a b, x = some a ∧ y = some b ∧ r a b := by
  cases h with
  | none => exact .inl ⟨rfl, rfl⟩
  | some h => exact .inr ⟨_, _, rfl, rfl, h⟩

theorem Heaps.cells (hk : R.Heaps h k) (hij : R.handles i j) :
    (h.cell? i = none ∧ k.cell? j = none) ∨
      ∃ c d, h.cell? i = some c ∧ k.cell? j = some d ∧ R.Cells c d := rel_cases (hk.cell hij)

theorem Cells.objects (h : R.Cells c d) :
    (c.object = none ∧ d.object = none) ∨
      ∃ o p, c.object = some o ∧ d.object = some p ∧ R.likeness.Objects o p := rel_cases h.object

theorem retainHandle (hij : R.handles i j) :
    R.Beside (fun _ _ => True) (Memory.onHeap (Heap.retain i)) (Memory.onHeap (Heap.retain j)) := by
  refine parallel_onHeap fun h k hk => ?_
  unfold Heap.retain
  rcases hk.cells hij with ⟨hc, hd⟩ | ⟨c, d, hc, hd, hcd⟩
  · rw [hc, hd]
    exact .broken _ _
  · rw [hc, hd]
    exact .done trivial (hk.setCell hij (Heap.lt_size_of_cell? hc) (Heap.lt_size_of_cell? hd)
      ⟨congrArg (· + 1) hcd.count, hcd.object⟩)

theorem releaseHandle (hij : R.handles i j) :
    R.Beside (Option.Rel R.likeness.Objects) (Memory.onHeap (Heap.release i))
      (Memory.onHeap (Heap.release j)) := by
  refine parallel_onHeap fun h k hk => ?_
  unfold Heap.release
  rcases hk.cells hij with ⟨hc, hd⟩ | ⟨c, d, hc, hd, hcd⟩
  · rw [hc, hd]
    exact .broken _ _
  · rw [hc, hd]
    dsimp only
    rw [hcd.count]
    split
    · exact .done .none (hk.setCell hij (Heap.lt_size_of_cell? hc) (Heap.lt_size_of_cell? hd)
        ⟨rfl, hcd.object⟩)
    · rcases hcd.objects with ⟨ho, hp⟩ | ⟨o, p, ho, hp, hop⟩
      · rw [ho, hp]
        exact .broken _ _
      · rw [ho, hp]
        exact .done (.some hop) (hk.freed hij hc hd)

theorem checkOut (hij : R.handles i j) :
    R.Beside R.likeness.Objects (Memory.onHeap (Heap.checkOut i)) (Memory.onHeap (Heap.checkOut j)) := by
  refine parallel_onHeap fun h k hk => ?_
  unfold Heap.checkOut
  rcases hk.cells hij with ⟨hc, hd⟩ | ⟨c, d, hc, hd, hcd⟩
  · rw [hc, hd]
    exact .broken _ _
  · rw [hc, hd]
    dsimp only
    rcases hcd.objects with ⟨ho, hp⟩ | ⟨o, p, ho, hp, hop⟩
    · rw [ho, hp]
      exact .broken _ _
    · rw [ho, hp]
      exact .done hop (hk.setCell hij (Heap.lt_size_of_cell? hc) (Heap.lt_size_of_cell? hd)
        ⟨hcd.count, .none⟩)

theorem checkIn (hij : R.handles i j) (hop : R.likeness.Objects o p) :
    R.Beside (fun _ _ => True) (Memory.onHeap (Heap.checkIn i o)) (Memory.onHeap (Heap.checkIn j p)) := by
  refine parallel_onHeap fun h k hk => ?_
  unfold Heap.checkIn
  rcases hk.cells hij with ⟨hc, hd⟩ | ⟨c, d, hc, hd, hcd⟩
  · rw [hc, hd]
    exact .broken _ _
  · rw [hc, hd]
    dsimp only
    rcases hcd.objects with ⟨ho, hp⟩ | ⟨o', p', ho, hp, -⟩
    · rw [ho, hp]
      exact .done trivial (hk.setCell hij (Heap.lt_size_of_cell? hc) (Heap.lt_size_of_cell? hd)
        ⟨hcd.count, .some hop⟩)
    · rw [ho, hp]
      exact .broken _ _

theorem get (hk : R.Heaps h k) (hij : R.handles i j) :
    Results (fun _ _ => True) R.likeness.Objects (h.get i) (k.get j) := by
  unfold Heap.get
  rcases hk.cells hij with ⟨hc, hd⟩ | ⟨c, d, hc, hd, hcd⟩
  · rw [hc, hd]
    exact .error trivial
  · rw [hc, hd]
    dsimp only
    rcases hcd.objects with ⟨ho, hp⟩ | ⟨o, p, ho, hp, hop⟩
    · rw [ho, hp]
      exact .error trivial
    · rw [ho, hp]
      exact .ok hop

/-- A container is stored under the handle that comes next. -/
theorem store (hop : R.likeness.Objects o p) (account : Account) (trail trail' : List String) :
    R.Beside R.handles (Memory.store o account trail) (Memory.store p account trail') := by
  refine (parallel_onHeap (A := R.handles) fun h k hk => ?_).bind fun i j hij =>
    (parallel_sameHeap (x := Memory.recordTrail _) (y := Memory.recordTrail _)
      (Action.raises_modify _) (Action.raises_modify _)).bind fun _ _ _ => parallel_pure hij
  obtain ⟨h', stored, receives⟩ := Heap.allocate_receives hk.bounded o
  obtain ⟨k', stored', receives'⟩ := Heap.allocate_receives hk.bounded' p
  rw [stored, stored']
  exact .done (hk.upcoming 0) (hk.receives hop receives receives')

/-! ### References -/

theorem retain (h : R.likeness.Values v w) :
    R.Beside (fun _ _ => True) (Memory.retain v) (Memory.retain w) := by
  have hd := h.datum
  unfold Memory.retain
  generalize v.datum = x at hd
  generalize w.datum = y at hd
  cases hd with
  | string text => exact parallel_onLedger (Ledger.spends_addReference _) (Ledger.spends_addReference _)
  | array hij | dictionary hij => exact retainHandle hij
  | _ => exact parallel_pure trivial

/-- The values that objects hold. -/
theorem values (h : R.likeness.Objects o p) : List.Forall₂ R.likeness.Values o.values p.values := by
  cases h with
  | array h => exact h.items
  | dictionary h =>
    refine List.forall₂_map_left_iff.2 (List.forall₂_map_right_iff.2 (h.entries.imp ?_))
    exact fun _ _ => And.right

/-- What objects leave behind. -/
theorem discard {x y : Option Object} (h : Option.Rel R.likeness.Objects x y) (i j : Handle) :
    R.Beside (List.Forall₂ R.likeness.Values) (Memory.discard i x) (Memory.discard j y) := by
  cases h with
  | none => exact parallel_pure .nil
  | some hop =>
    exact (parallel_sameHeap (x := Memory.forgetTrail i) (y := Memory.forgetTrail j)
      (Action.raises_modify _) (Action.raises_modify _)).bind fun _ _ _ =>
        (parallel_onLedger (Memory.raises_giveBack _) (Memory.raises_giveBack _)).bind fun _ _ _ =>
          parallel_pure (values hop)

theorem giveUp (h : R.likeness.Values v w) :
    R.Beside (List.Forall₂ R.likeness.Values) (Memory.giveUp v) (Memory.giveUp w) := by
  have container {i j : Handle} (hij : R.handles i j) :
      R.Beside (List.Forall₂ R.likeness.Values)
        (do Memory.discard i (← Memory.onHeap (Heap.release i)))
        (do Memory.discard j (← Memory.onHeap (Heap.release j))) :=
    (releaseHandle hij).bind fun _ _ h => discard h i j
  have hd := h.datum
  unfold Memory.giveUp
  generalize v.datum = x at hd
  generalize w.datum = y at hd
  cases hd with
  | string text =>
    exact (parallel_onLedger (Ledger.raises_dropReference _) (Ledger.raises_dropReference _)).bind
      fun _ _ _ => parallel_pure .nil
  | array hij | dictionary hij => exact container hij
  | _ => exact parallel_pure .nil

/-- Everything is given up in as many steps as it weighs. -/
theorem giveUpAll_agree (h : R.Memories μ ν) (hv : List.Forall₂ R.likeness.Values vs ws) {m n : ℕ}
    (hm : μ.heap.weight + vs.length ≤ m) (hn : ν.heap.weight + ws.length ≤ n) :
    R.likeness.Agree (fun _ _ => True) R.Memories (Memory.giveUpAll m vs μ)
      (Memory.giveUpAll n ws ν) := by
  have rising (fuel : ℕ) (values : List Value) := Memory.rising_giveUpAll fuel values
  have nothing (fuel : ℕ) (μ : Memory) : Memory.giveUpAll fuel [] μ = .done () μ := by
    cases fuel <;> rfl
  induction m generalizing n vs ws μ ν with
  | zero =>
    obtain rfl : vs = [] := List.length_eq_zero_iff.1 (by omega)
    cases hv
    rw [nothing, nothing]
    exact .done trivial h
  | succ m ih =>
    cases hv with
    | nil =>
      rw [nothing, nothing]
      exact .done trivial h
    | @cons v w vs ws hv hrest =>
      obtain ⟨n, rfl⟩ : ∃ n', n = n' + 1 := ⟨n - 1, by simp at hn; omega⟩
      rw [Memory.giveUpAll_succ, Memory.giveUpAll_succ]
      refine Agree.bind_of_eq (giveUp hv h) fun freed freed' μ' ν' hμ hν hfreed h' => ?_
      have weight := Memory.weight_of_giveUp hμ
      have weight' := Memory.weight_of_giveUp hν
      simp only [List.length_cons] at hm hn
      exact ih h' (List.rel_append hfreed hrest) (by simp; omega) (by simp; omega)

theorem release (h : R.likeness.Values v w) :
    R.Beside (fun _ _ => True) (Memory.release v) (Memory.release w) := by
  rw [Memory.release_eq, Memory.release_eq]
  refine (giveUp h).bind fun freed freed' hfreed μ ν hμ => ?_
  cases hfreed with
  | nil => exact .done trivial hμ
  | cons hv hrest => exact giveUpAll_agree hμ (.cons hv hrest) (by simp; omega) (by simp; omega)

/-! ### Slots -/

theorem acquire (slot : Size) (account : Account) (initial increment : ℕ) :
    R.Beside Eq (Reserve.acquire slot account initial increment)
      (Reserve.acquire slot account initial increment) := by
  intro μ ν h
  refine agree_of_grants (Reserve.acquire_grants slot account initial increment μ)
    (Reserve.acquire_grants slot account initial increment ν) ?_
  rintro _ μ' _ ν' ⟨rfl, hμ⟩ ⟨rfl, hν⟩
  exact ⟨rfl, h.of_sameHeap hμ hν⟩

/-- Reserves that can grow are not compared. -/
structure Grow (r r' : Reserve) : Prop where
  left : r.increment ≠ 0
  right : r'.increment ≠ 0

theorem resize {r r' : Reserve} (h : Grow r r') (n n' : ℕ) :
    R.Beside Grow (r.resize n) (r'.resize n') := by
  intro μ ν hμ
  refine agree_of_grants (Reserve.resize_grants r n μ) (Reserve.resize_grants r' n' ν) ?_
  rintro a μ' b ν' ⟨ha, hμ'⟩ ⟨hb, hν'⟩
  exact ⟨⟨ha ▸ h.left, hb ▸ h.right⟩, hμ.of_sameHeap hμ' hν'⟩

/-- What is done to containers is compared. -/
def comparison (R : Renaming) : Comparison where
  toLikeness := R.likeness
  memories := R.Memories
  retain := retain
  release := release
  acquire := acquire
  charge _ _ := parallel_onLedger (Ledger.spends_allocate _ _) (Ledger.spends_allocate _ _)
  refund _ _ := parallel_onLedger (Ledger.raises_release _ _) (Ledger.raises_release _ _)
  discharge _ := parallel_onLedger (Ledger.raises_release _ _) (Ledger.raises_release _ _)
  store account trail trail' h _ := store h account trail trail'
  checkOut := checkOut
  checkIn := checkIn
  object h hm := get hm h

theorem exchange {r r' : Reserve} (h : Grow r r') (n n' : ℕ) {vs' ws' : List Value}
    (hremoved : List.Forall₂ R.likeness.Values vs ws)
    (hadded : List.Forall₂ R.likeness.Values vs' ws') :
    R.Beside Grow (r.exchange n vs vs') (r'.exchange n' ws ws') := by
  obtain ⟨c, hc⟩ := Reserve.exists_capacityFor h.left (n - vs.length + vs'.length)
  obtain ⟨c', hc'⟩ := Reserve.exists_capacityFor h.right (n' - ws.length + ws'.length)
  unfold Reserve.exchange
  rw [hc, hc']
  refine (Comparison.retainAll (C := R.comparison) hadded).bind fun _ _ _ => ?_
  refine ((resize h c c').onRaise (Comparison.releaseAll (C := R.comparison) hadded)
    (Memory.raises_releaseAll _) (Memory.raises_releaseAll _)).bind fun r r' hr => ?_
  exact (Comparison.releaseAll (C := R.comparison) hremoved).bind fun _ _ _ => parallel_pure hr

/-- The frames above some at the bottom are compared. -/
def setting (R : Renaming) (below below' : List Frame)
    (idle : ∀ f ∈ below, f.value.toOperator? = none)
    (idle' : ∀ f ∈ below', f.value.toOperator? = none) : Setting where
  toComparison := R.comparison
  below := below
  below' := below'
  idle := idle
  idle' := idle'
  reserves := Grow
  exchange _ h hremoved hadded := exchange h _ _ hremoved hadded
  exactly h := h.elim
  debugged h := h.elim

end Renaming

end StackScript
