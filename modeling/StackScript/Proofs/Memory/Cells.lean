import StackScript.Proofs.Memory.Stake

/-!
# Cells of the heap and what they hold

The stake of a heap is the sum of the stakes of the objects in its cells.  Changing one cell changes
one summand (`Heap.stake_setCell`), which is all the later proofs use of how cells are stored.

* `Heap.WellFormed` says that the free list has every empty cell once, and nothing else;
* `Heap.Sheds` is what giving up references does to a heap: cells go and counts change, but no
  object does;
* `Heap.Supports` describes sets of handles of which every one is referred to from outside or from
  an object of the set.  Such a set outlives any references given up elsewhere, be it reachable
  from outside or a set of containers that hold each other.
-/

namespace StackScript

/-- Cost of the slots charged for, without saturation. -/
def Reserve.units (r : Reserve) : ℕ := r.slot.units * r.capacity

/-- What a reserve has charged. -/
def Reserve.stake (r : Reserve) : Stake := .charged r.account r.units

/-- What a sequence holds. -/
def Sequence.stake (s : Sequence) : Stake := s.reserve.stake + .refs s.items

/-- Type tag and account of a container; they never change. -/
structure Label where
  kind : Kind
  account : Account
deriving DecidableEq

namespace Object

/-- Account that pays for the object. -/
def account : Object → Account
  | .array s => s.reserve.account
  | .dictionary d => d.account

/-- Cost of the object, without saturation. -/
def units : Object → ℕ
  | .array s => s.reserve.units
  | .dictionary d => Dictionary.header.units +
      (d.entries.map fun e => (Dictionary.entrySize e.1).units).sum

/-- Type tag and account. -/
def label : Object → Label
  | .array s => ⟨.array, s.reserve.account⟩
  | .dictionary d => ⟨.dictionary, d.account⟩

/-- What an object holds. -/
def stake (o : Object) : Stake := .charged o.account o.units + .refs o.values

@[simp] theorem values_stake (o : Object) : o.stake.values = o.values := by simp [stake]

@[simp] theorem locals_stake (o : Object) : o.stake.locals = 0 := by simp [stake]

theorem units_stake (o : Object) (a : Account) :
    o.stake.units a = if a = o.account then o.units else 0 := by
  simp [stake, Stake.units_charged]

theorem account_eq_label (o : Object) : o.account = o.label.account := by
  cases o <;> rfl

/-- An array has a charged slot for each of its items, and no more. -/
def Packed : Object → Prop
  | .array s => s.reserve.slot = Sequence.valueSlot ∧ s.reserve.capacity = s.length
  | .dictionary _ => True

/-- The object has this label, and no slot to spare. -/
structure Bears (o : Object) (l : Label) : Prop where
  label : o.label = l
  packed : o.Packed

theorem Bears.replace {s : Sequence} {l : Label} (h : Bears (.array s) l) (index : ℕ) (v : Value) :
    Bears (.array (s.replace index v)) l := by
  refine ⟨h.label, h.packed.1, h.packed.2.trans ?_⟩
  unfold Sequence.replace Sequence.length
  dsimp only
  split
  · rw [List.length_set]
  · rfl

theorem Bears.dictionary {d : Dictionary} {l : Label} (h : Bears (.dictionary d) l)
    (entries : TextMap Value) : Bears (.dictionary { d with entries := entries }) l :=
  ⟨h.label, trivial⟩

end Object

/-- What the object in a cell holds. -/
def Cell.stake (c : Cell) : Stake := c.object.elim 0 Object.stake

namespace Heap

/-- The object of a handle, unless it is checked out. -/
def object? (h : Heap) (handle : Handle) : Option Object := (h.cell? handle).bind Cell.object

/-- Number of references the cell of a handle counts. -/
def countAt (h : Heap) (handle : Handle) : ℕ := (h.cell? handle).elim 0 Cell.count

/-- What the objects of the heap hold. -/
def stake (h : Heap) : Stake := (h.cells.toList.map fun c => c.elim 0 Cell.stake).sum

/-- The free list has every empty cell, once. -/
structure WellFormed (h : Heap) : Prop where
  nodup : h.free.Nodup
  mem_free : ∀ i : ℕ, i ∈ h.free ↔ i < h.cells.size ∧ h.cell? i = none

variable {h : Heap} {i j : ℕ} {c : Cell} {o : Object}

theorem lt_size_of_cell? (hc : h.cell? i = some c) : i < h.cells.size := by
  by_contra hi
  rw [cell?, Array.getElem?_eq_none (by omega)] at hc
  cases hc

theorem object?_of_cell? (hc : h.cell? i = some c) : h.object? i = c.object := by
  rw [object?, hc]
  rfl

theorem exists_cell_of_object? (ho : h.object? i = some o) :
    ∃ c, h.cell? i = some c ∧ c.object = some o :=
  Option.bind_eq_some_iff.1 ho

theorem countAt_of_cell? (hc : h.cell? i = some c) : h.countAt i = c.count := by
  rw [countAt, hc]
  rfl

theorem exists_cell_of_countAt_pos (hi : 0 < h.countAt i) : ∃ c, h.cell? i = some c := by
  cases hc : h.cell? i with
  | none => simp [countAt, hc] at hi
  | some c => exact ⟨c, rfl⟩

/-! ### Replacing a cell -/

@[simp] theorem size_setCell (h : Heap) (i : ℕ) (c : Option Cell) :
    (h.setCell i c).cells.size = h.cells.size := by
  simp [setCell]

theorem cell?_setCell_self (hi : i < h.cells.size) (c : Option Cell) :
    (h.setCell i c).cell? i = c := by
  rw [cell?, setCell, Array.getElem?_setIfInBounds_self_of_lt hi]
  rfl

theorem cell?_setCell_ne (hne : i ≠ j) (c : Option Cell) :
    (h.setCell i c).cell? j = h.cell? j := by
  rw [cell?, setCell, Array.getElem?_setIfInBounds_ne hne]
  rfl

theorem cell?_setCell (hi : i < h.cells.size) (c : Option Cell) (j : ℕ) :
    (h.setCell i c).cell? j = if j = i then c else h.cell? j := by
  split
  · rename_i hj
    rw [hj, cell?_setCell_self hi]
  · rename_i hj
    exact cell?_setCell_ne (Ne.symm hj) c

theorem countAt_setCell (hi : i < h.cells.size) (c : Option Cell) (j : ℕ) :
    (h.setCell i c).countAt j = if j = i then c.elim 0 Cell.count else h.countAt j := by
  rw [countAt, cell?_setCell hi]
  split <;> rfl

/-- Replacing one entry of a list replaces one summand. -/
theorem sum_map_set {α M : Type*} [AddCommMonoid M] (f : α → M) (l : List α) (k : ℕ)
    (hk : k < l.length) (b : α) :
    ((l.set k b).map f).sum + f l[k] = (l.map f).sum + f b := by
  induction l generalizing k with
  | nil => simp at hk
  | cons a rest ih =>
    cases k with
    | zero =>
      simp only [List.set_cons_zero, List.map_cons, List.sum_cons, List.getElem_cons_zero]
      abel
    | succ k =>
      have := ih k (by simpa using hk)
      simp only [List.set_cons_succ, List.map_cons, List.sum_cons, List.getElem_cons_succ]
      rw [add_assoc, this]
      abel

/-- **Changing one cell changes one summand of the stake.** -/
theorem stake_setCell (hi : i < h.cells.size) (c : Option Cell) :
    (h.setCell i c).stake + (h.cell? i).elim 0 Cell.stake = h.stake + c.elim 0 Cell.stake := by
  have hlen : i < h.cells.toList.length := by simpa using hi
  have hcell : h.cell? i = h.cells.toList[i] := by
    rw [cell?, Array.getElem?_eq_getElem hi]
    simp
  rw [hcell]
  simpa [stake, setCell] using sum_map_set (fun c : Option Cell => c.elim 0 Cell.stake) _ i hlen c

/-- Changing only the count of a cell leaves the stake as it is. -/
theorem stake_setCell_of_object (hc : h.cell? i = some c) {c' : Cell} (ho : c'.object = c.object) :
    (h.setCell i (some c')).stake = h.stake := by
  have key := stake_setCell (lt_size_of_cell? hc) (some c')
  rw [hc] at key
  simp only [Option.elim, Cell.stake, ho] at key
  exact add_right_cancel key

/-! ### The stake of a heap -/

theorem mem_values_sum {α : Type*} (f : α → Stake) (l : List α) (v : Value) :
    v ∈ (l.map f).sum.values ↔ ∃ a ∈ l, v ∈ (f a).values := by
  induction l with
  | nil => simp
  | cons a rest ih => simp [ih]

theorem mem_values_stake {v : Value} :
    v ∈ h.stake.values ↔ ∃ i o, h.object? i = some o ∧ v ∈ o.values := by
  rw [stake, mem_values_sum]
  constructor
  · rintro ⟨c, hc, hv⟩
    obtain ⟨i, hi, rfl⟩ := List.getElem_of_mem hc
    cases hcell : h.cells.toList[i] with
    | none => simp [hcell] at hv
    | some cell =>
      cases hobj : cell.object with
      | none => simp [hcell, Cell.stake, hobj] at hv
      | some o =>
        have hget : h.cell? i = some cell := by
          rw [Array.getElem_toList] at hcell
          rw [cell?, Array.getElem?_eq_getElem (by simpa using hi), hcell]
          rfl
        exact ⟨i, o, (object?_of_cell? hget).trans hobj, by
          simpa [hcell, Cell.stake, hobj] using hv⟩
  · rintro ⟨i, o, ho, hv⟩
    obtain ⟨c, hc, hco⟩ := exists_cell_of_object? ho
    refine ⟨some c, ?_, by simpa [Cell.stake, hco] using hv⟩
    have hi := lt_size_of_cell? hc
    rw [cell?, Array.getElem?_eq_getElem hi, Option.join_some] at hc
    rw [← hc]
    simp

theorem holders_stake_pos {v : Value} {j : Handle} (ho : h.object? i = some o) (hv : v ∈ o.values)
    (hj : v.handle? = some j) : 0 < h.stake.holders j :=
  Stake.holders_pos_of_mem (mem_values_stake.2 ⟨i, o, ho, hv⟩) hj

@[simp] theorem locals_stake (h : Heap) : h.stake.locals = 0 := by
  have key (l : List (Option Cell)) :
      (l.map fun c : Option Cell => c.elim 0 Cell.stake).sum.locals = 0 := by
    induction l with
    | nil => rfl
    | cons c rest ih =>
      rw [List.map_cons, List.sum_cons, Stake.locals_add, ih, add_zero]
      cases c with
      | none => rfl
      | some c => cases ho : c.object <;> simp [Cell.stake, ho]
  exact key _

theorem stake_push (h : Heap) (c : Cell) :
    ({ h with cells := h.cells.push (some c) } : Heap).stake = h.stake + c.stake := by
  simp [stake]

/-! ### Heaps that lose references -/

/-- What is in the cell of a handle: nothing if there is no cell, no object if it is checked out. -/
def content? (h : Heap) (i : ℕ) : Option (Option Object) := (h.cell? i).map Cell.object

theorem object?_eq_join (h : Heap) (i : ℕ) : h.object? i = (h.content? i).join := by
  cases hc : h.cell? i <;> simp [object?, content?, hc]

theorem content?_of_cell? (hc : h.cell? i = some c) : h.content? i = some c.object := by
  rw [content?, hc]
  rfl

theorem content?_eq_none_iff : h.content? i = none ↔ h.cell? i = none := Option.map_eq_none_iff

theorem content?_setCell_ne (hne : i ≠ j) (c : Option Cell) :
    (h.setCell i c).content? j = h.content? j := by
  rw [content?, cell?_setCell_ne hne, content?]

variable {h₁ h₂ h₃ : Heap} {x y : Stake}

/-- Cells go and counts change, but no object does. -/
def Sheds (h₁ h₂ : Heap) : Prop := ∀ i, h₂.content? i = none ∨ h₂.content? i = h₁.content? i

theorem Sheds.refl (h : Heap) : h.Sheds h := fun _ => .inr rfl

theorem Sheds.trans (h₁₂ : h₁.Sheds h₂) (h₂₃ : h₂.Sheds h₃) : h₁.Sheds h₃ := fun i =>
  (h₂₃ i).elim .inl fun h => (h₁₂ i).imp h.trans h.trans

theorem Sheds.object?_eq (hs : h₁.Sheds h₂) (ho : h₂.object? i = some o) :
    h₁.object? i = some o := by
  rw [object?_eq_join] at ho ⊢
  rcases hs i with hi | hi
  · rw [hi] at ho
    cases ho
  · rwa [← hi]

/-- Every container of the set is referred to by the stake or by an object of the set. -/
def Supports (x : Stake) (h : Heap) (S : ℕ → Prop) : Prop :=
  ∀ i, S i → 0 < x.holders i ∨
    ∃ g o, S g ∧ h.object? g = some o ∧ ∃ v ∈ o.values, v.handle? = some i

theorem supports_holders (x : Stake) (h : Heap) : Supports x h fun i => 0 < x.holders i :=
  fun _ => .inl

theorem Supports.mono {S : ℕ → Prop} (hS : Supports x h S)
    (hxy : ∀ i, 0 < x.holders i → 0 < y.holders i) : Supports y h S := fun i hi =>
  (hS i hi).imp_left (hxy i)

/-- Whatever the stake supports stays as it is. -/
def Keeps (x : Stake) (h₁ h₂ : Heap) : Prop :=
  ∀ S, Supports x h₁ S → ∀ i, S i → h₂.content? i = h₁.content? i

theorem Keeps.refl (x : Stake) (h : Heap) : Keeps x h h := fun _ _ _ _ => rfl

theorem Keeps.supports {S : ℕ → Prop} (hk : Keeps x h₁ h₂) (hS : Supports x h₁ S) :
    Supports x h₂ S := by
  intro i hi
  refine (hS i hi).imp_right ?_
  rintro ⟨g, o, hg, ho, hv⟩
  refine ⟨g, o, hg, ?_, hv⟩
  rw [object?_eq_join, hk S hS g hg, ← object?_eq_join, ho]

theorem Keeps.trans (h₁₂ : Keeps x h₁ h₂) (h₂₃ : Keeps x h₂ h₃) : Keeps x h₁ h₃ :=
  fun S hS i hi => (h₂₃ S (h₁₂.supports hS) i hi).trans (h₁₂ S hS i hi)

theorem Keeps.mono (hk : Keeps x h₁ h₂) (hxy : ∀ i, 0 < y.holders i → 0 < x.holders i) :
    Keeps y h₁ h₂ := fun S hS => hk S (hS.mono hxy)

theorem Keeps.of_add_right (hk : Keeps (x + y) h₁ h₂) : Keeps x h₁ h₂ :=
  hk.mono fun i hi => by rw [Stake.holders_add]; omega

/-- Every object that is checked out belongs to a set the stake supports. -/
def OutSupported (x : Stake) (h : Heap) : Prop :=
  ∀ i, h.content? i = some none → ∃ S, Supports x h S ∧ S i

theorem OutSupported.mono (hout : OutSupported x h) (hxy : ∀ i, 0 < x.holders i → 0 < y.holders i) :
    OutSupported y h := fun i hi =>
  let ⟨S, hS, hSi⟩ := hout i hi
  ⟨S, hS.mono hxy, hSi⟩

theorem OutSupported.add_right (hout : OutSupported x h) (y : Stake) : OutSupported (x + y) h :=
  hout.mono fun i hi => by rw [Stake.holders_add]; omega

/-- No object is checked out. -/
def Present (h : Heap) : Prop := ∀ i, h.content? i ≠ some none

theorem Present.outSupported (hp : h.Present) (x : Stake) : OutSupported x h :=
  fun i hi => absurd hi (hp i)

theorem Present.exists_object (hp : h.Present) (hc : h.cell? i = some c) :
    ∃ o, h.object? i = some o := by
  cases ho : c.object with
  | none => exact absurd ((content?_of_cell? hc).trans (congrArg some ho)) (hp i)
  | some o => exact ⟨o, (object?_of_cell? hc).trans ho⟩

theorem Present.sheds (hp : h₁.Present) (hs : h₁.Sheds h₂) : h₂.Present := by
  intro i hi
  rcases hs i with h | h
  · rw [h] at hi
    cases hi
  · exact hp i (h.symm.trans hi)

theorem OutSupported.sheds (hout : OutSupported x h₁) (hs : h₁.Sheds h₂) (hk : Keeps x h₁ h₂) :
    OutSupported x h₂ := by
  intro i hi
  rcases hs i with h | h
  · rw [h] at hi
    cases hi
  · obtain ⟨S, hS, hSi⟩ := hout i (h.symm.trans hi)
    exact ⟨S, hk.supports hS, hSi⟩

end Heap

end StackScript
