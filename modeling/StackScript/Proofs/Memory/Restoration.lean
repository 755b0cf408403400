import StackScript.Proofs.Memory.Loans
import StackScript.Proofs.Memory.Modification

/-!
# Memories that are restored

A memory is determined by what is held: if two balanced memories have the same cells, and the
stakes under which they are balanced mention the same texts, then they have the same table of texts,
and what their accounts hold differs by what the stakes are charged
(`Memory.Balanced.strings_eq`, `Memory.Balanced.held_eq`).

So an operation that fails with its stake and the cells as they were has *restored* the memory
(`Memory.Restored`): nothing but the peak tells that it was tried.

* `Memory.Balanced.restored`: the same stake and the same cells are enough;
* `Memory.Achieves`: an action does all of what it is meant to do, or restores the memory.  So do the
  operations on references and containers.
-/

namespace StackScript

open Metered (peak)

/-! ### Tables -/

namespace TextMap

variable {α : Type} {m m' : TextMap α} {key : String} {a : α}

theorem find?_eq_some_iff (h : (m.map Prod.fst).Nodup) : m.find? key = some a ↔ (key, a) ∈ m := by
  induction m with
  | nil => simp [find?]
  | cons p rest ih =>
    obtain ⟨k, b⟩ := p
    rw [List.map_cons, List.nodup_cons] at h
    rw [find?, List.mem_cons, ← ih h.2]
    by_cases hk : k = key
    · subst hk
      have unbound := find?_eq_none_iff.2 h.1
      simp [unbound, eq_comm]
    · simp [hk, Ne.symm hk]

/-- Tables that say the same differ by the order of their entries only. -/
theorem perm_of_find?_eq (h : (m.map Prod.fst).Nodup) (h' : (m'.map Prod.fst).Nodup)
    (same : m'.find? = m.find?) : m'.Perm m := by
  refine (List.perm_ext_iff_of_nodup (.of_map _ h') (.of_map _ h)).2 fun e => ?_
  rw [← find?_eq_some_iff h', ← find?_eq_some_iff h, same]

end TextMap

namespace Ledger

variable {l l' : Ledger}

theorem Tabled.references_eq_zero_iff (h : l.Tabled) (text : String) :
    l.references text = 0 ↔ l.strings.find? text = none := by
  cases hf : l.strings.find? text with
  | none => simp [references, hf]
  | some n =>
    have positive := h.positive _ ((TextMap.find?_eq_some_iff h.nodup).1 hf)
    simp only [references, hf, Option.getD_some, reduceCtorEq, iff_false]
    exact Nat.pos_iff_ne_zero.1 positive

/-- The references to each text are all there is in the table. -/
theorem Tabled.find?_eq (h : l.Tabled) (h' : l'.Tabled)
    (same : ∀ text, l'.references text = l.references text) :
    l'.strings.find? = l.strings.find? := by
  funext text
  have hzero := h.references_eq_zero_iff text
  have hzero' := h'.references_eq_zero_iff text
  have hsame := same text
  cases hf : l.strings.find? text with
  | none => exact hzero'.1 (hsame.trans (hzero.2 hf))
  | some n =>
    cases hf' : l'.strings.find? text with
    | none =>
      have none := hzero.1 (hsame.symm.trans (hzero'.2 hf'))
      rw [hf] at none
      cases none
    | some n' =>
      simp only [references, hf, hf', Option.getD_some] at hsame
      rw [hsame]

theorem textUnits_congr (h : l.Tabled) (h' : l'.Tabled) (same : l'.strings.find? = l.strings.find?) :
    l'.textUnits = l.textUnits :=
  ((TextMap.perm_of_find?_eq h.nodup h'.nodup same).map _).sum_eq

end Ledger

/-! ### Cells -/

namespace Heap

variable {h h' : Heap}

/-- The stake of a heap as a sum over any range that covers it. -/
theorem stake_eq_sum {n : ℕ} (hn : h.cells.size ≤ n) :
    h.stake = ((List.range n).map fun i => (h.cell? i).elim 0 Cell.stake).sum := by
  induction n, hn using Nat.le_induction with
  | base =>
    refine congrArg List.sum (List.ext_getElem (by simp) fun i hi hi' => ?_)
    have hsize : i < h.cells.size := by simpa using hi
    simp [cell?, Array.getElem?_eq_getElem hsize]
  | succ n hn ih =>
    have empty : h.cell? n = none := by
      rw [cell?, Array.getElem?_eq_none hn]
      rfl
    rw [List.range_succ, List.map_append, List.sum_append, ← ih]
    simp [empty]

theorem stake_eq_of_content (same : ∀ i, h'.content? i = h.content? i) : h'.stake = h.stake := by
  rw [stake_eq_sum (Nat.le_max_left h.cells.size h'.cells.size),
    stake_eq_sum (Nat.le_max_right h.cells.size h'.cells.size)]
  refine congrArg List.sum (List.map_congr_left fun i _ => ?_)
  have content := same i
  cases hc : h.cell? i <;> cases hc' : h'.cell? i <;>
    simp_all [content?, Cell.stake]

theorem stake_eq_of_cells (same : h'.cell? = h.cell?) : h'.stake = h.stake :=
  stake_eq_of_content fun i => by rw [content?, content?, same]

end Heap

namespace Memory

variable {total : Option ℕ} {σ σ' : ℕ → Label} {x x' : Stake} {m m' m'' : Memory}

/-! ### What is held determines the ledger -/

theorem Balanced.strings_eq (hb : m.Balanced total σ x) (hb' : m'.Balanced total σ' x')
    (mentions : ∀ t, (x' + m'.heap.stake).mentions t = (x + m.heap.stake).mentions t) :
    m'.ledger.strings.find? = m.ledger.strings.find? :=
  hb.tabled.find?_eq hb'.tabled fun t => by rw [hb'.mentions, hb.mentions, mentions]

theorem Balanced.held_eq (hb : m.Balanced total σ x) (hb' : m'.Balanced total σ' x')
    (mentions : ∀ t, (x' + m'.heap.stake).mentions t = (x + m.heap.stake).mentions t)
    (a : Account) :
    m'.ledger.held a + (x + m.heap.stake).units a =
      m.ledger.held a + (x' + m'.heap.stake).units a := by
  have share : m'.ledger.textShare a = m.ledger.textShare a := by
    rw [Ledger.textShare, Ledger.textShare,
      Ledger.textUnits_congr hb.tabled hb'.tabled (hb.strings_eq hb' mentions)]
  rw [hb'.units, hb.units, share]
  omega

/-! ### Restored memories -/

/-- Nothing is different but the peak, which may have risen. -/
structure Restored (m m' : Memory) : Prop where
  /-- The containers there are, what they hold and how often they are referred to. -/
  cells : m'.heap.cell? = m.heap.cell?
  /-- The texts that are referred to, and how often. -/
  strings : m'.ledger.strings.find? = m.ledger.strings.find?
  capacity : m'.ledger.total = m.ledger.total
  used : m'.ledger.used = m.ledger.used
  held : m'.ledger.held = m.ledger.held
  peak : m.ledger.peak ≤ m'.ledger.peak

theorem Restored.refl (m : Memory) : m.Restored m := ⟨rfl, rfl, rfl, rfl, rfl, le_rfl⟩

theorem Restored.trans (h : m.Restored m') (h' : m'.Restored m'') : m.Restored m'' where
  cells := h'.cells.trans h.cells
  strings := h'.strings.trans h.strings
  capacity := h'.capacity.trans h.capacity
  used := h'.used.trans h.used
  held := h'.held.trans h.held
  peak := h.peak.trans h'.peak

theorem Balanced.counted (hb : m.Balanced total σ x) : Cells.Counted m.heap.cell? := hb.positive

theorem Balanced.has (hb : m.Balanced total σ x) : m.Has m.heap.cell? := has_self hb.heap

/-- With the stake and the cells as they were, everything is. -/
theorem Balanced.restored (hb : m.Balanced total σ x) (hb' : m'.Balanced total σ' x)
    (cells : m'.heap.cell? = m.heap.cell?) (hpeak : peak m ≤ peak m') : m.Restored m' := by
  have stake := Heap.stake_eq_of_cells cells
  have mentions (t : String) :
      (x + m'.heap.stake).mentions t = (x + m.heap.stake).mentions t := by rw [stake]
  have held : m'.ledger.held = m.ledger.held := by
    funext a
    have := hb.held_eq hb' mentions a
    rw [stake] at this
    omega
  have used : m'.ledger.used = m.ledger.used := by
    rw [hb'.exact.sum, hb.exact.sum]
    exact congrArg₂ (· + ·) (congrArg₂ (· + ·) (congrFun held .system) (congrFun held .user))
      (congrFun held .string)
  exact ⟨cells, hb.strings_eq hb' mentions, hb'.exact.capacity.trans hb.exact.capacity.symm, used,
    held, hpeak⟩

/-- The action does what `P` says, or it fails and has restored the memory. -/
def Achieves {α : Type} (a : Action Memory α) (m : Memory) (P : α → Memory → Prop) : Prop :=
  (a m).Meets False P m.Restored

variable {α : Type} {a : Action Memory α} {P Q : α → Memory → Prop}

theorem Achieves.mono (h : Achieves a m P) (hpq : ∀ v m', P v m' → Q v m') : Achieves a m Q :=
  Outcome.Meets.mono h hpq fun _ => id

/-- An action that fails with the stake and the cells as they were has restored the memory. -/
theorem achieves_of_meets [Action.Rising a] (hb : m.Balanced total σ x)
    (h : (a m).Meets False P fun m' => m'.Balanced total σ x)
    (has : (a m).Meets True Q (Has m.heap.cell?)) :
    Achieves a m fun v m' => P v m' ∧ Q v m' := by
  have rises := Action.Rising.rises (x := a) m
  unfold Achieves
  cases ha : a m with
  | done value m' =>
    rw [ha] at h has
    exact ⟨h, has⟩
  | raised e m' =>
    rw [ha] at h has rises
    exact hb.restored h has.cells rises
  | broken b => rw [ha] at h; exact h

/-! ### The operations -/

theorem achieves_retainAll (hb : m.Balanced total σ x) (hp : m.heap.Present) {vs : List Value}
    (hv : ∀ v ∈ vs, (x + m.heap.stake).Knows v) :
    Achieves (retainAll vs) m fun _ m' =>
      m'.Balanced total σ (x + .refs vs) ∧ m'.Has (Cells.lend m.heap.cell? vs) := by
  have retained : (retainAll vs m).Meets False _ _ :=
    retainAll_meets vs hb hv (.inr (hp.outSupported x))
  exact achieves_of_meets hb (retained.mono (fun _ _ h => h.1) fun _ h => h.1.1)
    (retainAll_has hb.counted hb.has vs)

theorem achieves_newArray (hb : m.Balanced total σ x) (hp : m.heap.Present) (a : Account)
    {items : List Value} (hv : ∀ v ∈ items, (x + m.heap.stake).Knows v) (trail : List String) :
    Achieves (newArray a items trail) m fun i m' =>
      Created total σ x m ⟨.array, a⟩ i m' ∧ ∃ s : Sequence, s.toList = items ∧
        m'.Has (Cells.build m.heap.cell? i (.array s)) := by
  have created : (newArray a items trail m).Meets False _ _ :=
    newArray_meets hb hv (.inr (hp.outSupported x)) a trail
  refine (achieves_of_meets hb (created.mono (fun _ _ h => h) fun _ h => h.1)
    (newArray_has hb.counted hb.has a items trail)).mono ?_
  rintro i m' ⟨created, s, hs, -, has⟩
  exact ⟨created, s, by rw [Sequence.toList, hs, List.reverse_reverse], has⟩

theorem achieves_newFilledArray (hb : m.Balanced total σ x) (hp : m.heap.Present) (a : Account)
    (length : ℕ) {v : Value} (hv : (x + m.heap.stake).Knows v) (trail : List String) :
    Achieves (newFilledArray a length v trail) m fun i m' =>
      Created total σ x m ⟨.array, a⟩ i m' ∧ ∃ s : Sequence, s.toList = List.replicate length v ∧
        m'.Has (Cells.build m.heap.cell? i (.array s)) := by
  have created : (newFilledArray a length v trail m).Meets False _ _ :=
    newFilledArray_meets hb hv (.inr (hp.outSupported x)) a length trail
  refine (achieves_of_meets hb (created.mono (fun _ _ h => h) fun _ h => h.1)
    (newFilledArray_has hb.counted hb.has a length v trail)).mono ?_
  rintro i m' ⟨created, s, hs, -, has⟩
  exact ⟨created, s, by rw [Sequence.toList, hs, List.reverse_replicate], has⟩

theorem achieves_newDictionary (hb : m.Balanced total σ x) (a : Account) (trail : List String) :
    Achieves (newDictionary a trail) m fun i m' =>
      Created total σ x m ⟨.dictionary, a⟩ i m' ∧ ∃ d : Dictionary, d.values = [] ∧
        m'.Has (Cells.build m.heap.cell? i (.dictionary d)) := by
  have created : (newDictionary a trail m).Meets False _ _ := newDictionary_meets hb a trail
  refine (achieves_of_meets hb (created.mono (fun _ _ h => h) fun _ h => h ▸ hb)
    (newDictionary_has hb.has a trail)).mono ?_
  rintro i m' ⟨created, d, hd, -, has⟩
  exact ⟨created, d, hd, has⟩

/-- A new dictionary takes a cell and the charge for its header. -/
theorem newDictionary_grants (hb : m.Balanced total σ x) (a : Account) (trail : List String) :
    (newDictionary a trail m).Meets False
      (fun i m' => m.heap.cell? i = none ∧
        m'.heap.cell? = Function.update m.heap.cell? i
          (some ⟨1, some (.dictionary { account := a })⟩) ∧
        m'.ledger = m.ledger.grant Dictionary.header.cost a) fun m' => m' = m := by
  have charged : (onLedger (Ledger.allocate Dictionary.header a) m).Meets False
      (fun _ m' => m' = { m with ledger := m.ledger.grant Dictionary.header.cost a })
      fun m' => m' = m :=
    Action.meets_zoom ((Ledger.allocate_meets (n := Dictionary.header.cost) hb.exact
      (by decide)).mono (fun _ _ h => by rw [h.1]) fun _ h => by rw [h])
  refine Action.meets_bind charged ?_
  rintro _ _ rfl
  refine Outcome.Meets.mono (store_allocates (F := fun m' => m' = m) (m :=
    { m with ledger := m.ledger.grant Dictionary.header.cost a }) hb.heap _ a trail) ?_ fun _ => id
  rintro i _ ⟨heap, fresh, -, -, cells, rfl⟩
  exact ⟨fresh, funext fun j => (cells j).trans (Function.update_apply _ _ _ _).symm, rfl⟩

variable {s : Sequence} {d : Dictionary} {v : Value} {i : Handle}

theorem achieves_setItem (hb : m.Balanced total σ x) (hp : m.heap.Present)
    (ho : m.heap.object? i = some (.array s)) (ha : m.heap.Anchored x i) (index : ℕ)
    (hv : (x + m.heap.stake).Knows v) :
    Achieves (setItem i index v) m fun _ m' =>
      Modified total σ x m i (.array (s.replace index v)) m' := by
  have stored : (setItem i index v m).Meets False _ _ := setItem_meets hb hp ho (.inr ha) hv
  exact (achieves_of_meets hb (stored.mono (fun _ _ h => h) fun _ h => h.balanced)
    (setItem_refused hb.has i index v)).mono fun _ _ h => h.1

theorem achieves_define (hb : m.Balanced total σ x) (hp : m.heap.Present)
    (ho : m.heap.object? i = some (.dictionary d)) (ha : m.heap.Anchored x i) (name : String)
    (hv : (x + m.heap.stake).Knows v) :
    Achieves (define i name v) m fun _ m' =>
      Modified total σ x m i (.dictionary { d with entries := d.entries.put name v }) m' := by
  have defined : (define i name v m).Meets False _ _ := define_meets hb hp ho (.inr ha) hv
  exact (achieves_of_meets hb (defined.mono (fun _ _ h => h) fun _ h => h.balanced)
    (define_refused hb.has i name v)).mono fun _ _ h => h.1

end Memory

namespace Sequence

variable {total : Option ℕ} {σ : ℕ → Label} {x : Stake} {m : Memory} {s : Sequence}

theorem achieves_exchange (hb : m.Balanced total σ (x + s.stake)) (drop : ℕ) {values : List Value}
    (hv : ∀ v ∈ values, (x + s.stake + m.heap.stake).Knows v)
    (hout : Heap.OutSupported x m.heap) :
    Memory.Achieves (s.exchange drop values) m fun s' m' =>
      s'.items = values.reverse ++ s.items.drop drop ∧ s.Resized s' ∧
        m'.Balanced total σ (x + s'.stake) ∧ m.Loses x m' := by
  have exchanged : (s.exchange drop values m).Meets False _ _ :=
    exchange_meets drop values hb hv (.inr hout)
  refine (Memory.achieves_of_meets hb (exchanged.mono (fun _ _ h => h) fun _ h => h.1.1)
    (s.exchange_refused hb.counted hb.has drop values)).mono ?_
  rintro s' m' ⟨⟨⟨resized, items⟩, balanced, loses⟩, -⟩
  exact ⟨items, resized, balanced, loses⟩

end Sequence

end StackScript
