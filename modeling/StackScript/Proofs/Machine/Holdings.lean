import Mathlib.Algebra.Order.BigOperators.Group.List
import Mathlib.Algebra.Order.Group.Nat
import StackScript.Proofs.Machine.Reached

/-!
# Everything a machine holds

The stake of a machine and its heap, spelled out: the values in its places, the dictionaries of its
frames' locals, and the units charged for its stacks, its exceptions and its containers.
-/

namespace StackScript

/-! ### Sums of stakes -/

namespace Stake

variable {α : Type}

theorem values_sum_map (f : α → Stake) (g : α → List Value) (hfg : ∀ a, (f a).values = g a)
    (l : List α) : (l.map f).sum.values = l.flatMap g := by
  induction l with
  | nil => rfl
  | cons a rest ih =>
    rw [List.map_cons, List.sum_cons, values_add, ih, hfg, List.flatMap_cons, ← Multiset.coe_add]

theorem locals_sum_map (f : α → Stake) (g : α → List Handle) (hfg : ∀ a, (f a).locals = g a)
    (l : List α) : (l.map f).sum.locals = l.flatMap g := by
  induction l with
  | nil => rfl
  | cons a rest ih =>
    rw [List.map_cons, List.sum_cons, locals_add, ih, hfg, List.flatMap_cons, ← Multiset.coe_add]

theorem units_sum_map (f : α → Stake) (a : Account) (l : List α) :
    (l.map f).sum.units a = (l.map fun b => (f b).units a).sum := by
  induction l with
  | nil => rfl
  | cons b rest ih =>
    rw [List.map_cons, List.sum_cons, units_add, Pi.add_apply, ih, List.map_cons, List.sum_cons]

end Stake

/-! ### The heap -/

/-- What the items of an array, or the entries of a dictionary, cost. -/
def Object.footprint : Object → ℕ
  | .array s => s.length * Sequence.valueSlot.units
  | .dictionary d => Dictionary.header.units +
      (d.entries.map fun e => (Dictionary.entrySize e.1).units).sum

theorem Object.footprint_eq_units {o : Object} (h : o.Packed) : o.footprint = o.units := by
  cases o with
  | array s => rw [footprint, units, Reserve.units, h.1, h.2, Nat.mul_comm]
  | dictionary d => rfl

namespace Heap

/-- The objects of the live containers. -/
def objects (h : Heap) : List Object := h.cells.toList.filterMap fun c => c.bind Cell.object

/-- What is in the slots and entries of the live containers. -/
def slots (h : Heap) : List Value := h.objects.flatMap Object.values

theorem stake_eq_sum_objects (h : Heap) : h.stake = (h.objects.map Object.stake).sum := by
  rw [stake, objects]
  induction h.cells.toList with
  | nil => rfl
  | cons c rest ih =>
    rw [List.map_cons, List.sum_cons, ih]
    cases c with
    | none => exact zero_add _
    | some c => cases ho : c.object <;> simp [Cell.stake, ho]

theorem values_stake (h : Heap) : h.stake.values = h.slots := by
  rw [stake_eq_sum_objects]
  exact Stake.values_sum_map _ _ Object.values_stake _

theorem toList_cells (h : Heap) : h.cells.toList = (List.range h.cells.size).map h.cell? := by
  refine List.ext_getElem (by simp) fun i hi _ => ?_
  rw [List.getElem_map, List.getElem_range, cell?, Array.getElem?_eq_getElem (by simpa using hi),
    Array.getElem_toList]
  rfl

theorem objects_eq_filterMap (h : Heap) :
    h.objects = (List.range h.cells.size).filterMap h.object? := by
  rw [objects, toList_cells, List.filterMap_map]
  rfl

/-- The live containers. -/
def handles (h : Heap) : List Handle :=
  (List.range h.cells.size).filter fun i => (h.object? i).isSome

/-- The live containers charged to an account. -/
def paidBy (h : Heap) (a : Account) : List Handle :=
  (List.range h.cells.size).filter fun i => (h.object? i).any fun o => o.account = a

theorem lt_size_of_object? {h : Heap} {i : Handle} {o : Object} (ho : h.object? i = some o) :
    i < h.cells.size :=
  let ⟨_, hc, _⟩ := exists_cell_of_object? ho
  lt_size_of_cell? hc

/-- A sum over the containers is one over their handles. -/
theorem sum_objects {M : Type} [AddCommMonoid M] (h : Heap) (f : Object → M) :
    (h.objects.map f).sum = (h.handles.map fun i => (h.object? i).elim 0 f).sum := by
  rw [objects_eq_filterMap, handles]
  induction List.range h.cells.size with
  | nil => rfl
  | cons i rest ih =>
    cases ho : h.object? i with
    | none => rw [List.filterMap_cons_none ho, List.filter_cons_of_neg (by simp [ho]), ih]
    | some o =>
      rw [List.filterMap_cons_some ho, List.filter_cons_of_pos (by simp [ho]), List.map_cons,
        List.sum_cons, ih, List.map_cons, List.sum_cons, ho, Option.elim_some]

theorem mem_handles {h : Heap} {i : Handle} : i ∈ h.handles ↔ ∃ o, h.object? i = some o := by
  rw [handles, List.mem_filter, List.mem_range, Option.isSome_iff_exists]
  exact and_iff_right_of_imp fun ⟨_, ho⟩ => lt_size_of_object? ho

theorem mem_paidBy {h : Heap} {a : Account} {i : Handle} :
    i ∈ h.paidBy a ↔ ∃ o, h.object? i = some o ∧ o.account = a := by
  rw [paidBy, List.mem_filter, List.mem_range, Option.any_eq_true]
  simp only [decide_eq_true_eq]
  exact and_iff_right_of_imp fun ⟨_, ho, _⟩ => lt_size_of_object? ho

theorem nodup_handles (h : Heap) : h.handles.Nodup := List.nodup_range.filter _

theorem nodup_paidBy (h : Heap) (a : Account) : (h.paidBy a).Nodup := List.nodup_range.filter _

/-- What is in the slots or entries of the container of a handle. -/
def valuesAt (h : Heap) (i : Handle) : List Value := (h.object? i).elim [] Object.values

/-- Units charged for the container of a handle. -/
def unitsAt (h : Heap) (i : Handle) : ℕ := (h.object? i).elim 0 Object.units

theorem units_stake (h : Heap) (a : Account) :
    h.stake.units a = ((h.paidBy a).map h.unitsAt).sum := by
  rw [stake_eq_sum_objects, Stake.units_sum_map, objects_eq_filterMap, paidBy]
  induction List.range h.cells.size with
  | nil => rfl
  | cons i rest ih =>
    cases ho : h.object? i with
    | none => rw [List.filterMap_cons_none ho, List.filter_cons_of_neg (by simp [ho]), ih]
    | some o =>
      rw [List.filterMap_cons_some ho, List.map_cons, List.sum_cons, ih, Object.units_stake]
      by_cases ha : o.account = a
      · rw [if_pos ha.symm, List.filter_cons_of_pos (by simp [ho, ha]), List.map_cons,
          List.sum_cons, unitsAt, ho]
        rfl
      · rw [if_neg (Ne.symm ha), List.filter_cons_of_neg (by simp [ho, ha]), zero_add]

/-- All accounts together pay for all containers. -/
theorem units_stake_total (h : Heap) :
    h.stake.units .system + h.stake.units .user + h.stake.units .string =
      (h.handles.map h.unitsAt).sum := by
  rw [stake_eq_sum_objects, Stake.units_sum_map, Stake.units_sum_map, Stake.units_sum_map,
    sum_objects, sum_objects, sum_objects, ← List.sum_map_add, ← List.sum_map_add]
  refine congrArg List.sum (List.map_congr_left fun i hi => ?_)
  obtain ⟨o, ho⟩ := mem_handles.1 hi
  simp only [unitsAt, ho, Option.elim_some, Object.units_stake]
  cases o.account <;> simp

theorem Present.live_eq {h : Heap} (hp : h.Present) : h.live = h.handles.length := by
  rw [live, ← Array.countP_toList, toList_cells, List.countP_map, handles,
    ← List.countP_eq_length_filter]
  refine List.countP_congr fun i _ => ?_
  cases hc : h.cell? i with
  | none => simp [hc, object?]
  | some c =>
    obtain ⟨o, ho⟩ := hp.exists_object hc
    simp [hc, ho]

/-- What the container of a handle costs. -/
def footprintAt (h : Heap) (i : Handle) : ℕ := (h.object? i).elim 0 Object.footprint

end Heap

/-- An array has no slots to spare, so containers cost what they hold. -/
theorem Memory.Balanced.unitsAt_eq_footprintAt {total : Option ℕ} {σ : ℕ → Label} {x : Stake}
    {m : Memory} (hb : m.Balanced total σ x) : m.heap.unitsAt = m.heap.footprintAt := by
  funext i
  cases ho : m.heap.object? i with
  | none => simp [Heap.unitsAt, Heap.footprintAt, ho]
  | some o =>
    have packed := (hb.labelled i o ho).packed
    simp [Heap.unitsAt, Heap.footprintAt, ho, Object.footprint_eq_units packed]

/-- There are no more items in an array than units to pay for them. -/
theorem Memory.Balanced.length_le_limit {total : Option ℕ} {σ : ℕ → Label} {x : Stake} {m : Memory}
    (hb : m.Balanced total σ x) {i : Handle} {s : Sequence}
    (ho : m.heap.object? i = some (.array s)) :
    s.length * Sequence.valueSlot.units ≤ Size.limit := by
  set a := s.reserve.account with ha
  have cost : m.heap.unitsAt i = s.length * Sequence.valueSlot.units := by
    rw [hb.unitsAt_eq_footprintAt, Heap.footprintAt, ho]
    rfl
  have paid : m.heap.unitsAt i ≤ m.heap.stake.units a := by
    rw [Heap.units_stake]
    exact List.le_sum_of_mem
      (List.mem_map_of_mem (Heap.mem_paidBy.2 ⟨_, ho, rfl⟩))
  have held : m.heap.stake.units a ≤ m.ledger.held a := by
    rw [hb.units, Stake.units_add, Pi.add_apply]
    omega
  rw [← cost]
  exact (paid.trans held).trans ((hb.exact.held_le_used a).trans hb.exact.used_le_limit)

/-! ### Texts -/

namespace Ledger

theorem references_pos_iff {l : Ledger} (h : l.Tabled) {text : String} :
    0 < l.references text ↔ text ∈ l.strings.map Prod.fst := by
  rw [references]
  cases hf : l.strings.find? text with
  | none => simpa using TextMap.find?_eq_none_iff.1 hf
  | some n =>
    obtain ⟨left, right, hs, -, -, -⟩ := TextMap.exists_split hf
    have mem : (text, n) ∈ l.strings := by simp [hs]
    simpa [h.positive _ mem] using ⟨n, mem⟩

/-- Each text that is referenced is paid for once. -/
theorem textUnits_eq {l : Ledger} (h : l.Tabled) {texts : List String} (hnodup : texts.Nodup)
    (hmem : ∀ text, 0 < l.references text ↔ text ∈ texts) :
    l.textUnits = (texts.map fun t => t.utf8ByteSize + 8).sum := by
  have perm : (l.strings.map Prod.fst).Perm texts :=
    (List.perm_ext_iff_of_nodup h.nodup hnodup).2 fun text => by
      rw [← references_pos_iff h, hmem]
  rw [← (perm.map _).sum_eq, textUnits, List.map_map]
  rfl

end Ledger

/-! ### The machine -/

namespace Machine

variable (m : Machine)

/-- What is in the places of a machine: operands, values of call frames, scopes, and the slots and
entries of containers. -/
def places : List Value :=
  m.operands.items ++ m.calls.frames.map Frame.value ++ m.scopes.items ++ m.memory.heap.slots

/-- The dictionaries of the frames' locals. -/
def localDictionaries : List Handle := m.calls.frames.filterMap Frame.locals

/-- Units charged for the slots of the stacks. -/
def slotUnits : ℕ := m.operands.reserve.units + m.calls.reserve.units + m.scopes.reserve.units

/-- Units charged for the records of exceptions, pending or set aside. -/
def recordUnits : ℕ :=
  m.pending.elim 0 (fun p => p.charge.units) +
    (m.calls.frames.map fun f => f.stash.elim 0 fun p => p.charge.units).sum

theorem values_eq_places : (m.stake + m.memory.heap.stake).values = m.places := by
  have frames : m.calls.stake.values = m.calls.frames.map Frame.value := by
    rw [CallStack.stake, Stake.values_add, Reserve.values_stake, zero_add,
      Stake.values_sum_map _ (fun f => [f.value]) Frame.values_stake, ← List.map_eq_flatMap]
  rw [Stake.values_add, Heap.values_stake, stake, Stake.values_add, Stake.values_add,
    Stake.values_add, Sequence.values_stake, Sequence.values_stake, frames,
    PendingException.values_elim_stake, add_zero, Multiset.coe_add, Multiset.coe_add,
    Multiset.coe_add, places]

theorem locals_eq_localDictionaries : m.stake.locals = m.localDictionaries := by
  have held (f : Frame) : f.stake.locals = f.locals.toList := by
    cases hl : f.locals <;> simp [Frame.stake, Frame.extras, hl]
  rw [locals_stake, CallStack.stake, Stake.locals_add, Reserve.locals_stake, zero_add,
    Stake.locals_sum_map _ _ held, localDictionaries, List.filterMap_eq_flatMap_toList]

/-- The stacks and the records are charged to the machine itself. -/
theorem Sound.units_stake {Γ : Charter} {n : ℕ} {x : Stake} (h : m.Sound Γ n x) (a : Account) :
    m.stake.units a = if a = .system then m.slotUnits + m.recordUnits else 0 := by
  have record (p : Option PendingException) : (p.elim 0 PendingException.stake).units a =
      if a = .system then p.elim 0 (fun p => p.charge.units) else 0 := by
    cases p <;> simp [PendingException.stake, Stake.units_charged]
  have frame (f : Frame) : f.stake.units a =
      if a = .system then f.stash.elim 0 (fun p => p.charge.units) else 0 := by
    rw [Frame.stake, Frame.extras, Stake.units_add, Stake.units_add, ← record]
    cases f.locals <;> simp
  obtain ⟨operands, calls, scopes⟩ := h.accounts
  simp only [stake, Sequence.stake, CallStack.stake, Reserve.stake, Stake.units_add,
    Stake.units_refs, Pi.add_apply, Stake.units_charged, record, Stake.units_sum_map, frame,
    operands, calls, scopes, slotUnits, recordUnits]
  split
  · simp only [Pi.zero_apply]
    omega
  · simp

end Machine

/-- The creator references of a host are to containers, so all texts are in places of the
machine. -/
theorem Reached.Kept.references_eq {Γ : Charter} {owned : List Value} {m : Machine}
    (h : Kept Γ owned m) (text : String) :
    m.memory.ledger.references text = m.places.countP (fun v => v.string? = some text) := by
  obtain ⟨-, σ, hb, -⟩ := h.sound.memory
  have none : owned.countP (fun v => v.string? = some text) = 0 := by
    refine List.countP_eq_zero.2 fun v hv => ?_
    simp [(h.containers v hv).2]
  rw [hb.mentions, add_right_comm, Stake.mentions_add, Stake.mentions, m.values_eq_places,
    Stake.mentions]
  simpa using none

end StackScript
