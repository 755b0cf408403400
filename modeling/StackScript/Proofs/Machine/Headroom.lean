import StackScript.Proofs.Machine.Holdings
import StackScript.Proofs.Machine.Withdrawal

/-!
# Room for one more operand

An operand that has just been removed leaves room for another one, however little memory there is:
what the stack gives back is granted again (`Machine.popOperand_hasSlot`).  So an operator that removes
an operand can push an array without items in its place (`Machine.adopt_sure`).
-/

namespace StackScript

open StackScript.Action
open Memory (Has onLedger onHeap)
open Cells

/-! ### Memory -/

/-- Something else refers to the container too, so it is not disposed of. -/
theorem Memory.release_shared {m : Memory} {v : Value} {i : Handle} {c : Cell}
    (hv : v.handle? = some i) (hc : m.heap.cell? i = some c) (hcount : 1 < c.count) :
    (release v m).Meets True (fun _ m' => m'.ledger = m.ledger) fun _ => False := by
  have given : giveUp v m =
      .done [] { m with heap := m.heap.setCell i (some { c with count := c.count - 1 }) } := by
    have dropped : Heap.release i m.heap =
        .done none (m.heap.setCell i (some { c with count := c.count - 1 })) := by
      rw [Heap.release, hc]
      exact if_pos hcount
    simp [giveUp_of_handle? hv, onHeap, zoom, bind_apply, dropped, discard]
  rw [release, given]
  rfl

/-- The ledger grants the slots that one more item needs. -/
def Sequence.HasSlot (s : Sequence) (l : Ledger) : Prop :=
  ∃ c, s.reserve.capacityFor (s.length + 1) = .ok c ∧
    l.check (s.reserve.slot.times (c - s.reserve.capacity)) = .ok ()

/-- What has been given back is granted again. -/
theorem Ledger.check_takeBack {l : Ledger} {size : Size} {total : Option ℕ} (hl : l.Exact total)
    (hsize : size.cost ≤ l.used) (hlimit : size.cost < Size.limit) (a : Account) :
    (l.takeBack size.cost a).check size = .ok () := by
  have used := hl.used_le.trans hl.peak_le
  have room : (l.takeBack size.cost a).room = total.getD Size.limit - (l.used - size.cost) := by
    rw [← hl.capacity]
    cases ht : l.total <;> cases a <;>
      simp [Ledger.room, Ledger.available, Ledger.takeBack, Ledger.setHeld, ht]
  rw [Ledger.check, room]
  refine if_neg (not_or.2 ⟨?_, hlimit.ne⟩)
  omega

theorem Ledger.check_zero {l : Ledger} {size : Size} (hsize : size.cost = 0) :
    l.check size = .ok () := by
  rw [Ledger.check, hsize]
  exact if_neg (by simp [Size.limit])

/-- When an item has been removed there is room for another one. -/
theorem Sequence.pop_hasSlot {s : Sequence} {v : Value} {rest : List Value} {total : Option ℕ}
    {m : Memory} (hs : s.Sized) (hitems : s.items = v :: rest) (hl : m.ledger.Exact total)
    (hslots : s.reserve.slot.units * s.reserve.capacity < Size.limit)
    (hv : ∀ m' : Memory, m'.heap = m.heap → (Memory.release v m').Meets True
      (fun _ m'' => m''.ledger = m'.ledger) fun _ => False) :
    (s.exchange 1 [] m).Meets True (fun s' m' => s'.HasSlot m'.ledger) fun _ => False := by
  have length : s.length = rest.length + 1 := by rw [Sequence.length, hitems, List.length_cons]
  obtain ⟨c, hc, hcap⟩ := Reserve.Fits.exists_le (k := rest.length) hs (by omega)
  have full : s.reserve.capacityFor (rest.length + 1) = .ok s.reserve.capacity := length ▸ hs
  have removed : (s.items.take 1).reverse = [v] := by rw [hitems]; rfl
  -- a smaller reserve, and what the ledger has got back
  have resized : (s.reserve.resize c m).Meets True (fun r m' => r = { s.reserve with capacity := c } ∧
      m'.heap = m.heap ∧ m'.ledger.check (s.reserve.slot.times (s.reserve.capacity - c)) = .ok ())
      fun _ => False := by
    unfold Reserve.resize
    rw [if_neg (Nat.not_lt.2 hc)]
    split
    · refine meets_bind (meets_zoom ?_) fun _ m' h => ⟨rfl, h⟩
      unfold Ledger.release
      split
      · rename_i held
        refine ⟨rfl, Ledger.check_takeBack hl held.2 ?_ _⟩
        have fewer := Nat.mul_le_mul_left s.reserve.slot.units (Nat.sub_le s.reserve.capacity c)
        rw [Size.cost_times]
        omega
      · trivial
    · rename_i same
      refine ⟨rfl, rfl, Ledger.check_zero ?_⟩
      rw [Size.cost_times, Nat.sub_eq_zero_of_le (Nat.not_lt.1 same)]
      simp
  rw [exchange, if_neg (by omega), Reserve.exchange, removed, length]
  simp only [List.length_singleton, List.length_nil, Nat.add_sub_cancel, Nat.add_zero, hcap]
  refine meets_bind (P := fun r m' => r = { s.reserve with capacity := c } ∧
    m'.ledger.check (s.reserve.slot.times (s.reserve.capacity - c)) = .ok ()) ?_ ?_
  · refine meets_bind (P := fun r m' => c = r ∧ m = m') ⟨rfl, rfl⟩ ?_
    rintro _ _ ⟨rfl, rfl⟩
    refine meets_bind (P := fun _ m' => m = m') rfl ?_
    rintro _ _ rfl
    refine meets_bind (meets_onRaise resized fun _ h => h.elim) ?_
    rintro _ m₁ ⟨rfl, same, granted⟩
    refine meets_bind (P := fun _ m₂ => m₂.ledger = m₁.ledger) ?_ ?_
    · exact meets_bind (hv m₁ same) fun _ _ h => h
    · intro _ m₂ h₂
      exact ⟨rfl, h₂ ▸ granted⟩
  · rintro _ m₁ ⟨rfl, granted⟩
    refine ⟨s.reserve.capacity, ?_, granted⟩
    simp only [Sequence.length, hitems]
    exact full

/-- Where there is room, a value that is no text finds its place. -/
theorem Sequence.push_sure {s : Sequence} {v : Value} {m : Memory} (h : s.HasSlot m.ledger)
    (hv : v.handle?.isSome) :
    (s.exchange 0 [v] m).Meets True (fun _ _ => True) fun _ => False := by
  obtain ⟨c, hcap, granted⟩ := h
  refine exchange_granted (Nat.zero_le _) hcap (fun _ => granted) fun w hw text htext => ?_
  obtain rfl := List.mem_singleton.1 hw
  unfold Value.handle? at hv
  unfold Value.string? at htext
  cases hd : w.datum <;> simp [hd] at hv htext

/-- Nothing is charged for a container without slots. -/
theorem Reserve.acquire_free (slot : Size) (a : Account) (m : Memory) :
    (acquire slot a 0 0 m).Meets True (fun r m' => r = ⟨slot, a, 0, 0, 0⟩ ∧
      ∀ size, m'.ledger.check size = m.ledger.check size) fun _ => False := by
  have cost : (slot.times 0).cost = 0 := by rw [Size.cost_times]; simp
  have granted (l : Ledger) : l.check (slot.times 0) = .ok () := Ledger.check_zero cost
  rw [acquire_eq, granted]
  dsimp only
  rw [if_neg (by decide)]
  refine ⟨rfl, fun size => ?_⟩
  change (Ledger.grant _ _ _).check size = _
  rw [cost]
  cases a <;> rfl

/-- An array without items costs nothing. -/
theorem Memory.newArray_free (a : Account) (trail : List String) (m : Memory) :
    (newArray a [] trail m).Meets True
      (fun _ m' => ∀ size, m'.ledger.check size = m.ledger.check size) fun _ => False := by
  refine meets_bind (P := fun s m' => s = ⟨⟨Sequence.valueSlot, a, 0, 0, 0⟩, []⟩ ∧
    ∀ size, m'.ledger.check size = m.ledger.check size) ?_ ?_
  · refine meets_bind (Reserve.acquire_free _ a m) ?_
    rintro _ m₁ ⟨rfl, same⟩
    exact ⟨rfl, same⟩
  · rintro _ m₁ ⟨rfl, same⟩
    refine meets_bind (P := fun _ m₂ => m₂.ledger = m₁.ledger) (by exact (rfl : m₁.ledger = _))
      fun _ m₂ h₂ => ?_
    have same (size : Size) : m₂.ledger.check size = m.ledger.check size := h₂ ▸ same size
    refine meets_bind (P := fun _ m₃ => m₃.ledger = m₂.ledger) (meets_zoom ?_) fun _ m₃ h₃ => ?_
    · unfold Heap.allocate
      cases m₂.heap.free <;> rfl
    · have same (size : Size) : m₃.ledger.check size = m.ledger.check size := h₃ ▸ same size
      exact same

/-! ### Machines -/

namespace Machine

variable {Γ : Charter} {n : ℕ} {x : Stake} {m : Machine} {v : Value} {rest : List Value}

theorem exists_dictionary (hv : v.kind = .dictionary) :
    ∃ i writable, v.datum = .dictionary i writable := by
  cases hd : v.datum <;> rw [Value.kind, hd] at hv <;> first | exact ⟨_, _, rfl⟩ | cases hv

/-- There is a dictionary that the machine itself pays for. -/
theorem Sound.exists_permanent (h : m.Sound Γ n x) :
    ∃ i d, m.memory.heap.object? i = some (.dictionary d) ∧ d.account = .system := by
  obtain ⟨present, σ, hb, hc⟩ := h.memory
  obtain ⟨scope, hscope⟩ : ∃ v, v ∈ Γ.permanent := by
    have four := Γ.four
    cases hp : Γ.permanent with
    | nil => rw [hp] at four; cases four
    | cons v rest => exact ⟨v, List.mem_cons_self⟩
  have opened := h.permanent.subset hscope
  have kind := h.dictionaries scope opened
  obtain ⟨i, _, hd⟩ := exists_dictionary kind
  have hi : scope.handle? = some i := by rw [Value.handle?, hd]
  obtain ⟨d, ho⟩ := hb.dictionary_of_known present (knows_of_scope (x := x) opened) kind hi
  have bears := hb.labelled i _ ho
  rw [hc.permanent scope hscope i hi] at bears
  exact ⟨i, d, ho, congrArg Label.account bears.label⟩

/-- The slots of the operands are never all there is. -/
theorem Sound.slots_lt_limit (h : m.Sound Γ n x) :
    m.operands.reserve.slot.units * m.operands.reserve.capacity < Size.limit := by
  obtain ⟨i, d, ho, account⟩ := h.exists_permanent
  obtain ⟨-, σ, hb, -⟩ := h.memory
  have paid : m.memory.heap.unitsAt i ≤ m.memory.heap.stake.units .system := by
    rw [Heap.units_stake]
    exact List.le_sum_of_mem (List.mem_map_of_mem (Heap.mem_paidBy.2 ⟨_, ho, account⟩))
  have header : 0 < m.memory.heap.unitsAt i := by
    rw [Heap.unitsAt, ho]
    exact Nat.add_pos_left (by decide) _
  have slots : m.operands.reserve.slot.units * m.operands.reserve.capacity ≤
      m.stake.units .system := by
    have own : m.operands.reserve.stake.units .system = _ := if_pos h.accounts.1.symm
    simp only [stake, Sequence.stake, Stake.units_add, Pi.add_apply, own, Reserve.units]
    omega
  have held := hb.units .system
  have used := (hb.exact.held_le_used .system).trans hb.exact.used_le_limit
  simp only [Stake.units_add, Pi.add_apply] at held
  omega

/-- **When an operand has been removed** that something else refers to, there is room for one. -/
theorem popOperand_hasSlot {i : Handle} {c : Cell} (h : m.Sound Γ n x)
    (hitems : m.operands.items = v :: rest) (hv : v.handle? = some i)
    (hc : m.memory.heap.cell? i = some c) (hcount : 1 < c.count) :
    (exchangeOperands 1 [] m).Meets True (fun _ m' => m'.operands.HasSlot m'.memory.ledger)
      fun _ => False := by
  obtain ⟨_, hb, -⟩ := h.memory.accounted
  refine meets_onOperands (Sequence.pop_hasSlot h.operands hitems hb.exact h.slots_lt_limit ?_)
  intro m' hm'
  exact Memory.release_shared hv (hm' ▸ hc) hcount

/-- Where there is room, an array without items can be created and pushed. -/
theorem createArray_hasSlot (h : m.operands.HasSlot m.memory.ledger) (access : Access) :
    (createArray access [] m).Meets True (fun v m' => v.handle?.isSome ∧
      m'.operands.HasSlot m'.memory.ledger) fun _ => False := by
  refine creation_meets fun trail => (Memory.newArray_free _ trail m.memory).mono ?_ fun _ => id
  rintro i μ same
  obtain ⟨c, hc, granted⟩ := h
  exact ⟨rfl, c, hc, (same _).trans granted⟩

theorem adopt_sure (h : m.operands.HasSlot m.memory.ledger) (hv : v.handle?.isSome) :
    (adopt 0 v m).Meets True (fun _ _ => True) fun _ => False :=
  meets_ensuring (meets_onOperands (P := fun _ _ => True) (F := fun _ => False)
    ((Sequence.push_sure h hv).mono (fun _ _ => id) fun _ => id))
    (fun _ m₁ _ => (raises_release v).sure m₁) fun _ h => h.elim

end Machine

end StackScript
