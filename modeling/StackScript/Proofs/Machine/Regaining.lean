import StackScript.Proofs.Machine.Dispatching
import StackScript.Proofs.Machine.Headroom

/-!
# Room that has been given back

What is in use is the sum of what the slots of the stacks, the records of exceptions, the containers
and the texts take (`Machine.Sound.used_eq`).  A machine that has had as many operands before, and has
taken up nothing else since, can have as many again (`Machine.exchangeOperands_regains`).
-/

namespace StackScript

open StackScript.Action

/-- Fewer items take no more slots. -/
theorem Reserve.Fits.units_le {r r' : Reserve} {n k : ℕ} (h : r.Fits n) (h' : r'.Fits k)
    (shape : r'.shape = r.shape) (hk : k ≤ n) : r'.units ≤ r.units := by
  obtain ⟨c, hc, hcap⟩ := h.exists_le hk
  have same : r'.capacityFor k = r.capacityFor k := by
    change r'.shape.capacityFor k = r.shape.capacityFor k
    rw [shape]
  obtain rfl : r'.capacity = c := Except.ok.inj ((h'.symm.trans same).trans hcap)
  have slot : r'.shape.slot = r.shape.slot := congrArg Reserve.slot shape
  rw [Reserve.units, Reserve.units, show r'.slot = r.slot from slot]
  exact Nat.mul_le_mul_left _ hc

/-- The second memory has no containers and texts but those of the first, and they take no more. -/
structure Memory.Outweighs (m m' : Memory) : Prop where
  containers : ∀ i o', m'.heap.object? i = some o' →
    ∃ o, m.heap.object? i = some o ∧ o'.footprint ≤ o.footprint
  texts : ∀ text, 0 < m'.ledger.references text → 0 < m.ledger.references text

/-- Part of what is there takes no more than all of it. -/
theorem sum_map_le {α : Type} {l l' : List α} {f g : α → ℕ} (h : l'.Nodup)
    (sub : ∀ a ∈ l', a ∈ l ∧ g a ≤ f a) : (l'.map g).sum ≤ (l.map f).sum := by
  obtain ⟨k, perm, part⟩ := List.subperm_of_subset h fun a ha => (sub a ha).1
  calc (l'.map g).sum ≤ (l'.map f).sum := List.sum_le_sum fun a ha => (sub a ha).2
    _ = (k.map f).sum := (perm.symm.map f).sum_eq
    _ ≤ (l.map f).sum := (part.map f).sum_le_sum fun _ _ => Nat.zero_le _

theorem Memory.Outweighs.trans {m m' m'' : Memory} (h : m.Outweighs m') (h' : m'.Outweighs m'') :
    m.Outweighs m'' where
  containers i o'' ho'' := by
    obtain ⟨o', ho', less⟩ := h'.containers i o'' ho''
    obtain ⟨o, ho, less'⟩ := h.containers i o' ho'
    exact ⟨o, ho, less.trans less'⟩
  texts text ht := h.texts text (h'.texts text ht)

theorem Memory.SameHoldings.outweighs {m m' : Memory} (h : m.SameHoldings m') :
    m.Outweighs m' where
  containers i o ho := ⟨o, by rwa [Heap.object?, ← h.cells], le_rfl⟩
  texts text ht := h.references text ▸ ht

theorem Memory.Outweighs.containers_le {m m' : Memory} (h : m.Outweighs m') :
    (m'.heap.handles.map m'.heap.footprintAt).sum ≤ (m.heap.handles.map m.heap.footprintAt).sum := by
  refine sum_map_le m'.heap.nodup_handles fun i hi => ?_
  obtain ⟨o', ho'⟩ := Heap.mem_handles.1 hi
  obtain ⟨o, ho, less⟩ := h.containers i o' ho'
  refine ⟨Heap.mem_handles.2 ⟨o, ho⟩, ?_⟩
  rwa [Heap.footprintAt, Heap.footprintAt, ho, ho']

theorem Memory.Outweighs.texts_le {m m' : Memory} (h : m.Outweighs m') (ht : m.ledger.Tabled)
    (ht' : m'.ledger.Tabled) : m'.ledger.textUnits ≤ m.ledger.textUnits := by
  have split (l : Ledger) : l.textUnits =
      ((l.strings.map Prod.fst).map fun t => (Ledger.stringSize t).units).sum := by
    rw [Ledger.textUnits, List.map_map]
    rfl
  rw [split, split]
  refine sum_map_le ht'.nodup fun text htext => ⟨?_, le_rfl⟩
  exact (Ledger.references_pos_iff ht).1 (h.texts text ((Ledger.references_pos_iff ht').2 htext))

namespace Machine

variable {Γ Γ' : Charter} {n n' : ℕ} {x x' : Stake} {m m' : Machine} {v : Value}
  {rest : List Frame} {params : List Value}

/-- **What is in use**, if others have nothing charged. -/
theorem Sound.used_eq (h : m.Sound Γ n x) (hx : x.units = 0) :
    m.memory.ledger.used = m.slotUnits + m.recordUnits +
      (m.memory.heap.handles.map m.memory.heap.footprintAt).sum + m.memory.ledger.textUnits := by
  obtain ⟨-, σ, hb, -⟩ := h.memory
  have held (a : Account) := hb.units a
  simp only [Stake.units_add, Pi.add_apply, h.units_stake, hx, Pi.zero_apply] at held
  have system := held .system
  have user := held .user
  have string := held .string
  rw [← hb.unitsAt_eq_footprintAt, ← Heap.units_stake_total, hb.exact.sum]
  simp only [Ledger.held, Ledger.textShare, if_true, reduceCtorEq, if_false] at system user string
  omega

/-- The second machine has no more frames and scopes than the first, nor larger records of
exceptions. -/
structure Surrounds (m m' : Machine) : Prop where
  calls : m'.calls.length ≤ m.calls.length
  scopes : m'.scopes.length ≤ m.scopes.length
  records : m'.recordUnits ≤ m.recordUnits

/-- A text is referred to by the machine, by others, or by what a container holds. -/
theorem Sound.references_pos_iff (h : m.Sound Γ n x) (text : String) :
    0 < m.memory.ledger.references text ↔ ∃ w, w.string? = some text ∧
      (w ∈ m.stacked ∨ w ∈ x.values ∨ ∃ i o, m.memory.heap.object? i = some o ∧ w ∈ o.values) := by
  have held (w : Value) : w ∈ m.memory.heap.stake.values ↔
      ∃ i o, m.memory.heap.object? i = some o ∧ w ∈ o.values := by
    rw [Heap.values_stake, Multiset.mem_coe, Heap.slots, List.mem_flatMap]
    simp only [Heap.objects_eq_filterMap, List.mem_filterMap, List.mem_range]
    exact ⟨fun ⟨o, ⟨i, _, ho⟩, hw⟩ => ⟨i, o, ho, hw⟩,
      fun ⟨i, o, ho, hw⟩ => ⟨o, ⟨i, Heap.lt_size_of_object? ho, ho⟩, hw⟩⟩
  rw [h.references_eq, Nat.add_assoc]
  simp only [Nat.add_pos_iff_pos_or_pos, List.count_pos_iff, List.mem_filterMap,
    Stake.mentions_pos_iff, held]
  constructor
  · rintro (⟨w, hw, htext⟩ | ⟨w, hw, htext⟩ | ⟨w, hw, htext⟩)
    · exact ⟨w, htext, .inl hw⟩
    · exact ⟨w, htext, .inr (.inl hw)⟩
    · exact ⟨w, htext, .inr (.inr hw)⟩
  · rintro ⟨w, htext, hw | hw | hw⟩
    · exact .inl ⟨w, hw, htext⟩
    · exact .inr (.inl ⟨w, hw, htext⟩)
    · exact .inr (.inr ⟨w, hw, htext⟩)

/-- A text in a container is referred to. -/
theorem Sound.referenced_of_item (h : m.Sound Γ n x) {i : Handle} {o : Object} {w : Value}
    (ho : m.memory.heap.object? i = some o) (hw : w ∈ o.values) {text : String}
    (htext : w.string? = some text) : m.memory.ledger.strings.find? text ≠ none := by
  have referred := (h.references_pos_iff text).2 ⟨w, htext, .inr (.inr ⟨i, o, ho, hw⟩)⟩
  rintro none
  rw [Ledger.references, none] at referred
  exact absurd referred (lt_irrefl 0)

/-- Holding operands takes up nothing. -/
theorem Engages.outweighs (engages : m.Engages v rest params m') (h : m.Sound Γ n x)
    (h' : m'.Sound Γ' n' (x + .refs params))
    (hparams : ∀ w ∈ params, w ∈ m.operands.items) : m.memory.Outweighs m'.memory := by
  have same := engages.sameView.object?
  have stacked : m'.stacked = m.stacked := by
    rw [stacked, stacked, engages.operands, engages.scopes, engages.frames, engages.fresh]
    rfl
  refine ⟨fun i o ho => ⟨o, same i ▸ ho, le_rfl⟩, fun text ht => ?_⟩
  obtain ⟨w, hw, held⟩ := (h'.references_pos_iff text).1 ht
  refine (h.references_pos_iff text).2 ⟨w, hw, ?_⟩
  rw [stacked, Stake.values_add, Multiset.mem_add] at held
  rcases held with held | (held | held) | ⟨i, o, ho, held⟩
  · exact .inl held
  · exact .inr (.inl held)
  · exact .inl (by simp [Machine.stacked, hparams w held])
  · exact .inr (.inr ⟨i, o, same i ▸ ho, held⟩)

theorem Engages.surrounds (engages : m.Engages v rest params m') : m.Surrounds m' := by
  have pending : m'.pending = m.pending := congrArg Scene.pending engages.becomes.scene
  refine ⟨?_, ?_, ?_⟩
  · rw [CallStack.length, CallStack.length, engages.frames, engages.fresh]
    rfl
  · rw [Sequence.length, Sequence.length, engages.scopes]
  · rw [recordUnits, recordUnits, pending, engages.frames, engages.fresh]
    rfl

theorem Surrounds.trans {m'' : Machine} (h : m.Surrounds m') (h' : m'.Surrounds m'') :
    m.Surrounds m'' :=
  ⟨h'.calls.trans h.calls, h'.scopes.trans h.scopes, h'.records.trans h.records⟩

/-- Beside the slots for its operands, the second machine uses no more than the first. -/
theorem Sound.used_le (h : m.Sound Γ n x) (h' : m'.Sound Γ' n' x') (hx : x.units = 0)
    (hx' : x'.units = 0) (shape : m'.shape = m.shape) (surrounds : m.Surrounds m')
    (outweighs : m.memory.Outweighs m'.memory) : m'.memory.ledger.used + m.operands.reserve.units ≤
      m.memory.ledger.used + m'.operands.reserve.units := by
  simp only [Machine.shape, Prod.mk.injEq] at shape
  obtain ⟨-, calls, scopes⟩ := shape
  obtain ⟨-, _, hb, -⟩ := h.memory
  obtain ⟨-, _, hb', -⟩ := h'.memory
  have fewerCalls := h.calls.units_le h'.calls calls surrounds.calls
  have fewerScopes := Reserve.Fits.units_le h.scopes h'.scopes scopes surrounds.scopes
  have records := surrounds.records
  have containers := outweighs.containers_le
  have texts := outweighs.texts_le hb.tabled hb'.tabled
  rw [h.used_eq hx, h'.used_eq hx', slotUnits, slotUnits]
  omega

/-- **As many operands as there have been** can be there again. -/
theorem exchangeOperands_regains (h : m.Sound Γ n x) (h' : m'.Sound Γ' n' x') (hx : x.units = 0)
    (hx' : x'.units = 0) (shape : m'.shape = m.shape) (surrounds : m.Surrounds m')
    (outweighs : m.memory.Outweighs m'.memory)
    (capacity : m'.memory.ledger.total = m.memory.ledger.total) {drop : ℕ} {values : List Value}
    (hdrop : drop ≤ m'.operands.length)
    (hvalues : m'.operands.length - drop + values.length ≤ m.operands.length)
    (hv : ∀ v ∈ values, ∀ text, v.string? = some text →
      m'.memory.ledger.strings.find? text ≠ none) :
    (exchangeOperands drop values m').Meets True (fun _ _ => True) fun _ => False := by
  have used := h.used_le h' hx hx' shape surrounds outweighs
  have operands : m'.operands.reserve.shape = m.operands.reserve.shape := congrArg Prod.fst shape
  have slot : m'.operands.reserve.shape.slot = m.operands.reserve.shape.slot :=
    congrArg Reserve.slot operands
  change m'.operands.reserve.slot = m.operands.reserve.slot at slot
  obtain ⟨c, hc, hcap⟩ := Reserve.Fits.exists_le h.operands hvalues
  have hcap' : m'.operands.reserve.capacityFor (m'.operands.length - drop + values.length) =
      .ok c := by
    change m'.operands.reserve.shape.capacityFor _ = _
    rw [operands]
    exact hcap
  refine meets_onOperands ((Sequence.exchange_granted hdrop hcap' (fun grows => ?_) hv).mono
    (fun _ _ => id) fun _ => id)
  -- with these slots, there are not more than there have been
  obtain ⟨-, _, hb, -⟩ := h.memory
  obtain ⟨-, _, hb', -⟩ := h'.memory
  have room := Ledger.room_eq hb'.exact
  have below := hb.exact.used_le.trans hb.exact.peak_le
  rw [← hb'.exact.capacity, capacity, hb.exact.capacity] at room
  have limited := h.slots_lt_limit
  set size := m'.operands.reserve.slot.times (c - m'.operands.reserve.capacity) with hsize
  have cost : size.cost = min (m.operands.reserve.slot.units * (c - m'.operands.reserve.capacity))
      Size.limit := by rw [hsize, Size.cost_times, slot]
  have slots : m.operands.reserve.slot.units * c ≤
      m.operands.reserve.slot.units * m.operands.reserve.capacity := Nat.mul_le_mul_left _ hc
  rw [Reserve.units, Reserve.units, slot] at used
  rw [Nat.mul_sub] at cost
  rw [Ledger.check]
  refine if_neg (not_or.2 ⟨?_, ?_⟩) <;> omega

end Machine

/-- **As many operands as a host has had** are not refused to a builtin that is about to work. -/
theorem Served.regains {χ : Type} {natives : Natives χ} {options : Options} {m₀ m : Machine}
    {owned owned₀ params values : List Value} {s s₀ : Session χ} {rest : List Frame} {v : Value}
    {Γ : Charter} {n drop : ℕ} (hm₀ : m₀.Created options) (h₀ : Served natives m₀ owned₀ s₀)
    (h : Served natives m₀ owned s) (engages : s.machine.Engages v rest params m)
    (sound : m.Sound Γ n (.refs owned + .refs params))
    (hparams : ∀ w ∈ params, w ∈ s.machine.operands.items)
    (surrounds : s₀.machine.Surrounds s.machine)
    (outweighs : s₀.machine.memory.Outweighs s.machine.memory) (hdrop : drop ≤ m.operands.length)
    (hvalues : m.operands.length - drop + values.length ≤ s₀.machine.operands.length)
    (hv : ∀ v ∈ values, ∀ text, v.string? = some text →
      m.memory.ledger.strings.find? text ≠ none) :
    (Machine.exchangeOperands drop values m).Meets True (fun _ _ => True) fun _ => False := by
  obtain ⟨Γ₀, -, sounds⟩ := exists_charter hm₀
  obtain ⟨-, _, hb, -⟩ := (sounds h).memory
  obtain ⟨-, _, hb₀, -⟩ := (sounds h₀).memory
  have capacity : m.memory.ledger.total = s₀.machine.memory.ledger.total := by
    rw [engages.ledger, hb₀.exact.capacity, ← hb.exact.capacity]
  have shape : m.shape = s₀.machine.shape :=
    engages.shape.trans (h.shape_eq.trans h₀.shape_eq.symm)
  exact Machine.exchangeOperands_regains (sounds h₀) sound (Stake.units_refs _) (by simp) shape
    (surrounds.trans engages.surrounds)
    (outweighs.trans (engages.outweighs (sounds h) sound hparams)) capacity hdrop hvalues hv

end StackScript
