import StackScript.Proofs.Operator.Building
import StackScript.Proofs.Operator.Matching
import StackScript.Proofs.Memory.Reaching

/-!
# Storing operands in an array

`astore` fills an array with operands, and `aload` pushes what is in one.

The operands are stored one after the other (`Operation.setItems_grants`).  While that happens they are
operands still, so no value goes that is to be stored, and no reference is refused
(`Operation.setItems_sure`).  Storing what the array holds already changes nothing
(`Operation.setItems_keeps`).
-/

namespace StackScript

open StackScript.Action
open Memory (Has)
open Cells

/-! ### Memory -/

namespace Heap

variable {h h' h'' : Heap} {i : Handle} {P Q : Object → Prop}

theorem Replaces.refl (hs : h.Shows i P) : h.Replaces i P h := ⟨fun _ _ => .inr rfl, hs⟩

theorem Replaces.trans (hr : h.Replaces i P h') (hr' : h'.Replaces i Q h'') :
    h.Replaces i Q h'' where
  others j hj := (hr'.others j hj).elim .inl fun later => later ▸ hr.others j hj
  shows := hr'.shows

theorem Replaces.of_content (hr : h'.Replaces i P h'')
    (same : ∀ j, h'.content? j = h.content? j) : h.Replaces i P h'' :=
  ⟨fun j hj => same j ▸ hr.others j hj, hr.shows⟩

theorem Replaces.sheds (hr : h.Replaces i P h') (hs : h'.Sheds h'') : h.Replaces i P h'' where
  others j hj := (hs j).elim .inl fun later => later ▸ hr.others j hj
  shows := hr.shows.sheds hs

/-- Containers that are left have what they have had. -/
theorem Replaces.object?_of_ne {j : Handle} {o : Object} (hr : h.Replaces i P h') (hj : j ≠ i)
    (ho : h'.object? j = some o) : h.object? j = some o := by
  rw [object?_eq_join] at ho ⊢
  rcases hr.others j hj with gone | same
  · rw [gone] at ho
    cases ho
  · rwa [← same]

end Heap

/-! ### Machines -/

theorem Param.accepts_of_datum {array : Value} {i : Handle}
    (hd : array.datum = .array i .mutable) :
    accepts .mutableArray array = true ∧ accepts .array array = true := by
  simp [accepts, Value.access?, Value.kind, Datum.kind, hd]

namespace Machine

variable {m : Machine} {array : Value} {i : Handle}

theorem setItem_of_datum (hd : array.datum = .array i .mutable) (index : ℕ) (v : Value) :
    setItem array index v m = setItem (.array i .mutable) index v m := by
  unfold setItem
  rw [hd]
  rfl

/-- Operands have borrowed what they hold. -/
theorem exchangeOperands_has {σ τ : Cells} {drop : ℕ} {values : List Value} (hσ : σ.Counted)
    (hτ : τ.Counted) (h : m.memory.Has σ)
    (same : σ.lend values = τ.lend (m.operands.items.take drop)) :
    (exchangeOperands drop values m).Meets True (fun _ m' => m'.memory.Has τ) fun _ => True :=
  meets_onOperands ((Sequence.exchange_swaps hσ hτ h same).mono (fun _ _ h => h.2) fun _ => id)

/-- Storing what is there already. -/
theorem setItem_keeps {σ : Cells} {s : Sequence} {index : ℕ} {v : Value}
    (hd : array.datum = .array i .mutable) (hσ : σ.Counted) (h : m.memory.Has σ)
    (ho : m.memory.heap.object? i = some (.array s)) (hv : s.get? index = some v) :
    (setItem array index v m).Meets True (fun _ m' => m'.operands = m.operands ∧
      m'.memory.Has σ) fun _ => True := by
  unfold setItem
  rw [hd]
  exact meets_onMemory ((Memory.setItem_keeps hσ h ho hv).mono (fun _ _ h => ⟨rfl, h⟩) fun _ => id)

end Machine

namespace Operation

variable {own : Option ℕ} {m : Machine} {array : Value} {i : Handle} {s : Sequence}
  {values below operands : List Value} {index : ℕ}

/-! ### Items one after the other -/

/-- **Values are stored** from an index on. -/
theorem setItems_grants {items : List Value} (hd : array.datum = .array i .mutable)
    (values : List Value) (hitems : m.memory.heap.Shows i (Object.Lists items))
    (hroom : index + values.length ≤ items.length) :
    ((setItems array index values).runOn own m).Grants fun _ m' => m.Becomes m.scene m' ∧
      m.memory.heap.Replaces i (Object.Lists
        (items.take index ++ values ++ items.drop (index + values.length))) m'.memory.heap := by
  induction values generalizing m index items with
  | nil =>
    refine ⟨.refl m, .refl ?_⟩
    rwa [List.append_nil, List.length_nil, Nat.add_zero, List.take_append_drop]
  | cons v rest ih =>
    rw [List.length_cons] at hroom
    have stored : (Request.perform own (.setItem array index v) m).Grants
        fun _ m' => m.Becomes m.scene m' ∧
          m.memory.heap.Replaces i (Object.Lists (items.set index v)) m'.memory.heap := by
      change (Machine.setItem array index v m).Grants _
      rw [Machine.setItem_of_datum hd]
      exact Machine.setItem_grants hitems (by omega) v
    refine grants_runOn_bind (grants_ask stored) fun _ m₁ ⟨h₁, replaced⟩ => ?_
    refine (ih replaced.shows (by rw [List.length_set]; omega)).mono fun _ m₂ ⟨h₂, later⟩ => ?_
    rw [h₁.scene] at h₂
    refine ⟨h₁.trans h₂, ?_⟩
    have before : (items.set index v).take (index + 1) = items.take index ++ [v] := by
      rw [List.take_succ_eq_append_getElem (by rw [List.length_set]; omega),
        List.getElem_set_self, List.take_set, List.set_eq_of_length_le (by simp)]
    have after : (items.set index v).drop (index + 1 + rest.length) =
        items.drop (index + (rest.length + 1)) := by
      rw [List.drop_set_of_lt (by omega), Nat.add_right_comm, Nat.add_assoc]
    rw [before, after, List.append_assoc (items.take index), List.singleton_append] at later
    exact replaced.trans later

/-- **Storing what an array holds** changes nothing. -/
theorem setItems_keeps {σ : Cells} (hd : array.datum = .array i .mutable) (hσ : σ.Counted)
    (values : List Value) (h : m.memory.Has σ) (ho : m.memory.heap.object? i = some (.array s))
    (hvalues : ∀ k v, values[k]? = some v → s.get? (index + k) = some v) :
    ((setItems array index values).runOn own m).Meets True
      (fun _ m' => m'.operands = m.operands ∧ m'.memory.Has σ) fun _ => True := by
  induction values generalizing m index with
  | nil => exact ⟨rfl, h⟩
  | cons v rest ih =>
    have kept : ((setItem array index v).runOn own m).Meets True
        (fun _ m' => m'.operands = m.operands ∧ m'.memory.Has σ) fun _ => True :=
      meets_ask (Machine.setItem_keeps hd hσ h ho (hvalues 0 v rfl))
    refine meets_bind kept fun _ m₁ ⟨same, h₁⟩ => ?_
    have ho₁ : m₁.memory.heap.object? i = some (.array s) := by
      rw [Heap.object?, h₁.cells, ← h.cells]
      exact ho
    refine (ih h₁ ho₁ fun k w hw => ?_).mono (fun _ _ h => ⟨h.1.trans same, h.2⟩) fun _ => id
    rw [Nat.add_assoc, Nat.add_comm 1]
    exact hvalues (k + 1) w hw

/-! ### Whole arrays -/

theorem fillArray_runOn {access : Access} (hitems : m.operands.items = array :: (values.reverse ++ below))
    (hd : array.datum = .array i access) (ho : m.memory.heap.object? i = some (.array s))
    (hlength : values.length = s.length) : (fillArray [array]).runOn own m =
      (setItems array 0 values >>= fun _ => exchange (values.length + 1) [array]).runOn own m := by
  have length : s.toList.length = values.length := List.length_reverse.trans hlength.symm
  have enough : ¬ m.operands.length < values.length + 1 := by
    simp [Sequence.length, hitems]
  have taken : ((m.operands.items.drop 1).take values.length).reverse = values := by
    rw [hitems, List.drop_one, List.tail_cons, List.take_left' List.length_reverse,
      List.reverse_reverse]
  rw [fillArray, matched_runOn rfl, items_runOn hd ho, machine_bind_runOn]
  dsimp only
  rw [length, if_neg enough, taken]

theorem fillArray_raised {access : Access} (hitems : m.operands.items = array :: operands)
    (hd : array.datum = .array i access) (ho : m.memory.heap.object? i = some (.array s))
    (hshort : operands.length < s.length) :
    (fillArray [array]).runOn own m = .raised Cause.notEnoughOperands.exception m := by
  have length : s.toList.length = s.length := List.length_reverse
  have few : m.operands.length < s.length + 1 := by
    rw [Sequence.length, hitems, List.length_cons]
    omega
  rw [fillArray, matched_runOn rfl, items_runOn hd ho, machine_bind_runOn]
  dsimp only
  rw [length, if_pos few]
  rfl

theorem unpackArray_runOn {access : Access} (hd : array.datum = .array i access)
    (ho : m.memory.heap.object? i = some (.array s)) :
    (unpackArray [array]).runOn own m = Machine.exchangeOperands 1 (s.toList ++ [array]) m := by
  rw [unpackArray, matched_runOn rfl, items_runOn hd ho]
  exact congrFun (Machine.runOn_exchange own _ _) m

/-! ### What is left -/

section

variable {Γ : Charter} {x : Stake} {k : ℕ} {σ : Cells}

/-- **An array is filled**, and that does not fail. -/
theorem fillArray_fills (sound : m.Sound Γ (k + 1) x) (growing : m.Growing)
    (ready : m.Ready k (values.length + 1)) (harray : array ∈ x.values)
    (hd : array.datum = .array i .mutable) (ho : m.memory.heap.object? i = some (.array s))
    (hitems : m.operands.items = array :: (values.reverse ++ below))
    (hlength : values.length = s.length) :
    ((fillArray [array]).runOn (some k) m).Meets True (fun _ m' =>
      m'.scene = { m.scene with operands := array :: below } ∧
        m.memory.heap.Replaces i (Object.Lists values) m'.memory.heap) fun _ => False := by
  have shown : m.memory.heap.Shows i (Object.Lists s.toList) := fun o ho' =>
    ⟨s, Option.some.inj (ho'.symm.trans ho), rfl⟩
  have length : s.toList.length = s.length := List.length_reverse
  have operand (v : Value) (hv : v ∈ values) : v ∈ m.operands.items := by
    simp [hitems, hv]
  have granted : ((setItems array 0 values).runOn (some k) m).Grants _ :=
    setItems_grants hd values shown (by omega)
  have stored := (setItems_sure sound values ready harray hd ho (by omega) operand).granted granted
  rw [List.take_zero, List.nil_append, Nat.zero_add, List.drop_eq_nil_of_le (by omega),
    List.append_nil] at stored
  rw [fillArray_runOn hitems hd ho hlength]
  refine meets_bind stored fun _ m₁ ⟨ready₁, becomes, replaced⟩ => ?_
  have items : m₁.operands.items = m.operands.items := becomes.operands
  -- the operands go, and the array comes back
  have left : m₁.operands.items.drop (values.length + 1) = below := by
    rw [items, hitems, List.drop_succ_cons, List.drop_left' List.length_reverse]
  have granted : (Machine.exchangeOperands (values.length + 1) [array] m₁).Grants _ :=
    Machine.exchangeOperands_grants (becomes.growing growing) ready₁.enough
  have sure : (Machine.exchangeOperands (values.length + 1) [array] m₁).Meets True _ _ :=
    Machine.exchangeOperands_sure ready₁.sized ready₁.enough (Nat.le_add_left ..)
      (by simp [Value.string?, hd])
  refine meets_ask ((sure.granted granted).mono (fun _ m₂ h₂ => ⟨?_, replaced.sheds h₂.2.2⟩)
    fun _ => id)
  rw [h₂.2.1.scene, becomes.scene, left]
  rfl

/-- **An array that holds the operands already** gives back what they have borrowed. -/
theorem fillArray_restores (hσ : σ.Counted) (hd : array.datum = .array i .mutable)
    (h : m.memory.Has ((σ.lend values).lend [array]))
    (ho : m.memory.heap.object? i = some (.array s))
    (hitems : m.operands.items = array :: (values.reverse ++ below)) (hvalues : s.toList = values) :
    ((fillArray [array]).runOn own m).Meets True (fun _ m' => m'.memory.Has (σ.lend [array]))
      fun _ => True := by
  have hlength : values.length = s.length := hvalues ▸ List.length_reverse
  have counted : ((σ.lend values).lend [array]).Counted := (hσ.lend values).lend [array]
  rw [fillArray_runOn hitems hd ho hlength]
  refine meets_bind (setItems_keeps hd counted values h ho fun k v hv => ?_) fun _ m₁ ⟨same, h₁⟩ => ?_
  · rw [Nat.zero_add, Sequence.get?_eq_getElem?, hvalues, hv]
  have taken : m₁.operands.items.take (values.length + 1) = array :: values.reverse := by
    rw [same, hitems, List.take_succ_cons, List.take_left' List.length_reverse]
  have swapped : ((σ.lend values).lend [array]).lend [array] =
      (σ.lend [array]).lend (m₁.operands.items.take (values.length + 1)) := by
    rw [taken, lend_lend, lend_lend, lend_lend]
    refine lend_perm (List.perm_iff_count.2 fun v => ?_)
    simp only [List.count_append, List.count_cons, List.count_reverse, List.count_nil]
    omega
  exact meets_ask (Machine.exchangeOperands_has counted (hσ.lend [array]) h₁ swapped)

/-- **An array is unpacked**, unless the ledger refuses the slots for that. -/
theorem unpackArray_lends (growing : m.Growing) (hσ : σ.Counted)
    (hd : array.datum = .array i .mutable) (h : m.memory.Has (σ.lend [array]))
    (ho : m.memory.heap.object? i = some (.array s))
    (hitems : m.operands.items = array :: operands) :
    ((unpackArray [array]).runOn own m).Yields (fun _ m' =>
      m'.scene = { m.scene with operands := array :: (s.toList.reverse ++ operands) } ∧
        m'.memory.Has ((σ.lend s.toList).lend [array]))
      fun e m' => e.condition = .memoryOverflow ∧ m.Unscathed (σ.lend [array]) m' := by
  rw [unpackArray_runOn hd ho]
  have some : 1 ≤ m.operands.length := by simp [Sequence.length, hitems]
  have granted : (Machine.exchangeOperands 1 (s.toList ++ [array]) m).Grants _ :=
    Machine.exchangeOperands_grants growing some
  have swapped : (σ.lend [array]).lend (s.toList ++ [array]) =
      ((σ.lend s.toList).lend [array]).lend (m.operands.items.take 1) := by
    rw [hitems, List.take_succ_cons, List.take_zero, lend_lend, lend_lend, lend_lend]
    refine lend_perm (List.perm_iff_count.2 fun v => ?_)
    simp only [List.count_append, List.count_cons, List.count_nil]
    omega
  have lent : (Machine.exchangeOperands 1 (s.toList ++ [array]) m).Meets True
      (fun _ m' => m'.memory.Has ((σ.lend s.toList).lend [array])) fun _ => True :=
    Machine.exchangeOperands_has (hσ.lend [array]) ((hσ.lend s.toList).lend [array]) h swapped
  have refused : (Machine.exchangeOperands 1 (s.toList ++ [array]) m).Meets True
      (fun _ _ => True) (m.Unscathed (σ.lend [array])) :=
    Request.perform_refused none (r := .exchange 1 (s.toList ++ [array])) (hσ.lend [array]) h trivial
  refine (granted.and (lent.and refused).yields).mono (fun _ m' ⟨⟨becomes, _⟩, lent, _⟩ =>
    ⟨becomes.scene.trans ?_, lent⟩) fun _ _ ⟨overflow, _, unscathed⟩ => ⟨overflow, unscathed⟩
  rw [hitems]
  simp

end

end Operation

end StackScript
