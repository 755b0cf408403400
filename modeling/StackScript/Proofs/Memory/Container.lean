import StackScript.Memory.Container
import StackScript.Proofs.Memory.Release

/-!
# Charges and containers

What the operations on containers do to a balanced memory.  Each of them takes the stake of its
container out of the stake of the memory and puts the changed one in its place, or leaves the stake
as it was if it fails.

* `Memory.charge_meets` and `Memory.discharge_meets`: units move between the ledger and the stake;
* `Reserve.exchange_meets`: slots and references change hands together, or not at all;
* `Sequence.exchange_meets`, `Sequence.set_meets`, `Sequence.dispose_meets` and
  `Dictionary.define_meets` follow from it.
-/

namespace StackScript

open Memory (onLedger onHeap retain retainAll release releaseAll)

namespace Memory

variable {total : Option ℕ} {σ : ℕ → Label} {x : Stake} {m : Memory} {lax : Prop}

/-! ### Charges -/

/-- Only the counters of the ledger differ, by what the stake gained. -/
theorem Balanced.recharge (hb : m.Balanced total σ x) {y : Stake} {l : Ledger}
    (hv : y.values = x.values) (hl : y.locals = x.locals) (hs : l.strings = m.ledger.strings)
    (hu : ∀ a, l.held a + x.units a = m.ledger.held a + y.units a) (he : l.Exact total) :
    Memory.Balanced total σ y { m with ledger := l } := by
  have holders (i : ℕ) : y.holders i = x.holders i := by rw [Stake.holders, Stake.holders, hv, hl]
  have mentions (t : String) : y.mentions t = x.mentions t := by
    rw [Stake.mentions, Stake.mentions, hv]
  constructor
  · intro i
    have := hb.holders i
    rwa [Stake.holders_add, ← holders, ← Stake.holders_add] at this
  · intro t
    have := hb.mentions t
    rw [Stake.mentions_add, ← mentions, ← Stake.mentions_add] at this
    simpa [Ledger.references, hs] using this
  · intro a
    have held := hb.units a
    have moved := hu a
    simp only [Stake.units_add, Pi.add_apply, Ledger.textShare, Ledger.textUnits, hs] at held ⊢
    omega
  · exact hb.positive
  · exact hb.labelled
  · intro v hmem
    refine hb.kinds v ?_
    simpa [hv] using hmem
  · intro i hi
    exact hb.locals i (hl ▸ hi)
  · exact hb.heap
  · exact he
  · exact ⟨by rw [hs]; exact hb.tabled.nodup, by rw [hs]; exact hb.tabled.positive⟩
  · exact hb.trailed

theorem charge_meets (hb : m.Balanced total σ x) {size : Size} {a : Account} {n : ℕ}
    (hs : size.cost = min n Size.limit) :
    (onLedger (Ledger.allocate size a) m).Meets lax
      (fun _ m' => m'.Balanced total σ (x + .charged a n) ∧ m.SameObjects m') fun m' => m' = m := by
  refine Action.meets_zoom ((Ledger.allocate_meets hb.exact hs).mono ?_ ?_)
  · rintro _ _ ⟨rfl, exact⟩
    refine ⟨hb.recharge (by simp) (by simp) (by simp) (fun b => ?_) exact, fun _ => rfl, rfl, rfl⟩
    rw [Ledger.held_grant, Stake.units_add, Pi.add_apply, Stake.units_charged]
    omega
  · rintro _ rfl
    rfl

theorem discharge_meets {size : Size} {a : Account} {n : ℕ}
    (hb : m.Balanced total σ (x + .charged a n)) (hs : size.cost = min n Size.limit) :
    (onLedger (Ledger.release size a) m).Meets lax
      (fun _ m' => m'.Balanced total σ x ∧ m.SameObjects m') fun _ => False := by
  have fits : n ≤ m.ledger.held a := by
    have := hb.units a
    simp only [Stake.units_add, Pi.add_apply, Stake.units_charged, if_true] at this
    omega
  refine Action.meets_zoom ?_
  rw [Ledger.release_eq hb.exact hs fits]
  refine ⟨hb.recharge (by simp) (by simp) (by simp) (fun b => ?_) (hb.exact.takeBack fits),
    fun _ => rfl, rfl, rfl⟩
  rw [Ledger.held_takeBack, Stake.units_add, Pi.add_apply, Stake.units_charged]
  by_cases hba : b = a
  · subst hba
    simp only [if_true]
    omega
  · simp [hba]

/-! ### Taking several references -/

theorem retainAll_meets (vs : List Value) (hb : m.Balanced total σ x)
    (hv : ∀ v ∈ vs, (x + m.heap.stake).Knows v) (hout : lax ∨ Heap.OutSupported x m.heap) :
    (retainAll vs m).Meets lax
      (fun _ m' => m'.Balanced total σ (x + .refs vs) ∧ m.SameObjects m')
      fun m' => Released total σ x m m' ∧ vs ≠ [] := by
  induction vs generalizing x m with
  | nil =>
    rw [Stake.refs_nil, add_zero]
    exact ⟨hb, .refl m⟩
  | cons v rest ih =>
    refine Action.meets_bind ((retain_meets hb (hv v List.mem_cons_self)).mono
      (fun _ _ => id) ?_) ?_
    · rintro _ ⟨rfl, -⟩
      exact ⟨⟨hb, .refl x _⟩, List.cons_ne_nil v rest⟩
    · rintro _ m₁ ⟨hb₁, same⟩
      have hout₁ : lax ∨ Heap.OutSupported (x + .refs [v]) m₁.heap :=
        ((same.loses x).outSupported hout).imp_right fun hout => hout.add_right _
      refine Action.meets_onRaise (ih hb₁ (fun w hw => ?_) hout₁) ?_ |>.mono ?_ fun _ => id
      · rw [same.stake, add_right_comm]
        exact (hv w (List.mem_cons_of_mem v hw)).add_right _
      · -- a later reference is refused: the first one is given up again
        rintro m₂ ⟨⟨hb₂, loses⟩, -⟩
        have loses := (same.loses x).trans loses.of_add_right
        refine (release_meets hb₂ (loses.outSupported hout)).always ?_
        exact fun _ m₃ h => ⟨⟨h.1, loses.trans h.2⟩, List.cons_ne_nil v rest⟩
      · rintro _ m₂ ⟨hb₂, same₂⟩
        rw [Stake.refs_cons, ← add_assoc]
        exact ⟨hb₂, same.trans same₂⟩

/-- Only the first reference can be refused. -/
theorem retainTimes_meets (v : Value) (count : ℕ) (hb : m.Balanced total σ x)
    (hv : (x + m.heap.stake).Knows v) :
    (retainTimes v count m).Meets lax
      (fun _ m' => m'.Balanced total σ (x + .refs (List.replicate count v)) ∧ m.SameObjects m')
      fun m' => m' = m := by
  -- once a reference is held, the others are granted
  have more (count : ℕ) (x : Stake) (m : Memory) (hb : m.Balanced total σ x) (hmem : v ∈ x.values) :
      (retainTimes v count m).Meets lax
        (fun _ m' => m'.Balanced total σ (x + .refs (List.replicate count v)) ∧ m.SameObjects m')
        fun _ => False := by
    induction count generalizing x m with
    | zero =>
      rw [List.replicate_zero, Stake.refs_nil, add_zero]
      exact ⟨hb, .refl m⟩
    | succ count ih =>
      have step : (retain v m).Meets lax _ _ :=
        retain_meets hb ((Stake.knows_of_mem hmem).add_right _)
      rw [retainTimes]
      cases hstep : retain v m with
      | broken b => rw [hstep] at step; exact step
      | raised e m₁ => rw [hstep] at step; exact absurd hmem step.2
      | done _ m₁ =>
        rw [hstep] at step
        obtain ⟨hb₁, same⟩ := step
        refine (ih _ _ hb₁ (by simp [hmem])).mono ?_ fun _ => id
        rintro _ m₂ ⟨hb₂, same₂⟩
        rw [List.replicate_succ, Stake.refs_cons, ← add_assoc]
        exact ⟨hb₂, same.trans same₂⟩
  cases count with
  | zero =>
    rw [List.replicate_zero, Stake.refs_nil, add_zero]
    exact ⟨hb, .refl m⟩
  | succ count =>
    have step : (retain v m).Meets lax _ _ := retain_meets hb hv
    rw [retainTimes]
    cases hstep : retain v m with
    | broken b => rw [hstep] at step; exact step
    | raised e m₁ => rw [hstep] at step; exact step.1
    | done _ m₁ =>
      rw [hstep] at step
      obtain ⟨hb₁, same⟩ := step
      refine (more count _ _ hb₁ (by simp)).always ?_
      rintro _ m₂ ⟨hb₂, same₂⟩
      rw [List.replicate_succ, Stake.refs_cons, ← add_assoc]
      exact ⟨hb₂, same.trans same₂⟩

end Memory

/-! ### Reserves -/

namespace Reserve

variable {total : Option ℕ} {σ : ℕ → Label} {x : Stake} {m : Memory} {lax : Prop} {r : Reserve}

/-- The reserve with another number of slots. -/
def withCapacity (r : Reserve) (capacity : ℕ) : Reserve := { r with capacity := capacity }

theorem stake_eq_add {a b : ℕ} (hab : a ≤ b) :
    (r.withCapacity b).stake =
      (r.withCapacity a).stake + .charged r.account (r.slot.units * (b - a)) := by
  change Stake.charged r.account (r.slot.units * b) =
    .charged r.account (r.slot.units * a) + .charged r.account (r.slot.units * (b - a))
  rw [← Stake.charged_add, ← Nat.mul_add, Nat.add_sub_cancel' hab]

/-- Slots are charged or given back; a refusal to charge changes nothing. -/
theorem resize_meets (hb : m.Balanced total σ (x + r.stake)) (capacity : ℕ) :
    (r.resize capacity m).Meets lax
      (fun r' m' => r' = r.withCapacity capacity ∧ m'.Balanced total σ (x + r'.stake) ∧
        m.SameObjects m') fun m' => m' = m ∧ r.capacity < capacity := by
  rcases Nat.lt_trichotomy r.capacity capacity with grows | same | shrinks
  · have charged : (onLedger _ m).Meets lax _ _ := Memory.charge_meets (a := r.account) hb
      (Size.cost_times r.slot (capacity - r.capacity))
    have grown : (r.withCapacity capacity).stake = r.stake + _ := stake_eq_add grows.le
    rw [add_assoc, ← grown] at charged
    simp only [resize, grows, if_true, Nat.lt_asymm grows, if_false]
    refine Action.meets_bind (charged.mono (fun _ _ => id) fun _ h => ⟨h, trivial⟩) ?_
    exact fun _ m' h => ⟨rfl, h⟩
  · subst same
    simp only [resize, Nat.lt_irrefl, if_false]
    exact ⟨rfl, hb, .refl m⟩
  · have split : r.stake = (r.withCapacity capacity).stake + _ := stake_eq_add shrinks.le
    rw [split, ← add_assoc] at hb
    have discharged : (onLedger _ m).Meets lax _ _ := Memory.discharge_meets hb
      (Size.cost_times r.slot (r.capacity - capacity))
    simp only [resize, shrinks, if_true, Nat.lt_asymm shrinks, if_false]
    refine Action.meets_bind (discharged.always fun _ _ => id) ?_
    exact fun _ m' h => ⟨rfl, h⟩

/-- The slots charged for are those `length` items need. -/
def Fits (r : Reserve) (length : ℕ) : Prop := r.capacityFor length = .ok r.capacity

/-- Fewer items need no more slots. -/
theorem Fits.exists_le {n k : ℕ} (hr : r.Fits n) (hk : k ≤ n) :
    ∃ c ≤ r.capacity, r.capacityFor k = .ok c := by
  unfold Fits capacityFor at *
  split at hr
  · rename_i hn
    have hcap : r.initial = r.capacity := by simpa using hr
    exact ⟨r.initial, hcap.le, if_pos (by omega)⟩
  · split at hr
    · cases hr
    · rename_i hn hinc
      have hcap : r.initial + (n - r.initial + r.increment - 1) / r.increment * r.increment =
          r.capacity := by simpa using hr
      split
      · exact ⟨_, by omega, rfl⟩
      · refine ⟨_, ?_, rfl⟩
        rw [← hcap]
        have fewer : k - r.initial + r.increment - 1 ≤ n - r.initial + r.increment - 1 := by omega
        exact Nat.add_le_add_left
          (Nat.mul_le_mul_right _ (Nat.div_le_div_right (c := r.increment) fewer)) _

/-- **Slots and references change hands together.**  If that fails nothing has changed hands, and
dropping items alone does not fail. -/
theorem exchange_meets (length : ℕ) (removed added : List Value)
    (hb : m.Balanced total σ (x + r.stake + .refs removed))
    (hadd : ∀ v ∈ added, (x + r.stake + .refs removed + m.heap.stake).Knows v)
    (hout : lax ∨ Heap.OutSupported x m.heap) :
    (r.exchange length removed added m).Meets lax
      (fun r' m' => (∃ c, r' = r.withCapacity c ∧
          r.capacityFor (length - removed.length + added.length) = .ok c) ∧
        Memory.Balanced total σ (x + r'.stake + .refs added) m' ∧ m.Loses x m')
      fun m' => Memory.Released total σ (x + r.stake + .refs removed) m m' ∧
        ¬ (r.Fits length ∧ added = []) := by
  cases hcap : r.capacityFor (length - removed.length + added.length) with
  | error c =>
    rw [exchange, hcap]
    refine ⟨⟨hb, .refl _ m⟩, ?_⟩
    rintro ⟨fits, rfl⟩
    obtain ⟨c', -, hc'⟩ := fits.exists_le (k := length - removed.length) (by omega)
    rw [List.length_nil, add_zero, hc'] at hcap
    cases hcap
  | ok capacity =>
    rw [exchange, hcap]
    change ((retainAll added >>= fun _ => (r.resize capacity).onRaise (releaseAll added) >>=
      fun resized => releaseAll removed >>= fun _ => pure resized) m).Meets _ _ _
    have hout' (y : Stake) : lax ∨ Heap.OutSupported (x + y) m.heap :=
      hout.imp_right fun hout => hout.add_right y
    refine Action.meets_bind ((Memory.retainAll_meets added hb hadd ?_).mono
      (fun _ _ => id) fun _ h => ⟨h.1, fun hnil => h.2 hnil.2⟩) ?_
    · rw [add_assoc]
      exact hout' _
    rintro _ m₁ ⟨hb₁, same₁⟩
    have loses₁ := same₁.loses (x + r.stake + .refs removed)
    have hout₁ (y : Stake) : lax ∨ Heap.OutSupported (x + y) m₁.heap :=
      ((same₁.loses x).outSupported hout).imp_right fun hout => hout.add_right y
    have sum : x + r.stake + .refs removed + .refs added =
        x + .refs removed + .refs added + r.stake := by abel
    rw [sum] at hb₁
    refine Action.meets_bind (P := fun r' m' => r' = r.withCapacity capacity ∧
      m'.Balanced total σ (x + .refs removed + .refs added + r'.stake) ∧ m.SameObjects m')
      (Action.meets_onRaise ((resize_meets hb₁ capacity).mono ?_ fun _ => id) ?_) ?_
    · rintro r' m₂ ⟨rfl, hb₂, same₂⟩
      exact ⟨rfl, hb₂, same₁.trans same₂⟩
    · -- the ledger refuses to grow: the references taken are given up again
      rintro _ ⟨rfl, grows⟩
      rw [← sum] at hb₁
      refine (Memory.releaseAll_meets added hb₁ ?_).always ?_
      · rw [add_assoc]
        exact hout₁ _
      · rintro _ m₂ ⟨hb₂, loses₂⟩
        refine ⟨⟨hb₂, loses₁.trans loses₂⟩, ?_⟩
        rintro ⟨fits, rfl⟩
        obtain ⟨c, hc, hc'⟩ := fits.exists_le (k := length - removed.length) (by omega)
        rw [List.length_nil, add_zero, hc'] at hcap
        obtain rfl : c = capacity := by simpa using hcap
        omega
    · -- the items removed are given up at the end, when nothing can be refused any more
      rintro _ m₂ ⟨rfl, hb₂, same₂⟩
      have sum : x + .refs removed + .refs added + (r.withCapacity capacity).stake =
          x + (r.withCapacity capacity).stake + .refs added + .refs removed := by abel
      rw [sum] at hb₂
      refine Action.meets_bind ((Memory.releaseAll_meets removed hb₂ ?_).mono (fun _ _ => id)
        fun _ h => h.elim) ?_
      · rw [add_assoc]
        exact ((same₂.loses x).outSupported hout).imp_right fun hout => hout.add_right _
      · rintro _ m₃ ⟨hb₃, loses₃⟩
        rw [add_assoc] at loses₃
        exact ⟨⟨capacity, rfl, rfl⟩, hb₃, (same₂.loses x).trans loses₃.of_add_right⟩

/-- Every slot is given back. -/
theorem surrender_meets (hb : m.Balanced total σ (x + r.stake)) :
    (r.surrender m).Meets lax (fun _ m' => m'.Balanced total σ x ∧ m.SameObjects m')
      fun _ => False :=
  Memory.discharge_meets hb (Size.cost_times ..)

end Reserve

/-! ### Sequences -/

namespace Stake

theorem refs_eq_sum (vs : List Value) : refs vs = (vs.map fun v => refs [v]).sum := by
  induction vs with
  | nil => rfl
  | cons v rest ih => rw [refs_cons, ih, List.map_cons, List.sum_cons]

end Stake

namespace Sequence

variable {total : Option ℕ} {σ : ℕ → Label} {x : Stake} {m : Memory} {lax : Prop} {s s' : Sequence}

/-- The slots charged for are those the items need. -/
def Sized (s : Sequence) : Prop := s.reserve.Fits s.length

/-- `s'` is `s` with other items, in as many slots as they need. -/
structure Resized (s s' : Sequence) : Prop where
  reserve : ∃ c, s'.reserve = s.reserve.withCapacity c
  sized : s'.Sized

/-- What an exchange takes away. -/
theorem length_removed {drop : ℕ} (h : drop ≤ s.length) :
    (s.items.take drop).reverse.length = drop := by
  rw [List.length_reverse, List.length_take]
  exact Nat.min_eq_left h

theorem exchange_meets (drop : ℕ) (values : List Value) (hb : m.Balanced total σ (x + s.stake))
    (hv : ∀ v ∈ values, (x + s.stake + m.heap.stake).Knows v)
    (hout : lax ∨ Heap.OutSupported x m.heap) :
    (s.exchange drop values m).Meets lax
      (fun s' m' => (s.Resized s' ∧ s'.items = values.reverse ++ s.items.drop drop) ∧
        Memory.Balanced total σ (x + s'.stake) m' ∧ m.Loses x m')
      fun m' => Memory.Released total σ (x + s.stake) m m' ∧
        ¬ (s.Sized ∧ drop ≤ s.length ∧ values = []) := by
  by_cases hdrop : s.length < drop
  · simp only [exchange, hdrop, if_true]
    refine ⟨⟨hb, .refl _ m⟩, ?_⟩
    rintro ⟨-, hle, -⟩
    omega
  · have parts : x + s.stake = x + .refs (s.items.drop drop) + s.reserve.stake +
        .refs (s.items.take drop).reverse := by
      rw [Stake.refs_reverse, stake]
      nth_rewrite 1 [← List.take_append_drop drop s.items]
      rw [Stake.refs_append]
      abel
    rw [parts] at hb hv ⊢
    simp only [exchange, hdrop, if_false]
    refine Action.meets_bind ((Reserve.exchange_meets _ _ _ hb hv
      (hout.imp_right fun hout => hout.add_right _)).mono (fun _ _ => id) ?_) ?_
    · rintro m' ⟨released, grows⟩
      exact ⟨released, fun h => grows ⟨h.1, h.2.2⟩⟩
    · rintro r' m' ⟨⟨c, rfl, hc⟩, hb', loses⟩
      refine ⟨⟨⟨⟨c, rfl⟩, ?_⟩, rfl⟩, ?_, loses.of_add_right⟩
      · rw [length_removed (Nat.le_of_not_lt hdrop)] at hc
        have : (values.reverse ++ s.items.drop drop).length = s.length - drop + values.length := by
          simp [length, Nat.add_comm]
        rw [Sized, length, this]
        exact hc
      · have : x + .refs (s.items.drop drop) + (s.reserve.withCapacity c).stake + .refs values =
            x + Sequence.stake ⟨s.reserve.withCapacity c, values.reverse ++ s.items.drop drop⟩ := by
          rw [stake, Stake.refs_append, Stake.refs_reverse]
          abel
        rwa [← this]

/-- Emptying a sequence does not fail. -/
theorem clear_meets (hb : m.Balanced total σ (x + s.stake)) (hs : s.Sized)
    (hout : lax ∨ Heap.OutSupported x m.heap) :
    (s.clear m).Meets lax
      (fun s' m' => (s.Resized s' ∧ s'.items = []) ∧ Memory.Balanced total σ (x + s'.stake) m' ∧
        m.Loses x m') fun _ => False := by
  refine Action.meets_unfailing ((exchange_meets s.length [] hb (by simp)
    hout).mono ?_ fun _ h => h.2 ⟨hs, le_rfl, rfl⟩)
  rintro s' m' ⟨⟨resized, items⟩, rest⟩
  rw [length, List.drop_length] at items
  exact ⟨⟨resized, items⟩, rest⟩

/-- Disposing of a sequence gives everything back. -/
theorem dispose_meets (hb : m.Balanced total σ (x + s.stake)) (hs : s.Sized)
    (hout : lax ∨ Heap.OutSupported x m.heap) :
    (s.dispose m).Meets lax (fun _ m' => Memory.Released total σ x m m') fun _ => False := by
  refine Action.meets_bind (clear_meets hb hs hout) ?_
  rintro s' m₁ ⟨⟨-, items⟩, hb₁, loses⟩
  have : x + s'.stake = x + s'.reserve.stake := by
    rw [stake, items, Stake.refs_nil, add_zero]
  rw [this] at hb₁
  refine (Reserve.surrender_meets hb₁).mono ?_ fun _ => id
  exact fun _ m₂ ⟨hb₂, same⟩ => ⟨hb₂, loses.trans (same.loses x)⟩

theorem stake_replace {index : ℕ} {previous : Value} (h : s.get? index = some previous)
    (v : Value) : s.stake + .refs [v] = (s.replace index v).stake + .refs [previous] := by
  unfold get? at h
  split at h
  · rename_i hi
    obtain ⟨hlt, rfl⟩ := List.getElem?_eq_some_iff.1 h
    have key := Heap.sum_map_set (fun v => Stake.refs [v]) s.items _ hlt v
    rw [← Stake.refs_eq_sum, ← Stake.refs_eq_sum] at key
    simp only [replace, hi, if_true, stake]
    rw [add_assoc, ← key, add_assoc]
  · cases h

/-- One item is replaced. -/
theorem set_meets {index : ℕ} {v : Value} (hb : m.Balanced total σ (x + s.stake))
    (hv : (x + s.stake + m.heap.stake).Knows v) (hout : lax ∨ Heap.OutSupported x m.heap) :
    (s.set index v m).Meets lax
      (fun s' m' => s' = s.replace index v ∧ Memory.Balanced total σ (x + s'.stake) m' ∧
        m.Loses x m') fun m' => m' = m := by
  cases hget : s.get? index with
  | none =>
    rw [set, hget]
    rfl
  | some previous =>
    rw [set, hget]
    refine Action.meets_bind ((Memory.retain_meets hb hv).mono (fun _ _ => id) fun _ h => h.1) ?_
    rintro _ m₁ ⟨hb₁, same⟩
    rw [add_assoc, stake_replace hget, ← add_assoc] at hb₁
    refine Action.meets_bind ((Memory.release_meets hb₁ ?_).mono (fun _ _ => id)
      fun _ h => h.elim) ?_
    · exact ((same.loses x).outSupported hout).imp_right fun hout => hout.add_right _
    · rintro _ m₂ ⟨hb₂, loses⟩
      exact ⟨rfl, hb₂, (same.loses x).trans loses.of_add_right⟩

/-- Empty slots are filled with copies of one value. -/
theorem fill_meets {count : ℕ} {v : Value} (hb : m.Balanced total σ (x + s.stake))
    (hv : (x + s.stake + m.heap.stake).Knows v) :
    (s.fill v count m).Meets lax
      (fun s' m' => s' = { s with items := List.replicate count v ++ s.items } ∧
        Memory.Balanced total σ (x + s'.stake) m' ∧ m.SameObjects m') fun m' => m' = m := by
  by_cases hfull : s.reserve.capacity < s.length + count
  · simp only [fill, hfull, if_true]
    rfl
  · simp only [fill, hfull, if_false]
    refine Action.meets_bind (Memory.retainTimes_meets v count hb hv) ?_
    rintro _ m₁ ⟨hb₁, same⟩
    refine ⟨rfl, ?_, same⟩
    have : x + s.stake + .refs (List.replicate count v) =
        x + Sequence.stake { s with items := List.replicate count v ++ s.items } := by
      simp only [stake, Stake.refs_append]
      abel
    rwa [← this]

end Sequence

end StackScript
