import StackScript.Proofs.Memory.Container

/-!
# Creating containers

A new container gets a cell nobody refers to, so the labels of the containers there are can be kept
while the new one gets its own (`Memory.Created`).  Whoever creates it holds the one reference to
it, as a value or, for the locals of a frame, as a handle (`Stake.PointsTo`).
-/

namespace StackScript

open Memory (onLedger onHeap)

namespace Heap

variable {h : Heap}

/-- The new cell is empty before, and every other one stays as it is. -/
theorem allocate_meets {lax : Prop} {F : Heap → Prop} (hw : h.WellFormed) (o : Object) :
    (allocate o h).Meets lax
      (fun i h' => h.cell? i = none ∧ h'.WellFormed ∧ h'.stake = h.stake + o.stake ∧
        ∀ j, h'.cell? j = if j = i then some ⟨1, some o⟩ else h.cell? j) F := by
  unfold allocate
  dsimp only
  split
  · rename_i i free hfree
    obtain ⟨hi, hnone⟩ := (hw.mem_free i).1 (by rw [hfree]; exact List.mem_cons_self)
    have nodup := hw.nodup
    rw [hfree] at nodup
    have cells (j : ℕ) : (h.setCell i (some ⟨1, some o⟩)).cell? j =
        if j = i then some ⟨1, some o⟩ else h.cell? j := cell?_setCell hi _ j
    refine ⟨hnone, ⟨(List.nodup_cons.1 nodup).2, fun j => ?_⟩, ?_, cells⟩
    · have members := hw.mem_free j
      rw [hfree, List.mem_cons] at members
      change j ∈ free ↔ j < (h.setCell i _).cells.size ∧ (h.setCell i _).cell? j = none
      rw [size_setCell, cells]
      by_cases hj : j = i
      · subst hj
        simp [(List.nodup_cons.1 nodup).1]
      · simpa [hj] using members
    · have key := stake_setCell hi (some ⟨1, some o⟩)
      rw [hnone] at key
      change (h.setCell i _).stake = _
      simpa [Cell.stake] using key
  · have beyond : h.cell? h.cells.size = none := by
      rw [cell?, Array.getElem?_eq_none (Nat.le_refl _)]
      rfl
    have cells (j : ℕ) :
        Heap.cell? { h with cells := h.cells.push (some ⟨1, some o⟩) } j =
          if j = h.cells.size then some ⟨1, some o⟩ else h.cell? j := by
      rw [cell?, Array.getElem?_push]
      split <;> rfl
    refine ⟨beyond, ⟨hw.nodup, fun j => ?_⟩, ?_, cells⟩
    · rw [cells, Array.size_push, show Heap.free _ = h.free from rfl, hw.mem_free]
      by_cases hj : j = h.cells.size
      · simp [hj]
      · simp only [hj, if_false]
        refine and_congr_left fun _ => ?_
        omega
    · rw [stake_push]
      rfl

end Heap

namespace Stake

/-- A single reference to a container with a label. -/
structure PointsTo (y : Stake) (i : ℕ) (l : Label) : Prop where
  holders : ∀ j, y.holders j = if j = i then 1 else 0
  mentions : ∀ t, y.mentions t = 0
  units : y.units = 0
  kinds : ∀ v ∈ y.values, v.handle? = some i ∧ v.kind = l.kind
  locals : ∀ j ∈ y.locals, j = i ∧ l = ⟨.dictionary, .system⟩

theorem pointsTo_ref {v : Value} {i : ℕ} {l : Label} (hv : v.handle? = some i)
    (hs : v.string? = none) (hk : v.kind = l.kind) : PointsTo (refs [v]) i l where
  holders j := by simp [holders_ref, hv, eq_comm]
  mentions t := by simp [mentions_ref, hs]
  units := rfl
  kinds w hw := by
    obtain rfl : w = v := by simpa using hw
    exact ⟨hv, hk⟩
  locals j hj := by simp at hj

theorem pointsTo_localsAt (i : ℕ) : PointsTo (localsAt i) i ⟨.dictionary, .system⟩ where
  holders j := holders_localsAt i j
  mentions _ := rfl
  units := rfl
  kinds w hw := by simp at hw
  locals j hj := ⟨by simpa using hj, rfl⟩

end Stake

namespace Memory

variable {total : Option ℕ} {σ : ℕ → Label} {x : Stake} {m m₁ : Memory} {lax : Prop}

/-- A container has been created, to which any single reference may be held. -/
structure Created (total : Option ℕ) (σ : ℕ → Label) (x : Stake) (m : Memory) (l : Label) (i : ℕ)
    (m' : Memory) : Prop where
  /-- The handle was not in use. -/
  fresh : x.holders i = 0
  balanced : ∀ y, y.PointsTo i l → m'.Balanced total (Function.update σ i l) (x + y)
  lives : ∀ j, j ≠ i → m'.heap.cell? j ≠ none → m.heap.cell? j ≠ none
  keeps : ∀ j, 0 < x.holders j → m'.heap.content? j = m.heap.content? j
  present : m.heap.Present → m'.heap.Present

/-- What was there before does not lead to the new container. -/
theorem Created.handle_ne {l : Label} {i j : ℕ} {m' : Memory} {v : Value}
    (h : Created total σ x m l i m') (hv : v ∈ x.values) (hj : v.handle? = some j) : j ≠ i := by
  rintro rfl
  exact (Stake.holders_pos_of_mem hv hj).ne' h.fresh

theorem Created.of_loses {l : Label} {i : ℕ} {m' : Memory} (h : Created total σ x m₁ l i m')
    (loses : m.Loses x m₁) : Created total σ x m l i m' where
  fresh := h.fresh
  balanced := h.balanced
  lives j hj hlive := by
    have := h.lives j hj hlive
    intro hnone
    rcases loses.sheds j with gone | kept
    · exact this (Heap.content?_eq_none_iff.1 gone)
    · rw [Heap.content?_eq_none_iff.2 hnone] at kept
      exact this (Heap.content?_eq_none_iff.1 kept)
  keeps j hj := (h.keeps j hj).trans (loses.keeps _ (Heap.supports_holders x _) j hj)
  present hp := h.present (hp.sheds loses.sheds)

/-- Nothing refers to a cell that is not in use. -/
theorem Balanced.holders_of_unused {i : ℕ} (hb : m.Balanced total σ x)
    (hnone : m.heap.cell? i = none) : (x + m.heap.stake).holders i = 0 := by
  have := hb.holders i
  rwa [Heap.countAt, hnone, Option.elim_none, eq_comm] at this

/-- A cell is allocated to an object that is accounted for. -/
theorem Balanced.stored {o : Object} {i : ℕ} {h' : Heap} {y : Stake}
    (hb : m.Balanced total σ (x + o.stake)) (hpacked : o.Packed)
    (hnone : m.heap.cell? i = none) (heap : h'.WellFormed)
    (stake : h'.stake = m.heap.stake + o.stake)
    (cells : ∀ j, h'.cell? j = if j = i then some ⟨1, some o⟩ else m.heap.cell? j)
    (hy : y.PointsTo i o.label) (frames : List String) :
    Memory.Balanced total (Function.update σ i o.label) (x + y)
      { m with heap := h', trails := m.trails.map (·.record ⟨i, o.label.account, frames⟩) } := by
  have nobody := hb.holders_of_unused hnone
  -- what the object holds is now in the heap, and the new reference is all there is besides
  have sum : x + y + h'.stake = x + o.stake + m.heap.stake + y := by
    rw [stake]
    abel
  constructor
  · intro j
    change h'.countAt j = _
    rw [sum, Stake.holders_add, hy.holders, Heap.countAt, cells]
    split
    · rename_i hj
      rw [hj, nobody]
      rfl
    · exact hb.holders j
  · intro t
    rw [sum, Stake.mentions_add, hy.mentions, add_zero]
    exact hb.mentions t
  · intro a
    rw [sum, Stake.units_add, hy.units, add_zero]
    exact hb.units a
  · intro j c hc
    change h'.cell? j = some c at hc
    rw [cells] at hc
    split at hc
    · obtain rfl := Option.some.inj hc
      exact Nat.one_pos
    · exact hb.positive j c hc
  · intro j o' ho'
    change h'.object? j = some o' at ho'
    rw [Heap.object?, cells] at ho'
    rw [Function.update_apply]
    split at ho'
    · rename_i hj
      obtain rfl : o = o' := Option.some.inj ho'
      rw [if_pos hj]
      exact ⟨rfl, hpacked⟩
    · rename_i hj
      rw [if_neg hj]
      exact hb.labelled j o' ho'
  · rw [sum]
    intro v hv j hj
    rw [Stake.values_add, Multiset.mem_add] at hv
    rcases hv with hv | hv
    · -- an old value does not lead to the new cell
      rw [Function.update_apply, if_neg]
      · exact hb.kinds v hv j hj
      · rintro rfl
        exact (Stake.holders_pos_of_mem hv hj).ne' nobody
    · obtain ⟨hvi, hk⟩ := hy.kinds v hv
      obtain rfl : i = j := by simpa [hvi] using hj
      rw [Function.update_self]
      exact hk
  · intro j hj
    rw [Stake.locals_add, Multiset.mem_add] at hj
    change _ ∧ h'.countAt j = 1
    rw [Heap.countAt, cells, Function.update_apply]
    rcases hj with hj | hj
    · have hne : j ≠ i := by
        rintro rfl
        exact (Stake.holders_pos_of_local (by simp [hj])).ne' nobody
      rw [if_neg hne, if_neg hne]
      exact hb.locals j (by simpa using hj)
    · obtain ⟨rfl, hl⟩ := hy.locals j hj
      rw [if_pos rfl, if_pos rfl]
      exact ⟨hl, rfl⟩
  · exact heap
  · exact hb.exact
  · exact hb.tabled
  · intro l hl
    obtain ⟨l, recorded, rfl⟩ := Option.map_eq_some_iff.1 hl
    exact (hb.trailed l recorded).record cells frames

/-- An empty cell gets the object, and its trail is recorded. -/
theorem store_allocates {F : Memory → Prop} (hw : m.heap.WellFormed) (o : Object) (a : Account)
    (frames : List String) :
    (store o a frames m).Meets lax (fun i m' => ∃ h', m.heap.cell? i = none ∧ h'.WellFormed ∧
      h'.stake = m.heap.stake + o.stake ∧
      (∀ j, h'.cell? j = if j = i then some ⟨1, some o⟩ else m.heap.cell? j) ∧
      m' = { m with heap := h', trails := m.trails.map (·.record ⟨i, a, frames⟩) }) F := by
  have allocated : (onHeap (Heap.allocate o) m).Meets lax (fun i m' => ∃ h',
      m.heap.cell? i = none ∧ h'.WellFormed ∧ h'.stake = m.heap.stake + o.stake ∧
        (∀ j, h'.cell? j = if j = i then some ⟨1, some o⟩ else m.heap.cell? j) ∧
        m' = { m with heap := h' }) F :=
    Action.meets_zoom ((Heap.allocate_meets hw o).mono
      (fun i h' h => ⟨h', h.1, h.2.1, h.2.2.1, h.2.2.2, rfl⟩) fun _ => id)
  refine Action.meets_bind allocated ?_
  rintro i _ ⟨h', hnone, heap, stake, cells, rfl⟩
  exact ⟨h', hnone, heap, stake, cells, rfl⟩

/-- Storing an object that is accounted for. -/
theorem store_meets {F : Memory → Prop} {o : Object} {a : Account}
    (hb : m.Balanced total σ (x + o.stake)) (hpacked : o.Packed) (ha : o.label.account = a)
    (frames : List String) :
    (store o a frames m).Meets lax (fun i m' => Created total σ x m o.label i m') F := by
  refine (store_allocates hb.heap o a frames).mono ?_ fun _ => id
  rintro i _ ⟨h', hnone, heap, stake, cells, rfl⟩
  subst ha
  have unheld : x.holders i = 0 := by
    have nobody := hb.holders_of_unused hnone
    rw [Stake.holders_add, Stake.holders_add] at nobody
    omega
  have contents (j : ℕ) : h'.content? j = if j = i then some (some o) else m.heap.content? j := by
    rw [Heap.content?, cells]
    split <;> rfl
  refine ⟨unheld, fun y hy => hb.stored hpacked hnone heap stake cells hy frames,
    fun j hj hlive => ?_, fun j hj => ?_, fun hp j hj => ?_⟩
  · rwa [cells, if_neg hj] at hlive
  · rw [contents, if_neg]
    rintro rfl
    omega
  · rw [contents] at hj
    split at hj
    · cases hj
    · exact hp j hj

end Memory

/-! ### Arrays -/

variable {total : Option ℕ} {σ : ℕ → Label} {x : Stake} {m : Memory} {lax : Prop}

theorem Reserve.acquire_meets (hb : m.Balanced total σ x) (slot : Size) (a : Account)
    (initial increment : ℕ) :
    (Reserve.acquire slot a initial increment m).Meets lax
      (fun r m' => r = ⟨slot, a, initial, increment, initial⟩ ∧ r.Fits 0 ∧
        m'.Balanced total σ (x + r.stake) ∧ m.SameObjects m') fun m' => m' = m := by
  rw [Reserve.acquire, Action.get_bind]
  refine Action.meets_bind (Action.meets_ofExcept (P := fun _ m' => m' = m) (fun _ _ => rfl) rfl) ?_
  rintro _ _ rfl
  by_cases hmany : Reserve.unreservable ≤ initial
  · simp only [hmany, if_true]
    rfl
  · simp only [hmany, if_false]
    refine Action.meets_bind (Memory.charge_meets hb (Size.cost_times slot initial)) ?_
    rintro _ m' ⟨hb', same⟩
    exact ⟨rfl, if_pos (Nat.zero_le _), hb', same⟩

theorem Sequence.acquire_meets (hb : m.Balanced total σ x) (slot : Size) (a : Account)
    (initial increment : ℕ) :
    (Sequence.acquire slot a initial increment m).Meets lax
      (fun s m' => s = ⟨⟨slot, a, initial, increment, initial⟩, []⟩ ∧ s.Sized ∧
        m'.Balanced total σ (x + s.stake) ∧ m.SameObjects m') fun m' => m' = m := by
  refine Action.meets_bind (Reserve.acquire_meets hb slot a initial increment) ?_
  rintro _ m' ⟨rfl, fits, hb', same⟩
  refine ⟨rfl, fits, ?_, same⟩
  rwa [Sequence.stake, Stake.refs_nil, add_zero]

namespace Memory

theorem newArray_meets {items : List Value} (hb : m.Balanced total σ x)
    (hv : ∀ v ∈ items, (x + m.heap.stake).Knows v) (hout : lax ∨ Heap.OutSupported x m.heap)
    (a : Account) (trail : List String) :
    (newArray a items trail m).Meets lax (fun i m' => Created total σ x m ⟨.array, a⟩ i m')
      fun m' => Released total σ x m m' := by
  refine Action.meets_bind ((Sequence.acquire_meets hb _ a items.length 0).mono (fun _ _ => id)
    ?_) ?_
  · rintro _ rfl
    exact ⟨hb, .refl x _⟩
  rintro s m₁ ⟨rfl, sized, hb₁, same⟩
  have hout₁ := (same.loses x).outSupported hout
  refine Action.meets_bind (Action.meets_onRaise (Sequence.exchange_meets _ _ hb₁ (fun v hmem => ?_)
    hout₁) ?_) ?_
  · rw [same.stake, add_right_comm]
    exact (hv v hmem).add_right _
  · rintro m₂ ⟨⟨hb₂, loses⟩, -⟩
    have loses := (same.loses x).trans loses.of_add_right
    refine (Sequence.dispose_meets hb₂ sized (loses.outSupported hout)).always ?_
    exact fun _ m₃ ⟨hb₃, loses₃⟩ => ⟨hb₃, loses.trans loses₃⟩
  · rintro s' m₂ ⟨⟨⟨⟨c, hreserve⟩, sized'⟩, hitems⟩, hb₂, loses⟩
    have label : (Object.array s').label = ⟨.array, a⟩ := by
      simp only [Object.label, hreserve]
      rfl
    have filled : s'.length = items.length := by simp [Sequence.length, hitems]
    have packed : (Object.array s').Packed := by
      rw [Sequence.Sized, Reserve.Fits, Reserve.capacityFor, filled, hreserve] at sized'
      refine ⟨by rw [hreserve]; rfl, ?_⟩
      rw [filled, hreserve]
      simpa [Reserve.withCapacity] using sized'.symm
    rw [← label]
    exact (store_meets hb₂ packed (congrArg Label.account label) trail).mono
      (fun i m₃ h => h.of_loses ((same.loses x).trans loses)) fun _ => id

theorem newFilledArray_meets {v : Value} (hb : m.Balanced total σ x)
    (hv : (x + m.heap.stake).Knows v) (hout : lax ∨ Heap.OutSupported x m.heap) (a : Account)
    (length : ℕ) (trail : List String) :
    (newFilledArray a length v trail m).Meets lax (fun i m' => Created total σ x m ⟨.array, a⟩ i m')
      fun m' => Released total σ x m m' := by
  refine Action.meets_bind ((Sequence.acquire_meets hb _ a length 0).mono (fun _ _ => id) ?_) ?_
  · rintro _ rfl
    exact ⟨hb, .refl x _⟩
  rintro s m₁ ⟨rfl, sized, hb₁, same⟩
  refine Action.meets_bind (Action.meets_onRaise (Sequence.fill_meets hb₁ ?_) ?_) ?_
  · rw [same.stake, add_right_comm]
    exact hv.add_right _
  · rintro _ rfl
    refine (Sequence.dispose_meets hb₁ sized ((same.loses x).outSupported hout)).mono ?_
      fun _ h => h.elim
    exact fun _ m₃ ⟨hb₃, loses₃⟩ => ⟨hb₃, (same.loses x).trans loses₃⟩
  · rintro s' m₂ ⟨rfl, hb₂, same₂⟩
    refine (store_meets (o := .array _) hb₂ ⟨rfl, ?_⟩ rfl trail).mono
      (fun i m₃ h => h.of_loses ((same.trans same₂).loses x)) fun _ => id
    simp [Sequence.length]

/-! ### Dictionaries -/

theorem newDictionary_meets (hb : m.Balanced total σ x) (a : Account) (trail : List String) :
    (newDictionary a trail m).Meets lax (fun i m' => Created total σ x m ⟨.dictionary, a⟩ i m')
      fun m' => m' = m := by
  refine Action.meets_bind (charge_meets hb (Size.cost_eq_min Dictionary.header)) ?_
  rintro _ m₁ ⟨hb₁, same⟩
  have empty : Object.stake (.dictionary { account := a }) =
      .charged a Dictionary.header.units := by
    rw [Object.stake, show Object.values _ = [] from rfl, Stake.refs_nil, add_zero]
    rfl
  rw [← empty] at hb₁
  exact (store_meets hb₁ trivial rfl trail).mono (fun i m₂ h => h.of_loses (same.loses x))
    fun _ => id

/-- Nothing is held by a new dictionary. -/
theorem newDictionary_values (hb : m.Balanced total σ x) (a : Account) (trail : List String) :
    (newDictionary a trail m).Meets True
      (fun _ m' => m'.heap.stake.values = m.heap.stake.values) fun _ => True := by
  refine Action.meets_bind ((charge_meets hb (Size.cost_eq_min Dictionary.header)).mono
    (fun _ _ => id) fun _ _ => trivial) ?_
  rintro _ m₁ ⟨hb₁, same⟩
  refine (store_allocates hb₁.heap _ a trail).mono ?_ fun _ => id
  rintro i _ ⟨h', -, -, stake, -, rfl⟩
  change h'.stake.values = _
  rw [stake, same.stake, Stake.values_add, Object.values_stake]
  exact add_zero _

end Memory

end StackScript
