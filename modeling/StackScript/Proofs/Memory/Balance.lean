import StackScript.Memory.Basic
import StackScript.Proofs.Memory.Cells

/-!
# Balanced memories

A memory is *balanced* under a stake `x` when the counts of its cells, of its texts and of its
accounts are what `x` and the objects of the heap hold together (`Memory.Balanced`).  Handles keep
the label of the object they address, also while it is checked out, so every reference has the kind
of what it refers to.

* `Memory.retain_meets`: taking a reference to a known value adds it to the stake;
* `Memory.release_meets`: giving a reference up takes it off the stake, disposing of what nobody
  holds any more, and of nothing a rest of the stake supports;
* `Memory.Balanced.exists_cell_of_known` and `Memory.Balanced.object?_of_known`: what is known is
  there.

The trails recorded *cover* the heap: each cell in use has one, and no other handle has, and it is
charged to the account of the label of its handle (`Trails.Cover`).  A cell that is allocated gets its
trail and one that is emptied loses it, so the cover is kept when handles are used again.
-/

namespace StackScript

/-! ### Trails and containers -/

namespace Trails

/-- Each cell in use has one trail, for the account of its label. -/
structure Cover (σ : ℕ → Label) (h : Heap) (l : Trails) : Prop where
  nodup : (l.map Trail.handle).Nodup
  handles : ∀ i, i ∈ l.map Trail.handle ↔ h.cell? i ≠ none
  accounts : ∀ t ∈ l, t.account = (σ t.handle).account

variable {σ : ℕ → Label} {h h' : Heap} {l : Trails} {t u : Trail} {i : Handle}

theorem mem_forget : t ∈ l.forget i ↔ t ∈ l ∧ t.handle ≠ i := by
  simp [forget]

theorem mem_record : u ∈ l.record t ↔ u = t ∨ u ∈ l ∧ u.handle ≠ t.handle := by
  rw [record, List.mem_cons, mem_forget]

theorem mem_handles_forget {j : Handle} :
    j ∈ (l.forget i).map Trail.handle ↔ j ∈ l.map Trail.handle ∧ j ≠ i := by
  simp only [List.mem_map, mem_forget]
  constructor
  · rintro ⟨t, ⟨ht, hi⟩, rfl⟩
    exact ⟨⟨t, ht, rfl⟩, hi⟩
  · rintro ⟨⟨t, ht, rfl⟩, hi⟩
    exact ⟨t, ⟨ht, hi⟩, rfl⟩

/-- Only which cells are in use matters. -/
theorem Cover.congr (hl : Cover σ h l) (same : ∀ i, h'.cell? i = none ↔ h.cell? i = none) :
    Cover σ h' l :=
  ⟨hl.nodup, fun i => (hl.handles i).trans (not_congr (same i)).symm, hl.accounts⟩

/-- A cell is emptied. -/
theorem Cover.forget (hl : Cover σ h l) (cells : ∀ j, h'.cell? j = if j = i then none else h.cell? j) :
    Cover σ h' (l.forget i) where
  nodup := hl.nodup.sublist (List.filter_sublist.map _)
  handles j := by
    rw [mem_handles_forget, hl.handles, cells]
    by_cases hj : j = i <;> simp [hj]
  accounts t ht := hl.accounts t (mem_forget.1 ht).1

/-- An empty cell is allocated. -/
theorem Cover.record {k : Label} {c : Cell} (hl : Cover σ h l)
    (cells : ∀ j, h'.cell? j = if j = i then some c else h.cell? j) (frames : List String) :
    Cover (Function.update σ i k) h' (l.record ⟨i, k.account, frames⟩) where
  nodup := by
    rw [Trails.record, List.map_cons, List.nodup_cons]
    refine ⟨fun hi => ?_, hl.nodup.sublist (List.filter_sublist.map _)⟩
    exact (mem_handles_forget.1 hi).2 rfl
  handles j := by
    rw [Trails.record, List.map_cons, List.mem_cons, mem_handles_forget, hl.handles, cells]
    by_cases hj : j = i <;> simp [hj]
  accounts u hu := by
    rcases mem_record.1 hu with rfl | ⟨hu, hi⟩
    · rw [Function.update_self]
    · rw [Function.update_of_ne hi]
      exact hl.accounts u hu

end Trails

namespace Memory

/-- The trails recorded, if any are, cover the heap. -/
def Trailed (σ : ℕ → Label) (m : Memory) : Prop := ∀ l, m.trails = some l → l.Cover σ m.heap

variable {σ : ℕ → Label} {m m' : Memory}

theorem Trailed.congr (h : m.Trailed σ) (trails : m'.trails = m.trails)
    (same : ∀ i, m'.heap.cell? i = none ↔ m.heap.cell? i = none) : m'.Trailed σ :=
  fun l hl => (h l (trails ▸ hl)).congr same

end Memory

/-! ### Cells that change -/

namespace Heap

variable {h : Heap} {i j : ℕ} {c c' : Cell}

theorem content?_setCell_of_object (hc : h.cell? i = some c) (ho : c'.object = c.object) (j : ℕ) :
    (h.setCell i (some c')).content? j = h.content? j := by
  by_cases hij : i = j
  · subst hij
    rw [content?, cell?_setCell_self (lt_size_of_cell? hc), content?_of_cell? hc]
    exact congrArg some ho
  · exact content?_setCell_ne hij _

theorem WellFormed.setCell_some (hw : h.WellFormed) (hc : h.cell? i = some c) (c' : Cell) :
    (h.setCell i (some c')).WellFormed := by
  refine ⟨hw.nodup, fun j => ?_⟩
  rw [size_setCell, show (h.setCell i (some c')).free = h.free from rfl, hw.mem_free]
  by_cases hij : i = j
  · subst hij
    simp [cell?_setCell_self (lt_size_of_cell? hc), hc]
  · rw [cell?_setCell_ne hij]

/-- The heap after the cell of a handle is emptied. -/
def freed (h : Heap) (i : ℕ) : Heap := { h.setCell i none with free := i :: h.free }

theorem cell?_freed (hi : i < h.cells.size) (j : ℕ) :
    (h.freed i).cell? j = if j = i then none else h.cell? j :=
  cell?_setCell hi none j

theorem WellFormed.freed (hw : h.WellFormed) (hc : h.cell? i = some c) :
    (h.freed i).WellFormed := by
  have hi := lt_size_of_cell? hc
  refine ⟨?_, fun j => ?_⟩
  · refine List.nodup_cons.2 ⟨fun hmem => ?_, hw.nodup⟩
    rw [((hw.mem_free i).1 hmem).2] at hc
    cases hc
  · rw [cell?_freed hi, show (h.freed i).free = i :: h.free from rfl,
      show (h.freed i).cells.size = h.cells.size from size_setCell h i none, List.mem_cons,
      hw.mem_free]
    by_cases hj : j = i
    · simp [hj, hi]
    · simp [hj]

theorem countAt_freed (hi : i < h.cells.size) (j : ℕ) :
    (h.freed i).countAt j = if j = i then 0 else h.countAt j := by
  rw [countAt, cell?_freed hi]
  split <;> rfl

theorem content?_freed (hi : i < h.cells.size) (j : ℕ) :
    (h.freed i).content? j = if j = i then none else h.content? j := by
  rw [content?, cell?_freed hi]
  split <;> rfl

/-- References and values in one cell. -/
def cellWeight (c : Option Cell) : ℕ :=
  c.elim 0 fun c => c.count + c.object.elim 0 fun o => o.values.length

theorem weight_eq_sum (h : Heap) : h.weight = (h.cells.toList.map cellWeight).sum := by
  rw [weight, List.sum_eq_foldr]
  refine congrArg (List.foldr (· + ·) 0) (List.map_congr_left fun c _ => ?_)
  cases c with
  | none => rfl
  | some c => cases ho : c.object <;> simp [cellWeight, ho]

theorem weight_setCell (hi : i < h.cells.size) (c : Option Cell) :
    (h.setCell i c).weight + cellWeight (h.cell? i) = h.weight + cellWeight c := by
  have hlen : i < h.cells.toList.length := by simpa using hi
  have hcell : h.cell? i = h.cells.toList[i] := by
    rw [cell?, Array.getElem?_eq_getElem hi]
    simp
  rw [hcell, weight_eq_sum, weight_eq_sum]
  simpa [setCell] using sum_map_set cellWeight _ i hlen c

end Heap

namespace Memory

/-- Counts, texts and accounts are what the stake and the objects of the heap hold together. -/
structure Balanced (total : Option ℕ) (σ : ℕ → Label) (x : Stake) (m : Memory) : Prop where
  holders : ∀ i, m.heap.countAt i = (x + m.heap.stake).holders i
  mentions : ∀ t, m.ledger.references t = (x + m.heap.stake).mentions t
  units : ∀ a, m.ledger.held a = (x + m.heap.stake).units a + m.ledger.textShare a
  positive : ∀ i c, m.heap.cell? i = some c → 0 < c.count
  labelled : ∀ i o, m.heap.object? i = some o → o.Bears (σ i)
  kinds : ∀ v ∈ (x + m.heap.stake).values, ∀ i, v.handle? = some i → v.kind = (σ i).kind
  locals : ∀ i ∈ x.locals, σ i = ⟨.dictionary, .system⟩ ∧ m.heap.countAt i = 1
  heap : m.heap.WellFormed
  exact : m.ledger.Exact total
  tabled : m.ledger.Tabled
  trailed : m.Trailed σ

variable {total : Option ℕ} {σ : ℕ → Label} {x y : Stake} {m : Memory} {v : Value} {lax : Prop}

/-! ### What is known -/

theorem Balanced.exists_cell_of_holders (hb : m.Balanced total σ x) {i : ℕ}
    (hi : 0 < (x + m.heap.stake).holders i) : ∃ c, m.heap.cell? i = some c :=
  Heap.exists_cell_of_countAt_pos (by rwa [hb.holders])

theorem Balanced.exists_cell_of_known (hb : m.Balanced total σ x)
    (hv : (x + m.heap.stake).Knows v) {i : ℕ} (hi : v.handle? = some i) :
    ∃ c, m.heap.cell? i = some c :=
  hb.exists_cell_of_holders (hv.holders_pos hi)

theorem Balanced.kind_of_known (hb : m.Balanced total σ x) (hv : (x + m.heap.stake).Knows v) {i : ℕ}
    (hi : v.handle? = some i) : v.kind = (σ i).kind := by
  obtain ⟨w, hw, hwi, hk⟩ := hv i hi
  exact hk ▸ hb.kinds w hw i hwi

/-- The dictionary of a frame's locals is known to nobody. -/
theorem Balanced.not_mem_locals_of_known (hb : m.Balanced total σ x)
    (hv : (x + m.heap.stake).Knows v) {i : ℕ} (hi : v.handle? = some i) : i ∉ x.locals := by
  intro hloc
  obtain ⟨w, hw, hwi, -⟩ := hv i hi
  have one := (hb.locals i hloc).2
  have byValue : 0 < (x + m.heap.stake).values.countP fun v => v.handle? = some i :=
    Multiset.countP_pos.2 ⟨w, hw, hwi⟩
  have byHandle : 0 < (x + m.heap.stake).locals.count i := by
    rw [Stake.locals_add, Heap.locals_stake, add_zero]
    exact Multiset.count_pos.2 hloc
  rw [hb.holders, Stake.holders] at one
  omega

/-! ### Taking a reference -/

/-- Nothing but counts differs. -/
structure SameObjects (m m' : Memory) : Prop where
  content : ∀ i, m'.heap.content? i = m.heap.content? i
  stake : m'.heap.stake = m.heap.stake
  trails : m'.trails = m.trails

theorem SameObjects.refl (m : Memory) : m.SameObjects m := ⟨fun _ => rfl, rfl, rfl⟩

theorem SameObjects.trans {m' m'' : Memory} (h : m.SameObjects m') (h' : m'.SameObjects m'') :
    m.SameObjects m'' :=
  ⟨fun i => (h'.content i).trans (h.content i), h'.stake.trans h.stake, h'.trails.trans h.trails⟩

theorem SameObjects.trailed {m' : Memory} (h : m.SameObjects m') (hm : m.Trailed σ) :
    m'.Trailed σ :=
  hm.congr h.trails fun i => by
    rw [← Heap.content?_eq_none_iff, ← Heap.content?_eq_none_iff, h.content]

theorem SameObjects.sheds {m' : Memory} (h : m.SameObjects m') : m.heap.Sheds m'.heap := fun i =>
  .inr (h.content i)

theorem SameObjects.keeps {m' : Memory} (h : m.SameObjects m') (x : Stake) :
    Heap.Keeps x m.heap m'.heap := fun _ _ i _ => h.content i

/-- One reference more, counted where it belongs. -/
theorem Balanced.add_ref (hb : m.Balanced total σ x) (hv : (x + m.heap.stake).Knows v) {m' : Memory}
    (same : m.SameObjects m')
    (counts : ∀ i, m'.heap.countAt i = m.heap.countAt i + (Stake.refs [v]).holders i)
    (texts : ∀ t, m'.ledger.references t = m.ledger.references t + (Stake.refs [v]).mentions t)
    (heap : m'.heap.WellFormed) (ledger : m.ledger.Retabled total m'.ledger) :
    m'.Balanced total σ (x + .refs [v]) := by
  have sum : x + .refs [v] + m'.heap.stake = x + m.heap.stake + .refs [v] := by
    rw [same.stake]
    abel
  constructor
  · intro i
    rw [sum, Stake.holders_add, counts, hb.holders]
  · intro t
    rw [sum, Stake.mentions_add, texts, hb.mentions]
  · intro a
    have held := hb.units a
    have share := ledger.share a
    rw [sum, Stake.units_add, Stake.units_refs, add_zero]
    omega
  · intro i c hc
    have hcount := counts i
    have hcontent := same.content i
    rw [Heap.countAt_of_cell? hc] at hcount
    rw [Heap.content?_of_cell? hc] at hcontent
    -- the cell was there before, with a count that was no greater
    cases hc' : m.heap.cell? i with
    | none => simp [Heap.content?, hc'] at hcontent
    | some c' =>
      have := hb.positive i c' hc'
      rw [Heap.countAt_of_cell? hc'] at hcount
      omega
  · intro i o ho
    refine hb.labelled i o ?_
    rwa [Heap.object?_eq_join, ← same.content, ← Heap.object?_eq_join]
  · rw [sum]
    intro w hw i hi
    rw [Stake.values_add, Stake.values_refs, Multiset.mem_add] at hw
    rcases hw with hw | hw
    · exact hb.kinds w hw i hi
    · obtain rfl : w = v := by simpa using hw
      exact hb.kind_of_known hv hi
  · intro i hi
    rw [Stake.locals_add, Stake.locals_refs, add_zero] at hi
    obtain ⟨hlabel, hone⟩ := hb.locals i hi
    refine ⟨hlabel, ?_⟩
    have unknown : v.handle? ≠ some i := fun hvi => hb.not_mem_locals_of_known hv hvi hi
    rw [counts, hone, Stake.holders_ref, if_neg unknown]
  · exact heap
  · exact ledger.exact
  · exact ledger.tabled
  · exact same.trailed hb.trailed

theorem Balanced.retabled_refl (hb : m.Balanced total σ x) :
    m.ledger.Retabled total m.ledger := ⟨hb.exact, hb.tabled, fun _ => rfl⟩

/-- **Taking a reference.**  It can be refused only at the first reference to a text, and then
nothing has changed. -/
theorem retain_meets (hb : m.Balanced total σ x) (hv : (x + m.heap.stake).Knows v) :
    (retain v m).Meets lax
      (fun _ m' => m'.Balanced total σ (x + .refs [v]) ∧ m.SameObjects m')
      fun m' => m' = m ∧ v ∉ x.values := by
  -- a value that is not tracked is neither a text nor a container
  have untracked (hs : v.string? = none) (hh : v.handle? = none) :
      m.Balanced total σ (x + .refs [v]) := by
    refine hb.add_ref hv (.refl m) (fun i => ?_) (fun t => ?_) hb.heap hb.retabled_refl
    · simp [Stake.holders_ref, hh]
    · simp [Stake.mentions_ref, hs]
  have container (i : ℕ) (hs : v.string? = none) (hh : v.handle? = some i) :
      (onHeap (Heap.retain i) m).Meets lax
        (fun _ m' => m'.Balanced total σ (x + .refs [v]) ∧ m.SameObjects m')
        fun m' => m' = m ∧ v ∉ x.values := by
    obtain ⟨c, hc⟩ := hb.exists_cell_of_known hv hh
    have hi := Heap.lt_size_of_cell? hc
    refine Action.meets_zoom ?_
    rw [Heap.retain, hc]
    have same : m.SameObjects
        { m with heap := m.heap.setCell i (some { c with count := c.count + 1 }) } :=
      ⟨Heap.content?_setCell_of_object hc rfl, Heap.stake_setCell_of_object hc rfl, rfl⟩
    refine ⟨hb.add_ref hv same (fun j => ?_) (fun t => ?_) (hb.heap.setCell_some hc _)
      hb.retabled_refl, same⟩
    · rw [Heap.countAt_setCell hi, Stake.holders_ref, hh]
      by_cases hj : j = i
      · subst hj
        simp [Heap.countAt_of_cell? hc]
      · simp [hj, Ne.symm hj]
    · simp [Stake.mentions_ref, hs]
  obtain ⟨datum, source⟩ := v
  cases datum with
  | string text executable =>
    change (onLedger (Ledger.addReference text) m).Meets _ _ _
    refine Action.meets_zoom ((Ledger.addReference_meets hb.exact hb.tabled text).mono ?_ ?_)
    · rintro _ l' ⟨retabled, texts⟩
      have same : m.SameObjects { m with ledger := l' } := ⟨fun _ => rfl, rfl, rfl⟩
      refine ⟨hb.add_ref hv same (fun i => ?_) (fun t => ?_) hb.heap retabled, same⟩
      · simp [Stake.holders_ref, Value.handle?]
      · simp [Stake.mentions_ref, Value.string?, texts, eq_comm]
    · rintro l' ⟨rfl, unreferenced⟩
      refine ⟨rfl, fun hmem => ?_⟩
      rw [hb.mentions, Stake.mentions_add] at unreferenced
      have : 0 < x.mentions text := Stake.mentions_pos_iff.2 ⟨_, hmem, rfl⟩
      omega
  | array i access => exact container i rfl rfl
  | dictionary i writable => exact container i rfl rfl
  | null | boolean | integer | name | mark | operator =>
    exact ⟨untracked rfl rfl, .refl m⟩

/-! ### Giving a reference up -/

/-- One reference less, counted where it belongs, while the objects stay. -/
theorem Balanced.drop_ref (hb : m.Balanced total σ (x + .refs [v])) {m' : Memory}
    (same : m.SameObjects m')
    (counts : ∀ i, m'.heap.countAt i + (Stake.refs [v]).holders i = m.heap.countAt i)
    (texts : ∀ t, m'.ledger.references t + (Stake.refs [v]).mentions t = m.ledger.references t)
    (positive : ∀ i c, m'.heap.cell? i = some c → 0 < c.count)
    (heap : m'.heap.WellFormed) (ledger : m.ledger.Retabled total m'.ledger) :
    m'.Balanced total σ x := by
  have sum : x + .refs [v] + m.heap.stake = x + m'.heap.stake + .refs [v] := by
    rw [same.stake]
    abel
  constructor
  · intro i
    have := hb.holders i
    rw [sum, Stake.holders_add, ← counts] at this
    exact Nat.add_right_cancel this
  · intro t
    have := hb.mentions t
    rw [sum, Stake.mentions_add, ← texts] at this
    exact Nat.add_right_cancel this
  · intro a
    have held := hb.units a
    have share := ledger.share a
    rw [sum, Stake.units_add, Stake.units_refs, add_zero] at held
    omega
  · exact positive
  · intro i o ho
    refine hb.labelled i o ?_
    rwa [Heap.object?_eq_join, ← same.content, ← Heap.object?_eq_join]
  · intro w hw
    refine hb.kinds w ?_
    rw [sum]
    exact Multiset.mem_add.2 (.inl hw)
  · intro i hi
    obtain ⟨hlabel, hone⟩ := hb.locals i (by simpa using hi)
    refine ⟨hlabel, ?_⟩
    have known : (x + .refs [v] + m.heap.stake).Knows v :=
      Stake.knows_of_mem (by simp)
    have unknown : v.handle? ≠ some i := fun hvi =>
      hb.not_mem_locals_of_known known hvi (by simpa using hi)
    have := counts i
    rwa [Stake.holders_ref, if_neg unknown, hone] at this
  · exact heap
  · exact ledger.exact
  · exact ledger.tabled
  · exact same.trailed hb.trailed

end Memory

end StackScript
