import Mathlib.Data.Fintype.Card
import Mathlib.Data.Set.Finite.Basic
import Mathlib.Logic.Relation
import Mathlib.Order.WellFounded
import StackScript.Proofs.Memory.Reading

/-!
# What remains

When all references but those of a stake are given up, what remains is what the stake leads to and the
containers on cycles, with all these lead to (`Heap.Survives`).

One direction is that such containers support each other (`Heap.supports_survives`), so no cascade
can reach them.  The other is that every container that remains has a holder that remains, so
following holders back leads to the stake or, since there are finitely many containers, around a
cycle (`Memory.Balanced.survives_of_live`).  `Heap.Retained` is the case of a stake of references only.
-/

namespace StackScript

theorem Stake.holders_refs (vs : List Value) (i : Handle) :
    (refs vs).holders i = vs.countP fun v => v.handle? = some i := by
  simp [holders]

theorem Stake.mentions_refs (vs : List Value) (text : String) :
    (refs vs).mentions text = vs.countP fun v => v.string? = some text := by
  simp [mentions]

namespace Heap

/-- A container holds another one. -/
def Holds (h : Heap) (i j : Handle) : Prop :=
  ∃ o, h.object? i = some o ∧ ∃ v ∈ o.values, v.handle? = some j

/-- No container is on a cycle. -/
def Acyclic (h : Heap) : Prop := ∀ i, ¬ Relation.TransGen h.Holds i i

/-- The container lies on, or is reached from, a cycle or one of the references. -/
def Retained (h : Heap) (refs : List Value) (j : Handle) : Prop :=
  ∃ i, ((∃ v ∈ refs, v.handle? = some i) ∨ Relation.TransGen h.Holds i i) ∧
    Relation.ReflTransGen h.Holds i j

variable {h h' : Heap} {refs : List Value} {i j : Handle}

theorem retained_of_ref {v : Value} (hv : v ∈ refs) (hi : v.handle? = some i) :
    h.Retained refs i :=
  ⟨i, .inl ⟨v, hv, hi⟩, .refl⟩

theorem retained_of_cycle (hi : Relation.TransGen h.Holds i i) : h.Retained refs i :=
  ⟨i, .inr hi, .refl⟩

/-- The container lies on, or is reached from, a cycle or a container the stake refers to. -/
def Survives (h : Heap) (x : Stake) (j : Handle) : Prop :=
  ∃ i, (0 < x.holders i ∨ Relation.TransGen h.Holds i i) ∧ Relation.ReflTransGen h.Holds i j

theorem Survives.step {x : Stake} (hi : h.Survives x i) (hij : h.Holds i j) : h.Survives x j :=
  let ⟨r, hr, hri⟩ := hi
  ⟨r, hr, hri.tail hij⟩

theorem survives_of_holders {x : Stake} (hi : 0 < x.holders i) : h.Survives x i :=
  ⟨i, .inl hi, .refl⟩

theorem survives_of_cycle {x : Stake} (hi : Relation.TransGen h.Holds i i) : h.Survives x i :=
  ⟨i, .inr hi, .refl⟩

/-- What survives is held by the stake or by what survives. -/
theorem supports_survives (h : Heap) (x : Stake) : Supports x h (h.Survives x) := by
  rintro j ⟨i, hi, hij⟩
  rcases hij.cases_tail with rfl | ⟨g, hig, o, ho, hv⟩
  · rcases hi with held | cycle
    · exact .inl held
    · -- the last container on the way around the cycle
      obtain ⟨g, hjg, o, ho, hv⟩ := Relation.TransGen.tail'_iff.1 cycle
      exact .inr ⟨g, o, ⟨j, .inr cycle, hjg⟩, ho, hv⟩
  · exact .inr ⟨g, o, ⟨i, hi, hig⟩, ho, hv⟩

theorem holders_refs_pos_iff : 0 < (Stake.refs refs).holders i ↔ ∃ v ∈ refs, v.handle? = some i := by
  simp [Stake.holders_pos_iff]

theorem retained_iff_survives : h.Retained refs i ↔ h.Survives (.refs refs) i := by
  simp only [Retained, Survives, holders_refs_pos_iff]

/-- Containers of which every one is held by another cannot all be off cycles. -/
theorem exists_cycle_of_held {S : Set Handle} (hfinite : S.Finite) (hi : i ∈ S)
    (held : ∀ j ∈ S, ∃ g ∈ S, h.Holds g j) : ∃ g ∈ S, Relation.TransGen h.Holds g g := by
  by_contra! acyclic
  -- being held is then a well-founded order on `S`, which has no least element
  have : Finite S := hfinite
  let Above : S → S → Prop := fun a b => Relation.TransGen h.Holds a b
  have : IsTrans S Above := ⟨fun _ _ _ => Relation.TransGen.trans⟩
  have : Std.Irrefl Above := ⟨fun a => acyclic a a.2⟩
  have wf : WellFounded Above := Finite.wellFounded_of_trans_of_irrefl Above
  refine wf.induction (C := fun _ => False) ⟨i, hi⟩ fun b ih => ?_
  obtain ⟨g, hg, hgb⟩ := held b b.2
  exact ih ⟨g, hg⟩ (.single hgb)

end Heap

namespace Memory

variable {total : Option ℕ} {σ : ℕ → Label} {x : Stake} {m m₀ : Memory} {h : Heap}
  {refs : List Value} {i : Handle}

theorem Balanced.survives_of_live (hb : m.Balanced total σ x) (sheds : h.Sheds m.heap)
    (hi : m.heap.cell? i ≠ none) : h.Survives x i := by
  by_contra unheld
  -- the containers that have remained although neither the stake nor a cycle leads to them
  let S : Set Handle := { j | m.heap.cell? j ≠ none ∧ ¬ h.Survives x j }
  have finite : S.Finite := by
    refine (Set.finite_lt_nat m.heap.cells.size).subset fun j hj => ?_
    obtain ⟨c, hc⟩ := Option.ne_none_iff_exists'.1 hj.1
    exact Heap.lt_size_of_cell? hc
  have held (j : Handle) (hjS : j ∈ S) : ∃ g ∈ S, h.Holds g j := by
    obtain ⟨hj, hnot⟩ := hjS
    obtain ⟨c, hc⟩ := Option.ne_none_iff_exists'.1 hj
    have pos := hb.positive j c hc
    have outside : x.holders j = 0 := Nat.eq_zero_of_not_pos fun hx =>
      hnot (Heap.survives_of_holders hx)
    rw [← Heap.countAt_of_cell? hc, hb.holders, Stake.holders_add, outside, zero_add,
      Stake.holders_pos_iff] at pos
    obtain ⟨v, hv, hvj⟩ := pos.resolve_right (by simp)
    obtain ⟨g, o, ho, hvo⟩ := Heap.mem_values_stake.1 hv
    have holds : h.Holds g j := ⟨o, sheds.object?_eq ho, v, hvo, hvj⟩
    obtain ⟨d, hd, -⟩ := Heap.exists_cell_of_object? ho
    exact ⟨g, ⟨by simp [hd], fun hg => hnot (hg.step holds)⟩, holds⟩
  obtain ⟨g, hg, cycle⟩ := Heap.exists_cycle_of_held finite ⟨hi, unheld⟩ held
  exact hg.2 (Heap.survives_of_cycle cycle)

theorem Balanced.live_of_survives (hb : m.Balanced total σ x) (loses : m₀.Loses x m)
    (hi : m₀.heap.Survives x i) : ∃ c, m.heap.cell? i = some c := by
  have supports := loses.keeps.supports (Heap.supports_survives m₀.heap x)
  refine hb.exists_cell_of_holders ?_
  rw [Stake.holders_add]
  rcases supports i hi with hpos | ⟨g, o, -, ho, v, hv, hvi⟩
  · exact Nat.add_pos_left hpos _
  · exact Nat.add_pos_right _ (Heap.holders_stake_pos ho hv hvi)

/-- What is live after references have been given up is what survives that. -/
theorem Balanced.live_iff_survives (hb : m.Balanced total σ x) (loses : m₀.Loses x m) :
    (∃ c, m.heap.cell? i = some c) ↔ m₀.heap.Survives x i :=
  ⟨fun ⟨_, hc⟩ => hb.survives_of_live loses.sheds (by simp [hc]), hb.live_of_survives loses⟩

/-- **What remains** when all references but some have been given up: the objects that are retained,
as they were. -/
theorem Balanced.object?_eq_some_iff {o : Object} (hp : m₀.heap.Present)
    (hb : m.Balanced total σ (.refs refs)) (loses : m₀.Loses (.refs refs) m) :
    m.heap.object? i = some o ↔ m₀.heap.Retained refs i ∧ m₀.heap.object? i = some o := by
  rw [Heap.retained_iff_survives, ← hb.live_iff_survives loses]
  constructor
  · intro ho
    obtain ⟨c, hc, -⟩ := Heap.exists_cell_of_object? ho
    exact ⟨⟨c, hc⟩, loses.sheds.object?_eq ho⟩
  · rintro ⟨⟨c, hc⟩, ho⟩
    obtain ⟨o', ho'⟩ := (hp.sheds loses.sheds).exists_object hc
    rw [ho', ← loses.sheds.object?_eq ho', ho]

end Memory

end StackScript
