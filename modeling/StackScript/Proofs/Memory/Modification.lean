import StackScript.Proofs.Memory.Allocation

/-!
# Modifying containers in place

While an object is checked out, what it holds is part of the stake of the memory and its cell is
empty-handed.  The cell is there when the object comes back if something else than the object
itself holds it: the container is *anchored* (`Heap.Anchored`).  A container held by nothing but
containers nobody can reach need not be.

* `Memory.modifyObject_meets`: a modification that keeps the label of the object;
* `Memory.setItem_meets` and `Memory.define_meets`: the two there are.
-/

namespace StackScript

open Memory (onLedger onHeap retain release)

namespace Heap

variable {h : Heap} {x : Stake} {i : ℕ} {c : Cell} {o : Object}

/-- Held, directly or not, without the help of the container itself. -/
def Anchored (h : Heap) (x : Stake) (i : ℕ) : Prop :=
  ∃ S : ℕ → Prop, S i ∧ ∀ j, S j → 0 < x.holders j ∨
    ∃ g o, g ≠ i ∧ S g ∧ h.object? g = some o ∧ ∃ v ∈ o.values, v.handle? = some j

theorem anchored_of_holders (hi : 0 < x.holders i) : h.Anchored x i :=
  ⟨fun j => 0 < x.holders j, hi, fun _ => .inl⟩

/-- The heap while the object of a cell is checked out. -/
def lent (h : Heap) (i : ℕ) (c : Cell) : Heap := h.setCell i (some { c with object := none })

theorem content?_lent (hc : h.cell? i = some c) (j : ℕ) :
    (h.lent i c).content? j = if j = i then some none else h.content? j := by
  split
  · rename_i hj
    rw [hj, lent, content?, cell?_setCell_self (lt_size_of_cell? hc)]
    rfl
  · rename_i hj
    exact content?_setCell_ne (Ne.symm hj) _

theorem outSupported_lent (hp : h.Present) (hc : h.cell? i = some c) (ha : h.Anchored x i) :
    OutSupported x (h.lent i c) := by
  intro j hj
  rw [content?_lent hc] at hj
  split at hj
  · rename_i hji
    subst hji
    obtain ⟨S, hS, hsupport⟩ := ha
    refine ⟨S, fun k hk => (hsupport k hk).imp_right ?_, hS⟩
    rintro ⟨g, o, hg, hSg, ho, hv⟩
    refine ⟨g, o, hSg, ?_, hv⟩
    rw [object?_eq_join, content?_lent hc, if_neg hg, ← object?_eq_join, ho]
  · exact absurd hj (hp j)

end Heap

namespace Memory

variable {total : Option ℕ} {σ : ℕ → Label} {x : Stake} {m m' m₁ : Memory} {lax : Prop} {i : ℕ}
  {c : Cell} {o : Object}

/-- Another object in a cell, or none: what the heap holds less is in the stake. -/
theorem Balanced.replaceObject {y : Stake} (hb : m.Balanced total σ x)
    (hc : m.heap.cell? i = some c) {object : Option Object}
    (sum : y + (m.heap.setCell i (some { c with object := object })).stake = x + m.heap.stake)
    (hlocals : y.locals = x.locals) (ho : ∀ o, object = some o → o.Bears (σ i)) :
    Memory.Balanced total σ y
      { m with heap := m.heap.setCell i (some { c with object := object }) } := by
  have hi := Heap.lt_size_of_cell? hc
  set h' := m.heap.setCell i (some { c with object := object }) with hh'
  have counts (j : ℕ) : h'.countAt j = m.heap.countAt j := by
    rw [hh', Heap.countAt_setCell hi]
    split
    · rename_i hj
      rw [hj, Heap.countAt_of_cell? hc]
      rfl
    · rfl
  have cells (j : ℕ) (d : Cell) (hd : h'.cell? j = some d) :
      (j = i ∧ d = { c with object := object }) ∨ m.heap.cell? j = some d := by
    by_cases hj : j = i
    · rw [hj, hh', Heap.cell?_setCell_self hi] at hd
      exact .inl ⟨hj, (Option.some.inj hd).symm⟩
    · rw [hh', Heap.cell?_setCell_ne (Ne.symm hj)] at hd
      exact .inr hd
  constructor
  · intro j
    rw [sum, ← hb.holders]
    exact counts j
  · intro t
    rw [sum]
    exact hb.mentions t
  · intro a
    rw [sum]
    exact hb.units a
  · intro j d hd
    rcases cells j d hd with ⟨-, rfl⟩ | hd
    · exact hb.positive i c hc
    · exact hb.positive j d hd
  · intro j o' ho'
    obtain ⟨d, hd, hdo⟩ := Heap.exists_cell_of_object? ho'
    rcases cells j d hd with ⟨rfl, rfl⟩ | hd
    · exact ho o' hdo
    · exact hb.labelled j o' ((Heap.object?_of_cell? hd).trans hdo)
  · rw [sum]
    exact hb.kinds
  · intro j hj
    obtain ⟨hlabel, hone⟩ := hb.locals j (hlocals ▸ hj)
    exact ⟨hlabel, (counts j).trans hone⟩
  · exact hb.heap.setCell_some hc _
  · exact hb.exact
  · exact hb.tabled
  · refine hb.trailed.congr rfl fun j => ?_
    by_cases hj : i = j
    · subst hj
      simp [hh', Heap.cell?_setCell_self hi, hc]
    · rw [hh', Heap.cell?_setCell_ne hj]

/-- Checking an object out moves what it holds from the heap to the stake. -/
theorem stake_lent (hc : m.heap.cell? i = some c) (ho : c.object = some o) :
    x + o.stake + (m.heap.lent i c).stake = x + m.heap.stake := by
  have key := Heap.stake_setCell (Heap.lt_size_of_cell? hc) (some { c with object := none })
  rw [hc] at key
  simp only [Option.elim_some, Cell.stake, ho, Option.elim_none, add_zero] at key
  rw [← key, Heap.lent]
  abel

theorem Balanced.lent (hb : m.Balanced total σ x) (hc : m.heap.cell? i = some c)
    (ho : c.object = some o) :
    Memory.Balanced total σ (x + o.stake) { m with heap := m.heap.lent i c } :=
  hb.replaceObject hc (stake_lent hc ho) (by simp) (fun o ho => by cases ho)

/-- Checking an object in moves what it holds from the stake to the heap. -/
theorem Balanced.returned (hb : m.Balanced total σ (x + o.stake)) (hc : m.heap.cell? i = some c)
    (hc' : c.object = none) (ho : o.Bears (σ i)) :
    Memory.Balanced total σ x
      { m with heap := m.heap.setCell i (some { c with object := some o }) } := by
  refine hb.replaceObject hc ?_ (by simp) fun o' ho' => ?_
  · have key := Heap.stake_setCell (Heap.lt_size_of_cell? hc) (some { c with object := some o })
    rw [hc] at key
    simp only [Option.elim_some, Cell.stake, hc', Option.elim_none, add_zero] at key
    rw [key]
    abel
  · obtain rfl := Option.some.inj ho'
    exact ho

/-- Nothing is created, and what is held stays as it is, but for one container. -/
structure Alters (x : Stake) (i : ℕ) (m m' : Memory) : Prop where
  lives : ∀ j, m'.heap.cell? j ≠ none → m.heap.cell? j ≠ none
  keeps : ∀ j, j ≠ i → 0 < x.holders j → m'.heap.content? j = m.heap.content? j

/-- What a modification in place leaves. -/
structure Modified (total : Option ℕ) (σ : ℕ → Label) (x : Stake) (m : Memory) (i : ℕ)
    (o : Object) (m' : Memory) : Prop where
  balanced : m'.Balanced total σ x
  present : m'.heap.Present
  alters : m.Alters x i m'
  object : m'.heap.object? i = some o

/-- An anchored container stays while its object is checked out. -/
theorem Loses.cell?_of_anchored (loses : Memory.Loses x { m with heap := m.heap.lent i c } m₁)
    (hp : m.heap.Present) (hc : m.heap.cell? i = some c) (ha : m.heap.Anchored x i) :
    m₁.heap.cell? i ≠ none := by
  intro hnone
  have out : (m.heap.lent i c).content? i = some none := by
    rw [Heap.content?_lent hc, if_pos rfl]
  obtain ⟨S, hS, hi⟩ := Heap.outSupported_lent hp hc ha i out
  have kept := loses.keeps S hS i hi
  rw [Heap.content?_eq_none_iff.2 hnone, out] at kept
  cases kept

/-- An object goes back to its cell. -/
theorem Balanced.modified {c₁ : Cell} {o' : Object} (hb : m₁.Balanced total σ (x + o'.stake))
    (hp : m.heap.Present) (hc : m.heap.cell? i = some c) (hc₁ : m₁.heap.cell? i = some c₁)
    (hobject : c₁.object = none) (ho : o'.Bears (σ i))
    (loses : Memory.Loses x { m with heap := m.heap.lent i c } m₁) :
    Modified total σ x m i o'
      { m₁ with heap := m₁.heap.setCell i (some { c₁ with object := some o' }) } := by
  have hi₁ := Heap.lt_size_of_cell? hc₁
  have sheds (j : ℕ) (hji : i ≠ j) :
      m₁.heap.content? j = none ∨ m₁.heap.content? j = m.heap.content? j := by
    have := loses.sheds j
    rwa [Heap.content?_lent hc, if_neg (Ne.symm hji)] at this
  refine ⟨hb.returned hc₁ hobject ho, fun j hj => ?_, ⟨fun j hj => ?_, fun j hj hheld => ?_⟩, ?_⟩
  · by_cases hji : i = j
    · subst hji
      rw [Heap.content?, Heap.cell?_setCell_self hi₁] at hj
      cases hj
    · rw [Heap.content?_setCell_ne hji] at hj
      rcases sheds j hji with h | h
      · rw [h] at hj
        cases hj
      · exact hp j (h.symm.trans hj)
  · by_cases hji : i = j
    · subst hji
      rw [hc]
      exact Option.some_ne_none c
    · rw [Heap.cell?_setCell_ne hji] at hj
      rcases sheds j hji with h | h
      · exact absurd (Heap.content?_eq_none_iff.1 h) hj
      · intro hnone
        rw [Heap.content?_eq_none_iff.2 hnone] at h
        exact hj (Heap.content?_eq_none_iff.1 h)
  · have kept := loses.keeps _ (Heap.supports_holders x _) j hheld
    rw [Heap.content?_setCell_ne (Ne.symm hj), kept]
    exact (Heap.content?_lent hc j).trans (if_neg hj)
  · rw [Heap.object?, Heap.cell?_setCell_self hi₁]
    rfl

/-- Checking in after `f` has done its work. -/
theorem checkIn_meets {F : Memory → Prop} {o' : Object} (hp : m.heap.Present)
    (hc : m.heap.cell? i = some c) (ha : lax ∨ m.heap.Anchored x i)
    (hb : m₁.Balanced total σ (x + o'.stake)) (ho : o'.Bears (σ i))
    (loses : Memory.Loses x { m with heap := m.heap.lent i c } m₁) :
    (onHeap (Heap.checkIn i o') m₁).Meets lax (fun _ m' => Modified total σ x m i o' m') F := by
  refine Action.meets_zoom ?_
  cases hc₁ : m₁.heap.cell? i with
  | none =>
    rw [Heap.checkIn, hc₁]
    exact ha.resolve_right fun ha => loses.cell?_of_anchored hp hc ha hc₁
  | some c₁ =>
    have hobject : c₁.object = none := by
      have sheds := loses.sheds i
      rw [Heap.content?_lent hc, if_pos rfl, Heap.content?_of_cell? hc₁] at sheds
      simpa using sheds
    rw [Heap.checkIn, hc₁]
    dsimp only
    rw [hobject]
    exact hb.modified hp hc hc₁ hobject ho loses

theorem checkOut_eq (hc : m.heap.cell? i = some c) (ho : c.object = some o) :
    onHeap (Heap.checkOut i) m = .done o { m with heap := m.heap.lent i c } := by
  simp [onHeap, Action.zoom, Heap.checkOut, hc, ho, Heap.lent]

/-- Either the object is checked out, or there is none. -/
theorem checkOut_cases (i : ℕ) (m : Memory) : (∃ b, onHeap (Heap.checkOut i) m = .broken b) ∨
    ∃ c o, m.heap.cell? i = some c ∧ c.object = some o ∧
      onHeap (Heap.checkOut i) m = .done o { m with heap := m.heap.lent i c } := by
  cases hc : m.heap.cell? i with
  | none =>
    refine .inl ⟨.dangling i, ?_⟩
    rw [onHeap, Action.zoom, Heap.checkOut, hc]
  | some c =>
    cases hco : c.object with
    | none =>
      refine .inl ⟨.alreadyCheckedOut i, ?_⟩
      rw [onHeap, Action.zoom, Heap.checkOut, hc]
      dsimp only
      rw [hco]
    | some o => exact .inr ⟨c, o, rfl, hco, checkOut_eq hc hco⟩

/-- **Modifying a container in place.**  If the modification fails the object goes back as it
was. -/
theorem modifyObject_meets {f : Object → Action Memory Object} {P : Object → Prop}
    (hb : m.Balanced total σ x) (hp : m.heap.Present) (ho : m.heap.object? i = some o)
    (ha : lax ∨ m.heap.Anchored x i)
    (hf : ∀ m₁ : Memory, m₁.Balanced total σ (x + o.stake) →
      x + o.stake + m₁.heap.stake = x + m.heap.stake → (lax ∨ Heap.OutSupported x m₁.heap) →
      (f o m₁).Meets lax
        (fun o' m₂ => ((∀ l, o.Bears l → o'.Bears l) ∧ P o') ∧ m₂.Balanced total σ (x + o'.stake) ∧
          m₁.Loses x m₂)
        fun m₂ => m₂.Balanced total σ (x + o.stake) ∧ m₁.Loses x m₂) :
    (modifyObject i f m).Meets lax (fun _ m' => ∃ o', P o' ∧ Modified total σ x m i o' m')
      fun m' => Modified total σ x m i o m' := by
  obtain ⟨c, hc, hco⟩ := Heap.exists_cell_of_object? ho
  have label := hb.labelled i o ho
  have step := hf { m with heap := m.heap.lent i c } (hb.lent hc hco) (stake_lent hc hco)
    (ha.imp_right (Heap.outSupported_lent hp hc))
  rw [modifyObject, Action.bind_done (checkOut_eq hc hco)]
  refine Action.meets_bind (Action.meets_onRaise step ?_) ?_
  · rintro m₁ ⟨hb₁, loses⟩
    exact checkIn_meets hp hc ha hb₁ label loses
  · rintro o' m₁ ⟨⟨hlabel, hpost⟩, hb₁, loses⟩
    refine (checkIn_meets (F := fun _ => False) hp hc ha hb₁ (hlabel _ label) loses).mono
      ?_ fun _ h => h.elim
    exact fun _ m' h => ⟨o', hpost, h⟩

end Memory

/-! ### Arrays -/

namespace Memory

variable {total : Option ℕ} {σ : ℕ → Label} {x : Stake} {m : Memory} {lax : Prop} {i : ℕ}

theorem setItem_meets {s : Sequence} {index : ℕ} {v : Value} (hb : m.Balanced total σ x)
    (hp : m.heap.Present) (ho : m.heap.object? i = some (.array s))
    (ha : lax ∨ m.heap.Anchored x i) (hv : (x + m.heap.stake).Knows v) :
    (setItem i index v m).Meets lax
      (fun _ m' => Modified total σ x m i (.array (s.replace index v)) m')
      fun m' => Modified total σ x m i (.array s) m' := by
  refine (modifyObject_meets (P := fun o' => o' = .array (s.replace index v)) hb hp ho ha
    fun m₁ hb₁ sum hout => ?_).mono ?_ fun _ => id
  · rw [← sum] at hv
    refine Action.meets_bind ((Sequence.set_meets (s := s) hb₁ hv hout).mono (fun _ _ => id) ?_) ?_
    · rintro _ rfl
      exact ⟨hb₁, .refl x _⟩
    · rintro s' m₂ ⟨rfl, hb₂, loses⟩
      exact ⟨⟨fun _ h => h.replace index v, rfl⟩, hb₂, loses⟩
  · rintro _ m' ⟨_, rfl, h⟩
    exact h

end Memory

/-! ### Dictionaries -/

namespace Dictionary

variable {d : Dictionary} {name : String} {v previous : Value}

/-- A bound name keeps its entry. -/
theorem stake_put_of_bound (h : d.get? name = some previous) (v : Value) :
    Object.stake (.dictionary d) + .refs [v] =
      Object.stake (.dictionary { d with entries := d.entries.put name v }) + .refs [previous] := by
  obtain ⟨l, r, hl, hput, -, -⟩ := TextMap.exists_split h
  have units : Object.units (.dictionary { d with entries := d.entries.put name v }) =
      Object.units (.dictionary d) := by
    simp only [Object.units, hput]
    simp [hl]
  rw [Object.stake, Object.stake, units]
  simp only [Object.account, Object.values, values, hput]
  simp only [hl, List.map_append, List.map_cons, Stake.refs_append]
  rw [Stake.refs_cons previous, Stake.refs_cons v (r.map Prod.snd)]
  abel

/-- A new name gets an entry, which is charged for. -/
theorem stake_put_of_unbound (h : d.get? name = none) (v : Value) :
    Object.stake (.dictionary { d with entries := d.entries.put name v }) =
      Object.stake (.dictionary d) + .charged d.account (entrySize name).units + .refs [v] := by
  have hput := TextMap.put_of_unbound h v
  simp only [Object.stake, Object.account, Object.units, Object.values, values, hput,
    List.map_append, List.map_cons, List.map_nil, List.sum_append, List.sum_cons, List.sum_nil,
    Stake.refs_append, add_zero, ← add_assoc, Stake.charged_add]
  abel

variable {total : Option ℕ} {σ : ℕ → Label} {x : Stake} {m : Memory} {lax : Prop}

theorem define_meets (hb : m.Balanced total σ (x + Object.stake (.dictionary d)))
    (hv : (x + Object.stake (.dictionary d) + m.heap.stake).Knows v)
    (hout : lax ∨ Heap.OutSupported x m.heap) :
    (d.define name v m).Meets lax
      (fun d' m' => d' = { d with entries := d.entries.put name v } ∧
        Memory.Balanced total σ (x + Object.stake (.dictionary d')) m' ∧ m.Loses x m')
      fun m' => Memory.Released total σ (x + Object.stake (.dictionary d)) m m' := by
  cases hget : d.get? name with
  | some previous =>
    rw [define, hget]
    refine Action.meets_bind ((Memory.retain_meets hb hv).mono (fun _ _ => id) ?_) ?_
    · rintro _ ⟨rfl, -⟩
      exact ⟨hb, .refl _ _⟩
    rintro _ m₁ ⟨hb₁, same⟩
    rw [add_assoc, stake_put_of_bound hget, ← add_assoc] at hb₁
    refine Action.meets_bind ((Memory.release_meets hb₁ ?_).mono (fun _ _ => id)
      fun _ h => h.elim) ?_
    · exact ((same.loses x).outSupported hout).imp_right fun hout => hout.add_right _
    · rintro _ m₂ ⟨hb₂, loses⟩
      exact ⟨rfl, hb₂, (same.loses x).trans loses.of_add_right⟩
  | none =>
    rw [define, hget]
    refine Action.meets_bind ((Memory.charge_meets hb (Size.cost_eq_min _)).mono (fun _ _ => id) ?_)
      ?_
    · rintro _ rfl
      exact ⟨hb, .refl _ _⟩
    rintro _ m₁ ⟨hb₁, same⟩
    refine Action.meets_bind (Action.meets_onRaise (Memory.retain_meets hb₁ ?_) ?_) ?_
    · rw [same.stake, add_right_comm]
      exact hv.add_right _
    · -- the value is refused, so the entry is not needed
      rintro _ ⟨rfl, -⟩
      refine (Memory.discharge_meets hb₁ (Size.cost_eq_min _)).always ?_
      exact fun _ m₂ ⟨hb₂, same₂⟩ => ⟨hb₂, (same.trans same₂).loses _⟩
    · rintro _ m₂ ⟨hb₂, same₂⟩
      rw [add_assoc, add_assoc, ← add_assoc (Object.stake _), ← stake_put_of_unbound hget] at hb₂
      exact ⟨rfl, hb₂, (same.trans same₂).loses x⟩

end Dictionary

namespace Memory

variable {total : Option ℕ} {σ : ℕ → Label} {x : Stake} {m : Memory} {lax : Prop} {i : ℕ}

theorem define_meets {d : Dictionary} {name : String} {v : Value} (hb : m.Balanced total σ x)
    (hp : m.heap.Present) (ho : m.heap.object? i = some (.dictionary d))
    (ha : lax ∨ m.heap.Anchored x i) (hv : (x + m.heap.stake).Knows v) :
    (define i name v m).Meets lax
      (fun _ m' => Modified total σ x m i
        (.dictionary { d with entries := d.entries.put name v }) m')
      fun m' => Modified total σ x m i (.dictionary d) m' := by
  refine (modifyObject_meets
    (P := fun o' => o' = .dictionary { d with entries := d.entries.put name v }) hb hp ho ha
    fun m₁ hb₁ sum hout => ?_).mono ?_ fun _ => id
  · rw [← sum] at hv
    refine Action.meets_bind ((Dictionary.define_meets hb₁ hv hout).mono (fun _ _ => id) ?_) ?_
    · exact fun _ ⟨hb₂, loses⟩ => ⟨hb₂, loses.of_add_right⟩
    · rintro d' m₂ ⟨rfl, hb₂, loses⟩
      exact ⟨⟨fun _ h => h.dictionary _, rfl⟩, hb₂, loses⟩
  · rintro _ m' ⟨_, rfl, h⟩
    exact h

end Memory

end StackScript
