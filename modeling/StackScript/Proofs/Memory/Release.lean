import StackScript.Proofs.Memory.Balance

/-!
# Giving references up

Giving up the last reference to a container empties its cell, gives its charge back and goes on with
what it held.  The values still to be given up are a stake like any other, so each step of the
cascade leaves a balanced memory (`Memory.giveUp_meets`), and every step lowers the references and
values in the heap together with those still to be given up, so the fuel of `Memory.release` is
always enough (`Memory.giveUpAll_meets`).

What a rest of the stake supports is never disposed of: a container goes with a reference that is
the only one to it, which is then neither in that rest nor in any object.
-/

namespace StackScript

namespace Ledger

variable {total : Option ℕ} {l : Ledger}

theorem releaseEntries_eq (h : l.Exact total) (a : Account) (entries : TextMap Value)
    (hn : (entries.map fun e => (Dictionary.entrySize e.1).units).sum ≤ l.held a) :
    (entries.forM fun e => release (Dictionary.entrySize e.1) a) l =
      .done () (l.takeBack (entries.map fun e => (Dictionary.entrySize e.1).units).sum a) := by
  induction entries generalizing l with
  | nil => cases a <;> rfl
  | cons e rest ih =>
    simp only [List.map_cons, List.sum_cons] at hn ⊢
    have fits : (Dictionary.entrySize e.1).units ≤ l.held a := by omega
    have first := release_eq h (Size.cost_eq_min (Dictionary.entrySize e.1)) fits
    have others := ih (h.takeBack fits) (by rw [held_takeBack, if_pos rfl]; omega)
    rw [takeBack_takeBack] at others
    exact (Action.bind_done first _).trans others

/-- The charge of an object that is accounted for can be given back. -/
theorem giveBack_eq (h : l.Exact total) (o : Object) (hn : o.units ≤ l.held o.account) :
    Memory.giveBack o l = .done () (l.takeBack o.units o.account) := by
  cases o with
  | array s => exact release_eq h (Size.cost_times ..) hn
  | dictionary d =>
    simp only [Object.units, Object.account] at hn ⊢
    have fits : (d.entries.map fun e => (Dictionary.entrySize e.1).units).sum ≤
        l.held d.account := by omega
    rw [Memory.giveBack, Action.bind_done (releaseEntries_eq h d.account d.entries fits),
      release_eq (h.takeBack fits) (Size.cost_eq_min _), takeBack_takeBack, Nat.add_comm]
    rw [held_takeBack, if_pos rfl]
    omega

end Ledger

namespace Memory

variable {total : Option ℕ} {σ : ℕ → Label} {x : Stake} {m : Memory} {v : Value} {lax : Prop}

/-- The memory after the cell of an object is emptied, its trail forgotten and its charge given
back. -/
def disposed (m : Memory) (i : ℕ) (o : Object) : Memory where
  ledger := m.ledger.takeBack o.units o.account
  heap := m.heap.freed i
  trails := m.trails.map (·.forget i)

variable {i : ℕ} {c : Cell} {o : Object}

/-- The reference given up is the only one: no other is in the stake or in the heap. -/
theorem Balanced.holders_of_last (hb : m.Balanced total σ (x + .refs [v])) (hv : v.handle? = some i)
    (hc : m.heap.cell? i = some c) (hlast : ¬ 1 < c.count) :
    x.holders i = 0 ∧ m.heap.stake.holders i = 0 := by
  have key := hb.holders i
  rw [Heap.countAt_of_cell? hc, Stake.holders_add, Stake.holders_add, Stake.holders_ref,
    if_pos hv] at key
  omega

/-- Nothing the rest of the stake supports goes with the last reference to a container. -/
theorem Balanced.not_supported_of_last (hb : m.Balanced total σ (x + .refs [v]))
    (hv : v.handle? = some i) (hc : m.heap.cell? i = some c) (hlast : ¬ 1 < c.count)
    {S : ℕ → Prop} (hS : Heap.Supports x m.heap S) : ¬ S i := by
  intro hi
  obtain ⟨hx, hheap⟩ := hb.holders_of_last hv hc hlast
  rcases hS i hi with hpos | ⟨g, o, -, ho, w, hw, hwi⟩
  · omega
  · exact (Heap.holders_stake_pos ho hw hwi).ne' hheap

theorem stake_freed (hc : m.heap.cell? i = some c) (ho : c.object = some o) :
    (m.heap.freed i).stake + o.stake = m.heap.stake := by
  have key := Heap.stake_setCell (Heap.lt_size_of_cell? hc) none
  rw [hc] at key
  simp only [Option.elim, Cell.stake, ho, add_zero] at key
  exact key

/-- The account has what is given back for an object. -/
theorem Balanced.units_le_held (hb : m.Balanced total σ x) (hc : m.heap.cell? i = some c)
    (ho : c.object = some o) : o.units ≤ m.ledger.held o.account := by
  have key := hb.units o.account
  rw [← stake_freed hc ho] at key
  simp only [Stake.units_add, Pi.add_apply, Object.units_stake, if_true] at key
  omega

theorem Balanced.disposed (hb : m.Balanced total σ (x + .refs [v])) (hv : v.handle? = some i)
    (hs : v.string? = none) (hc : m.heap.cell? i = some c) (hlast : ¬ 1 < c.count)
    (ho : c.object = some o) :
    (m.disposed i o).Balanced total σ (x + .refs o.values) := by
  have hi := Heap.lt_size_of_cell? hc
  have stake := stake_freed hc ho
  obtain ⟨hx, hheap⟩ := hb.holders_of_last hv hc hlast
  -- the object's share of the heap becomes values to be given up and a charge given back
  have sum : x + .refs [v] + m.heap.stake =
      x + .refs o.values + (m.heap.freed i).stake + .refs [v] + .charged o.account o.units := by
    rw [← stake, Object.stake]
    abel
  constructor
  · intro j
    rw [Memory.disposed, Heap.countAt_freed hi]
    have key := hb.holders j
    rw [sum, Stake.holders_add, Stake.holders_charged, Stake.holders_add, Stake.holders_ref,
      hv] at key
    by_cases hj : j = i
    · subst hj
      have one := hb.positive j c hc
      rw [Heap.countAt_of_cell? hc] at key
      simp only [if_true] at key ⊢
      omega
    · rw [if_neg hj]
      rw [if_neg (by simpa using Ne.symm hj)] at key
      exact key
  · intro t
    have key := hb.mentions t
    rw [sum, Stake.mentions_add, Stake.mentions_charged, Stake.mentions_add, Stake.mentions_ref,
      hs] at key
    simpa [Memory.disposed, Ledger.references] using key
  · intro a
    have key := hb.units a
    rw [sum] at key
    simp only [Memory.disposed, Ledger.held_takeBack]
    simp only [Stake.units_add, Stake.units_refs, Pi.add_apply, Stake.units_charged, add_zero,
      Ledger.textShare, Ledger.textUnits, Ledger.strings_takeBack] at key ⊢
    omega
  · intro j c' hc'
    rw [Memory.disposed, Heap.cell?_freed hi] at hc'
    split at hc'
    · cases hc'
    · exact hb.positive j c' hc'
  · intro j o' ho'
    refine hb.labelled j o' ?_
    rw [Heap.object?, Memory.disposed, Heap.cell?_freed hi] at ho'
    split at ho'
    · cases ho'
    · exact ho'
  · intro w hw
    refine hb.kinds w ?_
    rw [sum]
    exact Multiset.mem_add.2 (.inl (Multiset.mem_add.2 (.inl hw)))
  · intro j hj
    rw [Stake.locals_add, Stake.locals_refs, add_zero] at hj
    obtain ⟨hlabel, hone⟩ := hb.locals j (by simpa using hj)
    refine ⟨hlabel, ?_⟩
    rw [Memory.disposed, Heap.countAt_freed hi, if_neg, hone]
    rintro rfl
    exact (Stake.holders_pos_of_local hj).ne' hx
  · exact hb.heap.freed hc
  · exact hb.exact.takeBack (hb.units_le_held hc ho)
  · obtain ⟨nodup, positive⟩ := hb.tabled
    constructor
    · simpa [Memory.disposed] using nodup
    · simpa [Memory.disposed] using positive
  · intro l hl
    obtain ⟨l, recorded, rfl⟩ := Option.map_eq_some_iff.1 hl
    exact (hb.trailed l recorded).forget (Heap.cell?_freed hi)

/-! ### One step and a whole cascade -/

/-- References are given up, none of them from the stake. -/
structure Loses (x : Stake) (m m' : Memory) : Prop where
  sheds : m.heap.Sheds m'.heap
  keeps : Heap.Keeps x m.heap m'.heap

theorem Loses.refl (x : Stake) (m : Memory) : m.Loses x m := ⟨.refl _, .refl x _⟩

theorem Loses.trans {m₁ m₂ m₃ : Memory} (h : m₁.Loses x m₂) (h' : m₂.Loses x m₃) :
    m₁.Loses x m₃ :=
  ⟨h.sheds.trans h'.sheds, h.keeps.trans h'.keeps⟩

theorem Loses.of_add_right {y : Stake} {m' : Memory} (h : m.Loses (x + y) m') : m.Loses x m' :=
  ⟨h.sheds, h.keeps.of_add_right⟩

theorem SameObjects.loses {m' : Memory} (h : m.SameObjects m') (x : Stake) : m.Loses x m' :=
  ⟨h.sheds, h.keeps x⟩

theorem Loses.outSupported {m' : Memory} (h : m.Loses x m')
    (hout : lax ∨ Heap.OutSupported x m.heap) : lax ∨ Heap.OutSupported x m'.heap :=
  hout.imp_right fun hout => hout.sheds h.sheds h.keeps

theorem weight_freed (hc : m.heap.cell? i = some c) (ho : c.object = some o) :
    (m.heap.freed i).weight + (c.count + o.values.length) = m.heap.weight := by
  have key := Heap.weight_setCell (Heap.lt_size_of_cell? hc) none
  rw [hc] at key
  simp only [Heap.cellWeight, Option.elim, ho, add_zero] at key
  exact key

/-- What giving up one reference leaves: the values freed take its place in the stake. -/
def GivenUp (total : Option ℕ) (σ : ℕ → Label) (x : Stake) (m : Memory) (freed : List Value)
    (m' : Memory) : Prop :=
  m'.Balanced total σ (x + .refs freed) ∧ m.Loses x m' ∧
    m'.heap.weight + freed.length ≤ m.heap.weight

/-- The container stays when there are other references to it. -/
theorem Balanced.givenUp_of_more (hb : m.Balanced total σ (x + .refs [v]))
    (hv : v.handle? = some i) (hs : v.string? = none) (hc : m.heap.cell? i = some c)
    (hmore : 1 < c.count) : GivenUp total σ x m []
      { m with heap := m.heap.setCell i (some { c with count := c.count - 1 }) } := by
  have hi := Heap.lt_size_of_cell? hc
  set c' : Cell := { c with count := c.count - 1 } with hc'
  have same : m.SameObjects { m with heap := m.heap.setCell i (some c') } :=
    ⟨Heap.content?_setCell_of_object hc rfl, Heap.stake_setCell_of_object hc rfl, rfl⟩
  refine ⟨?_, same.loses x, ?_⟩
  · rw [Stake.refs_nil, add_zero]
    refine hb.drop_ref same (fun j => ?_) (fun t => ?_) (fun j d hd => ?_)
      (hb.heap.setCell_some hc c') hb.retabled_refl
    · have counted := Heap.countAt_of_cell? hc
      rw [Heap.countAt_setCell hi, Stake.holders_ref, hv]
      by_cases hj : j = i
      · subst hj
        simp only [if_true, Option.elim, hc']
        omega
      · simp [hj, Ne.symm hj]
    · simp [Stake.mentions_ref, hs]
    · by_cases hj : i = j
      · subst hj
        rw [Heap.cell?_setCell_self hi] at hd
        obtain rfl := Option.some.inj hd
        simp only [hc']
        omega
      · rw [Heap.cell?_setCell_ne hj] at hd
        exact hb.positive j d hd
  · have key := Heap.weight_setCell hi (some c')
    have objects : c'.object = c.object := rfl
    have fewer : c'.count = c.count - 1 := rfl
    rw [hc] at key
    simp only [Heap.cellWeight, Option.elim_some, objects] at key
    simp only [List.length_nil]
    omega

/-- The container goes with the last reference to it. -/
theorem Balanced.givenUp_of_last (hb : m.Balanced total σ (x + .refs [v]))
    (hv : v.handle? = some i) (hs : v.string? = none) (hc : m.heap.cell? i = some c)
    (hlast : ¬ 1 < c.count) (ho : c.object = some o) :
    GivenUp total σ x m o.values (m.disposed i o) := by
  have hi := Heap.lt_size_of_cell? hc
  refine ⟨hb.disposed hv hs hc hlast ho, ⟨fun j => ?_, fun S hS j hj => ?_⟩, ?_⟩
  · rw [Memory.disposed, Heap.content?_freed hi]
    split
    · exact .inl rfl
    · exact .inr rfl
  · rw [Memory.disposed, Heap.content?_freed hi, if_neg]
    rintro rfl
    exact hb.not_supported_of_last hv hc hlast hS hj
  · have := weight_freed hc ho
    simp only [Memory.disposed]
    omega

/-- Giving up a reference to a container. -/
theorem giveUpHandle_meets (hb : m.Balanced total σ (x + .refs [v])) (hv : v.handle? = some i)
    (hs : v.string? = none) (hout : lax ∨ Heap.OutSupported x m.heap) :
    ((onHeap (Heap.release i) >>= discard i) m).Meets lax (GivenUp total σ x m) fun _ => False := by
  obtain ⟨c, hc⟩ := hb.exists_cell_of_known (Stake.knows_of_mem (by simp)) hv
  by_cases hmore : 1 < c.count
  · have step : onHeap (Heap.release i) m = .done none
        { m with heap := m.heap.setCell i (some { c with count := c.count - 1 }) } := by
      simp [onHeap, Action.zoom, Heap.release, hc, hmore]
    rw [Action.bind_done step]
    exact hb.givenUp_of_more hv hs hc hmore
  · cases ho : c.object with
    | none =>
      -- the object is checked out, so somebody still holds the container
      have step : onHeap (Heap.release i) m = .broken (.releasedWhileOut i) := by
        simp [onHeap, Action.zoom, Heap.release, hc, hmore, ho]
      rw [Action.bind_apply, step]
      refine hout.resolve_right fun hout => ?_
      obtain ⟨S, hS, hi⟩ := hout i (by rw [Heap.content?_of_cell? hc, ho])
      exact hb.not_supported_of_last hv hc hmore hS hi
    | some o =>
      have step : onHeap (Heap.release i) m = .done (some o) { m with heap := m.heap.freed i } := by
        simp [onHeap, Action.zoom, Heap.release, hc, hmore, ho, Heap.freed]
      have back : discard i (some o) { m with heap := m.heap.freed i } =
          .done o.values (m.disposed i o) := by
        change ((onLedger (giveBack o) >>= fun _ => pure o.values) _) = _
        simp only [Action.bind_apply, onLedger, Action.zoom,
          Ledger.giveBack_eq hb.exact o (hb.units_le_held hc ho)]
        rfl
      rw [Action.bind_done step, back]
      exact hb.givenUp_of_last hv hs hc hmore ho

/-- **One step of a cascade.** -/
theorem giveUp_meets (hb : m.Balanced total σ (x + .refs [v]))
    (hout : lax ∨ Heap.OutSupported x m.heap) :
    (giveUp v m).Meets lax (GivenUp total σ x m) fun _ => False := by
  obtain ⟨datum, source⟩ := v
  cases datum with
  | string text executable =>
    have refers : 0 < m.ledger.references text := by
      rw [hb.mentions]
      refine Stake.mentions_pos_iff.2 ⟨⟨.string text executable, source⟩, by simp, rfl⟩
    have paid : m.ledger.textUnits ≤ m.ledger.string := by
      have := hb.units .string
      simp only [Ledger.held, Ledger.textShare, if_true] at this
      omega
    change ((onLedger (Ledger.dropReference text) >>= fun _ => pure []) m).Meets _ _ _
    refine Action.meets_bind (P := fun _ m' => GivenUp total σ x m [] m')
      (Action.meets_zoom ((Ledger.dropReference_meets hb.exact hb.tabled refers paid).mono ?_ ?_))
      fun _ _ h => h
    · rintro _ l' ⟨retabled, texts⟩
      have same : m.SameObjects { m with ledger := l' } := ⟨fun _ => rfl, rfl, rfl⟩
      refine ⟨?_, same.loses x, Nat.le_refl _⟩
      rw [Stake.refs_nil, add_zero]
      refine hb.drop_ref same (fun j => ?_) (fun t => ?_) hb.positive hb.heap retabled
      · simp [Stake.holders_ref, Value.handle?]
      · simp [Stake.mentions_ref, Value.string?, ← texts, eq_comm]
    · exact fun _ => id
  | array i access => exact giveUpHandle_meets hb rfl rfl hout
  | dictionary i writable => exact giveUpHandle_meets hb rfl rfl hout
  | null | boolean | integer | name | mark | operator =>
    refine ⟨?_, .refl x m, Nat.le_refl _⟩
    rw [Stake.refs_nil, add_zero]
    refine hb.drop_ref (.refl m) (fun j => ?_) (fun t => ?_) hb.positive hb.heap hb.retabled_refl
    · simp [Stake.holders_ref, Value.handle?]
    · simp [Stake.mentions_ref, Value.string?]

/-- What giving up references leaves. -/
def Released (total : Option ℕ) (σ : ℕ → Label) (x : Stake) (m m' : Memory) : Prop :=
  m'.Balanced total σ x ∧ m.Loses x m'

/-- **A cascade ends with its fuel unspent.** -/
theorem giveUpAll_meets (fuel : ℕ) (vs : List Value) (m : Memory)
    (hb : m.Balanced total σ (x + .refs vs)) (hout : lax ∨ Heap.OutSupported x m.heap)
    (hfuel : m.heap.weight + vs.length ≤ fuel) :
    (giveUpAll fuel vs m).Meets lax (fun _ m' => Released total σ x m m') fun _ => False := by
  induction fuel generalizing vs m with
  | zero =>
    obtain rfl : vs = [] := List.eq_nil_of_length_eq_zero (by omega)
    rw [Stake.refs_nil, add_zero] at hb
    exact ⟨hb, .refl x m⟩
  | succ fuel ih =>
    cases vs with
    | nil =>
      rw [Stake.refs_nil, add_zero] at hb
      exact ⟨hb, .refl x m⟩
    | cons v rest =>
      have sum : x + .refs (v :: rest) = x + .refs rest + .refs [v] := by
        rw [Stake.refs_cons]
        abel
      rw [sum] at hb
      have step := giveUp_meets hb (hout.imp_right fun hout => hout.add_right _)
      rw [giveUpAll]
      cases hstep : giveUp v m with
      | broken b => rw [hstep] at step; exact step
      | raised e m' => rw [hstep] at step; exact step.elim
      | done freed m' =>
        rw [hstep] at step
        obtain ⟨hb', loses, hweight⟩ := step
        have loses := loses.of_add_right
        refine (ih (freed ++ rest) m' ?_ (loses.outSupported hout) ?_).mono ?_ fun _ => id
        · rwa [Stake.refs_append, add_comm (Stake.refs freed), ← add_assoc]
        · simp only [List.length_append, List.length_cons] at hfuel ⊢
          omega
        · exact fun _ m'' h => ⟨h.1, loses.trans h.2⟩

/-- **Giving up a reference takes it off the stake**, and leaves alone what the rest supports. -/
theorem release_meets (hb : m.Balanced total σ (x + .refs [v]))
    (hout : lax ∨ Heap.OutSupported x m.heap) :
    (release v m).Meets lax (fun _ m' => Released total σ x m m') fun _ => False := by
  have step := giveUp_meets hb hout
  rw [release]
  cases hstep : giveUp v m with
  | broken b => rw [hstep] at step; exact step
  | raised e m' => rw [hstep] at step; exact step.elim
  | done freed m' =>
    rw [hstep] at step
    obtain ⟨hb', loses, -⟩ := step
    cases freed with
    | nil =>
      rw [Stake.refs_nil, add_zero] at hb'
      exact ⟨hb', loses⟩
    | cons w rest =>
      refine (giveUpAll_meets _ _ m' hb' (loses.outSupported hout) ?_).mono ?_ fun _ => id
      · simp only [List.length_cons]
        omega
      · exact fun _ m'' h => ⟨h.1, loses.trans h.2⟩

theorem releaseAll_meets (vs : List Value) (hb : m.Balanced total σ (x + .refs vs))
    (hout : lax ∨ Heap.OutSupported x m.heap) :
    (releaseAll vs m).Meets lax (fun _ m' => Released total σ x m m') fun _ => False := by
  induction vs generalizing m with
  | nil =>
    rw [Stake.refs_nil, add_zero] at hb
    exact ⟨hb, .refl x m⟩
  | cons v rest ih =>
    have sum : x + .refs (v :: rest) = x + .refs rest + .refs [v] := by
      rw [Stake.refs_cons]
      abel
    rw [sum] at hb
    refine Action.meets_bind (release_meets hb (hout.imp_right fun hout => hout.add_right _)) ?_
    rintro _ m' ⟨hb', loses⟩
    have loses := loses.of_add_right
    refine (ih hb' (loses.outSupported hout)).mono ?_ fun _ => id
    exact fun _ m'' h => ⟨h.1, loses.trans h.2⟩

end Memory

end StackScript
