import StackScript.Proofs.Machine.Holdings
import StackScript.Proofs.Memory.Cascade

/-!
# Releasing references

What is left of a memory when references to values are given up is told by what is held besides:
the containers that are live are those something still refers to, each count has dropped by the
references that were given up and those the containers that have gone held, and the accounts have
got back what these containers and the texts nobody refers to any more cost.

So nothing depends on the order in which references are given up: not on the order of the list, nor
on what is given up next, nor on the order in which a dictionary hands over its entries
(`release_cascades_exactly`).
-/

namespace StackScript

namespace Heap

variable {h h' : Heap} {i : Handle}

/-- The containers of `h` that are not in `h'`. -/
def gone (h h' : Heap) : List Handle := h.handles.filter fun i => (h'.cell? i).isNone

/-- What the container of a handle holds. -/
def stakeAt (h : Heap) (i : Handle) : Stake := (h.object? i).elim 0 Object.stake

theorem stake_eq_sum_handles (h : Heap) : h.stake = (h.handles.map h.stakeAt).sum := by
  rw [stake_eq_sum_objects, sum_objects]
  rfl

theorem Sheds.handles_perm (hs : h.Sheds h') : h.handles.Perm (h'.handles ++ h.gone h') := by
  refine (List.filter_append_perm (fun i => !(h'.cell? i).isNone) h.handles).symm.trans ?_
  refine List.Perm.append ?_ (by simp [gone])
  refine (List.perm_ext_iff_of_nodup (h.nodup_handles.filter _) h'.nodup_handles).2 fun i => ?_
  rw [List.mem_filter, mem_handles, mem_handles]
  constructor
  · rintro ⟨⟨o, ho⟩, live⟩
    rcases hs i with gone | stays
    · simp [content?_eq_none_iff.1 gone] at live
    · exact ⟨o, by rw [object?_eq_join, stays, ← object?_eq_join, ho]⟩
  · rintro ⟨o, ho⟩
    obtain ⟨c, hc, -⟩ := exists_cell_of_object? ho
    exact ⟨⟨o, hs.object?_eq ho⟩, by simp [hc]⟩

theorem Sheds.stake_eq (hs : h.Sheds h') :
    h.stake = h'.stake + ((h.gone h').map h.stakeAt).sum := by
  rw [stake_eq_sum_handles, (hs.handles_perm.map _).sum_eq, List.map_append, List.sum_append,
    stake_eq_sum_handles h']
  refine congrArg (· + _) (congrArg List.sum (List.map_congr_left fun i hi => ?_))
  obtain ⟨o, ho⟩ := mem_handles.1 hi
  rw [stakeAt, stakeAt, ho, hs.object?_eq ho]

/-! ### What has gone -/

variable (h) (l : List Handle)

theorem values_stakeAt (i : Handle) : (h.stakeAt i).values = h.valuesAt i := by
  unfold stakeAt valuesAt
  cases h.object? i <;> simp

theorem locals_stakeAt (i : Handle) : (h.stakeAt i).locals = ([] : List Handle) := by
  unfold stakeAt
  cases h.object? i <;> simp

theorem holders_sum_stakeAt (i : Handle) : ((l.map h.stakeAt).sum).holders i =
    (l.flatMap h.valuesAt).countP fun v => v.handle? = some i := by
  rw [Stake.holders, Stake.values_sum_map _ _ h.values_stakeAt,
    Stake.locals_sum_map _ _ h.locals_stakeAt]
  simp

theorem mentions_sum_stakeAt (text : String) : ((l.map h.stakeAt).sum).mentions text =
    (l.flatMap h.valuesAt).countP fun v => v.string? = some text := by
  rw [Stake.mentions, Stake.values_sum_map _ _ h.values_stakeAt, Multiset.coe_countP]

theorem units_sum_stakeAt (a : Account) : ((l.map h.stakeAt).sum).units a =
    ((l.filter (· ∈ h.paidBy a)).map h.unitsAt).sum := by
  rw [Stake.units_sum_map]
  induction l with
  | nil => rfl
  | cons i rest ih =>
    rw [List.map_cons, List.sum_cons, ih]
    by_cases hi : i ∈ h.paidBy a
    · rw [List.filter_cons_of_pos (by simpa using hi), List.map_cons, List.sum_cons]
      obtain ⟨o, ho, ha⟩ := mem_paidBy.1 hi
      simp [stakeAt, unitsAt, ho, Object.units_stake, ha]
    · rw [List.filter_cons_of_neg (by simpa using hi)]
      rw [mem_paidBy] at hi
      cases ho : h.object? i with
      | none => simp [stakeAt, ho]
      | some o =>
        have other : a ≠ o.account := fun ha => hi ⟨o, ho, ha.symm⟩
        simp [stakeAt, ho, Object.units_stake, other]

/-- All accounts together get back what the containers cost. -/
theorem units_sum_stakeAt_total : ((l.map h.stakeAt).sum).units .system +
    ((l.map h.stakeAt).sum).units .user + ((l.map h.stakeAt).sum).units .string =
      (l.map h.unitsAt).sum := by
  simp only [Stake.units_sum_map]
  induction l with
  | nil => rfl
  | cons i rest ih =>
    have one : (h.stakeAt i).units .system + (h.stakeAt i).units .user +
        (h.stakeAt i).units .string = h.unitsAt i := by
      cases ho : h.object? i with
      | none => simp [stakeAt, unitsAt, ho]
      | some o => cases ha : o.account <;> simp [stakeAt, unitsAt, ho, Object.units_stake, ha]
    simp only [List.map_cons, List.sum_cons, ← ih]
    omega

end Heap

namespace Ledger

variable {l l' : Ledger}

/-- The texts of `l` nobody refers to in `l'`. -/
def lost (l l' : Ledger) : List String :=
  (l.strings.map Prod.fst).filter fun t => l'.references t = 0

theorem textUnits_eq_lost (h : l.Tabled) (h' : l'.Tabled)
    (fewer : ∀ t, l'.references t ≤ l.references t) :
    l.textUnits = l'.textUnits + ((l.lost l').map fun t => t.utf8ByteSize + 8).sum := by
  set texts := l.strings.map Prod.fst with htexts
  have all : l.textUnits = (texts.map fun t => t.utf8ByteSize + 8).sum :=
    textUnits_eq h h.nodup fun _ => references_pos_iff h
  have left : l'.textUnits =
      ((texts.filter fun t => !decide (l'.references t = 0)).map fun t => t.utf8ByteSize + 8).sum := by
    refine textUnits_eq h' (h.nodup.filter _) fun t => ?_
    rw [List.mem_filter, htexts, ← references_pos_iff h]
    have := fewer t
    simp only [Bool.not_eq_true', decide_eq_false_iff_not]
    omega
  have split := ((List.filter_append_perm (fun t => decide (l'.references t = 0)) texts).map
    fun t => t.utf8ByteSize + 8).sum_eq
  rw [List.map_append, List.sum_append] at split
  rw [all, left, lost, ← htexts, ← split, add_comm]

end Ledger

namespace Memory

variable {total : Option ℕ} {σ : ℕ → Label} {x : Stake} {m m' : Memory} {vs : List Value}

/-- The references that are given up when those to `vs` are: these, and all that is in the
containers that go. -/
def surrendered (vs : List Value) (m m' : Memory) : List Value :=
  vs ++ (m.heap.gone m'.heap).flatMap m.heap.valuesAt

/-- The memory `m'` is what is left of `m`, in which `x` is held besides, when the references to
`vs` are given up. -/
structure Cascaded (x : Stake) (vs : List Value) (m m' : Memory) : Prop where
  /-- What is live is what is still referred to, … -/
  referred : ∀ i, (∃ c, m'.heap.cell? i = some c) ↔ 0 < (x + m'.heap.stake).holders i
  /-- … which is what the stake and the cycles lead to. -/
  survives : ∀ i, (∃ c, m'.heap.cell? i = some c) ↔ m.heap.Survives x i
  counts : ∀ i c', m'.heap.cell? i = some c' →
    ∃ c, m.heap.cell? i = some c ∧ c.object = c'.object ∧
      c.count = c'.count + (surrendered vs m m').countP (fun v => v.handle? = some i)
  texts : ∀ t, m.ledger.references t =
    m'.ledger.references t + (surrendered vs m m').countP (fun v => v.string? = some t)
  used : m.ledger.used = m'.ledger.used + ((m.heap.gone m'.heap).map m.heap.footprintAt).sum +
    ((m.ledger.lost m'.ledger).map fun t => t.utf8ByteSize + 8).sum
  held : ∀ a, m.ledger.held a = m'.ledger.held a +
    (((m.heap.gone m'.heap).filter (· ∈ m.heap.paidBy a)).map m.heap.footprintAt).sum +
    if a = .string then ((m.ledger.lost m'.ledger).map fun t => t.utf8ByteSize + 8).sum else 0
  capacity : m'.ledger.total = m.ledger.total
  peak : SamePeak m m'

theorem Released.cascaded (h : Released total σ x m m') (hb : m.Balanced total σ (x + .refs vs))
    (peak : SamePeak m m') : Cascaded x vs m m' := by
  obtain ⟨hb', loses⟩ := h
  set gone := m.heap.gone m'.heap with hgone
  -- what has been given up is the given references and all that the containers gone have held
  have sum : x + .refs vs + m.heap.stake =
      x + m'.heap.stake + (.refs vs + (gone.map m.heap.stakeAt).sum) := by
    rw [loses.sheds.stake_eq]
    abel
  have mentions (t : String) : m.ledger.references t =
      m'.ledger.references t + (surrendered vs m m').countP (fun v => v.string? = some t) := by
    rw [hb.mentions, sum, Stake.mentions_add, ← hb'.mentions, Stake.mentions_add,
      Heap.mentions_sum_stakeAt, surrendered, List.countP_append, Stake.mentions_refs]
  have texts := Ledger.textUnits_eq_lost hb.tabled hb'.tabled fun t => by
    rw [mentions t]
    exact Nat.le_add_right ..
  have held (a : Account) : m.ledger.held a = m'.ledger.held a +
      (gone.map m.heap.stakeAt).sum.units a +
      if a = .string then ((m.ledger.lost m'.ledger).map fun t => t.utf8ByteSize + 8).sum else 0 := by
    rw [hb.units, hb'.units, sum, Stake.units_add (x + m'.heap.stake), Stake.units_add (.refs vs),
      Stake.units_refs, zero_add, Pi.add_apply, Ledger.textShare, Ledger.textShare, texts]
    split <;> omega
  refine ⟨fun i => ?_, fun i => hb'.live_iff_survives loses, fun i c' hc' => ?_, mentions, ?_,
    fun a => ?_, hb'.exact.capacity.trans hb.exact.capacity.symm, peak⟩
  · constructor
    · rintro ⟨c, hc⟩
      rw [← hb'.holders, Heap.countAt_of_cell? hc]
      exact hb'.positive i c hc
    · exact hb'.exists_cell_of_holders
  · -- a container that is there was there before
    have content := (loses.sheds i).resolve_left fun none => by
      rw [Heap.content?_eq_none_iff.1 none] at hc'
      cases hc'
    rw [Heap.content?_of_cell? hc'] at content
    obtain ⟨c, hc, object⟩ := Option.map_eq_some_iff.1 content.symm
    refine ⟨c, hc, object, ?_⟩
    rw [← Heap.countAt_of_cell? hc, ← Heap.countAt_of_cell? hc', hb.holders, hb'.holders, sum,
      Stake.holders_add, Stake.holders_add _ (gone.map _).sum, Heap.holders_sum_stakeAt, surrendered,
      List.countP_append, Stake.holders_refs]
  · -- the three accounts together are what is used
    have system := held .system
    have user := held .user
    have string := held .string
    have total := m.heap.units_sum_stakeAt_total gone
    simp only [Ledger.held, reduceCtorEq, if_true, if_false] at system user string
    rw [← hb.unitsAt_eq_footprintAt, hb.exact.sum, hb'.exact.sum, ← total]
    omega
  · rw [held a, ← hb.unitsAt_eq_footprintAt, Heap.units_sum_stakeAt]

/-- When all references have been given up, what is left is as told. -/
theorem Cascade.cascaded {k : ℕ} (h : Cascade k vs m [] m') (hb : m.Balanced total σ (x + .refs vs))
    (hout : Heap.OutSupported x m.heap) : Cascaded x vs m m' := by
  obtain ⟨-, -, peak, -⟩ := h.givenUp hb hout
  exact (h.released hb hout).cascaded hb peak

/-- **Releasing values cascades exactly, in any order.**  In a memory whose counts are what `x`, the
values to be released and the objects hold, they can all be released, and what is left is as told by
`Cascaded`.  It is the same for every order of the values; and for every order in which references
are given up one by one, dictionaries handing over their entries in any order: each of them can be
given up, they come to an end, and what is left then is the same. -/
theorem release_cascades_exactly (hb : m.Balanced total σ (x + .refs vs))
    (hout : Heap.OutSupported x m.heap) :
    ∃ m', releaseAll vs m = .done () m' ∧ Cascaded x vs m m' ∧
      (∀ ws, ws.Perm vs → ∃ m₁, releaseAll ws m = .done () m₁ ∧ m'.Agrees m₁) ∧
      (∃ k, Cascade k vs m [] m') ∧
      ∀ k ws m₁, Cascade k vs m ws m₁ →
        k + m₁.heap.weight + ws.length ≤ m.heap.weight + vs.length ∧
        (∀ v ∈ ws, ∀ order, Shuffles order → ∃ freed m₂, giveUpIn order v m₁ = .done freed m₂) ∧
        (ws = [] → m'.Agrees m₁) := by
  obtain ⟨k, m', released, cascade⟩ := releaseAll_cascades hb hout
  have left := cascade.released hb hout
  obtain ⟨-, -, peak, -⟩ := cascade.givenUp hb hout
  refine ⟨m', released, cascade.cascaded hb hout, fun ws hws => ?_, ⟨k, cascade⟩,
    fun l ws m₁ before => ?_⟩
  · have hb' : m.Balanced total σ (x + .refs ws) := Stake.refs_perm hws ▸ hb
    obtain ⟨l, m₁, released₁, cascade₁⟩ := releaseAll_cascades hb' hout
    obtain ⟨-, -, peak₁, -⟩ := cascade₁.givenUp hb' hout
    exact ⟨m₁, released₁, left.agrees (cascade₁.released hb' hout) (peak₁.trans peak.symm)⟩
  · obtain ⟨-, -, peak₁, weight⟩ := before.givenUp hb hout
    refine ⟨weight, fun v hv order shuffles => before.continues hb hout hv shuffles, ?_⟩
    rintro rfl
    exact left.agrees (before.released hb hout) (peak₁.trans peak.symm)

/-- An array that holds itself and a text is on the stack, below a dictionary and an array that hold
it as well, the latter twice on the stack and with a text of its own.  When the operands are released
these two go, with that text, and the first array is left with its reference to itself. -/
theorem release_cascades_to_a_cycle :
    ∃ (s : Session Unit) (total : Option ℕ) (σ : ℕ → Label) (x : Stake) (m' : Memory),
      s.machine.memory.Balanced total σ (x + .refs s.machine.operands.items) ∧
      Heap.OutSupported x s.machine.memory.heap ∧
      releaseAll s.machine.operands.items s.machine.memory = .done () m' ∧
      Cascaded x s.machine.operands.items s.machine.memory m' ∧
      s.machine.memory.heap.gone m'.heap = [6, 7] ∧
      s.machine.memory.ledger.lost m'.ledger = ["c"] ∧
      s.machine.memory.heap.countAt 5 = 4 ∧ m'.heap.countAt 5 = 1 ∧
      s.machine.memory.ledger.used = m'.ledger.used + 106 := by
  let text := "2 array dup dup 0 exch put dup 1 \"a\" put << /x 2 index >> [ \"c\" 3 index ] dup"
  have facts : (Session.trial {} text 60).bind (fun s =>
      let m := s.machine.memory
      (releaseAll s.machine.operands.items m).state?.map fun m' => (m.heap.gone m'.heap,
        m.ledger.lost m'.ledger, m.heap.countAt 5, m'.heap.countAt 5,
        m.ledger.used - m'.ledger.used)) = some ([6, 7], ["c"], 4, 1, 106) := by decide +kernel
  obtain ⟨s, hs, hfacts⟩ := Option.bind_eq_some_iff.1 facts
  obtain ⟨m₀, created, reached⟩ := Reached.of_trial (fun _ h => by cases h) hs
  obtain ⟨Γ, -, kept⟩ := reached.sound created
  obtain ⟨present, σ, hb, -⟩ := kept.sound.memory
  -- what else there is: the slots of the operands, the scopes, and no frames
  set x : Stake := s.machine.operands.reserve.stake + s.machine.calls.stake +
    s.machine.scopes.stake + s.machine.pending.elim 0 PendingException.stake with hx
  have sum : s.machine.stake + .refs [] = x + .refs s.machine.operands.items := by
    rw [Machine.stake, Sequence.stake, hx, Stake.refs_nil]
    abel
  have hout := present.outSupported x
  obtain ⟨m', released, cascaded, -⟩ := release_cascades_exactly (sum ▸ hb) hout
  simp only [released, Outcome.state?, Option.map_some, Option.some.injEq, Prod.mk.injEq] at hfacts
  obtain ⟨gone, lost, before, after, used⟩ := hfacts
  exact ⟨s, _, σ, x, m', sum ▸ hb, hout, released, cascaded, gone, lost, before, after, by omega⟩

end Memory

end StackScript
