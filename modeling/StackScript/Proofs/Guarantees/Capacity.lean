import Mathlib.Logic.Relation
import Mathlib.Order.Bounds.Basic
import StackScript.Proofs.Machine.Bootstrap

/-!
# The capacity of a sequence

How many slots a sequence is charged for depends on its length alone: the initial ones, and the
least number of whole increments that make room for its items (`Reserve.Needs`).  It does not matter
how it got there, by which steps it grew and shrank and which of them were refused.

* `Reserve.fits_iff` reads the rule of growth as a least number of increments;
* `Sequence.Change.perform_meets`: a change of a sequence is done or refused, leaves it with the
  slots its items need, and the memory balanced;
* `Sequence.Setting` is a sequence with the memory it is charged to, which it shares with
  others.  Whatever is done to the sequence, and by the others, it is charged for the slots its
  items need (`Sequence.Setting.Kept.after`), so what it is charged is told from its length, and
  given back in the end (`capacity_is_canonical`).
-/

namespace StackScript

open Memory (onLedger giveBack)
open Relation (ReflTransGen)

/-- What an account holds for a stake, for the objects of the heap and for the texts. -/
def Memory.dues (m : Memory) (x : Stake) (a : Account) : ℕ :=
  (x + m.heap.stake).units a + m.ledger.textShare a

/-! ### Slots that are needed -/

namespace Reserve

variable {r : Reserve} {n k c : ℕ}

/-- Besides the initial slots, `n` items need `k` increments, and no fewer. -/
def Needs (r : Reserve) (n k : ℕ) : Prop := IsLeast {k | n ≤ r.initial + k * r.increment} k

theorem needs_zero (h : n ≤ r.initial) : r.Needs n 0 :=
  ⟨Nat.le_add_right_of_le h, fun _ _ => Nat.zero_le _⟩

theorem needs_div (h : r.increment ≠ 0) :
    r.Needs n ((n - r.initial + r.increment - 1) / r.increment) := by
  have pos := Nat.pos_of_ne_zero h
  have room (k : ℕ) : n ≤ r.initial + k * r.increment ↔
      (n - r.initial + r.increment - 1) / r.increment ≤ k := by
    rw [Nat.div_le_iff_le_mul_add_pred pos, Nat.mul_comm]
    omega
  exact ⟨(room _).2 le_rfl, fun k hk => (room k).1 hk⟩

theorem not_needs (h : r.increment = 0) (beyond : r.initial < n) : ¬ r.Needs n k := by
  rintro ⟨room, -⟩
  rw [Set.mem_ofPred_eq, h, Nat.mul_zero] at room
  omega

/-- **The slots for `n` items** are the initial ones and the increments they need. -/
theorem capacityFor_eq_ok_iff :
    r.capacityFor n = .ok c ↔ ∃ k, r.Needs n k ∧ c = r.initial + k * r.increment := by
  have one {k₀ : ℕ} (least : r.Needs n k₀) :
      (Except.ok (r.initial + k₀ * r.increment) : Except Cause ℕ) = .ok c ↔
        ∃ k, r.Needs n k ∧ c = r.initial + k * r.increment := by
    constructor
    · intro h
      exact ⟨k₀, least, (Except.ok.inj h).symm⟩
    · rintro ⟨k, needed, rfl⟩
      rw [needed.unique least]
  unfold capacityFor
  split
  · rename_i fits
    simpa using one (needs_zero fits)
  · rename_i beyond
    split
    · rename_i fixed
      constructor
      · intro h
        cases h
      · rintro ⟨k, needed, -⟩
        exact (not_needs fixed (Nat.lt_of_not_le beyond) needed).elim
    · rename_i grows
      exact one (needs_div grows)

theorem fits_iff : r.Fits n ↔ ∃ k, r.Needs n k ∧ r.capacity = r.initial + k * r.increment :=
  capacityFor_eq_ok_iff

theorem Fits.le_capacity (h : r.Fits n) : n ≤ r.capacity := by
  obtain ⟨k, ⟨room, -⟩, capacity⟩ := fits_iff.1 h
  exact capacity ▸ room

/-- More items, as far as there are slots, need no further ones. -/
theorem Fits.of_le_capacity (h : r.Fits n) {n' : ℕ} (more : n ≤ n') (room : n' ≤ r.capacity) :
    r.Fits n' := by
  obtain ⟨k, ⟨-, least⟩, capacity⟩ := fits_iff.1 h
  rw [capacity] at room
  exact fits_iff.2 ⟨k, ⟨room, fun j hj => least (Nat.le_trans more hj)⟩, capacity⟩

theorem capacityFor_of_fixed (fixed : r.increment = 0) (beyond : r.initial < n) :
    r.capacityFor n = .error (.sequenceFull r.initial) := by
  rw [capacityFor, if_neg (Nat.not_le_of_lt beyond), if_pos fixed]

end Reserve

namespace Sequence

variable {total : Option ℕ} {σ : ℕ → Label} {x : Stake} {m : Memory} {s : Sequence}

/-! ### Changes -/

/-- What can be done to a sequence. -/
inductive Change where
  | exchange (drop : ℕ) (values : List Value)
  | push (v : Value)
  | pop (count : ℕ)
  | set (index : ℕ) (v : Value)
  | fill (v : Value) (count : ℕ)
  | clear

namespace Change

/-- The values it is given. -/
def values : Change → List Value
  | .exchange _ values => values
  | .push v | .set _ v | .fill v _ => [v]
  | .pop _ | .clear => []

/-- Change a sequence. -/
def perform (s : Sequence) : Change → Action Memory Sequence
  | .exchange drop values => s.exchange drop values
  | .push v => s.push v
  | .pop count => s.pop count
  | .set index v => s.set index v
  | .fill v count => s.fill v count
  | .clear => s.clear

end Change

theorem exchange_of_fixed (fixed : s.reserve.increment = 0) {drop : ℕ} (present : drop ≤ s.length)
    {values : List Value} (beyond : s.reserve.initial < s.length - drop + values.length)
    (m : Memory) :
    s.exchange drop values m = .raised (Cause.sequenceFull s.reserve.initial).exception m := by
  have refused : s.reserve.exchange s.length (s.items.take drop).reverse values m =
      .raised (Cause.sequenceFull s.reserve.initial).exception m := by
    rw [Reserve.exchange, length_removed present, Reserve.capacityFor_of_fixed fixed beyond]
    rfl
  rw [exchange, if_neg (Nat.not_lt_of_le present)]
  exact Action.bind_raised refused _

theorem fill_of_beyond {v : Value} {count : ℕ} (beyond : s.reserve.capacity < s.length + count)
    (m : Memory) :
    s.fill v count m =
      .raised (Cause.fillExceeds count s.reserve.capacity).exception m := by
  rw [fill, if_pos beyond]
  rfl

/-- `s` became `s'`, in as many slots as that needs, and the memory is balanced again. -/
def Changed (total : Option ℕ) (σ : ℕ → Label) (x : Stake) (s : Sequence) (m : Memory)
    (s' : Sequence) (m' : Memory) : Prop :=
  s.Resized s' ∧ m'.Balanced total σ (x + s'.stake) ∧ m.Loses x m'

theorem exchange_changes (drop : ℕ) (values : List Value) (hb : m.Balanced total σ (x + s.stake))
    (known : ∀ v ∈ values, (x + s.stake + m.heap.stake).Knows v)
    (hout : Heap.OutSupported x m.heap) :
    (s.exchange drop values m).Meets False (Changed total σ x s m)
      (Memory.Released total σ (x + s.stake) m) :=
  (exchange_meets drop values hb known (.inr hout)).mono (fun _ _ h => ⟨h.1.1, h.2⟩)
    fun _ h => h.1

theorem set_changes {index : ℕ} {v : Value} (sized : s.Sized)
    (hb : m.Balanced total σ (x + s.stake)) (known : (x + s.stake + m.heap.stake).Knows v)
    (hout : Heap.OutSupported x m.heap) :
    (s.set index v m).Meets False (Changed total σ x s m)
      (Memory.Released total σ (x + s.stake) m) := by
  refine (set_meets hb known (.inr hout)).mono ?_ ?_
  · rintro _ m' ⟨rfl, rest⟩
    refine ⟨⟨⟨s.reserve.capacity, rfl⟩, ?_⟩, rest⟩
    rw [Sized, s.length_replace]
    exact sized
  · rintro m' rfl
    exact ⟨hb, .refl _ m'⟩

theorem fill_changes {v : Value} {count : ℕ} (sized : s.Sized)
    (hb : m.Balanced total σ (x + s.stake)) (known : (x + s.stake + m.heap.stake).Knows v) :
    (s.fill v count m).Meets False (Changed total σ x s m)
      (Memory.Released total σ (x + s.stake) m) := by
  by_cases beyond : s.reserve.capacity < s.length + count
  · rw [fill_of_beyond beyond]
    exact ⟨hb, .refl _ m⟩
  · refine (fill_meets hb known).mono ?_ ?_
    · rintro _ m' ⟨rfl, hb', same⟩
      refine ⟨⟨⟨s.reserve.capacity, rfl⟩, ?_⟩, hb', same.loses x⟩
      have length : (List.replicate count v ++ s.items).length = s.length + count := by
        rw [List.length_append, List.length_replicate, Nat.add_comm]
        rfl
      rw [Sized, Sequence.length, length]
      exact sized.of_le_capacity (Nat.le_add_right _ _) (Nat.le_of_not_lt beyond)
    · rintro m' rfl
      exact ⟨hb, .refl _ m'⟩

/-- **A change is made or refused.** -/
theorem Change.perform_meets (c : Change) (sized : s.Sized) (hb : m.Balanced total σ (x + s.stake))
    (known : ∀ v ∈ c.values, (x + s.stake + m.heap.stake).Knows v)
    (hout : Heap.OutSupported x m.heap) :
    (c.perform s m).Meets False (Changed total σ x s m)
      (Memory.Released total σ (x + s.stake) m) := by
  cases c with
  | exchange drop values => exact exchange_changes drop values hb known hout
  | push v => exact exchange_changes 0 [v] hb known hout
  | pop count => exact exchange_changes count [] hb known hout
  | set index v => exact set_changes sized hb (known v (List.mem_singleton_self v)) hout
  | fill v count => exact fill_changes sized hb (known v (List.mem_singleton_self v))
  | clear =>
    refine (clear_meets hb sized (.inr hout)).always ?_
    exact fun _ _ h => ⟨h.1.1, h.2⟩

/-! ### Settings -/

/-- A sequence in use, and the memory it is charged to. -/
structure Setting where
  sequence : Sequence
  /-- What others hold in the memory. -/
  rest : Stake
  /-- What the handles of the memory lead to. -/
  labels : ℕ → Label
  memory : Memory

namespace Setting

variable {g g' : Setting} {r : Reserve}

/-- The sequence and the others account for the memory, and whatever is checked out is theirs. -/
structure Sound (total : Option ℕ) (g : Setting) : Prop where
  balanced : g.memory.Balanced total g.labels (g.rest + g.sequence.stake)
  supported : Heap.OutSupported g.rest g.memory.heap

/-- The value can be stored: what it refers to is in the memory. -/
def Knows (g : Setting) (v : Value) : Prop :=
  (g.rest + g.sequence.stake + g.memory.heap.stake).Knows v

/-- The sequence changes, a change is refused, or others go on in the memory, which they leave
in good order. -/
inductive Step (total : Option ℕ) (g : Setting) : Setting → Prop
  | changes {c : Change} {s : Sequence} {m : Memory} (known : ∀ v ∈ c.values, g.Knows v)
      (done : c.perform g.sequence g.memory = .done s m) :
    Step total g { g with sequence := s, memory := m }
  | declines {c : Change} {e : Exception} {m : Memory} (known : ∀ v ∈ c.values, g.Knows v)
      (refused : c.perform g.sequence g.memory = .raised e m) :
    Step total g { g with memory := m }
  | elsewhere {rest : Stake} {labels : ℕ → Label} {memory : Memory}
      (sound : Sound total ⟨g.sequence, rest, labels, memory⟩) :
    Step total g ⟨g.sequence, rest, labels, memory⟩

/-- The setting is sound, and the sequence has grown and shrunk as it should from the reserve it was
given. -/
structure Kept (total : Option ℕ) (r : Reserve) (g : Setting) : Prop where
  sound : g.Sound total
  reserve : g.sequence.reserve = r.withCapacity g.sequence.reserve.capacity
  sized : g.sequence.Sized

theorem Kept.perform_meets (k : g.Kept total r) {c : Change} (known : ∀ v ∈ c.values, g.Knows v) :
    (c.perform g.sequence g.memory).Meets False
      (Changed total g.labels g.rest g.sequence g.memory)
      (Memory.Released total g.labels (g.rest + g.sequence.stake) g.memory) :=
  c.perform_meets k.sized k.sound.balanced known k.sound.supported

/-- What others have checked out stays theirs. -/
theorem supported_of_loses (h : Heap.OutSupported g.rest g.memory.heap) {m : Memory}
    (loses : g.memory.Loses g.rest m) : Heap.OutSupported g.rest m.heap :=
  h.sheds loses.sheds loses.keeps

/-- **A step keeps the setting.** -/
theorem Kept.step (k : g.Kept total r) (h : g.Step total g') : g'.Kept total r := by
  cases h with
  | changes known done =>
    have changed := k.perform_meets known
    rw [done] at changed
    obtain ⟨⟨⟨c, reserve⟩, sized⟩, hb, loses⟩ := changed
    refine ⟨⟨hb, supported_of_loses k.sound.supported loses⟩, ?_, sized⟩
    dsimp only
    rw [reserve, k.reserve]
    rfl
  | declines known refused =>
    have declined := k.perform_meets known
    rw [refused] at declined
    obtain ⟨hb, loses⟩ := declined
    exact ⟨⟨hb, supported_of_loses k.sound.supported loses.of_add_right⟩, k.reserve, k.sized⟩
  | elsewhere sound => exact ⟨sound, k.reserve, k.sized⟩

/-- **Whatever is done keeps the setting.** -/
theorem Kept.after (k : g.Kept total r) (h : ReflTransGen (Step total) g g') : g'.Kept total r := by
  induction h with
  | refl => exact k
  | tail _ step ih => exact ih.step step

theorem kept_acquired {slot : Size} {a : Account} {initial increment : ℕ} {m₁ : Memory}
    (hb : m.Balanced total σ x) (hout : Heap.OutSupported x m.heap)
    (acquired : Sequence.acquire slot a initial increment m = .done s m₁) :
    Kept total ⟨slot, a, initial, increment, initial⟩ ⟨s, x, σ, m₁⟩ := by
  have acquiring : (Sequence.acquire slot a initial increment m).Meets False _ _ :=
    acquire_meets hb slot a initial increment
  rw [acquired] at acquiring
  obtain ⟨rfl, sized, hb₁, same⟩ := acquiring
  exact ⟨⟨hb₁, hout.sheds same.sheds (same.keeps x)⟩, rfl, sized⟩

/-! ### What the slots cost -/

theorem Kept.account (k : g.Kept total r) : g.sequence.reserve.account = r.account := by
  rw [k.reserve]
  rfl

theorem Kept.units (k : g.Kept total r) :
    g.sequence.reserve.units = r.slot.units * g.sequence.reserve.capacity := by
  rw [Reserve.units, k.reserve]
  rfl

theorem Kept.held (k : g.Kept total r) :
    g.memory.ledger.held r.account =
      r.slot.units * g.sequence.reserve.capacity + g.memory.dues g.rest r.account := by
  have accounted := k.sound.balanced.units r.account
  rw [Stake.units_add, Stake.units_add, Pi.add_apply, Pi.add_apply] at accounted
  have own : g.sequence.stake.units r.account = r.slot.units * g.sequence.reserve.capacity := by
    rw [Sequence.stake, Stake.units_add, Stake.units_refs, add_zero, Reserve.stake,
      Stake.units_charged, k.account, if_pos rfl, k.units]
  rw [accounted, own, Memory.dues, Stake.units_add, Pi.add_apply]
  omega

/-- A slot that is charged for has a cost that is not cut off. -/
theorem Kept.cost_slot (k : g.Kept total r) :
    r.slot.cost * g.sequence.reserve.capacity = r.slot.units * g.sequence.reserve.capacity := by
  rcases Nat.eq_zero_or_pos g.sequence.reserve.capacity with none | some
  · rw [none, Nat.mul_zero, Nat.mul_zero]
  · -- one slot costs no more than all of them, and these can be counted
    have held := k.held
    have used := k.sound.balanced.exact.held_le_used r.account
    have limit := k.sound.balanced.exact.used_le_limit
    have one := Nat.le_mul_of_pos_right r.slot.units some
    have cost := r.slot.cost_eq_min
    rw [show r.slot.cost = r.slot.units by omega]

/-- The slots are given back, for what they were charged, and the items handed over. -/
theorem Kept.surrenders (k : g.Kept total r) : ∃ m,
    onLedger (giveBack (.array g.sequence)) g.memory = .done () m ∧
      m.ledger.held r.account = g.memory.dues g.rest r.account ∧
      m.Balanced total g.labels (g.rest + .refs g.sequence.items) := by
  have held := k.held
  have paid : (Object.array g.sequence).units ≤
      g.memory.ledger.held (Object.array g.sequence).account := by
    rw [Object.units, Object.account, k.units, k.account, held]
    exact Nat.le_add_right _ _
  have given := Ledger.giveBack_eq k.sound.balanced.exact (.array g.sequence) paid
  have done : onLedger (giveBack (.array g.sequence)) g.memory = .done () { g.memory with
      ledger := g.memory.ledger.takeBack g.sequence.reserve.units g.sequence.reserve.account } := by
    unfold onLedger Action.zoom
    rw [given]
    rfl
  have parts : g.rest + g.sequence.stake =
      g.rest + .refs g.sequence.items + g.sequence.reserve.stake := by
    rw [Sequence.stake]
    abel
  have surrendered : (onLedger (giveBack (.array g.sequence)) g.memory).Meets False _ _ :=
    Reserve.surrender_meets (parts ▸ k.sound.balanced)
  rw [done] at surrendered
  refine ⟨_, done, ?_, surrendered.1⟩
  rw [Ledger.held_takeBack, k.account, if_pos rfl, held, k.units, Nat.add_sub_cancel_left]

/-- Nothing is left of a sequence that is disposed of. -/
theorem Kept.disposes (k : g.Kept total r) :
    ∃ m, g.sequence.dispose g.memory = .done () m ∧ m.Balanced total g.labels g.rest := by
  obtain ⟨_, m, done, released⟩ :=
    (dispose_meets k.sound.balanced k.sized (.inr k.sound.supported)).exists_done
  exact ⟨m, done, released.1⟩

end Setting

end Sequence

open Sequence.Setting in
/-- **Capacity is canonical.**  A sequence is acquired in a balanced memory, and then whatever is
done to it is done or refused, and others use the memory as well.  It always has the least number
of increments its length needs, so there is room for its items, and is charged for just these
slots; without an increment it keeps its initial slots, and more items are refused, as are more
copies than there are slots.  No change breaks anything.  The charge is given back when the items
are taken over, and when the sequence is disposed of the account holds nothing for it any more. -/
theorem capacity_is_canonical {total : Option ℕ} {σ : ℕ → Label} {x : Stake} {m m₁ : Memory}
    {slot : Size} {a : Account} {initial increment : ℕ} {s : Sequence}
    (hb : m.Balanced total σ x) (hout : Heap.OutSupported x m.heap)
    (acquired : Sequence.acquire slot a initial increment m = .done s m₁) {g : Sequence.Setting}
    (run : ReflTransGen (Step total) ⟨s, x, σ, m₁⟩ g) :
    (g.sequence.reserve = ⟨slot, a, initial, increment, g.sequence.reserve.capacity⟩ ∧
      g.sequence.length ≤ g.sequence.reserve.capacity ∧
      ∃ blocks, IsLeast {k | g.sequence.length ≤ initial + k * increment} blocks ∧
        g.sequence.reserve.capacity = initial + blocks * increment) ∧
    g.memory.ledger.held a =
      slot.cost * g.sequence.reserve.capacity + g.memory.dues g.rest a ∧
    (increment = 0 → g.sequence.reserve.capacity = initial ∧
      ∀ drop values, drop ≤ g.sequence.length →
        initial < g.sequence.length - drop + values.length →
        ∃ e, g.sequence.exchange drop values g.memory = .raised e g.memory ∧
          e.condition = .limitCheck) ∧
    (∀ v count, g.sequence.reserve.capacity < g.sequence.length + count →
      ∃ e, g.sequence.fill v count g.memory = .raised e g.memory ∧ e.condition = .limitCheck) ∧
    (∀ c : Sequence.Change, (∀ v ∈ c.values, g.Knows v) →
      ∀ b, c.perform g.sequence g.memory ≠ .broken b) ∧
    (∃ m', onLedger (giveBack (.array g.sequence)) g.memory = .done () m' ∧
      m'.ledger.held a + slot.cost * g.sequence.reserve.capacity = g.memory.ledger.held a ∧
      m'.Balanced total g.labels (g.rest + .refs g.sequence.items)) ∧
    ∃ m', g.sequence.dispose g.memory = .done () m' ∧ m'.ledger.held a = m'.dues g.rest a ∧
      m'.Balanced total g.labels g.rest := by
  have k := (kept_acquired hb hout acquired).after run
  obtain ⟨blocks, needed, capacity⟩ := Reserve.fits_iff.1 k.sized
  have held := k.held
  rw [← k.cost_slot] at held
  have same : g.sequence.reserve.initial = initial ∧ g.sequence.reserve.increment = increment := by
    rw [k.reserve]
    exact ⟨rfl, rfl⟩
  obtain ⟨rfl, rfl⟩ := same
  refine ⟨⟨k.reserve, Reserve.Fits.le_capacity k.sized, blocks, needed, capacity⟩, held,
    fun fixed => ⟨?_, fun drop values present beyond => ?_⟩, fun v count beyond => ?_,
    fun c known => (k.perform_meets known).not_broken, ?_, ?_⟩
  · rw [capacity, fixed, Nat.mul_zero, Nat.add_zero]
  · exact ⟨_, Sequence.exchange_of_fixed fixed present beyond g.memory, rfl⟩
  · exact ⟨_, Sequence.fill_of_beyond beyond g.memory, rfl⟩
  · obtain ⟨m', done, left, hb'⟩ := k.surrenders
    refine ⟨m', done, ?_, hb'⟩
    rw [left, held, Nat.add_comm]
  · obtain ⟨m', done, hb'⟩ := k.disposes
    exact ⟨m', done, hb'.units a, hb'⟩

/-- Seven items take two increments at once, which are given back when six of them are removed.
Meanwhile the change of an eighth is refused. -/
theorem capacity_is_canonical_across_increments :
    ∃ (s : Sequence) (m : Memory) (g : Sequence.Setting),
      Sequence.acquire Sequence.valueSlot .user 2 3 (Memory.empty none false) = .done s m ∧
      ReflTransGen (Sequence.Setting.Step none) ⟨s, 0, fun _ => ⟨.array, .user⟩, m⟩ g ∧
      g.memory.ledger.peak = 192 ∧ g.sequence.length = 1 ∧ g.sequence.reserve.capacity = 2 ∧
      g.memory.ledger.held .user = 24 * 2 + g.memory.dues 0 .user := by
  have supported : Heap.OutSupported 0 (Memory.empty none false).heap := fun i hi => by
    simp [Memory.empty, Heap.content?, Heap.cell?] at hi
  have known (g : Sequence.Setting) (n : ℕ) : ∀ v ∈ List.replicate n Value.null, g.Knows v := by
    intro v hv
    rw [List.eq_of_mem_replicate hv]
    exact Stake.knows_of_handle?_none rfl
  have acquired : Sequence.acquire Sequence.valueSlot .user 2 3 (Memory.empty none false) =
      .done _ _ := rfl
  have grown : ReflTransGen (Sequence.Setting.Step none)
      ⟨⟨⟨Sequence.valueSlot, .user, 2, 3, 2⟩, []⟩, 0, fun _ => ⟨.array, .user⟩,
        ⟨(Memory.empty none false).ledger.grant 48 .user, {}, none⟩⟩ _ :=
    .single (.changes (c := .exchange 0 (List.replicate 7 .null)) (known _ 7) rfl)
  have refused := grown.tail (.declines (c := .set 7 .null) (known _ 1) rfl)
  have shrunk := refused.tail (.changes (c := .pop 6) (known _ 0) rfl)
  have balanced : (Memory.empty none false).Balanced none (fun _ => ⟨.array, .user⟩) 0 :=
    Memory.balanced_empty le_rfl false _
  have canonical := capacity_is_canonical balanced supported acquired shrunk
  exact ⟨_, _, _, acquired, shrunk, rfl, rfl, rfl, canonical.2.1⟩

end StackScript
