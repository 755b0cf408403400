import Mathlib.Logic.Relation
import StackScript.Memory.Object
import StackScript.Proofs.Memory.Ledger

/-!
# Charges are exact

Counts and costs saturate, and a saturated cost is never granted.  So nothing is granted for less
than its exact cost `Size.units`, and what is used never exceeds what the counters can count.

* `Size.cost_times` and `Size.cost_plus`: the cost of copies and of two sizes together is the exact
  one, cut off at the limit;
* `Ledger.allocate_of_hasRoom` and `Ledger.allocate_of_not_hasRoom`: an allocation is granted, at
  its exact cost, if that is countable and fits, and otherwise it is refused;
* `Ledger.Books` is a ledger that serves others besides a container, which asks for one block of
  slots after the other.  Whatever is asked, in whichever order and with whatever answers, the books
  are kept (`Ledger.Books.Kept.after`), so all the slots can be given back at once, for what was
  charged for the blocks (`charges_are_exact`).
-/

namespace StackScript

open Relation (ReflTransGen)

theorem Size.cost_plus (s t : Size) : (s.plus t).cost = min (s.units + t.units) Size.limit := by
  rw [cost_eq_min]
  simp only [units, plus, saturate, integerWeight, pointerWeight, valueWeight]
  omega

namespace Ledger

variable {total : Option ℕ} {l l' : Ledger} {size slot : Size} {a : Account}

/-! ### Granting and refusing -/

/-- All that can be granted together: the capacity, or what the counters can count. -/
def bound (l : Ledger) : ℕ := l.total.getD Size.limit

/-- The exact cost is told from a saturated one, and there is room for it. -/
def HasRoom (l : Ledger) (size : Size) : Prop :=
  size.units < Size.limit ∧ l.used + size.units ≤ l.bound

theorem room_eq_bound_sub (l : Ledger) : l.room = l.bound - l.used := by
  unfold room available bound
  cases l.total <;> rfl

theorem used_grant (l : Ledger) (n : ℕ) (a : Account) : (l.grant n a).used = l.used + n := by
  cases a <;> rfl

theorem used_takeBack (l : Ledger) (n : ℕ) (a : Account) : (l.takeBack n a).used = l.used - n := by
  cases a <;> rfl

/-- What fits is granted, for its exact cost. -/
theorem allocate_of_hasRoom (h : l.HasRoom size) (a : Account) :
    allocate size a l = .done () (l.grant size.units a) := by
  obtain ⟨countable, fits⟩ := h
  have exact : size.cost = size.units := by
    rw [Size.cost_eq_min]
    omega
  have room := l.room_eq_bound_sub
  unfold allocate check
  rw [exact, if_neg (by omega)]

/-- What does not fit is refused, and so is what cannot be counted. -/
theorem allocate_of_not_hasRoom (used : l.used ≤ l.bound) (h : ¬ l.HasRoom size) (a : Account) :
    allocate size a l = .raised (Cause.overflow size.cost l.room).exception l := by
  have cost := size.cost_eq_min
  have room := l.room_eq_bound_sub
  unfold HasRoom at h
  unfold allocate check
  rw [if_pos (by omega)]

theorem allocate_done {n : ℕ} (h : l.Exact total) (hs : size.cost = min n Size.limit)
    (granted : allocate size a l = .done () l') : l' = l.grant n a ∧ l'.Exact total := by
  have granting : (allocate size a l).Meets True _ _ := allocate_meets h hs
  rwa [granted] at granting

theorem allocate_raised {e : Exception} (refused : allocate size a l = .raised e l') : l' = l := by
  unfold allocate at refused
  split at refused
  · cases refused
    rfl
  · cases refused

/-! ### Books -/

/-- A ledger that serves a container and others, and what it has charged them. -/
structure Books where
  ledger : Ledger
  /-- Slots the container has been granted. -/
  slots : ℕ := 0
  /-- What the ledger charged for them. -/
  charged : ℕ := 0
  /-- What others have been charged and have not given back. -/
  others : Account → ℕ := fun _ => 0

namespace Books

/-- The books before anything is asked. -/
def opened (total : Option ℕ) : Books where
  ledger := { total := total }

/-- One call of the ledger, as it goes on the books.  The container, for which the account `a` pays,
asks for another block of slots; others ask for memory and give back some of theirs; and references
to texts are taken and given up.  What is refused is not charged to anybody. -/
inductive Entry (slot : Size) (a : Account) (b : Books) : Books → Prop
  | block {n : ℕ} {l : Ledger} (granted : allocate (slot.times n) a b.ledger = .done () l) :
    Entry slot a b { b with
      ledger := l
      slots := b.slots + n
      charged := b.charged + (l.used - b.ledger.used) }
  | lend {s : Size} {c : Account} {l : Ledger}
      (granted : allocate s c b.ledger = .done () l) :
    Entry slot a b { b with
      ledger := l
      others := fun d => b.others d + if d = c then s.cost else 0 }
  | decline {s : Size} {c : Account} {e : Exception} {l : Ledger}
      (refused : allocate s c b.ledger = .raised e l) : Entry slot a b { b with ledger := l }
  | giveBack {s : Size} {c : Account} {l : Ledger} (owed : s.cost ≤ b.others c)
      (returned : release s c b.ledger = .done () l) :
    Entry slot a b { b with
      ledger := l
      others := fun d => b.others d - if d = c then s.cost else 0 }
  | refer {text : String} {l : Ledger} (granted : addReference text b.ledger = .done () l) :
    Entry slot a b { b with ledger := l }
  | leaveOut {text : String} {e : Exception} {l : Ledger}
      (refused : addReference text b.ledger = .raised e l) : Entry slot a b { b with ledger := l }
  | forget {text : String} {l : Ledger} (dropped : dropReference text b.ledger = .done () l) :
    Entry slot a b { b with ledger := l }

/-- The books say what the accounts hold, and the container was charged for its slots, no more and
no less. -/
structure Kept (total : Option ℕ) (slot : Size) (a : Account) (b : Books) : Prop where
  exact : b.ledger.Exact total
  tabled : b.ledger.Tabled
  charged : b.charged = slot.units * b.slots
  held : ∀ c, b.ledger.held c =
    (if c = a then b.charged else 0) + b.others c + b.ledger.textShare c

variable {b b' : Books}

theorem kept_opened (countable : total.getD Size.limit ≤ Size.limit) (slot : Size) (a : Account) :
    (opened total).Kept total slot a where
  exact := ⟨rfl, countable, rfl, le_rfl, Nat.zero_le _⟩
  tabled := ⟨List.nodup_nil, nofun⟩
  charged := rfl
  held c := by cases c <;> simp [opened, Ledger.held, textShare, textUnits]

/-- Texts come and go at the expense of the account of strings, and of nobody's share of it. -/
theorem Kept.retabled (k : b.Kept total slot a) (h : b.ledger.Retabled total l) :
    Kept total slot a { b with ledger := l } where
  exact := h.exact
  tabled := h.tabled
  charged := k.charged
  held c := by
    have held := k.held c
    have share := h.share c
    dsimp only
    omega

theorem textShare_grant (l : Ledger) (n : ℕ) (a c : Account) :
    (l.grant n a).textShare c = l.textShare c := by
  simp only [textShare, textUnits, strings_grant]

theorem textShare_takeBack (l : Ledger) (n : ℕ) (a c : Account) :
    (l.takeBack n a).textShare c = l.textShare c := by
  simp only [textShare, textUnits, strings_takeBack]

/-- Units that are granted are somebody's. -/
theorem Kept.granted (k : b.Kept total slot a) {c : Account} {n : ℕ}
    (he : (b.ledger.grant n c).Exact total) {slots charged : ℕ} {others : Account → ℕ}
    (hc : charged = slot.units * slots)
    (shares : ∀ d, (if d = a then charged else 0) + others d =
      (if d = a then b.charged else 0) + b.others d + if d = c then n else 0) :
    Kept total slot a ⟨b.ledger.grant n c, slots, charged, others⟩ where
  exact := he
  tabled := ⟨by simpa using k.tabled.nodup, by simpa using k.tabled.positive⟩
  charged := hc
  held d := by
    rw [held_grant, textShare_grant, k.held, shares d]
    omega

/-- A block that is granted is charged its exact cost. -/
theorem Kept.block (k : b.Kept total slot a) {n : ℕ}
    (granted : allocate (slot.times n) a b.ledger = .done () l) :
    Kept total slot a { b with
      ledger := l
      slots := b.slots + n
      charged := b.charged + (l.used - b.ledger.used) } := by
  obtain ⟨rfl, he⟩ := allocate_done k.exact (Size.cost_times slot n) granted
  rw [used_grant, Nat.add_sub_cancel_left]
  refine k.granted he ?_ fun d => ?_
  · rw [k.charged, Nat.mul_add]
  · split <;> omega

/-- What others are granted is not saturated. -/
theorem Kept.lend (k : b.Kept total slot a) {c : Account}
    (granted : allocate size c b.ledger = .done () l) :
    Kept total slot a { b with
      ledger := l
      others := fun d => b.others d + if d = c then size.cost else 0 } := by
  obtain ⟨rfl, he⟩ := allocate_done k.exact size.cost_eq_min granted
  -- what has been granted can be counted, so the cost was not cut off
  have exact : size.cost = size.units := by
    have used := he.used_le_limit
    have cost := size.cost_eq_min
    rw [used_grant] at used
    omega
  rw [exact]
  refine k.granted he k.charged fun d => ?_
  omega

/-- Others give back what is theirs. -/
theorem Kept.giveBack (k : b.Kept total slot a) {c : Account} (owed : size.cost ≤ b.others c)
    (returned : release size c b.ledger = .done () l) :
    Kept total slot a { b with
      ledger := l
      others := fun d => b.others d - if d = c then size.cost else 0 } := by
  have fits : size.cost ≤ b.ledger.held c := by
    rw [k.held]
    omega
  have exact : size.cost = min size.cost Size.limit := by
    have cost := size.cost_eq_min
    omega
  rw [Ledger.release_eq k.exact exact fits] at returned
  cases returned
  refine ⟨k.exact.takeBack fits, ⟨?_, ?_⟩, k.charged, fun d => ?_⟩
  · simpa using k.tabled.nodup
  · simpa using k.tabled.positive
  · dsimp only
    rw [held_takeBack, textShare_takeBack, k.held]
    by_cases hd : d = c
    · subst hd
      simp only [if_true]
      omega
    · simp only [hd, if_false]
      omega

/-- A text that is given up was referred to, and paid for. -/
theorem Kept.forget (k : b.Kept total slot a) {text : String}
    (dropped : dropReference text b.ledger = .done () l) :
    Kept total slot a { b with ledger := l } := by
  have referred : 0 < b.ledger.references text := by
    rw [dropReference_apply] at dropped
    cases hf : b.ledger.strings.find? text with
    | none =>
      rw [hf] at dropped
      cases dropped
    | some n =>
      obtain ⟨left, right, hs, -⟩ := TextMap.exists_split hf
      have positive := k.tabled.positive (text, n) (by simp [hs])
      rwa [references, hf]
  have paid : b.ledger.textUnits ≤ b.ledger.string := by
    have held := k.held .string
    simp only [Ledger.held, textShare, if_true] at held
    omega
  have dropping : (dropReference text b.ledger).Meets True _ _ :=
    dropReference_meets k.exact k.tabled referred paid
  rw [dropped] at dropping
  exact k.retabled dropping.1

/-- **An entry keeps the books.** -/
theorem Kept.step (k : b.Kept total slot a) (h : b.Entry slot a b') : b'.Kept total slot a := by
  cases h with
  | block granted => exact k.block granted
  | lend granted => exact k.lend granted
  | decline refused =>
    rw [allocate_raised refused]
    exact k
  | giveBack owed returned => exact k.giveBack owed returned
  | @refer text l granted =>
    have adding : (addReference text b.ledger).Meets True _ _ :=
      addReference_meets k.exact k.tabled text
    rw [granted] at adding
    exact k.retabled adding.1
  | @leaveOut text e l refused =>
    have adding : (addReference text b.ledger).Meets True _ _ :=
      addReference_meets k.exact k.tabled text
    rw [refused] at adding
    rw [adding.1]
    exact k
  | forget dropped => exact k.forget dropped

/-- **Books are kept** whatever is asked. -/
theorem Kept.after (k : b.Kept total slot a) (h : ReflTransGen (Entry slot a) b b') :
    b'.Kept total slot a := by
  induction h with
  | refl => exact k
  | tail _ entry ih => exact ih.step entry

/-- All the slots are given back for what they were charged. -/
theorem Kept.release_eq (k : b.Kept total slot a) :
    release (slot.times b.slots) a b.ledger = .done () (b.ledger.takeBack b.charged a) := by
  refine Ledger.release_eq k.exact ?_ ?_
  · rw [k.charged]
    exact Size.cost_times slot b.slots
  · rw [k.held, if_pos rfl]
    omega

end Books

end Ledger

open Ledger (allocate release)

/-- **Saturated sizes never fool the ledger.**  The cost of copies of a size and of two sizes
together is their exact cost, cut off at the limit.  A ledger that has used no more than its
capacity grants a size if its exact cost is below the limit and fits, and then charges just that
cost, and otherwise refuses it and stays as it is.  However a ledger is used, what it uses is at
most its capacity, so no counter wraps, and a container that has been granted one block of slots
after the other has been charged the exact cost of all of them, which it gets back by giving them
back at once. -/
theorem charges_are_exact {total : Option ℕ} (countable : total.getD Size.limit ≤ Size.limit) :
    (∀ (s : Size) (n : ℕ), (s.times n).cost = min (n * s.units) Size.limit) ∧
    (∀ s t : Size, (s.plus t).cost = min (s.units + t.units) Size.limit) ∧
    (∀ (l : Ledger) (size : Size) (a : Account), l.used ≤ l.bound →
      (l.HasRoom size → allocate size a l = .done () (l.grant size.units a) ∧
        (l.grant size.units a).used = l.used + size.units) ∧
      (¬ l.HasRoom size → ∃ e, allocate size a l = .raised e l ∧ e.condition = .memoryOverflow)) ∧
    ∀ (slot : Size) (a : Account) (b : Ledger.Books),
      ReflTransGen (Ledger.Books.Entry slot a) (.opened total) b →
        b.ledger.used ≤ b.ledger.bound ∧ b.ledger.bound ≤ Size.limit ∧
        (∀ c, b.ledger.held c ≤ b.ledger.used) ∧
        b.charged = b.slots * slot.units ∧
        ∃ l', release (slot.times b.slots) a b.ledger = .done () l' ∧
          l'.used + b.charged = b.ledger.used ∧ l'.held a + b.charged = b.ledger.held a := by
  refine ⟨fun s n => ?_, Size.cost_plus, fun l size a used => ⟨fun fits => ?_, fun unfit => ?_⟩,
    fun slot a b entries => ?_⟩
  · rw [Size.cost_times, Nat.mul_comm]
  · exact ⟨Ledger.allocate_of_hasRoom fits a, l.used_grant size.units a⟩
  · exact ⟨_, Ledger.allocate_of_not_hasRoom used unfit a, rfl⟩
  · have kept := (Ledger.Books.kept_opened countable slot a).after entries
    have capacity : b.ledger.bound = total.getD Size.limit := by
      rw [Ledger.bound, kept.exact.capacity]
    have own : b.charged ≤ b.ledger.held a := by
      rw [kept.held, if_pos rfl]
      omega
    have held := kept.exact.held_le_used
    refine ⟨?_, capacity ▸ countable, held, ?_, _, kept.release_eq, ?_, ?_⟩
    · exact capacity ▸ Nat.le_trans kept.exact.used_le kept.exact.peak_le
    · rw [kept.charged, Nat.mul_comm]
    · rw [Ledger.used_takeBack]
      exact Nat.sub_add_cancel (Nat.le_trans own (held a))
    · rw [Ledger.held_takeBack, if_pos rfl]
      exact Nat.sub_add_cancel own

/-- All but 120 units are lent.  Blocks of three slots and of two are granted, to the last unit, and
one whose cost saturates is not.  The five slots are worth just these 120 units. -/
theorem charges_are_exact_to_the_last_unit : ∃ b : Ledger.Books,
    (none : Option ℕ).getD Size.limit ≤ Size.limit ∧
    ReflTransGen (Ledger.Books.Entry Sequence.valueSlot .user) (.opened none) b ∧
    b.slots = 5 ∧ b.ledger.used = Size.limit ∧ b.charged = 120 ∧
    ∃ l', release (Sequence.valueSlot.times 5) .user b.ledger = .done () l' ∧
      l'.used + 120 = Size.limit := by
  have lent : ReflTransGen (Ledger.Books.Entry Sequence.valueSlot .user) (.opened none) _ :=
    .single (.lend (s := { bytes := Size.limit - 120 }) (c := .system) rfl)
  have three := lent.tail (.block (n := 3) rfl)
  have saturated := three.tail
    (.decline (s := Sequence.valueSlot.times (Size.limit / 4)) (c := .user) rfl)
  have entries := saturated.tail (.block (n := 2) rfl)
  obtain ⟨used, -, -, charged, l', given, rest, -⟩ :=
    (charges_are_exact le_rfl).2.2.2 Sequence.valueSlot .user _ entries
  exact ⟨_, le_rfl, entries, rfl, rfl, charged, l', given, rest⟩

end StackScript
