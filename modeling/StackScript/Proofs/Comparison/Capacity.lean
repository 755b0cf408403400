import StackScript.Proofs.Comparison.Bookkeeping

/-!
# Comparing a machine with and without a capacity

The same is done to a machine without a capacity and to one with a capacity of `limit` units
(`Capacity.setting`).  All of their state is the same, texts of exceptions and call trails included, for
as long as the peak of the one stays within the capacity of the other.  Beyond that an allocation is
refused that the other is granted, and they are not compared any more.
-/

namespace StackScript

open Likeness

open Metered (peak)

/-! ### When the comparison is given up -/

/-- An allocation has been refused, or an invariant violated. -/
inductive Fate.Failed : Fate → Prop
  | raised (p : ℕ) : Failed (.raised .memoryOverflow p)
  | broken : Failed .broken

theorem Fate.Failed.of_raised {σ α : Type} [Metered σ] {e : Exception} {s : σ}
    (h : e.condition = .memoryOverflow) : (Outcome.raised e s : Outcome σ α).fate.Failed := by
  change Fate.Failed (.raised e.condition (peak s))
  rw [h]
  exact .raised _

/-- More has been in use than a capacity allows. -/
def Fate.Exceeds (limit : ℕ) : Fate → Prop
  | .done p => limit < p
  | .raised _ p => limit < p
  | .broken => True

theorem Fate.Failed.leads {f g : Fate} (h : f.Failed) (hfg : f.Leads g) : g.Failed := by
  cases h with
  | raised p =>
    cases hfg with
    | stays => exact .raised _
    | breaks => exact .broken
  | broken =>
    cases hfg
    exact .broken

theorem Fate.Exceeds.leads {limit : ℕ} {f g : Fate} (h : f.Exceeds limit) (hfg : f.Leads g) :
    g.Exceeds limit := by
  cases hfg with
  | done hp => exact Nat.lt_of_lt_of_le h hp
  | raises hp => exact Nat.lt_of_lt_of_le h hp
  | stays hp => exact Nat.lt_of_lt_of_le h hp
  | breaks => trivial

namespace Capacity

/-- The machine without a capacity has failed, or else the one with a capacity has, and it has been
exceeded. -/
def Lost (limit : ℕ) (f g : Fate) : Prop := f.Failed ∨ g.Failed ∧ f.Exceeds limit

/-- Everything is compared. -/
def likeness (limit : ℕ) : Likeness where
  exact := True
  traced := True
  traces := id
  handles := Eq
  unique := by rintro i i' _ _ rfl rfl; rfl
  lost := Lost limit
  leads h hf hg := h.imp (·.leads hf) fun h => ⟨h.1.leads hg, h.2.leads hf⟩
  broken := .inl .broken
  breached h := absurd trivial h

/-- A ledger without a capacity, and the same one with a capacity that has not been exceeded. -/
structure Ledgers (limit : ℕ) (l k : Ledger) : Prop where
  same : k = { l with total := some limit }
  unbounded : l.total = none
  used : l.used ≤ l.peak
  within : l.peak ≤ limit

variable {limit : ℕ} {α : Type} {l k : Ledger} {μ ν : Memory}

/-! ### The ledger -/

/-- The likeness of two outcomes of work on ledgers. -/
abbrev Tallies (limit : ℕ) (x : Action Ledger α) : Prop :=
  (likeness limit).Parallel (Ledgers limit) Eq x x

/-- Whether an allocation is granted: it is by both, or one refuses and the comparison is lost. -/
inductive Checked (limit : ℕ) (size : Size) (l k : Ledger) : Prop
  | granted (h : l.check size = .ok ()) (h' : k.check size = .ok ()) (hp : l.used + size.cost ≤ limit)
  | refused (c : Cause) (h : l.check size = .error c) (hc : c.condition = .memoryOverflow)
  | exceeded (h : l.check size = .ok ()) (c : Cause) (h' : k.check size = .error c)
    (hc : c.condition = .memoryOverflow) (hp : limit < l.used + size.cost)

theorem Ledgers.check (h : Ledgers limit l k) (size : Size) : Checked limit size l k := by
  obtain ⟨rfl, hl, hu, hp⟩ := h
  have room : l.room = Size.limit - l.used := by
    unfold Ledger.room Ledger.available
    rw [hl]
    rfl
  by_cases hcost : Size.limit - l.used < size.cost ∨ size.cost = Size.limit
  · exact .refused _ (if_pos (room ▸ hcost)) rfl
  · have granted : l.check size = .ok () := if_neg (room ▸ hcost)
    by_cases hover : limit - l.used < size.cost
    · exact .exceeded granted _ (if_pos (.inl hover)) rfl (by omega)
    · exact .granted granted (if_neg (not_or.2 ⟨hover, fun h => hcost (.inr h)⟩)) (by omega)

theorem Ledgers.grant (h : Ledgers limit l k) {cost : ℕ} (hp : l.used + cost ≤ limit) (a : Account) :
    Ledgers limit (l.grant cost a) (k.grant cost a) := by
  obtain ⟨rfl, hl, hu, hw⟩ := h
  cases a <;> exact ⟨rfl, hl, le_max_right _ _, max_le hw hp⟩

theorem tallies_allocate (size : Size) (a : Account) : Tallies limit (Ledger.allocate size a) := by
  intro l k h
  unfold Ledger.allocate
  cases h.check size with
  | granted hl hk hp =>
    rw [hl, hk]
    exact .done rfl (h.grant hp a)
  | refused c hl hc =>
    rw [hl]
    exact .lost (.inl (.of_raised hc))
  | exceeded hl c hk hc hp =>
    rw [hl, hk]
    refine .lost (.inr ⟨.of_raised hc, ?_⟩)
    cases a <;> exact lt_of_lt_of_le hp (le_max_right _ _)

theorem tallies_release (size : Size) (a : Account) : Tallies limit (Ledger.release size a) := by
  rintro l _ ⟨rfl, hl, hu, hw⟩
  unfold Ledger.release
  by_cases hc : size.cost ≤ l.held a ∧ size.cost ≤ l.used
  · rw [if_pos hc, if_pos (by cases a <;> exact hc)]
    cases a <;> exact .done rfl ⟨rfl, hl, (Nat.sub_le _ _).trans hu, hw⟩
  · rw [if_neg hc, if_neg (by cases a <;> exact hc)]
    exact agree_broken _ _

/-- Changing the table of strings. -/
theorem tallies_strings (f : TextMap ℕ → TextMap ℕ) :
    Tallies limit (modify fun l => { l with strings := f l.strings }) := by
  rintro l _ ⟨rfl, hl, hu, hw⟩
  exact .done rfl ⟨rfl, hl, hu, hw⟩

theorem tallies_addReference (text : String) : Tallies limit (Ledger.addReference text) := by
  have rising (f : TextMap ℕ → TextMap ℕ) :
    Action.Rising (modify fun l : Ledger => { l with strings := f l.strings }) := inferInstance
  refine parallel_get_bind ?_
  rintro l _ ⟨rfl, hl, hu, hw⟩
  dsimp only
  cases l.strings.find? text with
  | some count => exact tallies_strings (·.put text (count + 1))
  | none => exact (tallies_allocate _ _).bind fun _ _ _ => tallies_strings (·.put text 1)

theorem tallies_dropReference (text : String) : Tallies limit (Ledger.dropReference text) := by
  refine parallel_get_bind ?_
  rintro l _ ⟨rfl, hl, hu, hw⟩
  dsimp only
  cases l.strings.find? text with
  | none => exact parallel_breach _ _
  | some count =>
    dsimp only
    split
    · exact tallies_strings (·.put text (count - 1))
    · exact (tallies_strings (·.erase text)).bind fun _ _ _ => tallies_release _ _

/-! ### The memory -/

/-- New slots are granted in both memories, or in the one only, or in neither. -/
theorem acquire_agree (slot : Size) (account : Account) (initial increment : ℕ)
    (h : Ledgers limit μ.ledger ν.ledger) :
    (likeness limit).Agree Eq
      (fun u v => Ledgers limit u.ledger v.ledger ∧ u = { μ with ledger := u.ledger } ∧
        v = { ν with ledger := v.ledger })
      (Reserve.acquire slot account initial increment μ)
      (Reserve.acquire slot account initial increment ν) := by
  rw [Reserve.acquire_eq, Reserve.acquire_eq]
  cases h.check (slot.times initial) with
  | granted hl hk hp =>
    rw [hl, hk]
    dsimp only
    split
    · exact .raised (.refl _ _) ⟨h, rfl, rfl⟩
    · exact .done rfl ⟨h.grant hp account, rfl, rfl⟩
  | refused c hl hc =>
    rw [hl]
    exact .lost (.inl (.of_raised hc))
  | exceeded hl c hk hc hp =>
    rw [hl, hk]
    dsimp only
    split
    · exact .lost (.inl (.of_raised rfl))
    · refine .lost (.inr ⟨.of_raised hc, ?_⟩)
      exact lt_of_lt_of_le hp (by cases account <;> exact le_max_right _ _)

/-- The books of the two machines. -/
def books (limit : ℕ) : Bookkeeping where
  toLikeness := likeness limit
  literal := trivial
  same := Iff.rfl
  ledgers := Ledgers limit
  trails := Eq
  debugged _ h := by rw [h]
  forget i _ _ h := by rw [h]
  record h ht := by rw [h, ht trivial]
  allocate := tallies_allocate
  release := tallies_release
  addReference := tallies_addReference
  dropReference := tallies_dropReference
  acquire slot account initial increment _ _ := acquire_agree slot account initial increment

/-- All frames are compared. -/
abbrev setting (limit : ℕ) : Setting := (books limit).setting

end Capacity

/-! ### What is the same -/

/-- The two machines are in the same state, but for the capacity of the other one. -/
structure Machine.SameWithin (limit : ℕ) (m n : Machine) : Prop where
  memory : n.memory = { m.memory with ledger := { m.memory.ledger with total := some limit } }
  operands : n.operands = m.operands
  calls : n.calls = m.calls
  scopes : n.scopes = m.scopes
  pending : n.pending = m.pending
  blockDepth : n.blockDepth = m.blockDepth

namespace Capacity

variable {limit : ℕ} {m n : Machine}

theorem sameWithin (h : (setting limit).Machines m n) : m.SameWithin limit n := by
  obtain ⟨operands, calls, scopes, pending, blockDepth⟩ := Bookkeeping.eq_of_machines h
  refine ⟨?_, operands.symm, calls.symm, scopes.symm, pending.symm, blockDepth.symm⟩
  have hmem : (books limit).Memories m.memory n.memory := h.memory
  have trails : m.memory.trails = n.memory.trails := hmem.trails
  have ledger : Ledgers limit m.memory.ledger n.memory.ledger := hmem.ledger
  rw [← ledger.same]
  change n.memory = ⟨n.memory.ledger, m.memory.heap, m.memory.trails⟩
  rw [hmem.heap, trails]

end Capacity

end StackScript
