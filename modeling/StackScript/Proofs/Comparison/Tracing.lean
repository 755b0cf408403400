import StackScript.Proofs.Comparison.Lasting

/-!
# Comparing a machine with and without trails

The same is done to a machine that records no trails and to one that does (`Tracing.setting`).  All of
their state but the trails is the same, the ledger included, until one of them violates an invariant.

A machine that records trails goes on recording them, which is seen by comparing it with itself
(`Tracing.kept`).
-/

namespace StackScript

open Likeness

namespace Tracing

theorem handles_unique {i i' j j' : Handle} : i = j → i' = j' → (i = i' ↔ j = j') := by
  rintro rfl rfl
  rfl

/-- Everything but the trails of allocations is compared. -/
def likeness : Likeness where
  exact := True
  traced := False
  traces := False.elim
  handles := Eq
  unique := @handles_unique
  lost f g := f = .broken ∨ g = .broken
  leads h hf hg := by
    refine h.imp (fun h => ?_) fun h => ?_
    · subst h
      cases hf
      rfl
    · subst h
      cases hg
      rfl
  broken := .inl rfl
  breached _ := ⟨.inl rfl, .inr rfl⟩

/-- Everything is compared. -/
def wholly : Likeness where
  exact := True
  traced := True
  traces := id
  handles := Eq
  unique := @handles_unique
  lost f g := f = .broken ∧ g = .broken
  leads h hf hg := by
    obtain ⟨rfl, rfl⟩ := h
    cases hf
    cases hg
    exact ⟨rfl, rfl⟩
  broken := ⟨rfl, rfl⟩
  breached h := absurd trivial h

variable {σ α β : Type} {C : Likeness} {μ ν : Memory} {m : Machine}

theorem parallel_refl [Metered σ] (x : Action σ α) : C.Parallel Eq Eq x x := by
  rintro l _ rfl
  cases x l with
  | done a k => exact .done rfl rfl
  | raised e k => exact .raised (.refl _ e) rfl
  | broken b => exact agree_broken b b

/-- New slots are granted in both memories or in neither. -/
theorem acquire_agree (slot : Size) (account : Account) (initial increment : ℕ)
    (h : μ.ledger = ν.ledger) :
    C.Agree Eq
      (fun u v => u.ledger = v.ledger ∧ u = { μ with ledger := u.ledger } ∧
        v = { ν with ledger := v.ledger })
      (Reserve.acquire slot account initial increment μ)
      (Reserve.acquire slot account initial increment ν) := by
  rw [Reserve.acquire_eq, Reserve.acquire_eq, ← h]
  cases μ.ledger.check (slot.times initial) with
  | error c => exact .raised (.refl _ _) ⟨h, rfl, rfl⟩
  | ok _ =>
    dsimp only
    split
    · exact .raised (.refl _ _) ⟨h, rfl, rfl⟩
    · exact .done rfl ⟨rfl, rfl, rfl⟩

/-- The books of the two machines: the one records no trails. -/
def books : Bookkeeping where
  toLikeness := likeness
  literal := trivial
  same := Iff.rfl
  ledgers := Eq
  trails o p := o = none ∧ p.isSome
  debugged := False.elim
  forget i _ _ h := ⟨by rw [h.1]; rfl, by rw [Option.isSome_map]; exact h.2⟩
  record h _ := ⟨by rw [h.1]; rfl, by rw [Option.isSome_map]; exact h.2⟩
  allocate size a := parallel_refl (Ledger.allocate size a)
  release size a := parallel_refl (Ledger.release size a)
  addReference text := parallel_refl (Ledger.addReference text)
  dropReference text := parallel_refl (Ledger.dropReference text)
  acquire slot account initial increment _ _ := acquire_agree slot account initial increment

/-- All frames are compared. -/
abbrev setting : Setting := books.setting

theorem lasting_books : books.Lasting := fun _ _ _ _ h hf hg => h.imp hf hg

/-! ### Trails are kept -/

/-- The books of a machine that records trails, compared with themselves. -/
def kept : Bookkeeping where
  toLikeness := wholly
  literal := trivial
  same := Iff.rfl
  ledgers := Eq
  trails o p := o = p ∧ p.isSome
  debugged _ h := by rw [h.1]
  forget i _ _ h := ⟨by rw [h.1], by rw [Option.isSome_map]; exact h.2⟩
  record h ht := ⟨by rw [h.1, ht trivial], by rw [Option.isSome_map]; exact h.2⟩
  allocate size a := parallel_refl (Ledger.allocate size a)
  release size a := parallel_refl (Ledger.release size a)
  addReference text := parallel_refl (Ledger.addReference text)
  dropReference text := parallel_refl (Ledger.dropReference text)
  acquire slot account initial increment _ _ := acquire_agree slot account initial increment

theorem lasting_kept : kept.Lasting := fun _ _ _ _ h hf hg => h.imp hf hg

theorem kept_refl (h : m.memory.debug = true) : kept.setting.Machines m m where
  memory := ⟨rfl, rfl, rfl, h⟩
  operands := Bookkeeping.sequences_iff.2 rfl
  calls := Bookkeeping.stacks_refl m.calls
  scopes := Bookkeeping.sequences_iff.2 rfl
  pending := by
    cases m.pending with
    | none => exact .none
    | some p => exact .some ⟨.refl _ _, fun _ => rfl⟩
  blockDepth := rfl
  throws := rfl
  budget := rfl

theorem debug_of_kept (h : kept.setting.Machines m m) : m.memory.debug = true := by
  have memories : kept.Memories m.memory m.memory := h.memory
  have trails : m.memory.trails = m.memory.trails ∧ m.memory.trails.isSome := memories.trails
  exact trails.2

/-- What an action leaves goes together with itself. -/
theorem rel_of_state? [Metered σ] {R : σ → σ → Prop} {A : α → α → Prop} {o : Outcome σ α} {t : σ}
    (h : wholly.Agree A R o o) (ht : o.state? = some t) : R t t := by
  cases h with
  | done _ h =>
    cases ht
    exact h
  | raised _ h =>
    cases ht
    exact h
  | lost h =>
    obtain ⟨b, hb⟩ := Outcome.fate_eq_broken h.1
    rw [hb] at ht
    cases ht

end Tracing

/-- A machine that records trails goes on recording them. -/
theorem Reached.debug {χ : Type} {m₀ : Machine} {owned : List Value} {s : Session χ}
    (h₀ : m₀.memory.debug = true) (h : Reached m₀ owned s) : s.machine.memory.debug = true := by
  have sessions {s : Session χ} (h : s.machine.memory.debug = true) :
      Tracing.kept.setting.Sessions s s := ⟨Tracing.kept_refl h, rfl⟩
  induction h with
  | start host => exact h₀
  | @answered _ _ s r _ m _ _ _ hm ih =>
    have alike := Bookkeeping.perform_agree r (Tracing.kept_refl ih)
    exact Tracing.debug_of_kept (Tracing.rel_of_state? alike (by rw [hm]; rfl))
  | @refused _ _ s r _ m _ _ _ hm ih =>
    have alike := Bookkeeping.perform_agree r (Tracing.kept_refl ih)
    exact Tracing.debug_of_kept (Tracing.rel_of_state? alike (by rw [hm]; rfl))
  | @execute _ s work m _ _ hm ih =>
    have alike := Bookkeeping.execute_agree (Tracing.kept_refl ih) work
    exact Tracing.debug_of_kept (Tracing.rel_of_state? alike hm)
  | cycle _ _ ht ih =>
    have alike := Tracing.rel_of_state? (Tracing.lasting_kept.cycle_agree (sessions ih)) ht
    exact Tracing.debug_of_kept alike.machine
  | run _ _ ht ih =>
    have alike := Tracing.rel_of_state? (Tracing.lasting_kept.run_agree _ (sessions ih)) ht
    exact Tracing.debug_of_kept alike.machine
  | complete _ _ ht ih =>
    have alike := Tracing.rel_of_state? (Tracing.lasting_kept.runToCompletion_agree (sessions ih)) ht
    exact Tracing.debug_of_kept alike.machine

end StackScript
