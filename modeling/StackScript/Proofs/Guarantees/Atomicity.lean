import StackScript.Proofs.Machine.Bootstrap
import StackScript.Proofs.Machine.Reached
import StackScript.Proofs.Machine.Restoration

/-!
# All or nothing

What is done to a container is done as a whole or not at all.  A container is worked on outside the
heap: it is one of the stacks, or it has been taken out of its cell (`Memory.Opens`).  Whichever
charge is refused on the way, a failed operation has restored the memory; one that succeeds has made
the whole change, also if a value it stores is among those it removes, or is the container itself
(`containers_change_as_a_whole`).

So is what is done to the call stack (`call_stack_changes_as_a_whole`), with one exception.  The first
local of a frame needs a dictionary to be bound in, and if the entry is refused after the dictionary
was granted the frame keeps it (`setLocal_may_leave_locals`).
-/

namespace StackScript

open Memory (Achieves retainAll newArray newFilledArray newDictionary)

namespace Memory

variable {total : Option ℕ} {σ : ℕ → Label} {x y : Stake} {m m₁ : Memory} {o : Object}

/-- How a container comes to be worked on, in which memory and beside which rest of what is held:
it is held outside the heap, or it has been taken out of its cell, which something holds that the
container does not hold itself. -/
inductive Opens (m : Memory) (x : Stake) (o : Object) : Stake → Memory → Prop
  | outside {y : Stake} (h : x = y + o.stake) : Opens m x o y m
  | taken {i : ℕ} {c : Cell} (hc : m.heap.cell? i = some c) (ho : c.object = some o)
    (ha : m.heap.Anchored x i) : Opens m x o x { m with heap := m.heap.lent i c }

theorem Opens.balanced (h : m.Opens x o y m₁) (hb : m.Balanced total σ x) :
    m₁.Balanced total σ (y + o.stake) := by
  cases h with
  | outside h => exact h ▸ hb
  | taken hc ho ha => exact hb.lent hc ho

theorem Opens.outSupported (h : m.Opens x o y m₁) (hp : m.heap.Present) :
    Heap.OutSupported y m₁.heap := by
  cases h with
  | outside h => exact hp.outSupported _
  | taken hc ho ha => exact Heap.outSupported_lent hp hc ha

theorem Opens.stake_eq (h : m.Opens x o y m₁) : y + o.stake + m₁.heap.stake = x + m.heap.stake := by
  cases h with
  | outside h => rw [h]
  | taken hc ho ha => exact stake_lent hc ho

variable {s : Sequence} {d : Dictionary} {v : Value}

theorem Opens.achieves_exchange (h : m.Opens x (.array s) y m₁) (hb : m.Balanced total σ x)
    (hp : m.heap.Present) (drop : ℕ) {values : List Value}
    (hv : ∀ v ∈ values, (x + m.heap.stake).Knows v) :
    Achieves (s.exchange drop values) m₁ fun s' m' =>
      s'.items = values.reverse ++ s.items.drop drop ∧ s.Resized s' ∧
        m'.Balanced total σ (y + s'.stake) ∧ m₁.Loses y m' := by
  rw [← h.stake_eq] at hv
  exact Sequence.achieves_exchange (h.balanced hb) drop hv (h.outSupported hp)

theorem Opens.achieves_set (h : m.Opens x (.array s) y m₁) (hb : m.Balanced total σ x)
    (hp : m.heap.Present) (index : ℕ) (hv : (x + m.heap.stake).Knows v) :
    Achieves (s.set index v) m₁ fun s' m' =>
      s' = s.replace index v ∧ m'.Balanced total σ (y + s'.stake) ∧ m₁.Loses y m' := by
  have balanced : m₁.Balanced total σ (y + s.stake) := h.balanced hb
  rw [← h.stake_eq] at hv
  have stored : (s.set index v m₁).Meets False _ _ :=
    Sequence.set_meets balanced hv (.inr (h.outSupported hp))
  exact (achieves_of_meets balanced (stored.mono (fun _ _ h => h) fun _ h => h ▸ balanced)
    (s.set_refused balanced.has index v)).mono fun _ _ h => h.1

theorem Opens.achieves_define (h : m.Opens x (.dictionary d) y m₁) (hb : m.Balanced total σ x)
    (hp : m.heap.Present) (name : String) (hv : (x + m.heap.stake).Knows v) :
    Achieves (d.define name v) m₁ fun d' m' =>
      d' = { d with entries := d.entries.put name v } ∧
        m'.Balanced total σ (y + Object.stake (.dictionary d')) ∧ m₁.Loses y m' := by
  have balanced := h.balanced hb
  rw [← h.stake_eq] at hv
  have defined : (d.define name v m₁).Meets False _ _ :=
    Dictionary.define_meets balanced hv (.inr (h.outSupported hp))
  exact (achieves_of_meets balanced (defined.mono (fun _ _ h => h) fun _ h => h.1)
    (d.define_refused balanced.has name v)).mono fun _ _ h => h.1

end Memory

/-- **Containers change as a whole or not at all**: from a balanced memory whose containers are all
there, an operation on known values restores the memory if it fails, at whichever step; if it
succeeds what it was asked for is there, and all counts and charges are those of what is held
then. -/
theorem containers_change_as_a_whole {total : Option ℕ} {σ : ℕ → Label} {x : Stake} {m : Memory}
    (hb : m.Balanced total σ x) (hp : m.heap.Present) :
    (∀ vs, (∀ v ∈ vs, (x + m.heap.stake).Knows v) →
      (Achieves (retainAll vs) m fun _ m' =>
        m'.Balanced total σ (x + .refs vs) ∧ m'.Has (Cells.lend m.heap.cell? vs)) ∧
      ∀ a trail, Achieves (newArray a vs trail) m fun i m' =>
        Memory.Created total σ x m ⟨.array, a⟩ i m' ∧ ∃ s : Sequence, s.toList = vs ∧
          m'.Has (Cells.build m.heap.cell? i (.array s))) ∧
    (∀ v, (x + m.heap.stake).Knows v → ∀ a length trail,
      Achieves (newFilledArray a length v trail) m fun i m' =>
        Memory.Created total σ x m ⟨.array, a⟩ i m' ∧
          ∃ s : Sequence, s.toList = List.replicate length v ∧
            m'.Has (Cells.build m.heap.cell? i (.array s))) ∧
    (∀ a trail, Achieves (newDictionary a trail) m fun i m' =>
      Memory.Created total σ x m ⟨.dictionary, a⟩ i m' ∧ ∃ d : Dictionary, d.values = [] ∧
        m'.Has (Cells.build m.heap.cell? i (.dictionary d))) ∧
    (∀ s y m₁, m.Opens x (.array s) y m₁ →
      (∀ drop values, (∀ v ∈ values, (x + m.heap.stake).Knows v) →
        Achieves (s.exchange drop values) m₁ fun s' m' =>
          s'.items = values.reverse ++ s.items.drop drop ∧ s.Resized s' ∧
            m'.Balanced total σ (y + s'.stake) ∧ m₁.Loses y m') ∧
      ∀ index v, (x + m.heap.stake).Knows v →
        Achieves (s.set index v) m₁ fun s' m' =>
          s' = s.replace index v ∧ m'.Balanced total σ (y + s'.stake) ∧ m₁.Loses y m') ∧
    (∀ d y m₁, m.Opens x (.dictionary d) y m₁ → ∀ name v, (x + m.heap.stake).Knows v →
      Achieves (d.define name v) m₁ fun d' m' =>
        d' = { d with entries := d.entries.put name v } ∧
          m'.Balanced total σ (y + Object.stake (.dictionary d')) ∧ m₁.Loses y m') ∧
    ∀ i, m.heap.Anchored x i → ∀ v, (x + m.heap.stake).Knows v →
      (∀ s, m.heap.object? i = some (.array s) → ∀ index,
        Achieves (Memory.setItem i index v) m fun _ m' =>
          Memory.Modified total σ x m i (.array (s.replace index v)) m') ∧
      ∀ d, m.heap.object? i = some (.dictionary d) → ∀ name,
        Achieves (Memory.define i name v) m fun _ m' =>
          Memory.Modified total σ x m i
            (.dictionary { d with entries := d.entries.put name v }) m' := by
  refine ⟨fun vs hvs => ⟨?_, fun a trail => ?_⟩, fun v hv a length trail => ?_, fun a trail => ?_,
    fun s y m₁ h => ⟨fun drop values hv => ?_, fun index v hv => ?_⟩,
    fun d y m₁ h name v hv => ?_, fun i ha v hv => ⟨fun s ho index => ?_, fun d ho name => ?_⟩⟩
  · exact Memory.achieves_retainAll hb hp hvs
  · exact Memory.achieves_newArray hb hp a hvs trail
  · exact Memory.achieves_newFilledArray hb hp a length hv trail
  · exact Memory.achieves_newDictionary hb a trail
  · exact h.achieves_exchange hb hp drop hv
  · exact h.achieves_set hb hp index hv
  · exact h.achieves_define hb hp name hv
  · exact Memory.achieves_setItem hb hp ho ha index hv
  · exact Memory.achieves_define hb hp ho ha name hv

/-- Two strings are pushed and the second is refused, so the first is given up again; only the peak
tells of it. -/
theorem containers_change_as_a_whole_when_refused :
    ∃ (s : Sequence) (m m' : Memory) (e : Exception),
      Sequence.acquire Sequence.valueSlot .user 2 0 (Memory.empty (some 60) false) = .done s m ∧
        s.exchange 0 [.string "a", .string "bcd"] m = .raised e m' ∧ m.Restored m' ∧
          m.ledger.peak = 48 ∧ m'.ledger.peak = 57 := by
  have empty : (Memory.empty (some 60) false).Balanced (some 60) (fun _ => ⟨.array, .user⟩) 0 :=
    Memory.balanced_empty (by decide) false _
  have acquired : (Sequence.acquire Sequence.valueSlot .user 2 0
      (Memory.empty (some 60) false)).Meets False _ _ :=
    Sequence.acquire_meets empty Sequence.valueSlot .user 2 0
  cases hs : Sequence.acquire Sequence.valueSlot .user 2 0 (Memory.empty (some 60) false) with
  | done s m =>
    rw [hs] at acquired
    obtain ⟨-, -, balanced, same⟩ := acquired
    have present : m.heap.Present := fun i hi => by
      rw [same.content, Heap.content?] at hi
      simp [Memory.empty, Heap.cell?] at hi
    have pushed := ((containers_change_as_a_whole balanced present).2.2.2.1 s 0 m
      (.outside rfl)).1 0 [.string "a", .string "bcd"]
        (by simp [Stake.Knows, Value.string, Value.handle?])
    obtain ⟨e, m', refused, before, after⟩ : ∃ e m',
        s.exchange 0 [.string "a", .string "bcd"] m = .raised e m' ∧ m.ledger.peak = 48 ∧
          m'.ledger.peak = 57 := by
      cases hs
      exact ⟨_, _, rfl, rfl, rfl⟩
    rw [Memory.Achieves, refused] at pushed
    exact ⟨s, m, m', e, rfl, refused, pushed, before, after⟩
  | raised e m => cases hs
  | broken b => cases hs

/-! ### The call stack -/

/-- **The call stack changes as a whole or not at all**: a frame, of a value or of a supply, is
pushed, the top frame makes way for another, a local is bound, or the machine is restored.  Only a
frame that had no locals may be left with a dictionary for them, which is empty and charged for. -/
theorem call_stack_changes_as_a_whole {Γ : Charter} {n : ℕ} {x : Stake} {m : Machine}
    (h : m.Sound Γ n x) {v : Value} (hv : m.Knows x v) :
    Machine.Achieves (Machine.onCalls fun c => c.push { value := v }) m (fun _ m' =>
      m'.calls.frames = { value := v } :: m.calls.frames) ∧
    (∀ supply, Machine.Achieves
      (Machine.onCalls fun c => c.push { value := .null, supply := some supply }) m fun _ m' =>
        m'.calls.frames = { value := .null, supply := some supply } :: m.calls.frames) ∧
    Machine.Achieves (Machine.replaceFrame v) m (fun _ m' => ∃ f rest,
      m.calls.frames = f :: rest ∧ m'.calls.frames = { value := v } :: rest) ∧
    ∀ index f name, m.calls.frame? index = some f →
      (Machine.setLocal index name v m).Meets False (fun _ m' => m'.LocalIs index name v) fun m' =>
        m.Restored m' ∨ f.locals = none ∧ ∃ i m₁, m.Equips index i m₁ ∧ m₁.Restored m' := by
  have null : m.Knows x .null := by
    simp [Machine.Knows, Stake.Knows, Value.null, Value.handle?]
  refine ⟨?_, fun supply => ?_, ?_, fun index f name hf => ?_⟩
  · exact Machine.pushFrame_achieves (f := { value := v }) h hv rfl
  · exact Machine.pushFrame_achieves (f := { value := .null, supply := some supply }) h null rfl
  · exact Machine.replaceFrame_achieves h hv
  · exact Machine.setLocal_equips h.framed hf (CallStack.lt_length_of_frame? hf) name hv

/-- A text too long for the memory is not called, and nothing tells that it was to be. -/
theorem call_stack_changes_as_a_whole_when_refused :
    ∃ (s : Session Unit) (e : Exception) (m' : Machine),
      Session.trial { maxMemory := some 4844 } "\x7b 1 \x7d loop" 9 = some s ∧
        Machine.onCalls (fun c => c.push { value := .string "ten dashes ----------" }) s.machine =
          .raised e m' ∧ s.machine.Restored m' := by
  have facts : ((Session.trial { maxMemory := some 4844 } "\x7b 1 \x7d loop" 9).map fun s =>
      (Machine.onCalls (fun c => c.push { value := .string "ten dashes ----------" })
        s.machine).failure?.isSome) = some true := by decide +kernel
  obtain ⟨s, hs, facts⟩ := Option.map_eq_some_iff.1 facts
  obtain ⟨⟨e, m'⟩, refused⟩ := Option.isSome_iff_exists.1 facts
  have refused := Outcome.eq_raised refused
  obtain ⟨m₀, created, reached⟩ := Reached.of_trial (by rintro t ⟨⟩; decide) hs
  obtain ⟨Γ, -, kept⟩ := reached.sound created
  have known : s.machine.Knows (.refs []) (.string "ten dashes ----------") := by
    simp [Machine.Knows, Stake.Knows, Value.string, Value.handle?]
  have called := (call_stack_changes_as_a_whole kept.sound known).1
  rw [Machine.Achieves, refused] at called
  exact ⟨s, e, m', hs, refused, called⟩

/-- A loop binds its block as the first of its locals.  If there is memory for the dictionary, but
not for an entry, the frame has got locals and `24` units are charged for nothing. -/
theorem setLocal_may_leave_locals :
    ∃ (m₀ : Machine) (s : Session Unit) (e : Exception) (m' : Machine),
      m₀.Created { maxMemory := some 4860 } ∧ Reached m₀ [] s ∧
        Machine.setLocal 1 "block" .null s.machine = .raised e m' ∧
          e.condition = .memoryOverflow ∧
            (s.machine.calls.frame? 1).map Frame.locals = some none ∧
              (m'.calls.frame? 1).map Frame.locals = some (some 6) ∧
                m'.memory.ledger.used = s.machine.memory.ledger.used + 24 := by
  have facts : ((Session.trial { maxMemory := some 4860 } "\x7b 1 \x7d loop" 9).bind fun s =>
      (Machine.setLocal 1 "block" .null s.machine).failure?.map fun r =>
        (r.1.condition, (s.machine.calls.frame? 1).map Frame.locals,
          (r.2.calls.frame? 1).map Frame.locals, s.machine.memory.ledger.used,
            r.2.memory.ledger.used)) =
      some (.memoryOverflow, some none, some (some 6), 4831, 4855) := by decide +kernel
  obtain ⟨s, hs, facts⟩ := Option.bind_eq_some_iff.1 facts
  obtain ⟨⟨e, m'⟩, refused, facts⟩ := Option.map_eq_some_iff.1 facts
  simp only [Prod.mk.injEq] at facts
  obtain ⟨condition, before, after, used, used'⟩ := facts
  obtain ⟨m₀, created, reached⟩ := Reached.of_trial (by rintro t ⟨⟩; decide) hs
  exact ⟨m₀, s, e, m', created, reached, Outcome.eq_raised refused, condition, before, after,
    by rw [used, used']⟩

end StackScript
