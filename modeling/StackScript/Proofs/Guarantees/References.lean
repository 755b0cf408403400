import StackScript.Proofs.Machine.Holdings

/-!
# References are conserved

In every session a host can reach, the count of a container is the number of places that hold it and
of creator references to it, and the count of a text is the number of places that hold it
(`references_conserved`).  So no count of what is there is zero, and whatever a place refers to is
there.
-/

namespace StackScript

/-- The counts of references are what the places of the machine and the creator references say, and
no reference leads nowhere. -/
structure Machine.Conserves (m : Machine) (owned : List Value) : Prop where
  containers : ∀ i c, m.memory.heap.cell? i = some c →
    c.count = m.places.countP (fun v => v.handle? = some i) + m.localDictionaries.count i +
      owned.countP (fun v => v.handle? = some i)
  texts : ∀ text, m.memory.ledger.references text =
    m.places.countP (fun v => v.string? = some text)
  counted : ∀ i c, m.memory.heap.cell? i = some c → 0 < c.count
  interned : ∀ e ∈ m.memory.ledger.strings, 0 < e.2
  addressed : ∀ v ∈ m.places ++ owned, ∀ i, v.handle? = some i →
    ∃ o, m.memory.heap.object? i = some o ∧ o.label.kind = v.kind
  localsAddressed : ∀ i ∈ m.localDictionaries,
    ∃ d, m.memory.heap.object? i = some (.dictionary d)

variable {χ : Type} {options : Options} {m₀ : Machine} {owned : List Value} {s : Session χ}

/-- **References are conserved** in every session a host can reach. -/
theorem references_conserved (hm₀ : m₀.Created options) (h : Reached m₀ owned s) :
    s.machine.Conserves owned := by
  obtain ⟨Γ, -, kept⟩ := h.sound hm₀
  obtain ⟨present, σ, hb, -⟩ := kept.sound.memory
  set m := s.machine with hm
  have sum : m.stake + .refs owned + m.memory.heap.stake =
      m.stake + m.memory.heap.stake + .refs owned := add_right_comm ..
  -- places and creator references are all in the stake
  have held (v : Value) (hv : v ∈ m.places ++ owned) :
      v ∈ (m.stake + .refs owned + m.memory.heap.stake).values := by
    rw [sum, Stake.values_add, m.values_eq_places, Stake.values_refs, Multiset.coe_add]
    exact hv
  constructor
  · intro i c hc
    have count := hb.holders i
    rw [Heap.countAt_of_cell? hc, sum, Stake.holders_add, Stake.holders, m.values_eq_places,
      Stake.locals_add, Heap.locals_stake, add_zero, m.locals_eq_localDictionaries,
      Stake.holders] at count
    simpa using count
  · exact kept.references_eq
  · exact hb.positive
  · exact hb.tabled.positive
  · intro v hv i hi
    obtain ⟨o, ho, hk⟩ := hb.object_of_known present (Stake.knows_of_mem (held v hv)) hi
    exact ⟨o, ho, hk⟩
  · intro i hi
    rw [← Multiset.mem_coe, ← m.locals_eq_localDictionaries] at hi
    refine hb.dictionary_of_locals present ?_
    simpa using hi

/-- A loop under way, and a dictionary the host has created: the text is in the array, in the body
of the loop, and on the stack twice. -/
theorem references_conserved_in_loop :
    ∃ (m₀ : Machine) (v : Value) (s : Session Unit), m₀.Created {} ∧ Reached m₀ [v] s ∧
      s.machine.localDictionaries = [7] ∧ s.machine.memory.ledger.references "a" = 4 ∧
        s.machine.Conserves [v] := by
  have facts : (Session.trialCreating {} "[ 1 \"a\" ] dup \x7b \"a\" \x7d loop" 25).map (fun r =>
      (r.2.machine.localDictionaries, r.2.machine.memory.ledger.references "a")) =
        some ([7], 4) := by decide +kernel
  obtain ⟨⟨v, s⟩, hs, hfacts⟩ := Option.map_eq_some_iff.1 facts
  obtain ⟨m₀, created, reached⟩ := Reached.of_trialCreating (fun _ h => by cases h) hs
  obtain ⟨hlocals, htexts⟩ := Prod.mk.inj hfacts
  exact ⟨m₀, v, s, created, reached, hlocals, htexts, references_conserved created reached⟩

end StackScript
