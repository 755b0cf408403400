import StackScript.Proofs.Guarantees.Immutability

/-!
# The accounts are exact

In every session a host can reach, each account holds what there is to be paid for, and nothing
else (`accounts_exact`):

* the machine itself pays for the slots of its stacks, the permanent dictionaries, the locals of
  frames, the arrays built with the host scope, and the records of exceptions;
* hosted code pays for all other containers;
* each text in use is paid for once.

The arrays built with the host scope are those the machine itself pays for: all arrays there are when
it has been created (`Accounted.charged`), and no others later on (`Accounted.built`).  As long as
such an array is there, it is not charged to anything else.

So whatever is charged for an exception or a container is given back exactly once, however it goes.
-/

namespace StackScript

/-! ### What there is to be paid for -/

namespace Machine

variable (m : Machine)

/-- The dictionaries of the permanent scopes. -/
def permanentDictionaries : List Handle :=
  (m.scopes.items.drop (m.scopes.length - permanentScopes)).filterMap Value.handle?

/-- The arrays charged to the machine itself, which are those built with the host scope. -/
def hostArrays : List Handle :=
  (m.memory.heap.paidBy .system).filter fun i =>
    (m.memory.heap.object? i).any fun o => o.label.kind = .array

/-- The containers of the machine itself. -/
def ownContainers : List Handle := m.permanentDictionaries ++ m.localDictionaries ++ m.hostArrays

/-- The containers of hosted code. -/
def hostedContainers : List Handle := m.memory.heap.handles.filter (· ∉ m.ownContainers)

/-- The texts of the strings in the places of the machine. -/
def texts : List String := (m.places.filterMap Value.string?).dedup

/-- The accounts of the machine hold what there is to be paid for.  The machine was `m₀` when it was
created, with `total` for its capacity. -/
structure Accounted (total : Option ℕ) (m₀ : Machine) : Prop where
  used : m.memory.ledger.used =
    m.memory.ledger.system + m.memory.ledger.user + m.memory.ledger.string
  used_le : m.memory.ledger.used ≤ m.memory.ledger.peak
  peak_le : m.memory.ledger.peak ≤ total.getD Size.limit
  system : m.memory.ledger.system =
    m.slotUnits + m.recordUnits + (m.ownContainers.map m.memory.heap.footprintAt).sum
  user : m.memory.ledger.user = (m.hostedContainers.map m.memory.heap.footprintAt).sum
  string : m.memory.ledger.string = (m.texts.map fun t => t.utf8ByteSize + 8).sum
  /-- No container is paid for twice. -/
  distinct : m.ownContainers.Nodup
  permanent : m.permanentDictionaries.length = permanentScopes
  /-- The machine pays for no other arrays than those built with the host scope. -/
  built : ∀ i ∈ m.hostArrays, ∃ s, m₀.memory.heap.object? i = some (.array s)
  /-- It has paid for all of those. -/
  charged : ∀ i s, m₀.memory.heap.object? i = some (.array s) → i ∈ m₀.hostArrays
  /-- The slots charged for are those the items of the stacks need. -/
  sized : m.operands.Sized ∧ m.calls.reserve.Fits m.calls.length ∧ m.scopes.Sized

end Machine

variable {Γ : Charter} {σ : ℕ → Label} {owned : List Value} {m m₀ : Machine}

namespace Machine

/-! ### Texts and containers -/

theorem nodup_texts (m : Machine) : m.texts.Nodup := List.nodup_dedup _

theorem mem_texts {text : String} : text ∈ m.texts ↔ ∃ v ∈ m.places, v.string? = some text := by
  unfold texts
  rw [List.mem_dedup, List.mem_filterMap]

theorem permanentDictionaries_eq (h : Γ.permanent <:+ m.scopes.items) :
    m.permanentDictionaries = Γ.permanent.filterMap Value.handle? := by
  rw [permanentDictionaries, Sequence.length, ← Γ.four, ← List.suffix_iff_eq_drop.1 h]

/-- Locals have one reference each, so no two frames share them. -/
theorem nodup_localDictionaries (hb : m.memory.Balanced Γ.total σ (m.stake + .refs owned)) :
    m.localDictionaries.Nodup := by
  refine List.nodup_iff_count_le_one.2 fun i => ?_
  by_cases hi : i ∈ m.localDictionaries
  · have held : i ∈ (m.stake + .refs owned).locals := by
      rw [Stake.locals_add, Stake.locals_refs, add_zero, locals_eq_localDictionaries]
      exact hi
    have one := (hb.locals i held).2
    rw [hb.holders, Stake.holders_add, Stake.holders_add, Stake.holders,
      locals_eq_localDictionaries, Multiset.coe_count] at one
    omega
  · rw [List.count_eq_zero_of_not_mem hi]
    exact Nat.zero_le _

/-- The dictionaries charged to the machine itself are the permanent ones and the locals. -/
theorem mem_permanent_or_local (h : m.Sound Γ 0 (.refs owned)) {i : Handle} :
    i ∈ m.permanentDictionaries ++ m.localDictionaries ↔
      ∃ d, m.memory.heap.object? i = some (.dictionary d) ∧ d.account = .system := by
  obtain ⟨present, σ, hb, classified⟩ := h.memory
  rw [List.mem_append, permanentDictionaries_eq h.permanent, List.mem_filterMap]
  have locals : (m.stake + .refs owned).locals = m.localDictionaries := by
    rw [Stake.locals_add, Stake.locals_refs, add_zero, locals_eq_localDictionaries]
  have paid (d : Dictionary) (ho : m.memory.heap.object? i = some (.dictionary d))
      (hl : σ i = ⟨.dictionary, .system⟩) : d.account = .system :=
    congrArg Label.account ((hb.labelled i _ ho).label.trans hl)
  constructor
  · -- each of them is there, with the label of what holds it
    rintro (⟨v, hv, hvi⟩ | hi)
    · have scope := h.permanent.subset hv
      have known := (Stake.knows_of_mem (mem_values_stake_of_scope scope)).add_right (.refs owned)
      obtain ⟨d, ho⟩ := hb.dictionary_of_known present (known.add_right _)
        (h.dictionaries v scope) hvi
      exact ⟨d, ho, paid d ho (classified.permanent v hv i hvi)⟩
    · rw [← Multiset.mem_coe, ← locals] at hi
      obtain ⟨d, ho⟩ := hb.dictionary_of_locals present hi
      exact ⟨d, ho, paid d ho (hb.locals i hi).1⟩
  · -- the label of a live cell says what it is charged to
    rintro ⟨d, ho, hd⟩
    have live : m.memory.heap.cell? i ≠ none := by
      obtain ⟨c, hc, -⟩ := Heap.exists_cell_of_object? ho
      simp [hc]
    have label : σ i = ⟨.dictionary, .system⟩ := by
      rw [← (hb.labelled i _ ho).label, Object.label, hd]
    refine (classified.dictionaries i live label).symm.imp_right fun hi => ?_
    rwa [locals, Multiset.mem_coe] at hi

theorem length_permanentDictionaries (h : m.Sound Γ 0 (.refs owned)) :
    m.permanentDictionaries.length = permanentScopes := by
  rw [permanentDictionaries_eq h.permanent, ← Γ.four, List.filterMap_length_eq_length]
  intro v hv
  have hk := h.dictionaries v (h.permanent.subset hv)
  obtain ⟨datum, source⟩ := v
  cases datum <;> first | rfl | cases hk

theorem mem_hostArrays {i : Handle} : i ∈ m.hostArrays ↔
    ∃ s, m.memory.heap.object? i = some (.array s) ∧ s.reserve.account = .system := by
  rw [hostArrays, List.mem_filter, Heap.mem_paidBy, Option.any_eq_true]
  constructor
  · rintro ⟨⟨o, ho, hpaid⟩, o', ho', hkind⟩
    obtain rfl : o = o' := Option.some.inj (ho.symm.trans ho')
    cases o with
    | array s => exact ⟨s, ho, hpaid⟩
    | dictionary d => simp [Object.label] at hkind
  · rintro ⟨s, ho, hpaid⟩
    exact ⟨⟨_, ho, hpaid⟩, _, ho, by simp [Object.label]⟩

theorem mem_ownContainers (h : m.Sound Γ 0 (.refs owned)) {i : Handle} :
    i ∈ m.ownContainers ↔ i ∈ m.memory.heap.paidBy .system := by
  rw [ownContainers, List.mem_append, mem_permanent_or_local h, mem_hostArrays, Heap.mem_paidBy]
  constructor
  · rintro (⟨d, ho, hpaid⟩ | ⟨s, ho, hpaid⟩)
    · exact ⟨_, ho, hpaid⟩
    · exact ⟨_, ho, hpaid⟩
  · rintro ⟨o, ho, hpaid⟩
    cases o with
    | array s => exact .inr ⟨s, ho, hpaid⟩
    | dictionary d => exact .inl ⟨d, ho, hpaid⟩

/-- No container of the machine itself occurs twice. -/
theorem nodup_ownContainers (h : m.Sound Γ 0 (.refs owned)) : m.ownContainers.Nodup := by
  obtain ⟨present, σ, hb, classified⟩ := h.memory
  have arrays : m.hostArrays.Nodup := (Heap.nodup_paidBy ..).filter _
  refine List.nodup_append'.2
    ⟨List.nodup_append'.2 ⟨?_, nodup_localDictionaries hb, ?_⟩, arrays, ?_⟩
  · rw [permanentDictionaries_eq h.permanent]
    exact Γ.distinct
  · intro i hi hlocal
    rw [permanentDictionaries_eq h.permanent, List.mem_filterMap] at hi
    obtain ⟨v, hv, hvi⟩ := hi
    have known := (Stake.knows_of_mem (mem_values_stake_of_scope (h.permanent.subset hv))).add_right
      (.refs owned)
    refine hb.not_mem_locals_of_known (known.add_right _) hvi ?_
    rwa [Stake.locals_add, Stake.locals_refs, add_zero, locals_eq_localDictionaries]
  · intro i hi harray
    obtain ⟨d, ho, -⟩ := (mem_permanent_or_local h).1 hi
    obtain ⟨s, ho', -⟩ := mem_hostArrays.1 harray
    rw [ho] at ho'
    cases ho'

/-- The account of strings pays for no container. -/
theorem account_ne_string (h : m.Sound Γ 0 (.refs owned)) {i : Handle} {o : Object}
    (ho : m.memory.heap.object? i = some o) : o.account ≠ .string := by
  obtain ⟨present, σ, hb, classified⟩ := h.memory
  obtain ⟨c, hc, -⟩ := Heap.exists_cell_of_object? ho
  rw [Object.account_eq_label, (hb.labelled i o ho).label]
  exact classified.accounts i (by simp [hc])

/-- Whatever is charged to hosted code is not the machine's own. -/
theorem mem_hostedContainers (h : m.Sound Γ 0 (.refs owned)) {i : Handle} :
    i ∈ m.hostedContainers ↔ i ∈ m.memory.heap.paidBy .user := by
  rw [hostedContainers, List.mem_filter, decide_eq_true_eq, mem_ownContainers h, Heap.mem_handles,
    Heap.mem_paidBy, Heap.mem_paidBy]
  constructor
  · rintro ⟨⟨o, ho⟩, hnot⟩
    refine ⟨o, ho, ?_⟩
    cases ha : o.account with
    | system => exact absurd ⟨o, ho, ha⟩ hnot
    | user => rfl
    | string => exact absurd ha (account_ne_string h ho)
  · rintro ⟨o, ho, hpaid⟩
    refine ⟨⟨o, ho⟩, ?_⟩
    rintro ⟨o', ho', hpaid'⟩
    obtain rfl : o = o' := Option.some.inj (ho.symm.trans ho')
    rw [hpaid] at hpaid'
    cases hpaid'

end Machine

/-! ### The accounts -/

variable {χ : Type} {options : Options} {s : Session χ}

/-- The accounts hold what there is to be paid for. -/
theorem Reached.accounted (hm₀ : m₀.Created options) (h : Reached m₀ owned s) :
    s.machine.Accounted options.maxMemory m₀ := by
  obtain ⟨Γ, fresh, kept⟩ := h.sound hm₀
  have sound := kept.sound
  obtain ⟨present, σ, hb, classified⟩ := sound.memory
  set m := s.machine with hm
  -- every account pays for slots and records, for containers or for texts
  have held (a : Account) : m.memory.ledger.held a =
      (if a = .system then m.slotUnits + m.recordUnits else 0) +
        ((m.memory.heap.paidBy a).map m.memory.heap.footprintAt).sum +
          m.memory.ledger.textShare a := by
    rw [hb.units, ← hb.unitsAt_eq_footprintAt, ← Heap.units_stake, ← sound.units_stake]
    simp
  exact {
    used := hb.exact.sum
    used_le := hb.exact.used_le
    peak_le := fresh.total ▸ hb.exact.peak_le
    system := by
      have own : (m.memory.heap.paidBy .system).Perm m.ownContainers :=
        (List.perm_ext_iff_of_nodup (Heap.nodup_paidBy ..) (Machine.nodup_ownContainers sound)).2
          fun _ => (Machine.mem_ownContainers sound).symm
      have held := held .system
      rw [(own.map _).sum_eq] at held
      simpa [Ledger.held, Ledger.textShare] using held
    user := by
      have hosted : (m.memory.heap.paidBy .user).Perm m.hostedContainers :=
        (List.perm_ext_iff_of_nodup (Heap.nodup_paidBy ..) ((Heap.nodup_handles _).filter _)).2
          fun _ => (Machine.mem_hostedContainers sound).symm
      have held := held .user
      rw [(hosted.map _).sum_eq] at held
      simpa [Ledger.held, Ledger.textShare] using held
    string := by
      have none : m.memory.heap.paidBy .string = [] := by
        refine List.eq_nil_iff_forall_not_mem.2 fun i hi => ?_
        obtain ⟨o, ho, hpaid⟩ := Heap.mem_paidBy.1 hi
        exact Machine.account_ne_string sound ho hpaid
      have held := held .string
      rw [none] at held
      have texts : m.memory.ledger.textUnits = (m.texts.map fun t => t.utf8ByteSize + 8).sum := by
        refine Ledger.textUnits_eq hb.tabled m.nodup_texts fun text => ?_
        rw [kept.references_eq, List.countP_pos_iff, Machine.mem_texts]
        simp only [decide_eq_true_eq]
      rw [← texts]
      simpa [Ledger.held, Ledger.textShare] using held
    distinct := Machine.nodup_ownContainers sound
    permanent := Machine.length_permanentDictionaries sound
    built := fun i hi => by
      obtain ⟨s, ho, hpaid⟩ := Machine.mem_hostArrays.1 hi
      obtain ⟨c, hc, -⟩ := Heap.exists_cell_of_object? ho
      refine (fresh.built i).1 (classified.arrays i (by simp [hc]) ?_)
      rw [← (hb.labelled i _ ho).label, Object.label, hpaid]
    charged := fun i s ho => Machine.mem_hostArrays.2 ⟨s, ho, fresh.charged i s ho⟩
    sized := ⟨sound.operands, sound.calls, sound.scopes⟩ }

/-- An array the machine itself pays for stays so as long as it is there. -/
theorem Custody.Record.hostArrays {history : List Custody} {i : Handle}
    (h : Custody.Record Γ history) (lives : ∀ m ∈ history.map Custody.machine, m.Lives i)
    (hm₀ : m₀ ∈ history.map Custody.machine) (hi : i ∈ m₀.hostArrays)
    (hm : m ∈ history.map Custody.machine) : i ∈ m.hostArrays := by
  obtain ⟨c₀, hc₀, rfl⟩ := List.mem_map.1 hm₀
  obtain ⟨c, hc, rfl⟩ := List.mem_map.1 hm
  obtain ⟨s, hs, hpaid⟩ := Machine.mem_hostArrays.1 hi
  obtain ⟨o, ho⟩ := (h.sound c hc).exists_object (lives c.machine hm)
  have label := (h.frozen (fun c hc => lives c.machine (List.mem_map_of_mem hc)) hc₀ hc).label
  rw [hs, ho, Option.map_some, Option.map_some, Option.some_inj] at label
  cases o with
  | array s' => exact Machine.mem_hostArrays.2 ⟨s', ho, (congrArg Label.account label).trans hpaid⟩
  | dictionary d => cases congrArg Label.kind label

end StackScript
