import StackScript.Proofs.Machine.Holdings
import StackScript.Proofs.Machine.Own
import StackScript.Proofs.Memory.Remains

/-!
# Leaks are detected

Destroying a machine a host has reached succeeds exactly if the host has given up all its creator
references and no container is on a cycle.  Otherwise it reports how many containers lie on, or are
reached from, a cycle or a reference not given up, and what they and the texts in them cost
(`leaks_detected`).

A machine gives back the charge of the pending exception, then its call frames with their values,
locals and exceptions set aside, then its operands and its scopes.  That does not fail, and what is
left in the memory after it is what others hold (`Machine.surrender_meets`).
-/

namespace StackScript

/-! ### Giving everything back -/

namespace CallStack

variable {total : Option ℕ} {σ : ℕ → Label} {x : Stake} {m : Memory} {lax : Prop} {c : CallStack}

/-- One frame after the other goes with what it holds. -/
theorem go_meets (frames : List Frame) (hb : m.Balanced total σ (x + c.stake))
    (hframes : c.frames = frames) (hfits : c.reserve.Fits c.length)
    (hout : lax ∨ Heap.OutSupported x m.heap) :
    (dispose.go frames c m).Meets lax (fun _ m' => Memory.Released total σ x m m')
      fun _ => False := by
  induction frames generalizing c m with
  | nil =>
    have reserve : c.stake = c.reserve.stake := by
      rw [stake, hframes, List.map_nil, List.sum_nil, add_zero]
    rw [reserve] at hb
    exact (Reserve.surrender_meets hb).always fun _ _ h => ⟨h.1, h.2.loses x⟩
  | cons f rest ih =>
    refine Action.meets_bind (pop_meets hb hframes hfits hout) ?_
    rintro c' m₁ ⟨reframed, ⟨hb₁, loses⟩, -⟩
    have loses := loses.of_add_right
    refine (ih hb₁ reframed.frames reframed.fits (loses.outSupported hout)).always ?_
    rintro _ m₂ ⟨hb₂, loses₂⟩
    exact ⟨hb₂, loses.trans loses₂⟩

theorem dispose_meets (hb : m.Balanced total σ (x + c.stake)) (hfits : c.reserve.Fits c.length)
    (hout : lax ∨ Heap.OutSupported x m.heap) :
    (c.dispose m).Meets lax (fun _ m' => Memory.Released total σ x m m') fun _ => False :=
  go_meets c.frames hb rfl hfits hout

end CallStack

namespace Machine

variable {Γ : Charter} {n : ℕ} {x : Stake} {m : Machine} {lax : Prop}

/-- **Giving everything back** does not fail, and leaves what others hold. -/
theorem surrender_meets (h : m.Sound Γ n x) :
    (surrender m).Meets lax
      (fun _ m' => ∃ σ, m'.memory.Balanced Γ.total σ x ∧ m.memory.Loses x m'.memory)
      fun _ => False := by
  obtain ⟨present, σ, hb, -⟩ := h.memory
  have parts : m.stake + x = x + m.scopes.stake + m.operands.stake + m.calls.stake +
      m.pending.elim 0 PendingException.stake := by
    rw [stake]
    abel
  rw [parts] at hb
  rw [surrender, Action.get_bind]
  -- the exception goes first, then the frames, the operands and the scopes
  refine Action.meets_bind (discharge_meets hb) ?_
  rintro _ _ ⟨μ, rfl, hb₁, same⟩
  have loses₁ := same.loses x
  rw [Action.get_bind]
  refine meets_onMemory_bind ((CallStack.dispose_meets hb₁ h.calls ?_).mono ?_ fun _ => id)
  · exact .inr ((present.sheds same.sheds).outSupported _)
  rintro _ μ₂ ⟨hb₂, loses₂⟩
  have loses₂ := loses₁.trans loses₂.of_add_right.of_add_right
  rw [Action.get_bind]
  refine meets_onMemory_bind ((Sequence.dispose_meets hb₂ h.operands ?_).mono ?_ fun _ => id)
  · exact .inr ((present.sheds loses₂.sheds).outSupported _)
  rintro _ μ₃ ⟨hb₃, loses₃⟩
  have loses₃ := loses₂.trans loses₃.of_add_right
  rw [Action.get_bind]
  refine meets_onMemory ((Sequence.dispose_meets hb₃ h.scopes ?_).mono ?_ fun _ => id)
  · exact .inr ((present.sheds loses₃.sheds).outSupported _)
  · rintro _ μ₄ ⟨hb₄, loses₄⟩
    exact ⟨σ, hb₄, loses₃.trans loses₄⟩

end Machine

/-! ### What leaks -/

namespace Heap

variable (h : Heap) (refs : List Value)

open Classical in
/-- The containers that lie on, or are reached from, a cycle or one of the references. -/
noncomputable def retained : List Handle := h.handles.filter fun i => h.Retained refs i

/-- The texts of the strings in them. -/
noncomputable def retainedTexts : List String :=
  (((h.retained refs).flatMap h.valuesAt).filterMap Value.string?).dedup

/-- What they and their texts cost. -/
noncomputable def retainedUnits : ℕ :=
  ((h.retained refs).map h.footprintAt).sum +
    ((h.retainedTexts refs).map fun t => t.utf8ByteSize + 8).sum

variable {h refs}

theorem mem_retained {i : Handle} :
    i ∈ h.retained refs ↔ h.Retained refs i ∧ ∃ o, h.object? i = some o := by
  classical
  rw [retained, List.mem_filter, mem_handles, decide_eq_true_eq, and_comm]

theorem nodup_retained (h : Heap) (refs : List Value) : (h.retained refs).Nodup :=
  h.nodup_handles.filter _

theorem mem_retainedTexts {text : String} : text ∈ h.retainedTexts refs ↔
    ∃ i o, h.Retained refs i ∧ h.object? i = some o ∧ ∃ v ∈ o.values, v.string? = some text := by
  unfold retainedTexts
  rw [List.mem_dedup, List.mem_filterMap]
  constructor
  · rintro ⟨v, hv, htext⟩
    obtain ⟨i, hi, hvi⟩ := List.mem_flatMap.1 hv
    obtain ⟨hret, o, ho⟩ := mem_retained.1 hi
    rw [valuesAt, ho] at hvi
    exact ⟨i, o, hret, ho, v, hvi, htext⟩
  · rintro ⟨i, o, hret, ho, v, hv, htext⟩
    refine ⟨v, List.mem_flatMap.2 ⟨i, mem_retained.2 ⟨hret, o, ho⟩, ?_⟩, htext⟩
    rwa [valuesAt, ho]

/-- Nothing is retained by no references and no cycle. -/
theorem not_retained_of_acyclic (hacyclic : h.Acyclic) (i : Handle) : ¬ h.Retained [] i := by
  rintro ⟨r, ⟨v, hv, -⟩ | cycle, -⟩
  · cases hv
  · exact hacyclic r cycle

end Heap

/-! ### What is left of a memory -/

namespace Memory

variable {total : Option ℕ} {σ : ℕ → Label} {refs : List Value} {m m' : Memory}

/-- The memory `m'` is what is left of `m` when all references but some have been given up. -/
structure LeftOf (refs : List Value) (m m' : Memory) : Prop where
  handles : m'.heap.handles.Perm (m.heap.retained refs)
  live : m'.heap.live = (m.heap.retained refs).length
  used : m'.ledger.used = m.heap.retainedUnits refs

theorem Balanced.leftOf (hb : m'.Balanced total σ (.refs refs)) (hp : m.heap.Present)
    (loses : m.Loses (.refs refs) m') (hrefs : ∀ v ∈ refs, v.string? = none) :
    LeftOf refs m m' := by
  have objects {i : Handle} {o : Object} := hb.object?_eq_some_iff (i := i) (o := o) hp loses
  -- what is left is what the creator references reach
  have handles : m'.heap.handles.Perm (m.heap.retained refs) := by
    refine (List.perm_ext_iff_of_nodup (Heap.nodup_handles _) (Heap.nodup_retained ..)).2 ?_
    intro i
    simp only [Heap.mem_handles, Heap.mem_retained, objects, exists_and_left]
  have containers : (m'.heap.handles.map m'.heap.unitsAt).sum =
      ((m.heap.retained refs).map m.heap.footprintAt).sum := by
    rw [hb.unitsAt_eq_footprintAt, (handles.map _).sum_eq]
    refine congrArg List.sum (List.map_congr_left fun i hi => ?_)
    obtain ⟨hret, o, ho⟩ := Heap.mem_retained.1 hi
    rw [Heap.footprintAt, Heap.footprintAt, objects.2 ⟨hret, ho⟩, ho]
  -- a text is interned if a container that is left holds it
  have texts : m'.ledger.textUnits =
      ((m.heap.retainedTexts refs).map fun t => t.utf8ByteSize + 8).sum := by
    refine Ledger.textUnits_eq hb.tabled (List.nodup_dedup _) fun text => ?_
    rw [hb.mentions, Stake.mentions_pos_iff, Heap.mem_retainedTexts]
    constructor
    · rintro ⟨v, hv, htext⟩
      rw [Stake.values_add, Stake.values_refs, Multiset.mem_add, Multiset.mem_coe] at hv
      rcases hv with hv | hv
      · -- creator references are to containers
        rw [hrefs v hv] at htext
        cases htext
      · obtain ⟨i, o, ho, hvo⟩ := Heap.mem_values_stake.1 hv
        obtain ⟨hret, ho⟩ := objects.1 ho
        exact ⟨i, o, hret, ho, v, hvo, htext⟩
    · rintro ⟨i, o, hret, ho, v, hv, htext⟩
      refine ⟨v, Multiset.mem_add.2 (.inr ?_), htext⟩
      exact Heap.mem_values_stake.2 ⟨i, o, objects.2 ⟨hret, ho⟩, hv⟩
  refine ⟨handles, ?_, ?_⟩
  · rw [(hp.sheds loses.sheds).live_eq, handles.length_eq]
  · have charged (a : Account) : m'.ledger.held a =
        m'.heap.stake.units a + m'.ledger.textShare a := by
      rw [hb.units]
      simp
    have system := charged .system
    have user := charged .user
    have string := charged .string
    have sum := m'.heap.units_stake_total
    simp only [Ledger.held, Ledger.textShare, reduceCtorEq, if_true, if_false] at system user string
    rw [hb.exact.sum, Heap.retainedUnits, ← containers, ← texts, ← sum]
    omega

end Memory

/-! ### Destroying a machine -/

namespace Machine

variable {Γ : Charter} {n : ℕ} {refs : List Value} {m : Machine}

/-- Destroying a machine reports what is retained, unless that is nothing. -/
theorem destroy_eq (h : m.Sound Γ n (.refs refs)) (hrefs : ∀ v ∈ refs, v.string? = none) :
    ∃ m', destroy m = if m.memory.heap.retained refs = [] then .done () m' else
      .raised (Cause.leaked (m.memory.heap.retainedUnits refs)
        (m.memory.heap.retained refs).length).exception m' := by
  obtain ⟨_, m', hm', σ, hb, loses⟩ := (surrender_meets h).exists_done
  obtain ⟨-, live, used⟩ := hb.leftOf h.memory.present loses hrefs
  refine ⟨m', ?_⟩
  rw [destroy, Action.bind_done hm', Action.get_bind]
  rw [live, used]
  by_cases hnone : m.memory.heap.retained refs = []
  · have nothing : m.memory.heap.retainedUnits refs = 0 := by
      simp [Heap.retainedUnits, Heap.retainedTexts, hnone]
    rw [if_pos hnone, nothing, hnone, if_neg (by simp)]
    rfl
  · rw [if_neg hnone, if_pos (.inr (by simpa using hnone))]
    rfl

end Machine

variable {χ : Type} {options : Options} {m₀ : Machine} {owned : List Value} {s : Session χ}

/-- **Leaks are detected**, and nothing else is, in every session a host can reach. -/
theorem leaks_detected (hm₀ : m₀.Created options) (h : Reached m₀ owned s) :
    (owned = [] ∧ s.machine.memory.heap.Acyclic →
        ∃ m, Machine.destroy s.machine = .done () m) ∧
      (¬ (owned = [] ∧ s.machine.memory.heap.Acyclic) →
        ∃ e m, Machine.destroy s.machine = .raised e m ∧ e.condition = .internal ∧
          e = (Cause.leaked (s.machine.memory.heap.retainedUnits owned)
            (s.machine.memory.heap.retained owned).length).exception) := by
  obtain ⟨Γ, -, kept⟩ := h.sound hm₀
  obtain ⟨m', destroyed⟩ := Machine.destroy_eq kept.sound fun v hv => (kept.containers v hv).2
  obtain ⟨present, σ, hb, -⟩ := kept.sound.memory
  set heap := s.machine.memory.heap with hheap
  constructor
  · rintro ⟨rfl, hacyclic⟩
    have none : heap.retained [] = [] := by
      refine List.eq_nil_iff_forall_not_mem.2 fun i hi => ?_
      exact Heap.not_retained_of_acyclic hacyclic i (Heap.mem_retained.1 hi).1
    rw [if_pos none] at destroyed
    exact ⟨m', destroyed⟩
  · intro hleaks
    have some : heap.retained owned ≠ [] := by
      -- a reference leads to a container, and a container on a cycle holds the next one
      rw [not_and_or, Heap.Acyclic, not_forall] at hleaks
      rcases hleaks with howned | ⟨i, hi⟩
      · obtain ⟨v, hv⟩ := List.exists_mem_of_ne_nil owned howned
        obtain ⟨i, hi⟩ := Option.isSome_iff_exists.1 (kept.containers v hv).1
        have known : (s.machine.stake + .refs owned + heap.stake).Knows v :=
          Stake.knows_of_mem (by simp [hv])
        obtain ⟨o, ho, -⟩ := hb.object_of_known present known hi
        exact List.ne_nil_of_mem (Heap.mem_retained.2 ⟨Heap.retained_of_ref hv hi, o, ho⟩)
      · have cycle := not_not.1 hi
        obtain ⟨j, ⟨o, ho, -⟩, -⟩ := Relation.TransGen.head'_iff.1 cycle
        exact List.ne_nil_of_mem (Heap.mem_retained.2 ⟨Heap.retained_of_cycle cycle, o, ho⟩)
    rw [if_neg some] at destroyed
    exact ⟨_, m', destroyed, rfl, rfl⟩

/-- An array that holds itself and a text, and a dictionary whose creator has not given it up. -/
theorem leaks_detected_on_cycle :
    ∃ (m₀ : Machine) (v : Value) (s : Session Unit), m₀.Created {} ∧ Reached m₀ [v] s ∧
      (∃ m, Machine.destroy s.machine = .raised (Cause.leaked 81 2).exception m) ∧
        ∃ e m, Machine.destroy s.machine = .raised e m ∧ e.condition = .internal ∧
          e = (Cause.leaked (s.machine.memory.heap.retainedUnits [v])
            (s.machine.memory.heap.retained [v]).length).exception := by
  have facts : (Session.trialCreating {} "2 array dup dup 0 exch put 1 \"a\" put" 60).map (fun r =>
      match Machine.destroy r.2.machine with
      | .raised e _ => some e
      | _ => none) = some (some (Cause.leaked 81 2).exception) := by decide +kernel
  obtain ⟨⟨v, s⟩, hs, hfacts⟩ := Option.map_eq_some_iff.1 facts
  obtain ⟨m₀, created, reached⟩ := Reached.of_trialCreating (fun _ h => by cases h) hs
  refine ⟨m₀, v, s, created, reached, ?_, (leaks_detected created reached).2 (by simp)⟩
  cases hdestroy : Machine.destroy s.machine with
  | done _ m => simp [hdestroy] at hfacts
  | raised e m => exact ⟨m, by simpa [hdestroy] using hfacts⟩
  | broken b => simp [hdestroy] at hfacts

end StackScript
