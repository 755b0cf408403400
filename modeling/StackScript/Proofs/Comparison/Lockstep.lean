import StackScript.Proofs.Comparison.Bounded
import StackScript.Proofs.Comparison.Renaming
import StackScript.Proofs.Machine.Completing
import StackScript.Proofs.Memory.Reaching

/-!
# Sessions in lockstep

Two unhindered sessions that are alike, up to the handles of their containers, go on so, cycle by cycle,
as long as there are frames above those each has at the bottom for itself (`Session.Unhindered.lockstep`).
The comparison is not given up, because no allocation is refused to either.

It can begin anew.  Two heaps whose containers stand for each other, as far as they are there, can be
compared from then on: the handles they give out next stand for each other as well (`Renaming.onward`).
Nothing is known of cells of the one heap that are not there in the other, and nothing needs to be.  A heap
goes with itself, each handle standing for itself (`Renaming.same`).
-/

namespace StackScript

open Likeness

/-! ### Renamings that begin anew -/

namespace Heap

variable {h : Heap} {i : Handle} {n : ℕ}

theorem WellFormed.bounded (hw : h.WellFormed) : h.Bounded := fun i hi => ((hw.mem_free i).1 hi).1

/-- The handles to come are those of empty cells, and of cells that are not there yet. -/
theorem upcoming_cases (h : Heap) (n : ℕ) :
    (∃ hn : n < h.free.length, h.upcoming n = h.free[n]) ∨
      h.free.length ≤ n ∧ h.upcoming n = h.cells.size + (n - h.free.length) := by
  unfold upcoming
  by_cases hn : n < h.free.length
  · exact .inl ⟨hn, by rw [List.getElem?_eq_getElem hn, Option.getD_some]⟩
  · exact .inr ⟨not_lt.1 hn, by rw [List.getElem?_eq_none (not_lt.1 hn), Option.getD_none]⟩

/-- Nothing is there yet. -/
theorem WellFormed.upcoming_empty (hw : h.WellFormed) (n : ℕ) : h.cell? (h.upcoming n) = none := by
  rcases h.upcoming_cases n with ⟨hn, same⟩ | ⟨-, same⟩
  · rw [same]
    exact ((hw.mem_free _).1 (List.getElem_mem hn)).2
  · rw [same, cell?, Array.getElem?_eq_none (Nat.le_add_right _ _)]
    rfl

/-- Every handle comes once. -/
theorem WellFormed.upcoming_injective (hw : h.WellFormed) : Function.Injective h.upcoming := by
  have inside {n : ℕ} (hn : n < h.free.length) : h.free[n] < h.cells.size :=
    hw.bounded _ (List.getElem_mem hn)
  intro m n same
  rcases h.upcoming_cases m with ⟨hm, left⟩ | ⟨hm, left⟩ <;>
    rcases h.upcoming_cases n with ⟨hn, right⟩ | ⟨hn, right⟩ <;> rw [left, right] at same
  · exact hw.nodup.getElem_inj_iff.1 same
  · exact absurd same (Nat.lt_add_right _ (inside hm)).ne
  · exact absurd same (Nat.lt_add_right _ (inside hn)).ne'
  · have beyond : m - h.free.length = n - h.free.length := Nat.add_left_cancel same
    omega

end Heap

namespace Renaming

variable {R : Renaming} {h k : Heap} {i j : Handle} {v w : Value} {o p : Object} {c d : Cell}

/-! ### From some point on -/

/-- The same handles stand for each other while their containers are there, and so do those that come
next. -/
def onward (R : Renaming) (hw : h.WellFormed) (kw : k.WellFormed) : Renaming where
  handles i j := (h.Live i ∧ k.Live j ∧ R.handles i j) ∨ ∃ n, i = h.upcoming n ∧ j = k.upcoming n
  unique {i i' j j'} hij hij' := by
    have apart {i : Handle} (live : h.Live i) (n : ℕ) : i ≠ h.upcoming n :=
      fun same => live (same ▸ hw.upcoming_empty n)
    have apart' {j : Handle} (live : k.Live j) (n : ℕ) : j ≠ k.upcoming n :=
      fun same => live (same ▸ kw.upcoming_empty n)
    rcases hij with ⟨hi, hj, hij⟩ | ⟨n, rfl, rfl⟩ <;>
      rcases hij' with ⟨hi', hj', hij'⟩ | ⟨n', rfl, rfl⟩
    · exact R.unique hij hij'
    · exact iff_of_false (apart hi n') (apart' hj n')
    · exact iff_of_false (apart hi' n).symm (apart' hj' n).symm
    · exact hw.upcoming_injective.eq_iff.trans kw.upcoming_injective.eq_iff.symm
  apart := k.cell?

/-- The handles a value refers to are there. -/
def Present (h : Heap) (v : Value) : Prop := ∀ i, v.handle? = some i → h.Live i

theorem present_of_closed (hc : h.Closed) (ho : h.object? i = some o) (hv : v ∈ o.values) :
    Present h v := fun j hj => hc i j ⟨o, ho, v, hv, hj⟩

section

variable {hw : h.WellFormed} {kw : k.WellFormed}

theorem values_onward (hvw : R.likeness.Values v w) (hv : Present h v) (hw' : Present k w) :
    (R.onward hw kw).likeness.Values v w := by
  obtain ⟨d, p⟩ := v
  obtain ⟨e, q⟩ := w
  have onward {i j : Handle} (hi : h.Live i) (hj : k.Live j) (hij : R.likeness.handles i j) :
      (R.onward hw kw).likeness.handles i j := .inl ⟨hi, hj, hij⟩
  refine ⟨?_, False.elim⟩
  cases hvw.datum with
  | array hij access => exact .array (onward (hv _ rfl) (hw' _ rfl) hij) access
  | dictionary hij writable => exact .dictionary (onward (hv _ rfl) (hw' _ rfl) hij) writable
  | _ => constructor

theorem all_values_onward {vs ws : List Value} (hvw : List.Forall₂ R.likeness.Values vs ws)
    (hv : ∀ v ∈ vs, Present h v) (hw' : ∀ w ∈ ws, Present k w) :
    List.Forall₂ (R.onward hw kw).likeness.Values vs ws := by
  induction hvw with
  | nil => exact .nil
  | cons hvw _ ih =>
    obtain ⟨hv, hvs⟩ := List.forall_mem_cons.1 hv
    obtain ⟨hw', hws⟩ := List.forall_mem_cons.1 hw'
    exact .cons (values_onward hvw hv hw') (ih hvs hws)

theorem objects_onward (hop : R.likeness.Objects o p) (ho : ∀ v ∈ o.values, Present h v)
    (hp : ∀ w ∈ p.values, Present k w) : (R.onward hw kw).likeness.Objects o p := by
  cases hop with
  | array hst => exact .array ⟨hst.reserve, all_values_onward hst.items ho hp⟩
  | @dictionary d e hde =>
    refine .dictionary ⟨hde.account, ?_⟩
    have entries := hde.entries
    change ∀ v ∈ d.entries.map Prod.snd, Present h v at ho
    change ∀ w ∈ e.entries.map Prod.snd, Present k w at hp
    generalize d.entries = l at entries ho
    generalize e.entries = l' at entries hp
    induction entries with
    | nil => exact .nil
    | cons same _ ih =>
      obtain ⟨hv, hvs⟩ := List.forall_mem_cons.1 ho
      obtain ⟨hw', hws⟩ := List.forall_mem_cons.1 hp
      exact .cons ⟨same.1, values_onward same.2 hv hw'⟩ (ih hvs hws)

/-- **Heaps go on together** if what is there in both is alike. -/
theorem heaps_onward (hc : h.Closed) (kc : k.Closed)
    (alike : ∀ i j, h.Live i → k.Live j → R.handles i j →
      Option.Rel R.Cells (h.cell? i) (k.cell? j)) : (R.onward hw kw).Heaps h k where
  cell {i j} hij := by
    rcases hij with ⟨hi, hj, hij⟩ | ⟨n, rfl, rfl⟩
    · rcases rel_cases (alike i j hi hj hij) with ⟨none, -⟩ | ⟨c, d, cell, cell', hcd⟩
      · exact absurd none hi
      · rw [cell, cell']
        refine .some ⟨hcd.count, ?_⟩
        rcases hcd.objects with ⟨ho, hp⟩ | ⟨o, p, ho, hp, hop⟩
        · rw [ho, hp]
          exact .none
        · rw [ho, hp]
          exact .some (objects_onward hop
            (fun v => present_of_closed hc ((Heap.object?_of_cell? cell).trans ho))
            fun w => present_of_closed kc ((Heap.object?_of_cell? cell').trans hp))
    · rw [hw.upcoming_empty, kw.upcoming_empty]
      exact .none
  upcoming n := .inr ⟨n, rfl, rfl⟩
  bounded := hw.bounded
  bounded' := kw.bounded
  apart _ _ := rfl

end

/-! ### Every handle for itself -/

theorem eq_iff_of_eq {i i' j j' : Handle} (h : i = j) (h' : i' = j') : i = i' ↔ j = j' := by
  rw [h, h']

/-- Every handle stands for itself. -/
def same : Renaming where
  handles := Eq
  unique := @eq_iff_of_eq
  apart _ := none

theorem values_same (v : Value) : same.likeness.Values v v := by
  obtain ⟨d, p⟩ := v
  refine ⟨?_, False.elim⟩
  cases d with
  | array i access => exact .array (show same.handles i i from rfl) access
  | dictionary i writable => exact .dictionary (show same.handles i i from rfl) writable
  | _ => constructor

theorem all_values_same (vs : List Value) : List.Forall₂ same.likeness.Values vs vs :=
  List.forall₂_same.2 fun v _ => values_same v

theorem objects_same (o : Object) : same.likeness.Objects o o := by
  cases o with
  | array s => exact .array ⟨rfl, all_values_same s.items⟩
  | dictionary d => exact .dictionary ⟨rfl, List.forall₂_same.2 fun e _ => ⟨rfl, values_same e.2⟩⟩

theorem cells_same (h : Heap) (i : Handle) : Option.Rel same.Cells (h.cell? i) (h.cell? i) := by
  cases h.cell? i with
  | none => exact .none
  | some c =>
    obtain ⟨count, o⟩ := c
    cases o with
    | none => exact .some ⟨rfl, .none⟩
    | some o => exact .some ⟨rfl, .some (objects_same o)⟩

end Renaming

/-! ### Exceptions made pending -/

namespace Renaming

variable {R : Renaming} {below below' : List Frame} {idle : ∀ f ∈ below, f.value.toOperator? = none}
  {idle' : ∀ f ∈ below', f.value.toOperator? = none} {μ ν : Memory} {m n : Machine} {e e' : Exception}

/-- What is asked for the record of an exception is refused, or it is granted. -/
theorem charged_of_granted (h : (Memory.onLedger (Ledger.allocate e.size .system) μ).overflows = false) :
    (∃ κ, Memory.onLedger (Ledger.allocate e.size .system) μ = .done () κ ∧ κ.heap = μ.heap) ∨
      ∃ b, Memory.onLedger (Ledger.allocate e.size .system) μ = .broken b := by
  cases hx : Memory.onLedger (Ledger.allocate e.size .system) μ with
  | done _ κ => exact .inl ⟨κ, rfl, Memory.heap_eq_of_done hx⟩
  | broken b => exact .inr ⟨b, rfl⟩
  | raised e' κ =>
    have refused : e'.condition = .memoryOverflow := (Ledger.spends_allocate _ _).zoom μ e' κ hx
    rw [hx, Outcome.overflows, refused] at h
    cases h

theorem record_agree (h : R.Memories μ ν) (he : e.condition = e'.condition)
    (hμ : (Memory.onLedger (Ledger.allocate e.size .system) μ).overflows = false)
    (hν : (Memory.onLedger (Ledger.allocate e'.size .system) ν).overflows = false) :
    R.likeness.Agree R.likeness.Pendings R.Memories (PendingException.record e μ)
      (PendingException.record e' ν) := by
  rw [record_apply, record_apply]
  rcases charged_of_granted hμ with ⟨κ, hκ, same⟩ | ⟨b, hb⟩
  · rcases charged_of_granted hν with ⟨κ', hκ', same'⟩ | ⟨b, hb⟩
    · rw [hκ, hκ']
      exact .done ⟨⟨he, False.elim⟩, False.elim⟩ (h.of_sameHeap same same')
    · rw [hb]
      exact .lost (.inr .broken)
  · rw [hb]
    exact .lost (.inl .broken)

/-- Where the record of an exception is granted, it is granted when it is asked for. -/
theorem granted_at_record {trail : List String} {u : Machine} (sane : m.isDoomed = false)
    (told : m.trail = .ok trail) (discharged : Machine.discharge m.pending m = .done () u)
    (h : (Machine.chargeRecord e m).overflows = false) :
    (Memory.onLedger (Ledger.allocate ({ e with trail := trail } : Exception).size .system)
      u.memory).overflows = false := by
  rwa [chargeRecord_bind sane told, Action.bind_done discharged, Machine.onMemory, overflows_zoom] at h

/-- **Exceptions of one kind are made pending alike.** -/
theorem raise_agree (h : (R.setting below below' idle idle').Machines m n)
    (he : e.condition = e'.condition) (hm : (Machine.chargeRecord e m).overflows = false)
    (hn : (Machine.chargeRecord e' n).overflows = false) :
    R.likeness.Agree (fun _ _ => True) (R.setting below below' idle idle').Machines
      (Machine.raise e m) (Machine.raise e' n) :=
  Setting.raise_agree h fun _ _ _ _ hr => record_agree hr.machines.memory he
    (granted_at_record hr.sane hr.told hr.discharged hm)
    (granted_at_record (h.isDoomed ▸ hr.sane) hr.told' hr.discharged' hn)

end Renaming

/-! ### Cycles -/

namespace Session

variable {χ : Type} {R : Renaming} {below below' : List Frame} {s t u v : Session χ}
  {idle : ∀ f ∈ below, f.value.toOperator? = none} {idle' : ∀ f ∈ below', f.value.toOperator? = none}

theorem Unhindered.not_starving (h : s.Unhindered) : s.starves = false := by
  obtain ⟨Γ, x, -, ample⟩ := h
  by_cases work : s.machine.calls.frames = []
  · rw [starves, work]
  · exact ample.hungerless work

/-- The step of a cycle that is done has not failed. -/
theorem not_failed {f : Frame} {rest : List Frame} (hframes : s.machine.calls.frames = f :: rest)
    (granted : s.starves = false) {more : Bool} (hu : cycle Natives.none s = .done more u) :
    ¬ (step Natives.none rest.length f s).fate.Failed := by
  intro failed
  rw [starves_apply hframes] at granted
  rw [cycle_apply hframes] at hu
  cases hstep : step Natives.none rest.length f s with
  | done a w =>
    rw [hstep] at failed
    cases failed
  | raised e w =>
    rw [hstep] at granted failed
    rcases overflows_of_failed failed with refused | broken
    · exact absurd (Bool.or_eq_false_iff.1 granted).1 (Bool.not_eq_false _ ▸ refused)
    · cases broken
  | broken b =>
    rw [hstep] at hu
    cases hu

/-- **A cycle of two sessions that are alike.** -/
theorem Unhindered.lockstep (hs : s.Unhindered) (ht : t.Unhindered)
    (h : (R.setting below below' idle idle').Sessions s t)
    (work : below.length < s.machine.calls.length) :
    ∃ u v, Next s u ∧ Next t v ∧ u.Unhindered ∧ v.Unhindered ∧
      (R.setting below below' idle idle').Sessions u v := by
  obtain ⟨l, k, hl, hk, hlk⟩ := h.machine.calls.frames
  have longer : l ≠ [] := by
    rintro rfl
    rw [CallStack.length, hl] at work
    exact absurd work (lt_irrefl _)
  cases hlk with
  | nil => exact absurd rfl longer
  | @cons f g l k hfg hlk =>
    have topped : (R.setting below below' idle idle').Topped (l.length + below.length)
        (k.length + below'.length) s.machine t.machine :=
      ⟨h.machine, ⟨l.length, rfl, by rw [hlk.length_eq]; rfl⟩, by
        rw [CallStack.length, hl, List.length_append, List.length_cons]
        exact Nat.add_right_comm ..⟩
    obtain ⟨more, u, hu, unhindered⟩ := hs.next (by simp [hl])
    obtain ⟨more', v, hv, unhindered'⟩ := ht.next (by simp [hk])
    -- memory is not short in either, and nothing else would part the two
    have granted := hs.not_starving
    have granted' := ht.not_starving
    refine ⟨u, v, by rw [Next, hu]; rfl, by rw [Next, hv]; rfl, unhindered, unhindered', ?_⟩
    have together := Setting.cycle_agree h topped hl hk fun e e' w w' hw hw' he hww => by
      rw [starves_apply hl, hw] at granted
      rw [starves_apply hk, hw'] at granted'
      exact Renaming.raise_agree hww.machine he.condition (Bool.or_eq_false_iff.1 granted).2
        (Bool.or_eq_false_iff.1 granted').2
    rcases together with lost | agreed
    · exact absurd lost (not_or.2 ⟨not_failed hl granted hu, not_failed hk granted' hv⟩)
    · rw [hu, hv] at agreed
      cases agreed with
      | done _ h => exact h
      | lost h => rcases h with h | h <;> cases h

end Session

end StackScript
