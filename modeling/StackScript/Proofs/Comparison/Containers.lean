import StackScript.Proofs.Comparison.Basic

/-!
# Comparing what is done to containers

A `Comparison` says which memories are alike, so that taking and giving up references, charging for
slots, and reading and storing objects are parallel.  Everything that is done to a container follows.
-/

namespace StackScript

/-- Memories that are alike. -/
structure Comparison extends Likeness where
  memories : Memory → Memory → Prop
  retain {v w : Value} (h : toLikeness.Values v w) :
    toLikeness.Parallel memories (fun _ _ => True) (Memory.retain v) (Memory.retain w)
  release {v w : Value} (h : toLikeness.Values v w) :
    toLikeness.Parallel memories (fun _ _ => True) (Memory.release v) (Memory.release w)
  acquire (slot : Size) (account : Account) (initial increment : ℕ) :
    toLikeness.Parallel memories Eq (Reserve.acquire slot account initial increment)
      (Reserve.acquire slot account initial increment)
  charge (size : Size) (account : Account) :
    toLikeness.Parallel memories (fun _ _ => True)
      (Memory.onLedger (Ledger.allocate size account))
      (Memory.onLedger (Ledger.allocate size account))
  refund (size : Size) (account : Account) :
    toLikeness.Parallel memories (fun _ _ => True)
      (Memory.onLedger (Ledger.release size account))
      (Memory.onLedger (Ledger.release size account))
  discharge {p q : PendingException} (h : toLikeness.Pendings p q) :
    toLikeness.Parallel memories (fun _ _ => True) p.discharge q.discharge
  store {o p : Object} (account : Account) {trail trail' : List String}
    (h : toLikeness.Objects o p) (ht : traced → trail = trail') :
    toLikeness.Parallel memories handles (Memory.store o account trail)
      (Memory.store p account trail')
  checkOut {i j : Handle} (h : handles i j) :
    toLikeness.Parallel memories toLikeness.Objects (Memory.onHeap (Heap.checkOut i))
      (Memory.onHeap (Heap.checkOut j))
  checkIn {i j : Handle} {o p : Object} (h : handles i j) (ho : toLikeness.Objects o p) :
    toLikeness.Parallel memories (fun _ _ => True) (Memory.onHeap (Heap.checkIn i o))
      (Memory.onHeap (Heap.checkIn j p))
  object {i j : Handle} {μ ν : Memory} (h : handles i j) (hm : memories μ ν) :
    Likeness.Results (fun _ _ => True) toLikeness.Objects (μ.heap.get i) (ν.heap.get j)

namespace Comparison

open Likeness

variable {C : Comparison} {v w : Value} {vs ws vs' ws' : List Value} {s t : Sequence}
  {d e : Dictionary} {i j : Handle}

/-- Two actions on the memory that are parallel. -/
abbrev Beside {α β : Type} (C : Comparison) (A : α → β → Prop) (x : Action Memory α)
    (y : Action Memory β) : Prop := C.toLikeness.Parallel C.memories A x y

/-! ### References -/

theorem releaseAll (h : List.Forall₂ C.Values vs ws) :
    C.Beside (fun _ _ => True) (Memory.releaseAll vs) (Memory.releaseAll ws) := by
  induction h with
  | nil => exact parallel_pure trivial
  | cons h _ ih => exact (C.release h).bind fun _ _ _ => ih

theorem retainAll (h : List.Forall₂ C.Values vs ws) :
    C.Beside (fun _ _ => True) (Memory.retainAll vs) (Memory.retainAll ws) := by
  induction h with
  | nil => exact parallel_pure trivial
  | cons h _ ih =>
    exact (C.retain h).bind fun _ _ _ => ih.onRaise (C.release h) (Memory.raises_release _)
      (Memory.raises_release _)

theorem retainTimes (h : C.Values v w) (count : ℕ) :
    C.Beside (fun _ _ => True) (Memory.retainTimes v count) (Memory.retainTimes w count) := by
  have rising (v : Value) (count : ℕ) := Memory.rising_retainTimes v count
  induction count with
  | zero => exact fun _ _ hst => .done trivial hst
  | succ count ih =>
    rw [Memory.retainTimes_succ, Memory.retainTimes_succ]
    exact (C.retain h).bind fun _ _ _ => ih

/-! ### Slots -/

theorem resize (r : Reserve) (capacity : ℕ) : C.Beside Eq (r.resize capacity) (r.resize capacity) := by
  unfold Reserve.resize
  extract_lets shrink shrunk
  have shrinks (u : Unit) : C.Beside Eq (shrunk u) (shrunk u) := by
    dsimp only [shrunk]
    split
    · exact (C.refund _ _).bind fun _ _ _ => parallel_pure rfl
    · exact parallel_pure rfl
  split
  · exact (C.charge _ _).bind fun u _ _ => shrinks u
  · exact shrinks ()

theorem exchangeReserve (r : Reserve) (length : ℕ) (hremoved : List.Forall₂ C.Values vs ws)
    (hadded : List.Forall₂ C.Values vs' ws') :
    C.Beside Eq (r.exchange length vs vs') (r.exchange length ws ws') := by
  unfold Reserve.exchange
  rw [hremoved.length_eq, hadded.length_eq]
  refine (parallel_ofExcept (A := Eq) (by cases r.capacityFor _ <;> constructor <;> rfl)).bind ?_
  rintro capacity _ rfl
  refine (retainAll hadded).bind fun _ _ _ => ?_
  refine ((resize r capacity).onRaise (releaseAll hadded) (Memory.raises_releaseAll _)
    (Memory.raises_releaseAll _)).bind fun r r' hr => ?_
  exact (releaseAll hremoved).bind fun _ _ _ => parallel_pure hr

/-! ### Sequences -/

theorem acquireSequence (slot : Size) (account : Account) (initial increment : ℕ) :
    C.Beside C.Sequences (Sequence.acquire slot account initial increment)
      (Sequence.acquire slot account initial increment) :=
  (C.acquire slot account initial increment).bind fun _ _ h => parallel_pure ⟨h, .nil⟩

theorem exchange (h : C.Sequences s t) (drop : ℕ) (hv : List.Forall₂ C.Values vs ws) :
    C.Beside C.Sequences (s.exchange drop vs) (t.exchange drop ws) := by
  have length : s.length = t.length := h.items.length_eq
  unfold Sequence.exchange
  extract_lets exchanged exchanged'
  have exchanges (u : Unit) : C.Beside C.Sequences (exchanged u) (exchanged' u) := by
    dsimp only [exchanged, exchanged']
    rw [h.reserve, length]
    refine (exchangeReserve t.reserve t.length ?_ hv).bind fun r r' hr => ?_
    · exact List.rel_reverse (List.forall₂_take drop h.items)
    · exact parallel_pure ⟨hr, List.rel_append (List.rel_reverse hv) (List.forall₂_drop drop h.items)⟩
  rw [length]
  split
  · exact (parallel_fail (A := fun _ _ => True) _).bind fun u _ _ => exchanges u
  · exact exchanges ()

theorem clear (h : C.Sequences s t) : C.Beside C.Sequences s.clear t.clear := by
  unfold Sequence.clear
  have emptied : C.Beside C.Sequences (s.exchange s.length []) (t.exchange s.length []) :=
    exchange h s.length .nil
  rw [show t.length = s.length from h.items.length_eq.symm]
  exact emptied.unfailing _ _

/-- Reading an item. -/
theorem get? (h : C.Sequences s t) (index : ℕ) : Option.Rel C.Values (s.get? index) (t.get? index) := by
  unfold Sequence.get?
  rw [show t.length = s.length from h.items.length_eq.symm]
  split
  · exact rel_getElem? h.items _
  · exact .none

theorem set (h : C.Sequences s t) (index : ℕ) (hv : C.Values v w) :
    C.Beside C.Sequences (s.set index v) (t.set index w) := by
  have length : s.length = t.length := h.items.length_eq
  have found := get? h index
  unfold Sequence.set
  generalize s.get? index = o at found
  generalize t.get? index = p at found
  cases found with
  | none =>
    dsimp only
    rw [length]
    exact parallel_fail _
  | some hprevious =>
    refine (C.retain hv).bind fun _ _ _ => (C.release hprevious).bind fun _ _ _ =>
      parallel_pure ⟨h.reserve, ?_⟩
    unfold Sequence.replace
    rw [length]
    split
    · exact rel_set h.items _ hv
    · exact h.items

theorem fill (h : C.Sequences s t) (count : ℕ) (hv : C.Values v w) :
    C.Beside C.Sequences (s.fill v count) (t.fill w count) := by
  have length : s.length = t.length := h.items.length_eq
  have rising (v : Value) := Memory.rising_retainTimes v count
  unfold Sequence.fill
  extract_lets filled filled'
  have fills (u : Unit) : C.Beside C.Sequences (filled u) (filled' u) :=
    (retainTimes hv count).bind fun _ _ _ =>
      parallel_pure ⟨h.reserve, List.rel_append (rel_replicate count hv) h.items⟩
  have (u : Unit) : Action.Rising (filled u) := (rising v).bind fun _ => inferInstance
  have (u : Unit) : Action.Rising (filled' u) := (rising w).bind fun _ => inferInstance
  clear_value filled filled'
  rw [length, h.reserve]
  split
  · exact (parallel_fail (A := fun _ _ => True) _).bind fun u _ _ => fills u
  · exact fills ()

theorem disposeSequence (h : C.Sequences s t) :
    C.Beside (fun _ _ => True) s.dispose t.dispose := by
  refine (clear h).bind fun u w huw => ?_
  unfold Reserve.surrender
  rw [huw.reserve]
  exact C.refund _ _

/-! ### Dictionaries -/

theorem lookUp (h : C.Dictionaries d e) (name : String) :
    Option.Rel C.Values (d.get? name) (e.get? name) := by
  unfold Dictionary.get?
  have entries := h.entries
  generalize d.entries = l at entries
  generalize e.entries = k at entries
  induction entries with
  | nil => exact .none
  | @cons a b _ _ hab _ ih =>
    obtain ⟨key, v⟩ := a
    obtain ⟨key', w⟩ := b
    obtain ⟨rfl, hv⟩ : key = key' ∧ C.Values v w := hab
    simp only [TextMap.find?]
    split
    · exact .some hv
    · exact ih

theorem put {l k : TextMap Value} (h : List.Forall₂ (fun a b => a.1 = b.1 ∧ C.Values a.2 b.2) l k)
    (name : String) (hv : C.Values v w) :
    List.Forall₂ (fun a b => a.1 = b.1 ∧ C.Values a.2 b.2) (l.put name v) (k.put name w) := by
  induction h with
  | nil => exact .cons ⟨rfl, hv⟩ .nil
  | @cons a b _ _ hab hrest ih =>
    obtain ⟨key, u⟩ := a
    obtain ⟨key', u'⟩ := b
    obtain ⟨rfl, hu⟩ : key = key' ∧ C.Values u u' := hab
    simp only [TextMap.put]
    split
    · exact .cons ⟨rfl, hv⟩ hrest
    · exact .cons ⟨rfl, hu⟩ ih

theorem names (h : C.Dictionaries d e) : d.names = e.names := by
  unfold Dictionary.names TextMap.sortedKeys
  congr 1
  have entries := h.entries
  generalize d.entries = l at entries
  generalize e.entries = k at entries
  induction entries with
  | nil => rfl
  | cons hab _ ih => rw [List.map_cons, List.map_cons, hab.1, ih]

theorem defineEntry (h : C.Dictionaries d e) (name : String) (hv : C.Values v w) :
    C.Beside C.Dictionaries (d.define name v) (e.define name w) := by
  have found := lookUp h name
  have defined (d' e' : Dictionary) (hd : d' = { d with entries := d.entries.put name v })
      (he : e' = { e with entries := e.entries.put name w }) : C.Dictionaries d' e' :=
    hd ▸ he ▸ ⟨h.account, put h.entries name hv⟩
  unfold Dictionary.define
  generalize d.get? name = o at found
  generalize e.get? name = p at found
  cases found with
  | none =>
    dsimp only
    rw [h.account]
    refine (C.charge _ _).bind fun _ _ _ => ((C.retain hv).onRaise (C.refund _ _)
      (Ledger.raises_release _ _).zoom (Ledger.raises_release _ _).zoom).bind fun _ _ _ => ?_
    exact parallel_pure (defined _ _ (by rw [h.account]) rfl)
  | some hprevious =>
    exact (C.retain hv).bind fun _ _ _ => (C.release hprevious).bind fun _ _ _ =>
      parallel_pure (defined _ _ rfl rfl)

/-! ### Objects of the heap -/

variable {trail trail' : List String}

theorem newArray (account : Account) (h : List.Forall₂ C.Values vs ws)
    (ht : C.traced → trail = trail') :
    C.Beside C.handles (Memory.newArray account vs trail) (Memory.newArray account ws trail') := by
  unfold Memory.newArray
  rw [h.length_eq]
  exact (acquireSequence _ account ws.length 0).bind fun _ _ hst =>
    ((exchange hst 0 h).onRaise (disposeSequence hst) (Sequence.raises_dispose _)
      (Sequence.raises_dispose _)).bind fun _ _ hfilled => C.store account (.array hfilled) ht

theorem newFilledArray (account : Account) (length : ℕ) (hv : C.Values v w)
    (ht : C.traced → trail = trail') :
    C.Beside C.handles (Memory.newFilledArray account length v trail)
      (Memory.newFilledArray account length w trail') :=
  (acquireSequence _ account length 0).bind fun _ _ hst =>
    ((fill hst length hv).onRaise (disposeSequence hst) (Sequence.raises_dispose _)
      (Sequence.raises_dispose _)).bind fun _ _ hfilled => C.store account (.array hfilled) ht

theorem newDictionary (account : Account) (ht : C.traced → trail = trail') :
    C.Beside C.handles (Memory.newDictionary account trail) (Memory.newDictionary account trail') :=
  (C.charge _ account).bind fun _ _ _ => C.store account (.dictionary ⟨rfl, .nil⟩) ht

theorem modifyObject (h : C.handles i j) {f g : Object → Action Memory Object}
    (hf : ∀ o p, C.Objects o p → C.Beside C.Objects (f o) (g p))
    (hleft : ∀ o, Action.Rising (f o)) (hright : ∀ p, Action.Rising (g p)) :
    C.Beside (fun _ _ => True) (Memory.modifyObject i f) (Memory.modifyObject j g) :=
  (C.checkOut h).bind fun o p hop => ((hf o p hop).onRaise (C.checkIn h hop)
    (Heap.raises_checkIn _ _).zoom (Heap.raises_checkIn _ _).zoom).bind fun _ _ hchanged =>
      C.checkIn h hchanged

theorem setItem (h : C.handles i j) (index : ℕ) (hv : C.Values v w) :
    C.Beside (fun _ _ => True) (Memory.setItem i index v) (Memory.setItem j index w) := by
  refine modifyObject h (fun o p hop => ?_) (fun o => ?_) fun p => ?_
  · cases hop with
    | array hst => exact (set hst index hv).bind fun _ _ h => parallel_pure (.array h)
    | dictionary _ => exact parallel_breach _ _
  · cases o <;> infer_instance
  · cases p <;> infer_instance

theorem define (h : C.handles i j) (name : String) (hv : C.Values v w) :
    C.Beside (fun _ _ => True) (Memory.define i name v) (Memory.define j name w) := by
  refine modifyObject h (fun o p hop => ?_) (fun o => ?_) fun p => ?_
  · cases hop with
    | array _ => exact parallel_breach _ _
    | dictionary hde => exact (defineEntry hde name hv).bind fun _ _ h => parallel_pure (.dictionary h)
  · cases o <;> infer_instance
  · cases p <;> infer_instance

/-! ### Reading containers -/

variable {μ ν : Memory}

theorem array (h : C.handles i j) (hm : C.memories μ ν) :
    Results (fun _ _ => True) C.Sequences (μ.array i) (ν.array j) := by
  have found := C.object h hm
  unfold Memory.array
  generalize μ.heap.get i = r at found
  generalize ν.heap.get j = r' at found
  cases found with
  | ok h =>
    cases h with
    | array h => exact .ok h
    | dictionary h => exact .error trivial
  | error => exact .error trivial

theorem dictionary (h : C.handles i j) (hm : C.memories μ ν) :
    Results (fun _ _ => True) C.Dictionaries (μ.dictionary i) (ν.dictionary j) := by
  have found := C.object h hm
  unfold Memory.dictionary
  generalize μ.heap.get i = r at found
  generalize ν.heap.get j = r' at found
  cases found with
  | ok h =>
    cases h with
    | array h => exact .error trivial
    | dictionary h => exact .ok h
  | error => exact .error trivial

end Comparison

end StackScript
