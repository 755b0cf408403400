import StackScript.Proofs.Memory.Allocation

/-!
# Handles are never confused

The cells of a heap are used again, and their objects are taken out to be modified, with other
calls made meanwhile.  Whoever holds a handle need not know: what the heap says of it is what a
cell of its own would say, to which nothing is done but by the calls about that handle
(`Heap.tenure`).

A heap *recalls* the calls that were made of it when each of its cells is what these calls say of
its handle, its free list has every empty cell, once, and there are as many cells in use as
objects were stored and not handed back (`Heap.Recalls`).  Calls are in order if they are about
handles that are referred to, an object that is taken out is put back before it is taken out
again, and the last reference is not given up meanwhile (`Heap.Call.InOrder`).  Such a call is
answered, as a cell of its own would answer it, and the heap recalls it as well
(`Heap.Recalls.step`), so it does after any calls that are in order
(`handles_are_never_confused`).
-/

namespace StackScript

/-- The cell, as long as there are references. -/
def Cell.used? (c : Cell) : Option Cell := if c.count = 0 then none else some c

/-- What giving up a reference to the cell hands back: the object, with the last one. -/
def Cell.handedBack (c : Cell) : Option Object := if c.count = 1 then c.object else none

namespace Heap

/-! ### Calls and what they say of a handle -/

/-- What a heap can be asked. -/
inductive Call where
  | allocate (object : Object)
  | retain (handle : Handle)
  | release (handle : Handle)
  | checkOut (handle : Handle)
  | checkIn (handle : Handle) (object : Object)

/-- A call that was made, with what it returned. -/
inductive Event where
  | allocated (handle : Handle) (object : Object)
  | retained (handle : Handle)
  | released (handle : Handle) (object : Option Object)
  | checkedOut (handle : Handle) (object : Object)
  | checkedIn (handle : Handle) (object : Object)

/-- Make a call. -/
def Call.perform : Call → Action Heap Event
  | .allocate object => do return .allocated (← Heap.allocate object) object
  | .retain i => do
    Heap.retain i
    return .retained i
  | .release i => do return .released i (← Heap.release i)
  | .checkOut i => do return .checkedOut i (← Heap.checkOut i)
  | .checkIn i object => do
    Heap.checkIn i object
    return .checkedIn i object

namespace Event

/-- The handle the call is about. -/
def handle : Event → Handle
  | .allocated i _ | .retained i | .released i _ | .checkedOut i _ | .checkedIn i _ => i

/-- What the call does to a cell of its own. -/
def apply : Event → Cell → Cell
  | .allocated _ object, _ => ⟨1, some object⟩
  | .retained _, c => { c with count := c.count + 1 }
  | .released _ _, c => { c with count := c.count - 1 }
  | .checkedOut _ _, c => { c with object := none }
  | .checkedIn _ object, c => { c with object := some object }

/-- An object was stored in a new container. -/
def isAllocation : Event → Bool
  | .allocated _ _ => true
  | _ => false

/-- The object of a container was handed back. -/
def isDisposal : Event → Bool
  | .released _ (some _) => true
  | _ => false

end Event

/-- What the calls about a handle, the latest first, say of it: the number of references and the
object it addresses, `none` while that is taken out. -/
def tenure (i : Handle) : List Event → Cell
  | [] => ⟨0, none⟩
  | e :: es => if e.handle = i then e.apply (tenure i es) else tenure i es

/-- The handle is referred to. -/
def Held (i : Handle) (es : List Event) : Prop := 0 < (tenure i es).count

instance (i : Handle) (es : List Event) : Decidable (Held i es) :=
  inferInstanceAs (Decidable (0 < _))

namespace Call

/-- The call is about a handle that is referred to.  What is taken out is put back before it is
taken out again, and before its last reference is given up. -/
def InOrder (es : List Event) : Call → Prop
  | .allocate _ => True
  | .retain i => Held i es
  | .release i => Held i es ∧ ((tenure i es).count = 1 → (tenure i es).object ≠ none)
  | .checkOut i => Held i es ∧ (tenure i es).object ≠ none
  | .checkIn i _ => Held i es ∧ (tenure i es).object = none

instance (es : List Event) : ∀ c : Call, Decidable (c.InOrder es)
  | .allocate _ => .isTrue trivial
  | .retain i => inferInstanceAs (Decidable (Held i es))
  | .release _ | .checkOut _ | .checkIn _ _ => inferInstanceAs (Decidable (_ ∧ _))

/-- What the call returns: a new container gets a handle that is not referred to, and an object is
handed back with the last reference to it. -/
def Returns (es : List Event) : Call → Event → Prop
  | .allocate object, e => ∃ i, ¬ Held i es ∧ e = .allocated i object
  | .retain i, e => e = .retained i
  | .release i, e => e = .released i (tenure i es).handedBack
  | .checkOut i, e => ∃ object, (tenure i es).object = some object ∧ e = .checkedOut i object
  | .checkIn i object, e => e = .checkedIn i object

end Call

/-- The calls, the latest first, were made in order of a heap that was empty, and were answered. -/
inductive History : List Event → Heap → Prop
  | nil : History [] {}
  | cons {es : List Event} {h h' : Heap} {c : Call} {e : Event} (past : History es h)
      (inOrder : c.InOrder es) (done : c.perform h = .done e h') : History (e :: es) h'

variable {h h' : Heap} {i j : Handle} {c : Cell} {o : Object} {es : List Event} {e : Event}

/-! ### Cells in use -/

theorem live_setCell (hi : i < h.cells.size) (c : Option Cell) :
    (h.setCell i c).live + (if (h.cell? i).isSome then 1 else 0) =
      h.live + if c.isSome then 1 else 0 := by
  have hlen : i < h.cells.toList.length := by simpa using hi
  have hcell : h.cell? i = h.cells.toList[i] := by
    rw [cell?, Array.getElem?_eq_getElem hi]
    simp
  have counted : h.cells.toList[i].isSome → 0 < h.cells.toList.countP Option.isSome :=
    fun used => List.countP_pos_iff.2 ⟨_, List.getElem_mem hlen, used⟩
  rw [live, live, ← Array.countP_toList, ← Array.countP_toList, setCell,
    Array.toList_setIfInBounds, List.countP_set hlen, hcell]
  split
  · rename_i used
    have := counted used
    omega
  · omega

theorem live_setCell_some (hc : h.cell? i = some c) (c' : Cell) :
    (h.setCell i (some c')).live = h.live := by
  have key := live_setCell (lt_size_of_cell? hc) (some c')
  rw [hc] at key
  exact Nat.add_right_cancel key

theorem live_freed (hc : h.cell? i = some c) : (h.freed i).live + 1 = h.live := by
  have key := live_setCell (lt_size_of_cell? hc) none
  rw [hc] at key
  exact key

theorem live_allocate (hw : h.WellFormed) (done : allocate o h = .done i h') :
    h'.live = h.live + 1 := by
  unfold allocate at done
  dsimp only at done
  split at done
  · rename_i i free hfree
    obtain ⟨hi, hnone⟩ := (hw.mem_free i).1 (by rw [hfree]; exact List.mem_cons_self)
    have key := live_setCell hi (some ⟨1, some o⟩)
    rw [hnone] at key
    cases done
    exact key
  · cases done
    simp [live]

theorem WellFormed.mem_free_iff (hw : h.WellFormed) (i : Handle) :
    i ∈ h.free ↔ h.cells[i]? = some none := by
  rw [hw.mem_free, cell?]
  constructor
  · rintro ⟨hi, empty⟩
    rw [Array.getElem?_eq_getElem hi, Option.join_some] at empty
    rw [Array.getElem?_eq_getElem hi, empty]
  · intro empty
    obtain ⟨hi, -⟩ := Array.getElem?_eq_some_iff.1 empty
    exact ⟨hi, by rw [empty, Option.join_some]⟩

/-! ### Recalling -/

/-- Each cell is what the calls say of its handle, every empty one is in the free list, once, and
objects that were stored are in cells unless they were handed back. -/
structure Recalls (es : List Event) (h : Heap) : Prop where
  wellFormed : h.WellFormed
  cells : ∀ i, h.cell? i = (tenure i es).used?
  live : h.live + es.countP Event.isDisposal = es.countP Event.isAllocation

theorem recalls_nil : Recalls [] {} where
  wellFormed := ⟨List.nodup_nil, fun i => by simp⟩
  cells i := by simp [cell?, tenure, Cell.used?]
  live := rfl

namespace Recalls

theorem cell?_of_held (r : Recalls es h) (hi : Held i es) : h.cell? i = some (tenure i es) := by
  rw [r.cells, Cell.used?, if_neg (Nat.pos_iff_ne_zero.1 hi)]

theorem not_held (r : Recalls es h) (hi : h.cell? i = none) : ¬ Held i es := fun held => by
  rw [r.cell?_of_held held] at hi
  cases hi

/-- A call concerns the cell of its handle alone. -/
theorem cons (r : Recalls es h) (hw : h'.WellFormed)
    (cells : ∀ j, h'.cell? j =
      if j = e.handle then (e.apply (tenure e.handle es)).used? else h.cell? j)
    (live : h'.live + (if e.isDisposal then 1 else 0) = h.live + if e.isAllocation then 1 else 0) :
    Recalls (e :: es) h' where
  wellFormed := hw
  cells j := by
    rw [cells, tenure]
    by_cases hj : e.handle = j
    · subst hj
      simp
    · rw [if_neg (Ne.symm hj), if_neg hj, r.cells]
  live := by
    have before := r.live
    rw [List.countP_cons, List.countP_cons]
    omega

/-- The cell of a handle that is referred to changes and is still used. -/
theorem cons_setCell (r : Recalls es h) (hi : Held e.handle es)
    (used : (e.apply (tenure e.handle es)).count ≠ 0) (kept : e.isDisposal = false)
    (known : e.isAllocation = false) :
    Recalls (e :: es) (h.setCell e.handle (some (e.apply (tenure e.handle es)))) := by
  have hc := r.cell?_of_held hi
  refine r.cons (r.wellFormed.setCell_some hc _) (fun j => ?_) ?_
  · rw [cell?_setCell (lt_size_of_cell? hc), Cell.used?, if_neg used]
  · rw [live_setCell_some hc, kept, known]

theorem allocates (r : Recalls es h) (o : Object) :
    ∃ i h', allocate o h = .done i h' ∧ ¬ Held i es ∧ Recalls (.allocated i o :: es) h' := by
  have allocated : (allocate o h).Meets False _ fun _ => False := allocate_meets r.wellFormed o
  obtain ⟨i, h', done, fresh, hw, -, cells⟩ := allocated.exists_done
  exact ⟨i, h', done, r.not_held fresh, r.cons hw cells (live_allocate r.wellFormed done)⟩

theorem releases (r : Recalls es h) (hi : Held i es)
    (last : (tenure i es).count = 1 → (tenure i es).object ≠ none) : ∃ h',
      release i h = .done (tenure i es).handedBack h' ∧
        Recalls (.released i (tenure i es).handedBack :: es) h' := by
  have hc := r.cell?_of_held hi
  by_cases one : (tenure i es).count = 1
  · -- the object leaves with its last reference, so it must not be out
    obtain ⟨o, ho⟩ := Option.ne_none_iff_exists'.1 (last one)
    rw [Cell.handedBack, if_pos one, ho]
    refine ⟨h.freed i, by simp [release, hc, one, ho, freed], ?_⟩
    refine r.cons (r.wellFormed.freed hc) (fun j => ?_) (live_freed hc)
    rw [cell?_freed (lt_size_of_cell? hc)]
    simp [Event.handle, Event.apply, Cell.used?, one]
  · have more : 1 < (tenure i es).count := by
      unfold Held at hi
      omega
    rw [Cell.handedBack, if_neg one]
    refine ⟨h.setCell i (some ((Event.released i none).apply (tenure i es))), ?_, ?_⟩
    · simp only [release, hc, more, if_true, Event.apply]
    · exact r.cons_setCell (e := .released i none) hi (Nat.sub_ne_zero_of_lt more) rfl rfl

/-- **A call in order is answered, and recalled.** -/
theorem step (r : Recalls es h) {call : Call} (inOrder : call.InOrder es) :
    ∃ e h', call.perform h = .done e h' ∧ call.Returns es e ∧ Recalls (e :: es) h' := by
  cases call with
  | allocate o =>
    obtain ⟨i, h', done, fresh, r'⟩ := r.allocates o
    exact ⟨_, h', Action.bind_done done _, ⟨i, fresh, rfl⟩, r'⟩
  | retain i =>
    have done : retain i h =
        .done () (h.setCell i (some ((Event.retained i).apply (tenure i es)))) := by
      simp only [retain, r.cell?_of_held inOrder, Event.apply]
    exact ⟨_, _, Action.bind_done done _, rfl,
      r.cons_setCell (e := .retained i) inOrder (Nat.succ_ne_zero _) rfl rfl⟩
  | release i =>
    obtain ⟨hi, last⟩ := inOrder
    obtain ⟨h', done, r'⟩ := r.releases hi last
    exact ⟨_, h', Action.bind_done done _, rfl, r'⟩
  | checkOut i =>
    obtain ⟨hi, inside⟩ := inOrder
    obtain ⟨o, ho⟩ := Option.ne_none_iff_exists'.1 inside
    have done : checkOut i h =
        .done o (h.setCell i (some ((Event.checkedOut i o).apply (tenure i es)))) := by
      simp only [checkOut, r.cell?_of_held hi, ho, Event.apply]
    exact ⟨_, _, Action.bind_done done _, ⟨o, ho, rfl⟩,
      r.cons_setCell (e := .checkedOut i o) hi (Nat.pos_iff_ne_zero.1 hi) rfl rfl⟩
  | checkIn i o =>
    obtain ⟨hi, outside⟩ := inOrder
    have done : checkIn i o h =
        .done () (h.setCell i (some ((Event.checkedIn i o).apply (tenure i es)))) := by
      simp only [checkIn, r.cell?_of_held hi, outside, Event.apply]
    exact ⟨_, _, Action.bind_done done _, rfl,
      r.cons_setCell (e := .checkedIn i o) hi (Nat.pos_iff_ne_zero.1 hi) rfl rfl⟩

end Recalls

/-- **A heap recalls its history.** -/
theorem History.recalls (past : History es h) : Recalls es h := by
  induction past with
  | nil => exact recalls_nil
  | cons _ inOrder done ih =>
    obtain ⟨e, h', answered, -, r⟩ := ih.step inOrder
    rw [done] at answered
    cases answered
    exact r

theorem tenure_append {later : List Event} (elsewhere : ∀ e ∈ later, e.handle ≠ i) :
    tenure i (later ++ es) = tenure i es := by
  induction later with
  | nil => rfl
  | cons e later ih =>
    obtain ⟨he, hlater⟩ := List.forall_mem_cons.1 elsewhere
    rw [List.cons_append, tenure, if_neg he, ih hlater]

end Heap

open Heap in
/-- **Handles are never confused.**  After any calls in order, the free list has the empty cells,
each once; a handle that is referred to counts its references, and addresses the object stored under
it last unless that is taken out; as many containers are live as were allocated and not disposed of;
any further call in order is answered, as a cell of its own would answer it; and calls about other
handles leave the cell of a handle as it is. -/
theorem handles_are_never_confused {es : List Event} {h : Heap} (past : History es h) :
    (h.free.Nodup ∧ ∀ i : ℕ, i ∈ h.free ↔ h.cells[i]? = some none) ∧
    (∀ i, Held i es → h.count i = .ok (tenure i es).count ∧
      ∀ o, (tenure i es).object = some o → h.get i = .ok o) ∧
    h.live + es.countP Event.isDisposal = es.countP Event.isAllocation ∧
    (∀ c : Call, c.InOrder es → ∃ e h', c.perform h = .done e h' ∧ c.Returns es e) ∧
    ∀ later h' i, History (later ++ es) h' → (∀ e ∈ later, e.handle ≠ i) →
      h'.cell? i = h.cell? i := by
  have r := past.recalls
  refine ⟨⟨r.wellFormed.nodup, r.wellFormed.mem_free_iff⟩, fun i hi => ⟨?_, fun o ho => ?_⟩,
    r.live, fun c inOrder => ?_, fun later h' i past' elsewhere => ?_⟩
  · rw [Heap.count, r.cell?_of_held hi]
  · rw [Heap.get, r.cell?_of_held hi]
    dsimp only
    rw [ho]
  · obtain ⟨e, h', done, returns, -⟩ := r.step inOrder
    exact ⟨e, h', done, returns⟩
  · rw [past'.recalls.cells, r.cells, tenure_append elsewhere]

/-- The object of the first handle is taken out.  Meanwhile the only reference to the second one is
given up, and its handle is used again.  Both lead where they should in the end. -/
theorem handles_are_never_confused_when_recycled : ∃ (es : List Heap.Event) (h : Heap),
    Heap.History es h ∧ es.reverse.map Heap.Event.handle = [0, 1, 0, 1, 1, 0] ∧
    h.get 0 = .ok (.dictionary ⟨.system, [("x", .null)]⟩) ∧
    h.get 1 = .ok (.dictionary ⟨.user, []⟩) ∧ h.live = 2 := by
  have one : Heap.History _ _ :=
    Heap.History.nil.cons (c := .allocate (.dictionary ⟨.system, []⟩)) trivial rfl
  have two := one.cons (c := .allocate (.dictionary ⟨.system, []⟩)) trivial rfl
  have out := two.cons (c := .checkOut 0) (by decide) rfl
  have disposed := out.cons (c := .release 1) (by decide) rfl
  have recycled := disposed.cons (c := .allocate (.dictionary ⟨.user, []⟩)) trivial rfl
  have past := recycled.cons (c := .checkIn 0 (.dictionary ⟨.system, [("x", .null)]⟩))
    (by decide) rfl
  obtain ⟨-, found, live, -⟩ := handles_are_never_confused past
  exact ⟨_, _, past, rfl, (found 0 (by decide)).2 _ rfl, (found 1 (by decide)).2 _ rfl,
    Nat.add_right_cancel (m := 1) live⟩

end StackScript
