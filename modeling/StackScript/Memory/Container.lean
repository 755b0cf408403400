import StackScript.Memory.Basic

/-!
# Operations on containers

Every operation that stores values retains them first and every operation that drops values
releases them last, so a value moved within one container is never disposed of in between.  The
ledger is asked before anything moves: a failed operation returns no container, so the one it was
given is still the current one, and it has given back the references it took.

* `Sequence.exchange` replaces the top of a sequence; pushing and popping are special cases;
* `Sequence.set` and `Dictionary.define` replace or add one value;
* `Memory.newArray`, `Memory.newFilledArray` and `Memory.newDictionary` allocate containers, with
  one reference, their creator's;
* `Memory.setItem` and `Memory.define` modify a container of the heap in place.
-/

namespace StackScript

open Memory (onLedger onHeap retain retainAll release releaseAll)

namespace Reserve

/-- Slots no machine can provide, 2 ^ 50 of them.  The bound stands for the refusal of the allocator
of the system a machine runs on, in whose address space no block of that many slots fits.  That the
allocator may refuse a smaller block, for want of memory, is left out. -/
def unreservable : Nat := 1125899906842624

/-- Charge the initial slots of a new container. -/
def acquire (slot : Size) (account : Account) (initial increment : Nat) :
    Action Memory Reserve := do
  let size := slot.times initial
  Action.ofExcept ((← get).ledger.check size)
  if unreservable ≤ initial then Action.fail (.unreservable initial)
  onLedger (Ledger.allocate size account)
  return {
    slot := slot
    account := account
    initial := initial
    increment := increment
    capacity := initial }

theorem acquire_eq (slot : Size) (account : Account) (initial increment : Nat) (m : Memory) :
    acquire slot account initial increment m =
      match m.ledger.check (slot.times initial) with
      | .error c => .raised c.exception m
      | .ok _ =>
        if unreservable ≤ initial then .raised (Cause.unreservable initial).exception m
        else .done ⟨slot, account, initial, increment, initial⟩
          { m with ledger := m.ledger.grant (slot.times initial).cost account } := by
  unfold acquire
  rw [Action.bind_done (show (get : Action Memory Memory) m = .done m m from rfl)]
  cases checked : m.ledger.check (slot.times initial) with
  | error c => rfl
  | ok _ =>
    have charged : Memory.onLedger (Ledger.allocate (slot.times initial) account) m =
        .done () { m with ledger := m.ledger.grant (slot.times initial).cost account } := by
      unfold Memory.onLedger Action.zoom Ledger.allocate
      rw [checked]
    change (if _ then _ else _ : Action Memory Reserve) m = _
    split
    · rfl
    · exact Action.bind_done charged _

/-- Charge or give back slots to reach `capacity`. -/
def resize (r : Reserve) (capacity : Nat) : Action Memory Reserve := do
  if r.capacity < capacity then
    onLedger (Ledger.allocate (r.slot.times (capacity - r.capacity)) r.account)
  if capacity < r.capacity then
    onLedger (Ledger.release (r.slot.times (r.capacity - capacity)) r.account)
  return { r with capacity := capacity }

/-- In a container of `length` items, let `added` take the place of `removed`, which is one of its
ends, bottom first. -/
def exchange (r : Reserve) (length : Nat) (removed added : List Value) : Action Memory Reserve := do
  let capacity ← Action.ofExcept (r.capacityFor (length - removed.length + added.length))
  retainAll added
  let resized ← (r.resize capacity).onRaise (releaseAll added)
  releaseAll removed
  return resized

/-- Give every slot back. -/
def surrender (r : Reserve) : Action Memory Unit := onLedger (Ledger.release r.charge r.account)

end Reserve

namespace Sequence

/-- An empty sequence. -/
def acquire (slot : Size) (account : Account) (initial increment : Nat) :
    Action Memory Sequence := do
  let reserve ← Reserve.acquire slot account initial increment
  return { reserve := reserve }

/-- Remove the top `drop` items and push `values`, the last of which becomes the top. -/
def exchange (s : Sequence) (drop : Nat) (values : List Value) : Action Memory Sequence := do
  if s.length < drop then Action.fail .notEnoughOperands
  let reserve ← s.reserve.exchange s.length (s.items.take drop).reverse values
  return { reserve := reserve, items := values.reverse ++ s.items.drop drop }

/-- Push one value. -/
def push (s : Sequence) (v : Value) : Action Memory Sequence := s.exchange 0 [v]

/-- Remove the top `count` items. -/
def pop (s : Sequence) (count : Nat) : Action Memory Sequence := s.exchange count []

/-- Remove every item. Nothing is asked of the ledger for that, so it must not fail. -/
def clear (s : Sequence) : Action Memory Sequence :=
  (s.exchange s.length []).unfailing fun e => .unclearable e.describe

/-- Store a value at an index from the bottom. -/
def set (s : Sequence) (index : Nat) (v : Value) : Action Memory Sequence := do
  match s.get? index with
  | none => Action.fail (.outOfBounds index s.length)
  | some previous =>
    retain v
    release previous
    return s.replace index v

/-- Append `count` copies of a value without growing. Only the first reference to a string can be
refused, so nothing is stored on failure. -/
def fill (s : Sequence) (v : Value) (count : Nat) : Action Memory Sequence := do
  if s.reserve.capacity < s.length + count then
    Action.fail (.fillExceeds count s.reserve.capacity)
  Memory.retainTimes v count
  return { s with items := List.replicate count v ++ s.items }

/-- Release every item, then the slots. -/
def dispose (s : Sequence) : Action Memory Unit := do
  let emptied ← s.clear
  emptied.reserve.surrender

end Sequence

namespace Dictionary

/-- Bind a name to a value; a new entry is charged for. -/
def define (d : Dictionary) (name : String) (v : Value) : Action Memory Dictionary := do
  match d.get? name with
  | some previous =>
    retain v
    release previous
  | none =>
    onLedger (Ledger.allocate (entrySize name) d.account)
    (retain v).onRaise (onLedger (Ledger.release (entrySize name) d.account))
  return { d with entries := d.entries.put name v }

end Dictionary

namespace Memory

/-! ### Allocation -/

/-- Store an object in the heap, recording its trail if trails are kept. -/
def store (object : Object) (account : Account) (trail : List String) : Action Memory Handle := do
  let handle ← onHeap (Heap.allocate object)
  recordTrail { handle := handle, account := account, frames := trail }
  return handle

/-- Allocate a fixed-size array of the given items. -/
def newArray (account : Account) (items : List Value) (trail : List String) :
    Action Memory Handle := do
  let s ← Sequence.acquire Sequence.valueSlot account items.length 0
  let filled ← (s.exchange 0 items).onRaise s.dispose
  store (.array filled) account trail

/-- Allocate a fixed-size array of `length` copies of a value. The ledger is charged before any
slot is filled. -/
def newFilledArray (account : Account) (length : Nat) (v : Value) (trail : List String) :
    Action Memory Handle := do
  let s ← Sequence.acquire Sequence.valueSlot account length 0
  let filled ← (s.fill v length).onRaise s.dispose
  store (.array filled) account trail

/-- Allocate an empty dictionary. -/
def newDictionary (account : Account) (trail : List String) : Action Memory Handle := do
  onLedger (Ledger.allocate Dictionary.header account)
  store (.dictionary { account := account }) account trail

/-! ### Modification in place -/

/-- Check an object out, let `f` compute its new state, and check it in again. If `f` fails the
object goes back as it was. -/
def modifyObject (handle : Handle) (f : Object → Action Memory Object) : Action Memory Unit := do
  let object ← onHeap (Heap.checkOut handle)
  let changed ← (f object).onRaise (onHeap (Heap.checkIn handle object))
  onHeap (Heap.checkIn handle changed)

/-- Store a value in an array. -/
def setItem (handle : Handle) (index : Nat) (v : Value) : Action Memory Unit :=
  modifyObject handle fun
    | .array s => return .array (← s.set index v)
    | .dictionary _ => Action.breach (.notArray handle)

/-- Bind a name in a dictionary. -/
def define (handle : Handle) (name : String) (v : Value) : Action Memory Unit :=
  modifyObject handle fun
    | .dictionary d => return .dictionary (← d.define name v)
    | .array _ => Action.breach (.notDictionary handle)

end Memory

end StackScript
