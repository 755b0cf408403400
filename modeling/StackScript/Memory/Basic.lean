import StackScript.Memory.Heap
import StackScript.Memory.Ledger
import StackScript.Memory.Trails

/-!
# Memory: references

`Memory` joins the ledger and the heap, and owns the only operations that change reference counts.
While it is being debugged it also keeps the trails of the containers there are.
A container retains a value before storing it and releases it after dropping it; values that are
not tracked pass through untouched.

* `Memory.retain` can be refused only at the first reference to a string;
* `Memory.retainAll` retains every value or none;
* `Memory.release` disposes of a container with its last reference and goes on with what it held.
-/

namespace StackScript

/-- Ledger and heap. -/
structure Memory where
  ledger : Ledger
  heap : Heap := {}
  /-- The trails of the containers, if they are recorded. -/
  trails : Option Trails := none
deriving DecidableEq, Repr

namespace Memory

/-- Empty memory of a given capacity. -/
def empty (total : Option Nat) (debug : Bool) : Memory where
  ledger := { total := total }
  trails := if debug then some [] else none

/-- Trails are recorded. -/
def debug (m : Memory) : Bool := m.trails.isSome

/-- The trails recorded, by handle. -/
def allocations (m : Memory) : Trails := (m.trails.getD []).sorted

/-- Record where a container was allocated. -/
def recordTrail (t : Trail) : Action Memory Unit :=
  modify fun m => { m with trails := m.trails.map (·.record t) }

/-- Forget where a container was allocated. -/
def forgetTrail (handle : Handle) : Action Memory Unit :=
  modify fun m => { m with trails := m.trails.map (·.forget handle) }

/-- Work on the ledger. -/
def onLedger {α : Type} (x : Action Ledger α) : Action Memory α :=
  x.zoom Memory.ledger fun l m => { m with ledger := l }

/-- Work on the heap. -/
def onHeap {α : Type} (x : Action Heap α) : Action Memory α :=
  x.zoom Memory.heap fun h m => { m with heap := h }

/-! ### Taking references -/

/-- Take one reference on a tracked value. -/
def retain (v : Value) : Action Memory Unit :=
  match v.datum with
  | .string text _ => onLedger (Ledger.addReference text)
  | .array handle _ | .dictionary handle _ => onHeap (Heap.retain handle)
  | _ => pure ()

/-! ### Giving references up -/

/-- Give the charge of an object back. -/
def giveBack : Object → Action Ledger Unit
  | .array s => Ledger.release s.reserve.charge s.reserve.account
  | .dictionary d => do
    d.entries.forM fun entry => Ledger.release (Dictionary.entrySize entry.1) d.account
    Ledger.release Dictionary.header d.account

/-- What an object that has gone leaves behind: its trail is forgotten and its charge given back,
and the values it held are still to be given up. -/
def discard (handle : Handle) : Option Object → Action Memory (List Value)
  | none => return []
  | some object => do
    forgetTrail handle
    onLedger (giveBack object)
    return object.values

/-- Give up one reference. The values an object held when it goes are still to be given up. -/
def giveUp (v : Value) : Action Memory (List Value) :=
  match v.datum with
  | .string text _ => do
    onLedger (Ledger.dropReference text)
    return []
  | .array handle _ | .dictionary handle _ => do
    discard handle (← onHeap (Heap.release handle))
  | _ => pure []

/-- Give up references until none is left, at most `fuel` of them. -/
def giveUpAll : Nat → List Value → Memory → Outcome Memory Unit
  | 0, _, m => .done () m
  | _, [], m => .done () m
  | fuel + 1, v :: rest, m =>
    match giveUp v m with
    | .done freed m' => giveUpAll fuel (freed ++ rest) m'
    | .raised e m' => .raised e m'
    | .broken b => .broken b

/-- Drop one reference, disposing of what is no longer referenced. Each reference given up makes
the weight of the heap and the number of values to go smaller together. -/
def release (v : Value) : Action Memory Unit := fun m =>
  match giveUp v m with
  | .done [] m' => .done () m'
  | .done (w :: freed) m' => giveUpAll (m'.heap.weight + freed.length + 1) (w :: freed) m'
  | .raised e m' => .raised e m'
  | .broken b => .broken b

/-- Drop one reference to each value in turn. -/
def releaseAll : List Value → Action Memory Unit
  | [] => pure ()
  | v :: rest => do
    release v
    releaseAll rest

/-- Retain every value, or none of them. -/
def retainAll : List Value → Action Memory Unit
  | [] => pure ()
  | v :: rest => do
    retain v
    (retainAll rest).onRaise (release v)

/-- Retain a value `count` times. -/
def retainTimes (v : Value) : Nat → Memory → Outcome Memory Unit
  | 0, m => .done () m
  | count + 1, m =>
    match retain v m with
    | .done _ m' => retainTimes v count m'
    | .raised e m' => .raised e m'
    | .broken b => .broken b

/-- Number of references to a tracked value, `0` for the others. -/
def references (m : Memory) (v : Value) : Except Breach Nat :=
  match v.datum with
  | .string text _ => .ok (m.ledger.references text)
  | .array handle _ | .dictionary handle _ => m.heap.count handle
  | _ => .ok 0

/-! ### Reading containers -/

/-- The array of a handle. -/
def array (m : Memory) (handle : Handle) : Except Breach Sequence := do
  match ← m.heap.get handle with
  | .array s => return s
  | .dictionary _ => throw (.notArray handle)

/-- The dictionary of a handle. -/
def dictionary (m : Memory) (handle : Handle) : Except Breach Dictionary := do
  match ← m.heap.get handle with
  | .dictionary d => return d
  | .array _ => throw (.notDictionary handle)

end Memory

end StackScript
