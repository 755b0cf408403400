import StackScript.Action
import StackScript.Memory.Object

/-!
# The heap

Arrays and dictionaries live in cells addressed by handles.  A cell starts with one reference, its
creator's, and is emptied when its last reference is given up; the cell emptied last is used first.

An object that is being modified is *checked out*: its cell stays, without the object, until it is
checked in again.  Reading it meanwhile, or giving up its last reference, is a breach, and so is
checking in an object whose cell is not waiting for it.
-/

namespace StackScript

/-- A cell in use. -/
structure Cell where
  /-- Number of references. -/
  count : Nat
  /-- The object, `none` while it is checked out. -/
  object : Option Object
deriving DecidableEq, Repr

/-- Cells, and the handles of the empty ones, next to be used first. -/
structure Heap where
  cells : Array (Option Cell) := #[]
  free : List Handle := []
deriving DecidableEq, Repr

namespace Heap

/-- The cell of a handle. -/
def cell? (h : Heap) (handle : Handle) : Option Cell := h.cells[handle]?.join

/-- Replace the content of a cell. -/
def setCell (h : Heap) (handle : Handle) (cell : Option Cell) : Heap :=
  { h with cells := h.cells.setIfInBounds handle cell }

/-- Store an object, with one reference.  There is always a cell for it: that handles of 32 bits are
exhausted at some time is left out (`Handle`). -/
def allocate (object : Object) : Action Heap Handle := fun h =>
  let cell : Cell := { count := 1, object := some object }
  match h.free with
  | handle :: free => .done handle { h.setCell handle (some cell) with free := free }
  | [] => .done h.cells.size { h with cells := h.cells.push (some cell) }

/-- Number of references of a handle. -/
def count (h : Heap) (handle : Handle) : Except Breach Nat :=
  match h.cell? handle with
  | some cell => .ok cell.count
  | none => .error (.dangling handle)

/-- Take a reference. -/
def retain (handle : Handle) : Action Heap Unit := fun h =>
  match h.cell? handle with
  | some cell => .done () (h.setCell handle (some { cell with count := cell.count + 1 }))
  | none => .broken (.dangling handle)

/-- Give up a reference; the last one returns the object and empties the cell. -/
def release (handle : Handle) : Action Heap (Option Object) := fun h =>
  match h.cell? handle with
  | none => .broken (.dangling handle)
  | some cell =>
    if 1 < cell.count then
      .done none (h.setCell handle (some { cell with count := cell.count - 1 }))
    else match cell.object with
      | none => .broken (.releasedWhileOut handle)
      | some object =>
        .done (some object) { h.setCell handle none with free := handle :: h.free }

/-- Read an object. -/
def get (h : Heap) (handle : Handle) : Except Breach Object :=
  match h.cell? handle with
  | none => .error (.dangling handle)
  | some cell =>
    match cell.object with
    | none => .error (.checkedOut handle)
    | some object => .ok object

/-- Take an object out of its cell to modify it. -/
def checkOut (handle : Handle) : Action Heap Object := fun h =>
  match h.cell? handle with
  | none => .broken (.dangling handle)
  | some cell =>
    match cell.object with
    | none => .broken (.alreadyCheckedOut handle)
    | some object => .done object (h.setCell handle (some { cell with object := none }))

/-- Put an object back into its cell. -/
def checkIn (handle : Handle) (object : Object) : Action Heap Unit := fun h =>
  match h.cell? handle with
  | none => .broken (.dangling handle)
  | some cell =>
    match cell.object with
    | some _ => .broken (.notCheckedOut handle)
    | none => .done () (h.setCell handle (some { cell with object := some object }))

/-- Number of cells in use. -/
def live (h : Heap) : Nat := h.cells.countP Option.isSome

/-- References and values held in all cells together. It bounds how many references can be given
up one after the other. -/
def weight (h : Heap) : Nat :=
  (h.cells.toList.map fun
    | none => 0
    | some cell => cell.count + (cell.object.map fun o => o.values.length).getD 0).foldr (· + ·) 0

end Heap

end StackScript
