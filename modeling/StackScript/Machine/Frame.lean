import StackScript.Memory.Container

/-!
# Call frames

The call stack holds pending work.  A frame has the value being executed and, as needed, the
continuation state of an operator, the cursor of a text or a block, the operator's locals, an
exception it has set aside, and the host's supply of values.

A frame is addressed by the number of frames below it, so an operator keeps addressing its own
frame after pushing more work.
-/

namespace StackScript

/-! ### Exception records -/

/-- A raised exception with what it costs in the ledger. -/
structure PendingException where
  exception : Exception
  charge : Size
deriving DecidableEq, Repr

namespace PendingException

/-- Charge the record of an exception. If the ledger refuses, a bare record is kept at no cost, so
raising never fails; a fatal exception stays fatal. -/
def record (e : Exception) : Action Memory PendingException := do
  match ← (Memory.onLedger (Ledger.allocate e.size .system)).attempt with
  | .ok _ => return { exception := e, charge := e.size }
  | .error _ =>
    let condition := if e.condition.isFatal then e.condition else .memoryOverflow
    return { exception := { condition := condition, message := "" }, charge := {} }

/-- Give the charge back. -/
def discharge (p : PendingException) : Action Memory Unit :=
  Memory.onLedger (Ledger.release p.charge .system)

end PendingException

/-! ### Frames -/

/-- Values the host provides one by one: first those listed, then the last one for ever, if any. -/
structure Supply where
  upcoming : List Value
  forever : Option Value := none
deriving DecidableEq, Repr

/-- The next value of a supply and what is left of it. -/
def Supply.next? (s : Supply) : Option (Value × Supply) :=
  match s.upcoming with
  | v :: rest => some (v, { s with upcoming := rest })
  | [] => s.forever.map fun v => (v, s)

/-- A call frame. -/
structure Frame where
  value : Value
  state : Continuation := .unknown
  cursor : Nat := 0
  /-- Dictionary of the operator's locals, created when the first one is set. -/
  locals : Option Handle := none
  stash : Option PendingException := none
  supply : Option Supply := none
deriving DecidableEq, Repr

namespace Frame

/-- Release what a frame holds besides its value. -/
def dispose (f : Frame) : Action Memory Unit := do
  if let some handle := f.locals then
    Memory.release (.dictionary handle true)
  if let some stashed := f.stash then
    stashed.discharge

end Frame

/-! ### The call stack -/

/-- Frames in charged slots, the top first. -/
structure CallStack where
  reserve : Reserve
  frames : List Frame := []
deriving DecidableEq, Repr

namespace CallStack

/-- A frame costs its value, its continuation state and its cursor. -/
def frameSlot : Size := Sequence.valueSlot.plus { integers := 2 }

/-- An empty call stack. -/
def acquire : Action Memory CallStack := do
  let reserve ← Reserve.acquire frameSlot .system 32 32
  return { reserve := reserve }

/-- Number of frames. -/
def length (c : CallStack) : Nat := c.frames.length

/-- No work is left. -/
def isEmpty (c : CallStack) : Bool := c.frames.isEmpty

/-- The frame with `index` frames below it. -/
def frame? (c : CallStack) (index : Nat) : Option Frame :=
  if index < c.length then c.frames[c.length - 1 - index]? else none

/-- Change the frame with `index` frames below it. -/
def update (c : CallStack) (index : Nat) (f : Frame → Frame) : CallStack :=
  if index < c.length then
    { c with frames := c.frames.modify (c.length - 1 - index) f }
  else c

/-- Push a frame. -/
def push (c : CallStack) (f : Frame) : Action Memory CallStack := do
  let reserve ← c.reserve.exchange c.length [] [f.value]
  return { reserve := reserve, frames := f :: c.frames }

/-- Remove the top frame with what it holds. -/
def pop (c : CallStack) : Action Memory CallStack := do
  match c.frames with
  | [] => Action.fail .notEnoughOperands
  | f :: rest =>
    let reserve ← c.reserve.exchange c.length [f.value] []
    f.dispose
    return { reserve := reserve, frames := rest }

/-- Let a fresh frame executing `v` take the place of the top frame. -/
def replaceTop (c : CallStack) (v : Value) : Action Memory CallStack := do
  match c.frames with
  | [] => Action.fail .notEnoughOperands
  | f :: rest =>
    let reserve ← c.reserve.exchange c.length [f.value] [v]
    f.dispose
    return { reserve := reserve, frames := { value := v } :: rest }

/-- Remove every frame, then give the slots back. -/
def dispose (c : CallStack) : Action Memory Unit := go c.frames c
where
  /-- Remove one frame for each frame of the list. -/
  go : List Frame → CallStack → Action Memory Unit
    | [], c => c.reserve.surrender
    | _ :: rest, c => do
      let shorter ← c.pop
      go rest shorter

/-! ### Addressing frames -/

theorem frame?_eq_getElem? (c : CallStack) (index : Nat) :
    c.frame? index = c.frames.reverse[index]? := by
  unfold frame? length
  split
  · rename_i h
    rw [List.getElem?_reverse h]
  · rename_i h
    exact (List.getElem?_eq_none (by simpa using h)).symm

theorem update_top (c : CallStack) (f : Frame) (rest : List Frame) (h : c.frames = f :: rest)
    (g : Frame → Frame) : c.update rest.length g = { c with frames := g f :: rest } := by
  simp [update, length, h]

end CallStack

end StackScript
