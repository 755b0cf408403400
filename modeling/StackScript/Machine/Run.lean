import StackScript.Machine.Cycle

/-!
# Runs

A run does cycles until no work is left or its budget is spent, and counts them.  An exception of
hosted code does not stop it: the machine unwinds within the run, and whether the run then reports
the exception is an option of the machine.

Destroying a machine gives back everything it holds.  What is left in its memory after that was
leaked: by containers that hold each other, or by references the host did not give up.
-/

namespace StackScript

namespace Session

variable {χ : Type}

/-- Do at most `budget` cycles; `count` of them were done before. -/
def runFrom (natives : Natives χ) (count : Nat) : Nat → Session χ → Outcome (Session χ) Nat
  | 0, s => .done count s
  | budget + 1, s =>
    if s.machine.calls.isEmpty then .done count s
    else match cycle natives s with
      | .done _ t => runFrom natives (count + 1) budget t
      | .raised e t => .raised e t
      | .broken b => .broken b

/-- Do at most `budget` cycles and return how many were done. -/
def run (natives : Natives χ) (budget : Nat) : Action (Session χ) Nat := do
  let count ← runFrom natives 0 budget
  let m ← theMachine
  match m.exception with
  | some e => if m.options.throwOnException then Action.raise e else return count
  | none => return count

/-- Run until no work is left, within the budget of the options. -/
def runToCompletion (natives : Natives χ) : Action (Session χ) Nat := do
  let budget := (← theMachine).options.defaultMaxCycles.getD Size.limit
  let count ← run natives budget
  if (← theMachine).calls.isEmpty then return count
  else Action.fail (.outOfCycles budget)

end Session

namespace Machine

/-- Give everything back. -/
def surrender : Action Machine Unit := do
  discharge (← get).pending
  onMemory (← get).calls.dispose
  onMemory (← get).operands.dispose
  onMemory (← get).scopes.dispose

/-- Give everything back, and fail if something is left. -/
def destroy : Action Machine Unit := do
  surrender
  let memory := (← get).memory
  if memory.ledger.used ≠ 0 ∨ memory.heap.live ≠ 0 then
    Action.fail (.leaked memory.ledger.used memory.heap.live)

end Machine

end StackScript
