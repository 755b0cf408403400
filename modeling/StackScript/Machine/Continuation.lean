import StackScript.Word

/-!
# Continuation states

Where an operator frame stands between two invocations.  `Continuation.permits` is the
transition table of the continuation protocol:

| from | to |
|---|---|
| `unknown` | `firstCall` |
| `firstCall` | `pop`, `running n`, `callBeforePop` |
| `running n` | `running m`, `pop`, `callBeforePop` |
| `callBeforePop` | `firstCall`, `popping m`, `pop` |
| `popping n` | `popping m`, `pop` |
| `pop` | none |
-/

namespace StackScript

/-- Continuation state of an operator frame. -/
inductive Continuation where
  /-- The operator has not been dispatched yet. -/
  | unknown
  /-- First invocation. -/
  | firstCall
  /-- A step chosen by the operator, positive. -/
  | running (step : Word)
  /-- One more invocation before the frame is removed, even with an exception pending. -/
  | callBeforePop
  /-- A popping step chosen by the operator, below `-1`. -/
  | popping (step : Word)
  /-- The frame is removed without another invocation. -/
  | pop
deriving DecidableEq, Repr

namespace Continuation

/-- The step of the state is in its range. -/
def isValid : Continuation → Bool
  | .running step => decide (0 < step.toInt)
  | .popping step => decide (step.toInt < -1)
  | _ => true

/-- The transition table. -/
def permits : Continuation → Continuation → Bool
  | .unknown, next => (next matches .firstCall)
  | .firstCall, next | .running _, next => (next matches .running _ | .callBeforePop | .pop)
  | .callBeforePop, next => (next matches .firstCall | .popping _ | .pop)
  | .popping _, next => (next matches .popping _ | .pop)
  | .pop, _ => false

/-- An operator may move from one state to another: the table permits it, and the step it chooses
is in its range. -/
def canBecome (c next : Continuation) : Bool := next.isValid && c.permits next

/-- Integer encoding; `unknown` and `pop` have none. -/
def toWord? : Continuation → Option Word
  | .firstCall => some (.ofInt 0)
  | .callBeforePop => some (.ofInt (-1))
  | .running step | .popping step => some step
  | .unknown | .pop => none

/-- The state encoded by an integer. -/
def ofWord (step : Word) : Continuation :=
  if step.toInt = 0 then .firstCall
  else if step.toInt = -1 then .callBeforePop
  else if 0 < step.toInt then .running step
  else .popping step

/-- States in which the frame is on its way out. -/
def isPopping : Continuation → Bool
  | .callBeforePop | .popping _ => true
  | _ => false

/-- Text of a state: its integer, or a word. -/
def label (c : Continuation) : String :=
  match c with
  | .unknown => "unknown"
  | .pop => "pop"
  | .firstCall => "0"
  | .callBeforePop => "-1"
  | .running step | .popping step => toString step

theorem isValid_of_canBecome {c next : Continuation} (h : c.canBecome next = true) :
    next.isValid = true := by
  simp only [canBecome, Bool.and_eq_true] at h
  exact h.1

end Continuation

end StackScript
