import StackScript.Machine.Frame
import StackScript.Memory.Display

/-!
# The machine

A machine is its memory, the three stacks, and the exception that is pending, if any:

* the *operands*, on which operators work;
* the *call frames*, the work that is still to be done;
* the *scopes*, dictionaries in which names are looked up from the top down.  The four at the
  bottom are permanent: host, system, global and user.  The host scope is the lowest, so a host can
  add names and shadow none.

This module has what can be read off a machine, and how an exception becomes pending
(`Machine.raise`); a fatal one that is already pending is never replaced.
-/

namespace StackScript

/-- Options of a machine. -/
structure Options where
  /-- Capacity of the ledger, `none` when unbounded. -/
  maxMemory : Option Nat := none
  /-- Record the call trail under which each container was allocated. -/
  debugMemory : Bool := false
  /-- A run reports a pending exception as a failure. -/
  throwOnException : Bool := false
  /-- Budget of a run to completion, `none` when unbounded. -/
  defaultMaxCycles : Option Nat := none
deriving DecidableEq, Repr

/-- A machine. -/
structure Machine where
  options : Options
  memory : Memory
  operands : Sequence
  calls : CallStack
  scopes : Sequence
  pending : Option PendingException := none
  /-- Nesting of the blocks being defined; names are not looked up in a block. -/
  blockDepth : Nat := 0
deriving DecidableEq, Repr

/-- What reading a part of a machine gives: a value, a cause why there is none, or a breach. -/
abbrev Reading := ExceptT Cause (Except Breach)

namespace Machine

variable (m : Machine)

/-! ### Pending exception -/

/-- The pending exception. -/
def exception : Option Exception := m.pending.map PendingException.exception

/-- Kind of the pending exception. -/
def condition : Option Condition := m.exception.map Exception.condition

/-- A fatal exception is pending. -/
def isDoomed : Bool := m.condition.any Condition.isFatal

/-! ### Operands -/

/-- The operand at a depth below the top. -/
def operand? (depth : Nat) : Option Value := m.operands.items[depth]?

/-- The number of operands above the nearest mark. -/
def markDepth : Except Cause Nat :=
  match m.operands.items.findIdx? Value.isMark with
  | some depth => .ok depth
  | none => .error .noMark

/-- The operands a signature asks for, the top first. -/
def matchOperands (signature : List Param) : Except Cause (List Value) :=
  if m.operands.length < signature.length then .error .notEnoughOperands
  else go 0 signature m.operands.items
where
  /-- Match the operands from `depth` on. -/
  go (depth : Nat) : List Param → List Value → Except Cause (List Value)
    | [], _ => .ok []
    | _ :: _, [] => .error .notEnoughOperands
    | p :: signature, v :: rest =>
      if p.accepts v then (go (depth + 1) signature rest).map (v :: ·)
      else .error (.operandKind depth p v.kind)

/-! ### Containers -/

/-- Items of an array, from the bottom up. -/
def items (v : Value) : Reading (List Value) :=
  match v.datum with
  | .array handle _ => return (← m.memory.array handle).toList
  | _ => throw (.notArray v.kind)

/-- The binding of a name in a dictionary. -/
def entry? (v : Value) (name : String) : Reading (Option Value) :=
  match v.datum with
  | .dictionary handle _ => return (← m.memory.dictionary handle).get? name
  | _ => throw (.notDictionary v.kind)

/-- The names of a dictionary in lexicographic order. -/
def names (v : Value) : Reading (List String) :=
  match v.datum with
  | .dictionary handle _ => return (← m.memory.dictionary handle).names
  | _ => throw (.notDictionary v.kind)

/-! ### Scopes -/

/-- Number of permanent scopes. -/
def permanentScopes : Nat := 4

/-- The innermost scope. -/
def currentScope : Except Cause Value :=
  match m.scopes.items.head? with
  | some scope => .ok scope
  | none => .error .noScope

/-- The first scope of a list that binds a name, with what it binds the name to. -/
def locateIn (name : String) : List Value → Except Breach (Option (Value × Value))
  | [] => return none
  | scope :: rest =>
    match scope.handle? with
    | none => locateIn name rest
    | some handle => do
      match (← m.memory.dictionary handle).get? name with
      | some v => return some (scope, v)
      | none => locateIn name rest

/-- The innermost scope that binds a name, with what it binds the name to. -/
def locate (name : String) : Except Breach (Option (Value × Value)) :=
  m.locateIn name m.scopes.items

/-- What a name is bound to. -/
def lookup (name : String) : Reading Value := do
  match ← m.locate name with
  | some (_, v) => return v
  | none => throw (.unbound name)

/-! ### Call frames -/

/-- The frame with `index` frames below it. -/
def frame (index : Nat) : Except Breach Frame :=
  match m.calls.frame? index with
  | some f => .ok f
  | none => .error (.noFrame index)

/-- The binding of a name among the locals of a frame. -/
def localOf (f : Frame) (name : String) : Except Breach (Option Value) :=
  match f.locals with
  | none => return none
  | some handle => return (← m.memory.dictionary handle).get? name

/-- A loop is at work in one of the lowest `below` frames. -/
def hasLoop (below : Nat) : Bool :=
  (m.calls.frames.drop (m.calls.length - below)).any fun f =>
    f.state != .pop && f.value.toOperator?.any Operator.isLoop

/-- One line about a frame. -/
def describe (f : Frame) : Except Breach String := do
  let text ←
    if f.supply.isSome then pure s!"producer@{f.cursor}"
    else match f.value.datum with
      | .string _ true => pure s!"source@{f.cursor}"
      | .array _ .block => pure s!"block@{f.cursor}"
      | _ => m.memory.format f.value
  return f.value.source.elim text fun source => text ++ " (" ++ source.describe ++ ")"

/-- One line for each frame, the top first. -/
def trail : Except Breach (List String) := m.calls.frames.mapM m.describe

/-- The trail recorded with an allocation. -/
def allocationTrail : Except Breach (List String) :=
  if m.memory.debug then m.trail else return []

end Machine

/-! ### Raising -/

namespace Machine

/-- Let an action on the memory work on the machine. -/
def onMemory {α : Type} (x : Action Memory α) : Action Machine α :=
  x.zoom Machine.memory fun memory m => { m with memory := memory }

/-- Give back what a pending exception costs, if there is one. -/
def discharge : Option PendingException → Action Machine Unit
  | none => pure ()
  | some p => onMemory p.discharge

/-- Make an exception pending, with the call trail. Block definitions under way are abandoned and
an exception pending before is dropped, unless it is fatal: then the new one is. -/
def raise (e : Exception) : Action Machine Unit := do
  let m ← get
  if m.isDoomed then return
  let trail ← m.trail
  discharge m.pending
  let pending ← onMemory (PendingException.record { e with trail := trail })
  modify fun m => { m with pending := some pending, blockDepth := 0 }

end Machine

end StackScript
