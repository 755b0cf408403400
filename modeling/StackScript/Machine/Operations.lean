import StackScript.Machine.Basic

/-!
# Operations on a machine

What hosts and operators can do to a machine.  An operation that fails leaves the stacks and the
containers as they were: the ledger is asked before anything moves.

Some operations concern the frame of the operator being invoked.  They take its address, the number
of frames below it, so that they keep addressing that frame when more work has been queued above it;
without such a frame they fail.

* `Machine.exchangeOperands` replaces the top of the operand stack at once;
* `Machine.setState` moves an operator along the continuation protocol and refuses any other move;
* `Machine.intercept`, `Machine.stash` and `Machine.restore` take a pending exception away, set it
  aside and bring it back; none of them touches a fatal one.
-/

namespace StackScript

namespace Machine

/-! ### Operands -/

/-- Work on the operand stack. -/
def onOperands (f : Sequence → Action Memory Sequence) : Action Machine Unit := do
  let operands ← onMemory (f (← get).operands)
  modify fun m => { m with operands := operands }

/-- Remove the top `drop` operands and push `values`, the last of which becomes the top. -/
def exchangeOperands (drop : Nat) (values : List Value) : Action Machine Unit :=
  onOperands fun s => s.exchange drop values

/-- Give up one reference to a value. -/
def release (v : Value) : Action Machine Unit := onMemory (Memory.release v)

/-- Let a value just created take the place of the top `drop` operands. The reference of its creator
is given up whether this succeeds or not. -/
def adopt (drop : Nat) (created : Value) : Action Machine Unit :=
  (exchangeOperands drop [created]).ensuring (release created)

/-- Remove every operand. -/
def clearOperands : Action Machine Unit := onOperands Sequence.clear

/-! ### Containers -/

/-- Create an array; its creator holds one reference. -/
def createArray (access : Access) (items : List Value) : Action Machine Value := do
  let trail ← (← get).allocationTrail
  let handle ← onMemory (Memory.newArray .user items trail)
  return .array handle access

/-- Create an array of `length` copies of a value. -/
def createFilledArray (access : Access) (length : Nat) (v : Value) : Action Machine Value := do
  let trail ← (← get).allocationTrail
  let handle ← onMemory (Memory.newFilledArray .user length v trail)
  return .array handle access

/-- Create an empty writable dictionary. -/
def createDictionary : Action Machine Value := do
  let trail ← (← get).allocationTrail
  let handle ← onMemory (Memory.newDictionary .user trail)
  return .dictionary handle true

/-- Store a value in a mutable array. -/
def setItem (container : Value) (index : Nat) (v : Value) : Action Machine Unit :=
  match container.datum with
  | .array handle .mutable => onMemory (Memory.setItem handle index v)
  | .array .. => Action.fail .arrayReadOnly
  | _ => Action.fail .arrayExpected

/-- Bind a name in a writable dictionary. -/
def define (container : Value) (name : String) (v : Value) : Action Machine Unit :=
  match container.datum with
  | .dictionary handle true => onMemory (Memory.define handle name v)
  | .dictionary .. => Action.fail .dictionaryReadOnly
  | _ => Action.fail .dictionaryExpected

/-! ### Scopes -/

/-- Work on the scopes. -/
def onScopes (f : Sequence → Action Memory Sequence) : Action Machine Unit := do
  let scopes ← onMemory (f (← get).scopes)
  modify fun m => { m with scopes := scopes }

/-- Open a scope. -/
def openScope (v : Value) : Action Machine Unit :=
  if v.kind = .dictionary then onScopes fun s => s.push v else Action.fail .scopeKind

/-- Close the innermost scope, unless it is permanent. -/
def closeScope : Action Machine Unit := do
  if (← get).scopes.length ≤ permanentScopes then Action.fail .permanentScope
  onScopes fun s => s.pop 1

/-! ### Call frames -/

/-- Work on the call stack. -/
def onCalls (f : CallStack → Action Memory CallStack) : Action Machine Unit := do
  let calls ← onMemory (f (← get).calls)
  modify fun m => { m with calls := calls }

/-- Queue a value for execution. -/
def call (v : Value) : Action Machine Unit := onCalls fun c => c.push { value := v }

/-- Remove the top frame. -/
def popFrame : Action Machine Unit := onCalls CallStack.pop

/-- Let a fresh frame executing `v` take the place of the top frame. -/
def replaceFrame (v : Value) : Action Machine Unit := onCalls fun c => c.replaceTop v

/-- Change the frame with `index` frames below it, which must exist. -/
def updateFrame (index : Nat) (f : Frame → Frame) : Action Machine Unit := do
  let _ ← (← get).frame index
  modify fun m => { m with calls := m.calls.update index f }

/-- Move a frame to another continuation state, as far as the protocol allows. -/
def setState (index : Nat) (next : Continuation) : Action Machine Unit := do
  let frame ← (← get).frame index
  if frame.state.canBecome next then updateFrame index fun f => { f with state := next }
  else Action.fail (.illegalTransition frame.state next)

/-- The dictionary of a frame's locals, created if there is none yet. -/
def ensureLocals (index : Nat) : Action Machine Handle := do
  let frame ← (← get).frame index
  match frame.locals with
  | some handle => return handle
  | none =>
    let trail := [s!"locals of call frame {index}"]
    let handle ← onMemory (Memory.newDictionary .system trail)
    updateFrame index fun f => { f with locals := some handle }
    return handle

/-- Bind a name among the locals of a frame. -/
def setLocal (index : Nat) (name : String) (v : Value) : Action Machine Unit := do
  let handle ← ensureLocals index
  onMemory (Memory.define handle name v)

/-! ### Block definitions -/

/-- Begin to define a block. -/
def openBlock : Action Machine Unit := modify fun m => { m with blockDepth := m.blockDepth + 1 }

/-- Leave the innermost block being defined. -/
def closeBlock : Action Machine Unit := modify fun m => { m with blockDepth := m.blockDepth - 1 }

/-! ### Pending exception -/

/-- Take the pending exception away and return it. A fatal one stays. -/
def intercept : Action Machine (Option Exception) := do
  let m ← get
  if m.isDoomed then return none
  discharge m.pending
  modify fun m => { m with pending := none }
  return m.exception

/-- Set the pending exception aside in a frame, in place of one set aside before. A fatal one
stays pending. -/
def stash (index : Nat) : Action Machine Unit := do
  let m ← get
  if m.isDoomed then return
  match m.pending with
  | none => return
  | some pending =>
    let frame ← m.frame index
    discharge frame.stash
    updateFrame index fun f => { f with stash := some pending }
    modify fun m => { m with pending := none }

/-- Make the exception set aside in a frame pending again, unless another one is by now. -/
def restore (index : Nat) : Action Machine Unit := do
  let m ← get
  let frame ← m.frame index
  match frame.stash with
  | none => return
  | some stashed =>
    updateFrame index fun f => { f with stash := none }
    if m.pending.isSome then discharge (some stashed)
    else modify fun m => { m with pending := some stashed }

end Machine

/-! ### Work for the machine -/

/-- Work a host can queue. -/
inductive Work where
  /-- A text, read one token at a time. -/
  | source (text origin : String)
  /-- Values, executed in order as those of a block are. -/
  | values (values : List Value)
  /-- Values provided one by one. -/
  | supply (supply : Supply)
deriving DecidableEq, Repr

/-- Queue work. -/
def Machine.execute : Work → Action Machine Unit
  | .source text origin =>
    call ((Value.code text).withSource (some (Provenance.whole origin text)))
  | .values values => do
    let block ← createArray .block values
    (call block).ensuring (release block)
  | .supply supply => onCalls fun c => c.push { value := .null, supply := some supply }

end StackScript
