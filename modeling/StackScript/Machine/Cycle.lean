import StackScript.Machine.Session
import StackScript.Value.Token

/-!
# The cycle of the machine

One cycle does one unit of work on the frame at the top of the call stack:

* while an exception is pending the frame is removed, unless it is that of an operator that asked to
  be invoked on its way out;
* a supply, a block or a text gives its next value: a value that is executable goes to the call
  stack, and any other, like a block, to the operands;
* a name is replaced by what it is bound to, or pushed while a block is being defined;
* an operator is invoked according to its continuation state (`Session.stepOperator`);
* any other value moves to the operand stack.

The last item of a block takes the place of the block's frame, so procedures that end by calling
each other do not pile up frames.

A failure is not a result of the cycle: it becomes the pending exception.
-/

namespace StackScript

namespace Session

variable {χ : Type}

/-! ### Moving values -/

/-- Push an operand. -/
def pushOperand (v : Value) : Action (Session χ) Unit := onMachine (Machine.exchangeOperands 0 [v])

/-- Remove the top frame. -/
def popFrame : Action (Session χ) Unit := onMachine Machine.popFrame

/-- Move a value met in a block to where it belongs: the operands, if it is inert, or else the call
stack. -/
def yieldItem (v : Value) : Action (Session χ) Unit :=
  if v.isInert then pushOperand v else onMachine (Machine.call v)

/-! ### Operators -/

/-- The transitions that follow an invocation: an operator that stayed in its first call, or in its
last one, is done, and the frame of an operator that is done goes if nothing was queued above it. -/
def settle (index : Nat) (invokedIn : Continuation) : Action (Session χ) Unit := onMachine do
  let reached := (← (← get).frame index).state
  let idle := reached = invokedIn ∧ (reached = .firstCall ∨ reached = .callBeforePop)
  if idle then Machine.setState index .pop
  if (idle ∨ reached = .pop) ∧ (← get).calls.length = index + 1 then Machine.popFrame

/-- Let a frame go without another invocation. -/
def abandon (index : Nat) : Action (Session χ) Unit :=
  onMachine (Machine.updateFrame index fun f => { f with state := .pop })

/-- Invoke an operator for the first time: match its operands, and hold on to them meanwhile. -/
def dispatch (index : Nat) (signature : List Param)
    (invoke : List Value → Action (Session χ) Unit) : Action (Session χ) Unit := do
  let params ← Action.ofExcept ((← theMachine).matchOperands signature)
  onMachine (Machine.setState index .firstCall)
  onMachine (Machine.onMemory (Memory.retainAll params))
  (invoke params).ensuring (onMachine (Machine.onMemory (Memory.releaseAll params)))
  settle index .firstCall

/-- Invoke an operator again. If it fails on its way out, it is not invoked any more. -/
def resume (index : Nat) (state : Continuation) (invoke : List Value → Action (Session χ) Unit) :
    Action (Session χ) Unit := do
  (invoke []).onRaise (if state.isPopping then abandon index else pure ())
  settle index state

/-- One cycle of an operator's frame. -/
def stepOperator (natives : Natives χ) (index : Nat) (o : Operator) : Action (Session χ) Unit :=
  match Behaviour.ofOperator natives o with
  | .constant v => do
    pushOperand v
    popFrame
  | .function signature invoke => do
    let frame ← (← theMachine).frame index
    match frame.state with
    | .pop => popFrame
    | .unknown => dispatch index signature (invoke index)
    | state => resume index state (invoke index)

/-! ### Names -/

/-- Names that are looked up even while a block is being defined. -/
def isBrace (name : String) : Bool := name == "\x7b" || name == "\x7d"

/-- One cycle of a name's frame. What the name is bound to keeps its own source, if it has one. -/
def stepName (token : Value) (name : String) : Action (Session χ) Unit := do
  let m ← theMachine
  if 0 < m.blockDepth && !isBrace name then
    pushOperand token
    popFrame
  else
    let found ← Action.ofSound (m.lookup name).run
    let v ← Action.ofExcept found
    onMachine (Machine.replaceFrame (v.withSource (v.source <|> token.source)))

/-! ### Texts, supplies and blocks -/

/-- The source of a token of a text. -/
def tokenSource (code : Value) (text : String) (token : Token) : Provenance where
  origin := (code.source.map Provenance.origin).getD "-"
  source := text
  offset := token.start
  length := token.stop - token.start

/-- One cycle of a text's frame: read a token. -/
def stepSource (index : Nat) (frame : Frame) (text : String) : Action (Session χ) Unit := do
  match ← Action.ofExcept (Token.next text frame.cursor) with
  | none => popFrame
  | some token =>
    let v := token.value.withSource (some (tokenSource frame.value text token))
    if v.isExecutable then onMachine (Machine.call v) else pushOperand v
    onMachine (Machine.updateFrame index fun f => { f with cursor := token.stop })

/-- One cycle of a supply's frame. The cursor counts the values provided. -/
def stepSupply (index : Nat) (supply : Supply) : Action (Session χ) Unit :=
  match supply.next? with
  | none => popFrame
  | some (v, rest) => do
    onMachine (Machine.updateFrame index fun f =>
      { f with supply := some rest, cursor := f.cursor + 1 })
    yieldItem v

/-- One cycle of a block's frame. -/
def stepBlock (index : Nat) (frame : Frame) (handle : Handle) : Action (Session χ) Unit := do
  let block ← (← theMachine).memory.array handle
  match block.get? frame.cursor with
  | none => popFrame
  | some item =>
    if frame.cursor + 1 = block.length then
      if item.isInert then
        pushOperand item
        popFrame
      else onMachine (Machine.replaceFrame item)
    else
      yieldItem item
      onMachine (Machine.updateFrame index fun f => { f with cursor := frame.cursor + 1 })

/-! ### The cycle -/

/-- Unwind the top frame: an operator on its way out is invoked, any other frame is removed. -/
def unwind (natives : Natives χ) (index : Nat) (frame : Frame) : Action (Session χ) Unit :=
  match frame.value.toOperator? with
  | some o => if frame.state.isPopping then stepOperator natives index o else popFrame
  | none => popFrame

/-- Advance the top frame. -/
def advance (natives : Natives χ) (index : Nat) (frame : Frame) : Action (Session χ) Unit :=
  match frame.supply with
  | some supply => stepSupply index supply
  | none =>
    match frame.value.datum with
    | .operator o => stepOperator natives index o
    | .name name true => stepName frame.value name
    | .string text true => stepSource index frame text
    | .array handle .block => stepBlock index frame handle
    | _ => do
      pushOperand frame.value
      popFrame

/-- One unit of work on a frame, the top one. -/
def step (natives : Natives χ) (index : Nat) (frame : Frame) : Action (Session χ) Unit := do
  if (← theMachine).pending.isSome then unwind natives index frame
  else advance natives index frame

/-- One cycle; is there work left? -/
def cycle (natives : Natives χ) : Action (Session χ) Bool := do
  match (← theMachine).calls.frames with
  | [] => return false
  | frame :: below =>
    match ← (step natives below.length frame).attempt with
    | .ok _ => pure ()
    | .error e => onMachine (Machine.raise e)
    return !(← theMachine).calls.isEmpty

end Session

end StackScript
