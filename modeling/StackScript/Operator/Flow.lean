import StackScript.Operator.Matched

/-!
# Control flow

Operators that run code queue it above their frame and are invoked again later: `loop` and
`repeat` to begin the next round, `stopped` and `finally` when their body is over, and `bind` for
the next item.  What they have to remember is in the locals of their frame, and where they stand is
its continuation state.

Loops, `stopped` and `finally` ask to be invoked even if an exception is pending
(`Continuation.callBeforePop`), so they can intercept it or set it aside.
-/

namespace StackScript

namespace Operation

/-! ### Execution -/

/-- Execute the top, if it is executable. -/
def executeTop (params : List Value) : Operation Unit := do
  let v ← matched params 0
  if v.isExecutable then
    call v
    pop 1

/-- Execute a block, if a condition holds. -/
def executeIf (params : List Value) : Operation Unit := do
  let block ← matched params 0
  if ← matchedBoolean params 1 then call block
  pop 2

/-- Execute one of two blocks. -/
def executeEither (params : List Value) : Operation Unit := do
  let otherwise ← matched params 0
  let whenTrue ← matched params 1
  call (if ← matchedBoolean params 2 then whenTrue else otherwise)
  pop 3

/-! ### Loops -/

/-- End a round: a break ends the loop, any other exception goes on, and without one the next round
begins. -/
def endRound : Operation Unit := do
  match ← condition with
  | none => setState .firstCall
  | some .loopBreak =>
    let _ ← intercept
  | some _ => pure ()

/-- Execute a block a number of times. -/
def repeatBlock (params : List Value) : Operation Unit := do
  if !params.isEmpty then
    let block ← matched params 0
    let count ← matchedWord params 1
    let _ ← toIndex count
    setLocal "block" block
    setLocal "count" (.integer count)
    pop 2
  match ← state with
  | .firstCall =>
    let remaining ← Program.ofOption .repeatCount (← expectLocal "count").toWord?
    if remaining.toInt ≠ 0 then
      setLocal "count" (.integer (.ofInt (remaining.toInt - 1)))
      call (← expectLocal "block")
      setState .callBeforePop
  | .callBeforePop => endRound
  | other => Program.fail (.noStep "repeat" other)

/-- Execute a block until an exception ends the loop. -/
def loopBlock (params : List Value) : Operation Unit := do
  if !params.isEmpty then
    setLocal "block" (← matched params 0)
    pop 1
  match ← state with
  | .firstCall =>
    call (← expectLocal "block")
    setState .callBeforePop
  | .callBeforePop => endRound
  | other => Program.fail (.noStep "loop" other)

/-- Leave the innermost loop. -/
def leaveLoop (_ : List Value) : Operation Unit := do
  if ← inLoop then Program.fail .breaking else Program.fail .breakOutsideLoop

/-! ### Exceptions -/

/-- Stop. -/
def stop (_ : List Value) : Operation Unit := Program.fail .stopping

/-- Execute a block and push whether it was ended by an exception. A break is left to the loop, and
a fatal exception to the host. -/
def stoppedBlock (params : List Value) : Operation Unit := do
  match ← state with
  | .firstCall =>
    call (← matched params 0)
    pop 1
    setState .callBeforePop
  | .callBeforePop =>
    match ← condition with
    | none => push (.boolean false)
    | some c =>
      if !(c.isFatal || c == .loopBreak) then
        let _ ← intercept
        push (.boolean true)
  | other => Program.fail (.noStep "stopped" other)

/-- The state in which a finalizer is executed. -/
def finalizing : Continuation := .popping (.ofInt (-2))

/-- Execute a body, then a finalizer whether the body was ended by an exception or not; the
exception then goes on. -/
def ensureFinalizer (params : List Value) : Operation Unit := do
  let current ← state
  if current = .firstCall then
    let finalizer ← matched params 0
    let body ← matched params 1
    setLocal "finalizer" finalizer
    call body
    pop 2
    setState .callBeforePop
  else if current = .callBeforePop then
    stash
    call (← expectLocal "finalizer")
    setState finalizing
  else if current = finalizing then
    restore
    setState .pop
  else Program.fail (.noStep "finally" current)

/-! ### Binding -/

/-- Index of the item whose bound copy is awaited. -/
def awaitedItem : Operation (Option Nat) := do
  return (← local? "pending").bind fun v => v.toWord?.bind Word.index?

/-- Replace the working copy of a block by a block. -/
def finishBind (target : Value) : Operation Unit := do
  let block ← createArray .block (← items target)
  adopt 0 block

/-- Begin to bind a block: make a working copy. -/
def beginBind (params : List Value) : Operation Unit := do
  let content ← items (← matched params 0)
  let target ← createArray .mutable content
  let stored ← (setLocal "target" target).attempt
  release target
  Program.ofResult stored
  pop 1
  if content.isEmpty then finishBind target else setState (.running (.ofInt 1))

/-- Store the bound copy of a nested block, which its binding has pushed. -/
def collectBound (target : Value) : Operation Unit := do
  match ← awaitedItem with
  | none => pure ()
  | some index =>
    let bound ← Program.ofOption .notEnoughOperands ((← machine).operand? 0)
    setItem target index bound
    pop 1
    setLocal "pending" (.integer (.ofInt (-1)))

/-- Bind one item: an executable name bound to an operator is replaced by it, and binding a nested
block is queued. -/
def bindItem (target : Value) (index : Nat) (item : Value) (step : Word) : Operation Unit :=
  match item.datum with
  | .name name true => do
    match ← locate name with
    | some (_, v) =>
      if v.toOperator?.isSome then setItem target index (v.withSource item.source)
    | none => pure ()
  | .array _ .block => do
    let operator ← currentOperator
    push item
    call operator
    setLocal "pending" (.integer (.ofInt (step.toInt - 1)))
  | _ => pure ()

/-- Replace names by operators in a block, one item at each invocation. -/
def bindBlock (params : List Value) : Operation Unit := do
  if !params.isEmpty then beginBind params
  else match ← state with
    | .running step =>
      let target ← expectLocal "target"
      collectBound target
      let index ← toIndex (.ofInt (step.toInt - 1))
      match (← items target)[index]? with
      | none =>
        finishBind target
        setState .pop
      | some item =>
        bindItem target index item step
        setState (.running (.ofInt (step.toInt + 1)))
    | _ => Program.fail .bindResumed

end Operation

end StackScript
