import StackScript.Machine.Operations
import StackScript.Program

/-!
# Operations: what operators are made of

An operator is a program over requests to the machine it runs on.  The requests are all it can do:
it can look at the machine, work on the operands, the containers and the scopes, queue work, and
govern the frame it is invoked in and the pending exception.  It cannot remove frames or let the
machine do a cycle, since it runs within one.

`Request.perform` says what each request does, given the address of the operator's frame.  Hosts
work on a machine by the same operations, without a frame of their own.
-/

namespace StackScript

/-- Where an operator finds itself: the machine, and the address of the operator's frame, if it is
being invoked in one. -/
structure Site where
  machine : Machine
  own : Option Nat

/-- Request of an operator. -/
inductive Request where
  /-- Look at the machine. -/
  | observe
  | exchange (drop : Nat) (values : List Value)
  | adopt (drop : Nat) (created : Value)
  | release (created : Value)
  | clearOperands
  | createArray (access : Access) (items : List Value)
  | createFilledArray (access : Access) (length : Nat) (v : Value)
  | createDictionary
  | setItem (container : Value) (index : Nat) (v : Value)
  | define (container : Value) (name : String) (v : Value)
  | openScope (v : Value)
  | closeScope
  | call (v : Value)
  | setState (next : Continuation)
  | setLocal (name : String) (v : Value)
  | openBlock
  | closeBlock
  | intercept
  | stash
  | restore
deriving DecidableEq, Repr

namespace Request

/-- What a request is answered by. -/
def Answer : Request → Type
  | .observe => Site
  | .createArray .. | .createFilledArray .. | .createDictionary => Value
  | .intercept => Option Exception
  | _ => Unit

/-- Do something to the frame of the operator being invoked. -/
def onOwn {α : Type} (own : Option Nat) (f : Nat → Action Machine α) : Action Machine α :=
  match own with
  | some index => f index
  | none => Action.fail .noOperator

/-- What a request does. -/
def perform (own : Option Nat) : (r : Request) → Action Machine (Answer r)
  | .observe => fun m => .done { machine := m, own := own } m
  | .exchange drop values => Machine.exchangeOperands drop values
  | .adopt drop created => Machine.adopt drop created
  | .release created => Machine.release created
  | .clearOperands => Machine.clearOperands
  | .createArray access items => Machine.createArray access items
  | .createFilledArray access length v => Machine.createFilledArray access length v
  | .createDictionary => Machine.createDictionary
  | .setItem container index v => Machine.setItem container index v
  | .define container name v => Machine.define container name v
  | .openScope v => Machine.openScope v
  | .closeScope => Machine.closeScope
  | .call v => Machine.call v
  | .setState next => onOwn own fun index => Machine.setState index next
  | .setLocal name v => onOwn own fun index => Machine.setLocal index name v
  | .openBlock => Machine.openBlock
  | .closeBlock => Machine.closeBlock
  | .intercept => Machine.intercept
  | .stash => onOwn own Machine.stash
  | .restore => onOwn own Machine.restore

end Request

/-- A program over requests to a machine. -/
abbrev Operation := Program Request.Answer

namespace Operation

/-- Let an operation work on a machine. -/
def runOn {α : Type} (own : Option Nat) (p : Operation α) : Action Machine α :=
  p.run (Request.perform own)

/-- Make one request. -/
def ask (r : Request) : Operation r.Answer := Program.request r

/-! ### Looking at the machine -/

/-- Where the operator finds itself. -/
def site : Operation Site := ask .observe

/-- The machine. -/
def machine : Operation Machine := do return (← site).machine

/-- Read a part of the machine. -/
def read {α : Type} (f : Machine → Reading α) : Operation α := do
  let answer ← Program.ofSound (f (← machine)).run
  Program.ofExcept answer

/-- The address of the operator's frame. -/
def ownIndex : Operation Nat := do
  Program.ofOption .noOperator (← site).own

/-- The operator's frame. -/
def ownFrame : Operation Frame := do
  let index ← ownIndex
  Program.ofSound ((← machine).frame index)

/-- The operator being invoked. -/
def currentOperator : Operation Value := do
  let index ← ownIndex
  match (← machine).calls.frame? index with
  | some frame => return frame.value
  | none => Program.fail .operatorVanished

/-- The continuation state of the operator. -/
def state : Operation Continuation := do return (← ownFrame).state

/-- The binding of a name among the operator's locals. -/
def local? (name : String) : Operation (Option Value) := do
  let frame ← ownFrame
  Program.ofSound ((← machine).localOf frame name)

/-- The binding of a name that has to be among the operator's locals. -/
def expectLocal (name : String) : Operation Value := do
  Program.ofOption (.missingLocal name) (← local? name)

/-- A loop is at work below the operator. -/
def inLoop : Operation Bool := do
  let here ← site
  return here.machine.hasLoop (here.own.getD here.machine.calls.length)

/-- Kind of the pending exception. -/
def condition : Operation (Option Condition) := do return (← machine).condition

/-- Number of operands. -/
def operandCount : Operation Nat := do return (← machine).operands.length

/-- The number of operands above the nearest mark. -/
def markDepth : Operation Nat := do Program.ofExcept (← machine).markDepth

/-- The innermost scope. -/
def currentScope : Operation Value := do Program.ofExcept (← machine).currentScope

/-- Items of an array, from the bottom up. -/
def items (v : Value) : Operation (List Value) := read fun m => m.items v

/-- The binding of a name in a dictionary. -/
def entry? (v : Value) (name : String) : Operation (Option Value) := read fun m => m.entry? v name

/-- The names of a dictionary. -/
def names (v : Value) : Operation (List String) := read fun m => m.names v

/-- What a name is bound to. -/
def lookup (name : String) : Operation Value := read fun m => m.lookup name

/-- The innermost scope that binds a name, with what it binds the name to. -/
def locate (name : String) : Operation (Option (Value × Value)) := do
  Program.ofSound ((← machine).locate name)

/-! ### Working on the machine -/

/-- Remove the top `drop` operands and push `values`, the last of which becomes the top. -/
def exchange (drop : Nat) (values : List Value) : Operation Unit :=
  ask (.exchange drop values)

/-- Push an operand. -/
def push (v : Value) : Operation Unit := exchange 0 [v]

/-- Remove operands. -/
def pop (count : Nat) : Operation Unit := exchange count []

/-- Let a value just created take the place of the top `drop` operands. -/
def adopt (drop : Nat) (created : Value) : Operation Unit := ask (.adopt drop created)

/-- Give up the reference of the creator of a value. -/
def release (created : Value) : Operation Unit := ask (.release created)

/-- Remove every operand. -/
def clearOperands : Operation Unit := ask .clearOperands

/-- Create an array. -/
def createArray (access : Access) (items : List Value) : Operation Value :=
  ask (.createArray access items)

/-- Create an array of `length` copies of a value. -/
def createFilledArray (access : Access) (length : Nat) (v : Value) : Operation Value :=
  ask (.createFilledArray access length v)

/-- Create an empty writable dictionary. -/
def createDictionary : Operation Value := ask .createDictionary

/-- Store a value in a mutable array. -/
def setItem (container : Value) (index : Nat) (v : Value) : Operation Unit :=
  ask (.setItem container index v)

/-- Bind a name in a writable dictionary. -/
def define (container : Value) (name : String) (v : Value) : Operation Unit :=
  ask (.define container name v)

/-- Open a scope. -/
def openScope (v : Value) : Operation Unit := ask (.openScope v)

/-- Close the innermost scope. -/
def closeScope : Operation Unit := ask .closeScope

/-- Queue a value for execution. -/
def call (v : Value) : Operation Unit := ask (.call v)

/-- Move the operator to another continuation state. -/
def setState (next : Continuation) : Operation Unit := ask (.setState next)

/-- Bind a name among the operator's locals. -/
def setLocal (name : String) (v : Value) : Operation Unit := ask (.setLocal name v)

/-- Begin to define a block. -/
def openBlock : Operation Unit := ask .openBlock

/-- Leave the innermost block being defined. -/
def closeBlock : Operation Unit := ask .closeBlock

/-- Take the pending exception away and return it. -/
def intercept : Operation (Option Exception) := ask .intercept

/-- Set the pending exception aside in the operator's frame. -/
def stash : Operation Unit := ask .stash

/-- Make the exception set aside in the operator's frame pending again. -/
def restore : Operation Unit := ask .restore

/-! ### What a machine at work refuses

A machine is at work while an operation runs, so queueing work as a host does and doing cycles are
refused; a run of no cycles is not. -/

/-- Queue work as a host does. -/
def execute (_ : Work) : Operation Unit := Program.fail .busyExecuting

/-- Do one cycle. -/
def cycle : Operation Bool := Program.fail .busyCycling

/-- Do at most `budget` cycles. -/
def run (budget : Nat) : Operation Nat := do
  let m ← machine
  if 0 < budget && !m.calls.isEmpty then Program.fail .busyCycling
  match m.exception with
  | some e => if m.options.throwOnException then Program.raise e else return 0
  | none => return 0

/-- Run to completion. -/
def runToCompletion : Operation Nat := do
  let m ← machine
  let budget := m.options.defaultMaxCycles.getD Size.limit
  let count ← run budget
  if m.calls.isEmpty then return count else Program.fail (.outOfCycles budget)

end Operation

end StackScript
