import StackScript.Machine.Operations
import StackScript.Operator.Registry
import StackScript.Program

/-!
# Creating a machine

A machine is created with its three stacks and its four permanent scopes.  The host fills the lowest
of them by a setup, a program that can bind names and build read-only arrays and blocks.  The scope
above it has the builtins; names found there are never looked for in the host scope.
-/

namespace StackScript

/-! ### Setups -/

/-- Request of a setup. -/
inductive Provision where
  /-- Bind a name in the host scope. -/
  | define (name : String) (v : Value)
  /-- Build an array, which lasts if it gets bound. -/
  | array (access : Access) (items : List Value)
deriving DecidableEq, Repr

/-- What a setup works on: memory, the host scope, and the arrays built so far, the last one
first. -/
structure Construction where
  memory : Memory
  scope : Handle
  created : List Value := []

namespace Provision

/-- What a request of a setup is answered by. -/
def Answer : Provision → Type
  | .define .. => Unit
  | .array .. => Value

/-- Let an action on the memory work on a construction. -/
def onMemory {α : Type} (x : Action Memory α) : Action Construction α :=
  x.zoom Construction.memory fun memory c => { c with memory := memory }

/-- What a request of a setup does. -/
def perform : (p : Provision) → Action Construction (Answer p)
  | .define name v => do
    onMemory (Memory.define (← get).scope name v)
  | .array access items => do
    let handle ← onMemory (Memory.newArray .system items ["host scope"])
    let v : Value := .array handle access
    modify fun c => { c with created := v :: c.created }
    return v

end Provision

/-- A program that fills the host scope. -/
abbrev Setup := Program Provision.Answer

namespace Setup

/-- Bind a name in the host scope. -/
def define (name : String) (v : Value) : Setup Unit := Program.request (Provision.define name v)

/-- Build a read-only array. -/
def array (items : List Value) : Setup Value := Program.request (Provision.array .literal items)

/-- Build a block. -/
def block (items : List Value) : Setup Value := Program.request (Provision.array .block items)

/-- Fill the host scope, whose handle is given. The arrays that were built are held by what they
were bound to only. -/
def fill {α : Type} (setup : Setup α) (scope : Handle) : Action Memory α := fun memory =>
  let finish (created : List Value) : Action Memory Unit := Memory.releaseAll created.reverse
  match setup.run Provision.perform { memory := memory, scope := scope } with
  | .done a c => ((finish c.created).bind fun _ => Action.pure a) c.memory
  | .raised e c => ((finish c.created).bind fun _ => Action.raise e) c.memory
  | .broken b => .broken b

end Setup

/-! ### Machines -/

namespace Machine

/-- Bind builtins in a dictionary, each to itself. -/
def defineBuiltins (scope : Handle) : List Builtin → Action Memory Unit
  | [] => pure ()
  | b :: rest => do
    Memory.define scope b.name (.operator (.builtin b))
    defineBuiltins scope rest

/-- Put a machine together in empty memory. -/
def assemble {α : Type} (options : Options) (setup : Setup α) : Action Memory (Machine × α) := do
  let operands ← Sequence.acquire Sequence.valueSlot .system 64 64
  let calls ← CallStack.acquire
  let empty ← Sequence.acquire Sequence.valueSlot .system 8 8
  let host ← Memory.newDictionary .system ["host"]
  let provided ← setup.fill host
  let system ← Memory.newDictionary .system ["system"]
  defineBuiltins system Builtin.all
  let common ← Memory.newDictionary .system ["global"]
  let user ← Memory.newDictionary .system ["user"]
  let permanent : List Value :=
    [.dictionary host false, .dictionary system false, .dictionary common true,
      .dictionary user true]
  let scopes ← (empty.exchange 0 permanent).ensuring (Memory.releaseAll permanent)
  let memory ← get
  let m : Machine :=
    { options := options, memory := memory, operands := operands, calls := calls,
      scopes := scopes }
  return (m, provided)

/-- Create a machine and fill its host scope. -/
def create {α : Type} (options : Options) (setup : Setup α) : Outcome Memory (Machine × α) :=
  assemble options setup (Memory.empty options.maxMemory options.debugMemory)

end Machine

end StackScript
