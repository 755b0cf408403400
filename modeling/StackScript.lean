import StackScript.Action
import StackScript.Condition
import StackScript.Exception
import StackScript.Machine.Basic
import StackScript.Machine.Bootstrap
import StackScript.Machine.Continuation
import StackScript.Machine.Cycle
import StackScript.Machine.Frame
import StackScript.Machine.Operations
import StackScript.Machine.Run
import StackScript.Machine.Session
import StackScript.Memory.Basic
import StackScript.Memory.Container
import StackScript.Memory.Display
import StackScript.Memory.Heap
import StackScript.Memory.Ledger
import StackScript.Memory.Object
import StackScript.Memory.Size
import StackScript.Operator.Arithmetic
import StackScript.Operator.Builtin
import StackScript.Operator.Container
import StackScript.Operator.Flow
import StackScript.Operator.Literal
import StackScript.Operator.Matched
import StackScript.Operator.Operation
import StackScript.Operator.Registry
import StackScript.Operator.Sample
import StackScript.Operator.Scope
import StackScript.Operator.Stack
import StackScript.Program
import StackScript.Text.Bytes
import StackScript.Text.Diagnostic
import StackScript.Text.Escape
import StackScript.Text.Hidden
import StackScript.Text.Lexeme
import StackScript.TextMap
import StackScript.Value.Basic
import StackScript.Value.Kind
import StackScript.Value.Token
import StackScript.Word
import StackScript.Proofs.Memory.Ledger
import StackScript.Proofs.Memory.Stake
import StackScript.Proofs.Memory.Cells
import StackScript.Proofs.Memory.Balance
import StackScript.Proofs.Memory.Release
import StackScript.Proofs.Memory.Container
import StackScript.Proofs.Memory.Allocation
import StackScript.Proofs.Memory.Modification
import StackScript.Proofs.Memory.Reading
import StackScript.Proofs.Machine.Sound
import StackScript.Proofs.Machine.Stacks
import StackScript.Proofs.Machine.Frames
import StackScript.Proofs.Machine.Own
import StackScript.Proofs.Operator.Reading
import StackScript.Proofs.Operator.Working
import StackScript.Proofs.Operator.Operands
import StackScript.Proofs.Operator.Containers
import StackScript.Proofs.Operator.Flow
import StackScript.Proofs.Machine.Cycle
import StackScript.Proofs.Machine.Bootstrap
import StackScript.Proofs.Machine.Reached
import StackScript.Proofs.Machine.Holdings
import StackScript.Proofs.Guarantees.References
import StackScript.Proofs.Guarantees.Accounts
import StackScript.Proofs.Guarantees.Safety
import StackScript.Proofs.Memory.Remains
import StackScript.Proofs.Guarantees.Leaks
import StackScript.Proofs.Machine.Isolation
import StackScript.Proofs.Machine.Steps
import StackScript.Proofs.Machine.Watched
import StackScript.Proofs.Machine.Lifelines
import StackScript.Proofs.Guarantees.Protocol
import StackScript.Proofs.Ordinary
import StackScript.Proofs.Machine.Effects
import StackScript.Proofs.Operator.Regimes
import StackScript.Proofs.Operator.Resume
import StackScript.Proofs.Text.Cursor
import StackScript.Proofs.Machine.Poise
import StackScript.Proofs.Machine.Faultless
import StackScript.Proofs.Guarantees.Faults
import StackScript.Proofs.Machine.Handling
import StackScript.Proofs.Operator.Honest
import StackScript.Proofs.Machine.Courses
import StackScript.Proofs.Operator.Budget
import StackScript.Proofs.Machine.Invoking
import StackScript.Proofs.Machine.Unwinding
import StackScript.Proofs.Guarantees.Frames
import StackScript.Proofs.Guarantees.Hooks
import StackScript.Proofs.Guarantees.Breaks
import StackScript.Proofs.Machine.Sustained
import StackScript.Proofs.Machine.Doomed
import StackScript.Proofs.Guarantees.Fatal
import StackScript.Proofs.Operator.Transitions
import StackScript.Proofs.Machine.Steered
import StackScript.Proofs.Guarantees.Unwound
import StackScript.Proofs.Peaks
import StackScript.Proofs.Comparison.Basic
import StackScript.Proofs.Comparison.Containers
import StackScript.Proofs.Comparison.Machine
import StackScript.Proofs.Comparison.Operations
import StackScript.Proofs.Comparison.Builtins
import StackScript.Proofs.Comparison.Sessions
import StackScript.Proofs.Machine.Refusals
import StackScript.Proofs.Comparison.Capacity
import StackScript.Proofs.Comparison.Bounded
import StackScript.Proofs.Guarantees.Peak
import StackScript.Proofs.Machine.Moves
import StackScript.Proofs.Machine.Custody
import StackScript.Proofs.Machine.Overseen
import StackScript.Proofs.Machine.Genuine
import StackScript.Proofs.Operator.Candid
import StackScript.Proofs.Text.Grammar
import StackScript.Proofs.Machine.Withdrawal
import StackScript.Proofs.Operator.Failing
import StackScript.Proofs.Guarantees.Failures
import StackScript.Proofs.Memory.Restoration
import StackScript.Proofs.Machine.Restoration
import StackScript.Proofs.Guarantees.Atomicity
import StackScript.Proofs.Guarantees.Retries
import StackScript.Proofs.Machine.Standing
import StackScript.Proofs.Guarantees.Resolution
import StackScript.Proofs.Comparison.Cycles
import StackScript.Proofs.Comparison.Lasting
import StackScript.Proofs.Comparison.Tracing
import StackScript.Proofs.Guarantees.Debugging
import StackScript.Proofs.Guarantees.Immutability
import StackScript.Proofs.Machine.Growing
import StackScript.Proofs.Machine.Granting
import StackScript.Proofs.Machine.Scene
import StackScript.Proofs.Memory.Reaching
import StackScript.Proofs.Machine.Ample
import StackScript.Proofs.Memory.Codes
import StackScript.Proofs.Operator.Building
import StackScript.Proofs.Machine.Arriving
import StackScript.Proofs.Text.Nesting
import StackScript.Proofs.Guarantees.Blocks
import StackScript.Proofs.Operator.Copying
import StackScript.Proofs.Machine.Drafting
import StackScript.Proofs.Guarantees.Copies
import StackScript.Proofs.Memory.Cascade
import StackScript.Proofs.Guarantees.Cascades
import StackScript.Proofs.Operator.Pinning
import StackScript.Proofs.Guarantees.Pins
import StackScript.Proofs.Machine.Serving
import StackScript.Proofs.Machine.Relieving
import StackScript.Proofs.Machine.Enclosed
import StackScript.Proofs.Operator.Deferring
import StackScript.Proofs.Guarantees.Stopped
import StackScript.Proofs.Guarantees.Finalizers
import StackScript.Proofs.Operator.Repeating
import StackScript.Proofs.Guarantees.Repetition
import StackScript.Proofs.Machine.Waiting
import StackScript.Proofs.Guarantees.Leaving
import StackScript.Proofs.Comparison.Renaming
import StackScript.Proofs.Text.Joining
import StackScript.Proofs.Machine.Dispatching
import StackScript.Proofs.Operator.Matching
import StackScript.Proofs.Guarantees.Arithmetic
import StackScript.Proofs.Guarantees.Rotation
import StackScript.Proofs.Machine.Regaining
import StackScript.Proofs.Operator.Storing
import StackScript.Proofs.Guarantees.Arrays
import StackScript.Proofs.Memory.Addressing
import StackScript.Proofs.Operator.Writing
import StackScript.Proofs.Guarantees.Stores
import StackScript.Proofs.Machine.Completing
import StackScript.Proofs.Guarantees.Builders
import StackScript.Proofs.Guarantees.Tails
import StackScript.Proofs.Text.Formatting
import StackScript.Proofs.Comparison.Driving
import StackScript.Proofs.Comparison.Pacing
import StackScript.Proofs.Comparison.Queueing
import StackScript.Proofs.Guarantees.Composition
import StackScript.Proofs.Guarantees.Sources
import StackScript.Proofs.Guarantees.Printing
import StackScript.Proofs.Guarantees.Charges
import StackScript.Proofs.Guarantees.Capacity
import StackScript.Proofs.Guarantees.Handles
