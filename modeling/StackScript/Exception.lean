import StackScript.Condition
import StackScript.Machine.Continuation
import StackScript.Memory.Size
import StackScript.Text.Diagnostic
import StackScript.Value.Kind

/-!
# Exceptions, their causes, and breaches

A `Cause` is why an operation of the machine fails; its condition and its wording are fixed here,
once for the whole machine.  An `Exception` is the record hosted code and the host see: a
condition, a message, and the call trail at the moment it was raised.

A `Breach` is not a failure of hosted code but the violation of an invariant, such as giving up a
reference that was never taken.  Nothing can be done with a machine after a breach.
-/

namespace StackScript

/-- Why an operation fails. -/
inductive Cause where
  /-- The ledger has `available` units left. -/
  | overflow (requested available : Nat)
  /-- No machine can hold that many slots. -/
  | unreservable (slots : Nat)
  | sequenceFull (limit : Nat)
  | fillExceeds (count capacity : Nat)
  | outOfBounds (index length : Nat)
  | notEnoughOperands
  | operandKind (depth : Nat) (expected : Param) (found : Kind)
  | noMark
  | scopeKind
  | permanentScope
  | unbound (name : String)
  | noScope
  | illegalTransition (current next : Continuation)
  | noOperator
  | operatorVanished
  | missingLocal (name : String)
  | notBoundary (cursor : Nat)
  | unterminated (cursor : Nat) (line : String)
  | literalRange (text : String)
  | busyExecuting
  | busyCycling
  | outOfCycles (budget : Nat)
  | leaked (units containers : Nat)
  | notArray (found : Kind)
  | notDictionary (found : Kind)
  | arrayReadOnly
  | arrayExpected
  | dictionaryReadOnly
  | dictionaryExpected
  | negative (n : Word)
  | noOperandAt (depth : Nat)
  /-- The result of the named operation does not fit a word. -/
  | wordOverflow (operation : String)
  | divisionByZero
  | logicKinds (left right : Kind)
  | negationKind (found : Kind)
  | indexRange (index : Word) (length : Nat)
  | noLength (found : Kind)
  | arrayIndexKind
  | stringIndexKind
  | keyKind
  | notReadable (found : Kind)
  | notWritable (found : Kind)
  | stringReadOnly
  | unpairedKey
  | pairKeyKind (found : Kind)
  | breakOutsideLoop
  | breaking
  | stopping
  /-- The named operator has no step for this state. -/
  | noStep (operator : String) (state : Continuation)
  | repeatCount
  | bindResumed
  | unmatchedOperand (index : Nat)
  | operandNotInteger (index : Nat)
  | operandNotBoolean (index : Nat)
  | operandNotName (index : Nat)
deriving DecidableEq, Repr

namespace Cause

/-- The condition a cause raises. -/
def condition : Cause → Condition
  | .overflow .. | .unreservable _ => .memoryOverflow
  | .sequenceFull _ | .fillExceeds .. | .literalRange _ | .outOfCycles _ => .limitCheck
  | .outOfBounds .. | .negative _ | .noOperandAt _ | .indexRange .. | .unpairedKey => .rangeCheck
  | .notEnoughOperands => .stackUnderflow
  | .operandKind .. | .scopeKind | .notArray _ | .notDictionary _ | .arrayExpected
  | .dictionaryExpected | .logicKinds .. | .negationKind _ | .noLength _ | .arrayIndexKind
  | .stringIndexKind | .keyKind | .notReadable _ | .notWritable _ | .pairKeyKind _ => .typeCheck
  | .noMark => .unmatchedMark
  | .permanentScope => .scopeUnderflow
  | .unbound _ => .undefinedName
  | .unterminated .. | .wordOverflow _ | .divisionByZero => .undefinedResult
  | .busyExecuting | .busyCycling => .busy
  | .arrayReadOnly | .dictionaryReadOnly | .stringReadOnly => .invalidAccess
  | .breakOutsideLoop => .strayBreak
  | .breaking => .loopBreak
  | .stopping => .stop
  | .noScope | .illegalTransition .. | .noOperator | .operatorVanished | .missingLocal _
  | .notBoundary _ | .leaked .. | .noStep .. | .repeatCount | .bindResumed | .unmatchedOperand _
  | .operandNotInteger _ | .operandNotBoolean _ | .operandNotName _ => .internal

/-- The wording of a cause. -/
def message : Cause → String
  | .overflow requested available => s!"requested {requested} units, {available} available"
  | .unreservable slots => s!"cannot reserve {slots} slots"
  | .sequenceFull limit => s!"fixed-size container is limited to {limit} items"
  | .fillExceeds count capacity => s!"{count} more items exceed a capacity of {capacity}"
  | .outOfBounds index length => s!"index {index} out of bounds (length: {length})"
  | .notEnoughOperands => "not enough operands"
  | .operandKind depth expected found =>
    s!"operand {depth} should be {expected.label}, found {found.label}"
  | .noMark => "no mark on the operand stack"
  | .scopeKind => "begin expects a dictionary"
  | .permanentScope => "cannot remove a permanent dictionary"
  | .unbound name => name
  | .noScope => "dictionary stack is empty"
  | .illegalTransition current next =>
    s!"illegal continuation transition from {current.label} to {next.label}"
  | .noOperator => "no operator is being invoked"
  | .operatorVanished => "current frame vanished"
  | .missingLocal name => s!"missing operator local {name}"
  | .notBoundary cursor => s!"cursor {cursor} is not a token boundary"
  | .unterminated cursor line => s!"unterminated string at {cursor}: {line}"
  | .literalRange text => s!"integer literal {text} is out of range"
  | .busyExecuting => "state is cycling"
  | .busyCycling => "state is already cycling"
  | .outOfCycles budget => s!"{budget} cycles were not enough"
  | .leaked units containers => s!"{units} units leaked in {containers} containers"
  | .notArray found => s!"expected an array, found {found.label}"
  | .notDictionary found => s!"expected a dictionary, found {found.label}"
  | .arrayReadOnly => "array is read-only"
  | .arrayExpected => "expected an array"
  | .dictionaryReadOnly => "dictionary is read-only"
  | .dictionaryExpected => "expected a dictionary"
  | .negative n => s!"{n} must not be negative"
  | .noOperandAt depth => s!"no operand at depth {depth}"
  | .wordOverflow operation => s!"{operation} overflows 64-bit integers"
  | .divisionByZero => "division by zero"
  | .logicKinds left right =>
    s!"expected two booleans or two integers, found {left.label} and {right.label}"
  | .negationKind found => s!"expected a boolean or an integer, found {found.label}"
  | .indexRange index length => s!"index {index} is outside 0..{length}"
  | .noLength found => s!"{found.label} has no length"
  | .arrayIndexKind => "array index must be an integer"
  | .stringIndexKind => "string index must be an integer"
  | .keyKind => "dictionary key must be a name"
  | .notReadable found => s!"cannot get from {found.label}"
  | .notWritable found => s!"cannot put into {found.label}"
  | .stringReadOnly => "strings are read-only"
  | .unpairedKey => "dictionary literal needs key value pairs"
  | .pairKeyKind found => s!"dictionary key must be a name, found {found.label}"
  | .breakOutsideLoop => "break outside of a loop"
  | .breaking => ""
  | .stopping => ""
  | .noStep operator state => s!"{operator} invoked in state {state.label}"
  | .repeatCount => "repeat count is not an integer"
  | .bindResumed => "bind resumed outside of a running step"
  | .unmatchedOperand index => s!"operand {index} was not matched"
  | .operandNotInteger index => s!"operand {index} is not an integer"
  | .operandNotBoolean index => s!"operand {index} is not a boolean"
  | .operandNotName index => s!"operand {index} is not a name"

end Cause

/-- A failure as hosted code and the host see it. -/
structure Exception where
  condition : Condition
  message : String
  /-- Call frames when the exception was raised, innermost first. -/
  trail : List String := []
deriving DecidableEq, Repr

namespace Exception

/-- One-line description. -/
def describe (e : Exception) : String := s!"{e.condition.name}: {e.message}"

/-- Size of the record: the characters of its texts and one pointer for each frame. -/
def size (e : Exception) : Size where
  bytes := e.trail.foldl (fun bytes line => bytes + line.utf8ByteSize) e.message.utf8ByteSize
  pointers := e.trail.length

end Exception

/-- The exception a cause gives rise to; its trail is added when it is raised. -/
def Cause.exception (c : Cause) : Exception where
  condition := c.condition
  message := c.message

/-- Address of a heap slot.  Handles of 32 bits run out after 2 ^ 32 cells, where a machine that has
to number one more can only break off (`heap exhausted`).  Here any number is a handle, so this
breach is left out, and everything said about all runs is said about heaps that stay below that. -/
abbrev Handle := Nat

/-- Violation of an invariant of the machine. -/
inductive Breach where
  | ledgerUnderflow (cost : Nat) (account : Account) (held : Nat)
  | unreferencedString (text : String)
  | dangling (handle : Handle)
  | notArray (handle : Handle)
  | notDictionary (handle : Handle)
  /-- The object is being modified and cannot be read. -/
  | checkedOut (handle : Handle)
  | alreadyCheckedOut (handle : Handle)
  /-- The last reference is given up while the object is being modified. -/
  | releasedWhileOut (handle : Handle)
  /-- An object is put back that was not taken out. -/
  | notCheckedOut (handle : Handle)
  | noFrame (index : Nat)
  /-- A container cannot be emptied. -/
  | unclearable (reason : String)
deriving DecidableEq, Repr

/-- Diagnostic of a breach. -/
def Breach.message : Breach → String
  | .ledgerUnderflow cost account held =>
    s!"ledger underflow: releasing {cost} units of {account.label} with {held} in use"
  | .unreferencedString text => "releasing unreferenced string " ++ Text.diagnostic text
  | .dangling handle => s!"dangling heap reference #{handle}"
  | .notArray handle => s!"#{handle} is not an array"
  | .notDictionary handle => s!"#{handle} is not a dictionary"
  | .checkedOut handle => s!"#{handle} is checked out"
  | .alreadyCheckedOut handle => s!"#{handle} is already checked out"
  | .releasedWhileOut handle => s!"releasing #{handle} while it is checked out"
  | .notCheckedOut handle => s!"#{handle} was not checked out"
  | .noFrame index => s!"no call frame at index {index}"
  | .unclearable reason => s!"clearing a container failed: {reason}"

end StackScript
