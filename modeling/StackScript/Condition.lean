/-!
# Conditions

The kinds of failure hosted code can meet, under the names it knows them by.  All of them can be
intercepted, except `Condition.internal`, which reports a defect of the machine itself.
-/

namespace StackScript

/-- Kind of a failure. -/
inductive Condition where
  /-- Not enough operands. -/
  | stackUnderflow
  /-- An operand has the wrong type or permission. -/
  | typeCheck
  /-- An operand is outside the accepted range. -/
  | rangeCheck
  /-- A fixed-size structure is full or a literal does not fit. -/
  | limitCheck
  /-- The ledger refused an allocation. -/
  | memoryOverflow
  /-- No mark on the operand stack. -/
  | unmatchedMark
  /-- A name is not bound in any scope. -/
  | undefinedName
  /-- The result of an operation cannot be represented. -/
  | undefinedResult
  /-- Attempt to modify a read-only value. -/
  | invalidAccess
  /-- Attempt to remove a permanent scope. -/
  | scopeUnderflow
  /-- Use of a machine that is already at work. -/
  | busy
  /-- Request to leave the innermost loop. -/
  | loopBreak
  /-- Such a request outside of any loop. -/
  | strayBreak
  /-- Explicit stop. -/
  | stop
  /-- A defect of the machine. -/
  | internal
deriving DecidableEq, Repr

namespace Condition

/-- Every condition. -/
def all : List Condition :=
  [.stackUnderflow, .typeCheck, .rangeCheck, .limitCheck, .memoryOverflow, .unmatchedMark,
    .undefinedName, .undefinedResult, .invalidAccess, .scopeUnderflow, .busy, .loopBreak,
    .strayBreak, .stop, .internal]

/-- The name hosted code sees. -/
def name : Condition → String
  | .stackUnderflow => "stackunderflow"
  | .typeCheck => "typecheck"
  | .rangeCheck => "rangecheck"
  | .limitCheck => "limitcheck"
  | .memoryOverflow => "vmoverflow"
  | .unmatchedMark => "unmatchedmark"
  | .undefinedName => "undefined"
  | .undefinedResult => "undefinedresult"
  | .invalidAccess => "invalidaccess"
  | .scopeUnderflow => "dictstackunderflow"
  | .busy => "busy"
  | .loopBreak => "break"
  | .strayBreak => "invalidbreak"
  | .stop => "stop"
  | .internal => "internal"

/-- The condition of a given name. -/
def ofName? (name : String) : Option Condition := all.find? (·.name == name)

/-- A fatal condition can be neither cleared nor set aside. -/
def isFatal (c : Condition) : Bool := c == .internal

theorem mem_all (c : Condition) : c ∈ all := by cases c <;> decide

theorem ofName?_name (c : Condition) : ofName? c.name = some c := by cases c <;> decide +kernel

theorem isFatal_iff {c : Condition} : c.isFatal = true ↔ c = .internal := by cases c <;> decide

end Condition

end StackScript
