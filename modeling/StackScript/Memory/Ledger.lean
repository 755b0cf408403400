import StackScript.Action
import StackScript.TextMap

/-!
# The memory ledger

The ledger owns no memory: containers ask it before they grow and tell it when they shrink.  It
keeps what is in use, per account, the peak, and the strings that are referenced, each of which is
charged once however many references there are.

An allocation that would exceed the capacity is refused and leaves the ledger as it was; a release
of more than an account holds is a breach.
-/

namespace StackScript

/-- Counters of the memory in use. -/
structure Ledger where
  /-- Capacity, `none` when unbounded. -/
  total : Option Nat
  used : Nat := 0
  /-- Largest value `used` has had. -/
  peak : Nat := 0
  system : Nat := 0
  user : Nat := 0
  string : Nat := 0
  /-- Number of references to each referenced string. -/
  strings : TextMap Nat := []
deriving DecidableEq, Repr

namespace Ledger

/-- What an account holds. -/
def held (l : Ledger) : Account → Nat
  | .system => l.system
  | .user => l.user
  | .string => l.string

/-- Change what an account holds. -/
def setHeld (l : Ledger) (a : Account) (units : Nat) : Ledger :=
  match a with
  | .system => { l with system := units }
  | .user => { l with user := units }
  | .string => { l with string := units }

/-- Remaining budget, `none` when unbounded. -/
def available (l : Ledger) : Option Nat := l.total.map (· - l.used)

/-- Units that can still be granted: the remaining budget, or what the counters can count. -/
def room (l : Ledger) : Nat := l.available.getD (Size.limit - l.used)

/-- Would `size` be granted? A saturated cost never is. -/
def check (l : Ledger) (size : Size) : Except Cause Unit :=
  if l.room < size.cost ∨ size.cost = Size.limit then .error (.overflow size.cost l.room)
  else .ok ()

/-- The ledger after a grant. -/
def grant (l : Ledger) (cost : Nat) (a : Account) : Ledger :=
  let l' := l.setHeld a (l.held a + cost)
  { l' with used := l.used + cost, peak := max l.peak (l.used + cost) }

/-- The ledger after giving `cost` back. -/
def takeBack (l : Ledger) (cost : Nat) (a : Account) : Ledger :=
  let l' := l.setHeld a (l.held a - cost)
  { l' with used := l.used - cost }

/-- Charge an allocation. -/
def allocate (size : Size) (a : Account) : Action Ledger Unit := fun l =>
  match l.check size with
  | .error c => .raised c.exception l
  | .ok _ => .done () (l.grant size.cost a)

/-- Give back an allocation. -/
def release (size : Size) (a : Account) : Action Ledger Unit := fun l =>
  if size.cost ≤ l.held a ∧ size.cost ≤ l.used then .done () (l.takeBack size.cost a)
  else .broken (.ledgerUnderflow size.cost a (l.held a))

/-! ### Strings -/

/-- Size of a referenced string. -/
def stringSize (text : String) : Size where
  bytes := text.utf8ByteSize
  integers := 1

/-- Number of references to a string. -/
def references (l : Ledger) (text : String) : Nat := (l.strings.find? text).getD 0

/-- Reference a string; only the first reference is charged. -/
def addReference (text : String) : Action Ledger Unit := do
  match (← get).strings.find? text with
  | some count => modify fun l => { l with strings := l.strings.put text (count + 1) }
  | none =>
    allocate (stringSize text) .string
    modify fun l => { l with strings := l.strings.put text 1 }

/-- Drop a reference to a string; the last one gives its charge back. -/
def dropReference (text : String) : Action Ledger Unit := do
  match (← get).strings.find? text with
  | none => Action.breach (.unreferencedString text)
  | some count =>
    if 1 < count then modify fun l => { l with strings := l.strings.put text (count - 1) }
    else
      modify fun l => { l with strings := l.strings.erase text }
      release (stringSize text) .string

end Ledger

end StackScript
