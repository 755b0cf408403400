/-!
# Sizes

The size of an allocation counts bytes, integers, pointers and values.  Fixed weights turn the
four counts into one cost, the unit of the memory ledger.

Counts and costs never exceed `Size.limit`: arithmetic on them saturates there, so that an
absurd request keeps an absurd cost and is refused instead of wrapping around to a small one.
-/

namespace StackScript

/-- Size of an allocation. -/
structure Size where
  bytes : Nat := 0
  integers : Nat := 0
  pointers : Nat := 0
  values : Nat := 0
deriving DecidableEq, Repr

namespace Size

/-- Largest count and largest cost. -/
def limit : Nat := 18446744073709551615

/-- Bring a count back into the range. -/
def saturate (n : Nat) : Nat := min n limit

/-- Cost of one integer. -/
def integerWeight : Nat := 8

/-- Cost of one pointer. -/
def pointerWeight : Nat := 8

/-- Cost of one value. -/
def valueWeight : Nat := 16

/-- Size of `count` copies. -/
def times (s : Size) (count : Nat) : Size where
  bytes := saturate (s.bytes * count)
  integers := saturate (s.integers * count)
  pointers := saturate (s.pointers * count)
  values := saturate (s.values * count)

/-- Size of two allocations together. -/
def plus (s t : Size) : Size where
  bytes := saturate (s.bytes + t.bytes)
  integers := saturate (s.integers + t.integers)
  pointers := saturate (s.pointers + t.pointers)
  values := saturate (s.values + t.values)

/-- Weighted cost, in units of the ledger. -/
def cost (s : Size) : Nat :=
  let integers := saturate (s.integers * integerWeight)
  let pointers := saturate (s.pointers * pointerWeight)
  let values := saturate (s.values * valueWeight)
  saturate (saturate (saturate (s.bytes + integers) + pointers) + values)

end Size

/-- What an allocation is charged for. -/
inductive Account where
  /-- Stacks, permanent dictionaries, frame locals and exception records. -/
  | system
  /-- Containers created by hosted code. -/
  | user
  /-- Contents of strings. -/
  | string
deriving DecidableEq, Repr

/-- Name of an account in diagnostics. -/
def Account.label : Account → String
  | .system => "System"
  | .user => "User"
  | .string => "String"

end StackScript
