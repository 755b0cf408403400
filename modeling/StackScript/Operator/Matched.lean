import StackScript.Operator.Operation

/-!
# Matched operands

An operator receives the operands its signature asked for, the top of the stack first.  A request
for one that is not there, or not of the type the signature promises, is a defect of the machine.
-/

namespace StackScript

namespace Operation

/-- A matched operand. -/
def matched (params : List Value) (index : Nat) : Operation Value :=
  Program.ofOption (.unmatchedOperand index) params[index]?

/-- A matched integer. -/
def matchedWord (params : List Value) (index : Nat) : Operation Word := do
  Program.ofOption (.operandNotInteger index) (← matched params index).toWord?

/-- A matched boolean. -/
def matchedBoolean (params : List Value) (index : Nat) : Operation Bool := do
  Program.ofOption (.operandNotBoolean index) (← matched params index).toBoolean?

/-- A matched name. -/
def matchedName (params : List Value) (index : Nat) : Operation String := do
  Program.ofOption (.operandNotName index) (← matched params index).toName?

/-- The count or index an integer stands for. -/
def toIndex (n : Word) : Operation Nat := Program.ofOption (.negative n) n.index?

/-- The values above the nearest mark, the lowest first. -/
def aboveMark : Operation (List Value) := do
  let depth ← markDepth
  return ((← machine).operands.items.take depth).reverse

end Operation

end StackScript
