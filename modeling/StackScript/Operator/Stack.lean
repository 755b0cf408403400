import StackScript.Operator.Matched

/-!
# Operators on the operand stack

Copying, removing and rearranging operands.
-/

namespace StackScript

namespace Operation

/-- Remove the top. -/
def dropTop (_ : List Value) : Operation Unit := pop 1

/-- Copy the top. -/
def duplicateTop (params : List Value) : Operation Unit := do
  push (← matched params 0)

/-- Swap the two values at the top. -/
def exchangeTop (params : List Value) : Operation Unit := do
  let top ← matched params 0
  let below ← matched params 1
  exchange 2 [top, below]

/-- Push the number of operands. -/
def pushCount (_ : List Value) : Operation Unit := do
  push (.integer (Word.ofCount (← operandCount)))

/-- Replace an index by the operand at that depth below it. -/
def copyOperand (params : List Value) : Operation Unit := do
  let depth ← toIndex (← matchedWord params 0)
  let v ← Program.ofOption (.noOperandAt depth) ((← machine).operand? (depth + 1))
  exchange 1 [v]

/-- The list with every item moved `steps` places toward its end, those at the end coming first. -/
def rotated (items : List Value) (steps : Int) : List Value :=
  let back := (steps % (items.length : Int)).toNat
  let kept := items.length - back
  items.drop kept ++ items.take kept

/-- Rotate the operands below a count and a number of steps. -/
def rollOperands (params : List Value) : Operation Unit := do
  let steps ← matchedWord params 0
  let count ← toIndex (← matchedWord params 1)
  let operands := (← machine).operands
  if operands.length < count + 2 then Program.fail .notEnoughOperands
  let items := ((operands.items.drop 2).take count).reverse
  exchange (count + 2) (rotated items steps.toInt)

end Operation

end StackScript
