import StackScript.Operator.Arithmetic
import StackScript.Operator.Container
import StackScript.Operator.Flow
import StackScript.Operator.Literal
import StackScript.Operator.Scope
import StackScript.Operator.Stack

/-!
# The builtin operators

What the machine knows of each builtin: whether it is a constant, the operands it asks for, and
what it does with them.  A constant asks for nothing and does nothing but push its value.
-/

namespace StackScript

namespace Builtin

/-- The value of a builtin that is a constant. -/
def constant? : Builtin → Option Value
  | .trueValue => some (.boolean true)
  | .falseValue => some (.boolean false)
  | .nullValue => some .null
  | .mark | .openArray | .openDictionary => some .mark
  | _ => none

/-- The operands a builtin asks for, the top of the stack first. -/
def signature : Builtin → List Param
  | .trueValue | .falseValue | .nullValue | .mark | .openArray | .openDictionary => []
  | .drop | .duplicate => [.any]
  | .exchange => [.any, .any]
  | .clear | .count => []
  | .index => [.integer]
  | .roll => [.integer, .integer]
  | .closeArray | .openBlock | .closeBlock | .closeDictionary | .clearToMark | .countToMark => []
  | .add | .sub | .mul | .div | .mod => [.integer, .integer]
  | .neg | .abs => [.integer]
  | .equal | .notEqual => [.any, .any]
  | .less | .greater => [.integer, .integer]
  | .negate => [.any]
  | .conjoin | .disjoin => [.any, .any]
  | .array => [.integer]
  | .unpack => [.array]
  | .fill => [.mutableArray]
  | .length => [.any]
  | .get => [.any, .any]
  | .put => [.any, .any, .any]
  | .dictionary => [.integer]
  | .define => [.any, .name]
  | .openScope => [.dictionary]
  | .closeScope => []
  | .load | .locate => [.name]
  | .known => [.name, .dictionary]
  | .currentScope => []
  | .execute => [.any]
  | .execIf => [.block, .boolean]
  | .execEither => [.block, .block, .boolean]
  | .repeatBlock => [.block, .integer]
  | .loop => [.block]
  | .leaveLoop | .stop => []
  | .stopped => [.block]
  | .ensure => [.block, .block]
  | .bind => [.block]

/-- What a builtin does with the operands it asked for. -/
def operation : Builtin → List Value → Operation Unit
  | .trueValue | .falseValue | .nullValue | .mark | .openArray | .openDictionary => fun _ => pure ()
  | .drop => Operation.dropTop
  | .duplicate => Operation.duplicateTop
  | .exchange => Operation.exchangeTop
  | .clear => fun _ => Operation.clearOperands
  | .count => Operation.pushCount
  | .index => Operation.copyOperand
  | .roll => Operation.rollOperands
  | .closeArray => Operation.endArray
  | .openBlock => Operation.beginBlock
  | .closeBlock => Operation.endBlock
  | .closeDictionary => Operation.endDictionary
  | .clearToMark => Operation.clearToMark
  | .countToMark => Operation.countToMark
  | .add => Operation.combine "add" Word.add?
  | .sub => Operation.combine "sub" Word.sub?
  | .mul => Operation.combine "mul" Word.mul?
  | .div => Operation.divide "div" Word.div?
  | .mod => Operation.divide "mod" Word.mod?
  | .neg => Operation.transform "neg" Word.neg?
  | .abs => Operation.transform "abs" Word.abs?
  | .equal => Operation.compareEqual true
  | .notEqual => Operation.compareEqual false
  | .less => Operation.compareWords fun a b => decide (a.toInt < b.toInt)
  | .greater => Operation.compareWords fun a b => decide (b.toInt < a.toInt)
  | .negate => Operation.negateLogic
  | .conjoin => Operation.combineLogic (· && ·) Word.both
  | .disjoin => Operation.combineLogic (· || ·) Word.either
  | .array => Operation.newArray
  | .unpack => Operation.unpackArray
  | .fill => Operation.fillArray
  | .length => Operation.replaceByLength
  | .get => Operation.getItem
  | .put => Operation.putItem
  | .dictionary => Operation.newDictionary
  | .define => Operation.bindName
  | .openScope => Operation.beginScope
  | .closeScope => Operation.endScope
  | .load => Operation.loadName
  | .locate => Operation.locateName
  | .known => Operation.isKnown
  | .currentScope => Operation.pushScope
  | .execute => Operation.executeTop
  | .execIf => Operation.executeIf
  | .execEither => Operation.executeEither
  | .repeatBlock => Operation.repeatBlock
  | .loop => Operation.loopBlock
  | .leaveLoop => Operation.leaveLoop
  | .stop => Operation.stop
  | .stopped => Operation.stoppedBlock
  | .ensure => Operation.ensureFinalizer
  | .bind => Operation.bindBlock

end Builtin

end StackScript
