import StackScript.Operator.Matched

/-!
# Integers and truth values

Arithmetic on words, comparisons, and logic.  Strings and names are equal when their texts are,
whichever of the two they are; logic works on two booleans, or bit by bit on two integers.
-/

namespace StackScript

namespace Operation

/-! ### Arithmetic -/

/-- Replace two integers by the result of an operation on them, which may have none. -/
def combine (name : String) (f : Word → Word → Option Word) (params : List Value) :
    Operation Unit := do
  let right ← matchedWord params 0
  let left ← matchedWord params 1
  let result ← Program.ofOption (.wordOverflow name) (f left right)
  exchange 2 [.integer result]

/-- Replace two integers, the second of them not zero, by the result of an operation on them. -/
def divide (name : String) (f : Word → Word → Option Word) (params : List Value) :
    Operation Unit := do
  if (← matchedWord params 0).toInt = 0 then Program.fail .divisionByZero
  combine name f params

/-- Replace an integer by the result of an operation on it, which may have none. -/
def transform (name : String) (f : Word → Option Word) (params : List Value) : Operation Unit := do
  let n ← matchedWord params 0
  let result ← Program.ofOption (.wordOverflow name) (f n)
  exchange 1 [.integer result]

/-! ### Comparisons -/

/-- Equality of the language. -/
def equal (a b : Value) : Bool :=
  match a.toText?, b.toText? with
  | some s, some t => s == t
  | _, _ => a.same b

/-- Replace two values by whether they are equal, or different. -/
def compareEqual (expected : Bool) (params : List Value) : Operation Unit := do
  let result := equal (← matched params 1) (← matched params 0)
  exchange 2 [.boolean (result == expected)]

/-- Replace two integers by whether they are related. -/
def compareWords (related : Word → Word → Bool) (params : List Value) : Operation Unit := do
  let left ← matchedWord params 1
  let right ← matchedWord params 0
  exchange 2 [.boolean (related left right)]

/-! ### Logic -/

/-- Replace two booleans, or two integers, by their combination. -/
def combineLogic (booleans : Bool → Bool → Bool) (words : Word → Word → Word)
    (params : List Value) : Operation Unit := do
  let right ← matched params 0
  let left ← matched params 1
  match left.datum, right.datum with
  | .boolean a, .boolean b => exchange 2 [.boolean (booleans a b)]
  | .integer a, .integer b => exchange 2 [.integer (words a b)]
  | _, _ => Program.fail (.logicKinds left.kind right.kind)

/-- Replace a boolean or an integer by its negation. -/
def negateLogic (params : List Value) : Operation Unit := do
  let v ← matched params 0
  match v.datum with
  | .boolean b => exchange 1 [.boolean (!b)]
  | .integer n => exchange 1 [.integer n.complement]
  | _ => Program.fail (.negationKind v.kind)

end Operation

end StackScript
