import StackScript.Operator.Matched

/-!
# Operators on containers

Arrays are read and written by index, dictionaries by name, and strings can be read byte by byte.
Of several faults the first of this order is reported: the kind of the container, the kind of the
key, the range of an index, and the permission to write.
-/

namespace StackScript

namespace Operation

/-- Replace a length by a new array of nulls. -/
def newArray (params : List Value) : Operation Unit := do
  let length ← toIndex (← matchedWord params 0)
  let array ← createFilledArray .mutable length .null
  adopt 1 array

/-- Push the items of an array below it. -/
def unpackArray (params : List Value) : Operation Unit := do
  let array ← matched params 0
  exchange 1 ((← items array) ++ [array])

/-- Store values in an array from an index on. -/
def setItems (array : Value) (index : Nat) : List Value → Operation Unit
  | [] => pure ()
  | v :: rest => do
    setItem array index v
    setItems array (index + 1) rest

/-- Fill an array with as many operands from below it. -/
def fillArray (params : List Value) : Operation Unit := do
  let array ← matched params 0
  let length := (← items array).length
  let operands := (← machine).operands
  if operands.length < length + 1 then Program.fail .notEnoughOperands
  setItems array 0 ((operands.items.drop 1).take length).reverse
  exchange (length + 1) [array]

/-- Length of an array, a dictionary or a text, the latter in bytes. -/
def lengthOf (v : Value) : Operation Nat :=
  match v.datum with
  | .array .. => do return (← items v).length
  | .dictionary .. => do return (← names v).length
  | .string text _ | .name text _ => return text.utf8ByteSize
  | _ => Program.fail (.noLength v.kind)

/-- Replace a value by its length. -/
def replaceByLength (params : List Value) : Operation Unit := do
  let length ← lengthOf (← matched params 0)
  exchange 1 [.integer (Word.ofCount length)]

/-- An index inside a container of a given length. -/
def toPosition (index : Word) (length : Nat) : Operation Nat :=
  Program.ofOption (.indexRange index length) (index.index?.filter (· < length))

/-- The item of an array, byte of a string or entry of a dictionary that a key addresses. -/
def itemAt (container key : Value) : Operation Value :=
  match container.datum with
  | .array .. => do
    let index ← Program.ofOption .arrayIndexKind key.toWord?
    let all ← items container
    Program.ofOption (.indexRange index all.length) (index.index?.bind (all[·]?))
  | .string text _ => do
    let index ← Program.ofOption .stringIndexKind key.toWord?
    let bytes := text.toUTF8.toList
    let byte ← Program.ofOption (.indexRange index bytes.length) (index.index?.bind (bytes[·]?))
    return .integer (Word.ofCount byte.toNat)
  | .dictionary .. => do
    let name ← Program.ofOption .keyKind key.toName?
    Program.ofOption (.unbound name) (← entry? container name)
  | _ => Program.fail (.notReadable container.kind)

/-- Replace a container and a key by what the key addresses. -/
def getItem (params : List Value) : Operation Unit := do
  let key ← matched params 0
  let container ← matched params 1
  exchange 2 [← itemAt container key]

/-- Store a value where a key addresses it in a container. -/
def storeAt (container key v : Value) : Operation Unit :=
  match container.datum with
  | .array .. => do
    let index ← Program.ofOption .arrayIndexKind key.toWord?
    let position ← toPosition index (← items container).length
    setItem container position v
  | .dictionary .. => do
    let name ← Program.ofOption .keyKind key.toName?
    define container name v
  | .string .. => Program.fail .stringReadOnly
  | _ => Program.fail (.notWritable container.kind)

/-- Store the top in a container, where a key addresses it. -/
def putItem (params : List Value) : Operation Unit := do
  let v ← matched params 0
  let key ← matched params 1
  let container ← matched params 2
  storeAt container key v
  pop 3

end Operation

end StackScript
