import StackScript.Operator.Matched

/-!
# Builders and marks

A literal array, block or dictionary is built from the values above a mark.  Building takes effect
at once: if it fails, the mark and the values are still there.

Between its braces a block is only collected: names are pushed instead of being looked up
(`Machine.blockDepth`).
-/

namespace StackScript

namespace Operation

/-- Replace a mark and the values above it by an array of them. -/
def collectArray (access : Access) : Operation Unit := do
  let items ← aboveMark
  let array ← createArray access items
  adopt (items.length + 1) array

/-- End a literal array. -/
def endArray (_ : List Value) : Operation Unit := collectArray .literal

/-- Begin a block. -/
def beginBlock (_ : List Value) : Operation Unit := do
  push .mark
  openBlock

/-- End a block. -/
def endBlock (_ : List Value) : Operation Unit := do
  collectArray .block
  closeBlock

/-- Names and values that alternate, as pairs. -/
def pairs : List Value → Except Cause (List (String × Value))
  | key :: v :: rest =>
    match key.toName? with
    | some name => (pairs rest).map ((name, v) :: ·)
    | none => .error (.pairKeyKind key.kind)
  | [] => .ok []
  | [_] => .error .unpairedKey

/-- Bind each name in a dictionary; on failure its creator's reference is given up. -/
def defineAll (dictionary : Value) : List (String × Value) → Operation Unit
  | [] => pure ()
  | (name, v) :: rest => do
    (define dictionary name v).rescue fun e => do
      release dictionary
      Program.raise e
    defineAll dictionary rest

/-- Replace a mark and the names and values above it by a dictionary. -/
def endDictionary (_ : List Value) : Operation Unit := do
  let items ← aboveMark
  if items.length % 2 ≠ 0 then Program.fail .unpairedKey
  let entries ← Program.ofExcept (pairs items)
  let dictionary ← createDictionary
  defineAll dictionary entries
  adopt (items.length + 1) dictionary

/-- Remove the nearest mark and what is above it. -/
def clearToMark (_ : List Value) : Operation Unit := do
  pop ((← markDepth) + 1)

/-- Push the number of values above the nearest mark. -/
def countToMark (_ : List Value) : Operation Unit := do
  push (.integer (Word.ofCount (← markDepth)))

end Operation

end StackScript
