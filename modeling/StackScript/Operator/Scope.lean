import StackScript.Operator.Matched

/-!
# Operators on dictionaries and scopes

Names are bound in the innermost scope and looked up from there outward.
-/

namespace StackScript

namespace Operation

/-- Replace a size by a new dictionary. A dictionary grows as needed, so the size only has to be
one. -/
def newDictionary (params : List Value) : Operation Unit := do
  let _ ← toIndex (← matchedWord params 0)
  let dictionary ← createDictionary
  adopt 1 dictionary

/-- Bind a name in the innermost scope. -/
def bindName (params : List Value) : Operation Unit := do
  let v ← matched params 0
  let name ← matchedName params 1
  let scope ← currentScope
  define scope name v
  pop 2

/-- Open a dictionary as a scope. -/
def beginScope (params : List Value) : Operation Unit := do
  openScope (← matched params 0)
  pop 1

/-- Close the innermost scope. -/
def endScope (_ : List Value) : Operation Unit := closeScope

/-- Replace a name by what it is bound to. -/
def loadName (params : List Value) : Operation Unit := do
  let v ← lookup (← matchedName params 0)
  exchange 1 [v]

/-- Replace a name by the scope that binds it and `true`, or by `false`. -/
def locateName (params : List Value) : Operation Unit := do
  match ← locate (← matchedName params 0) with
  | some (scope, _) => exchange 1 [scope, .boolean true]
  | none => exchange 1 [.boolean false]

/-- Replace a dictionary and a name by whether the name is bound there. -/
def isKnown (params : List Value) : Operation Unit := do
  let name ← matchedName params 0
  let entry ← entry? (← matched params 1) name
  exchange 2 [.boolean entry.isSome]

/-- Push the innermost scope. -/
def pushScope (_ : List Value) : Operation Unit := do
  push (← currentScope)

end Operation

end StackScript
