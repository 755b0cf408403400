/-!
# Kinds of values

The type tags of values, the permissions of arrays and the operand types a signature can ask for.
-/

namespace StackScript

/-- Type tag of a value. -/
inductive Kind where
  | null
  | boolean
  | integer
  | string
  | name
  | mark
  | operator
  | array
  | dictionary
deriving DecidableEq, Repr

/-- The word for a kind in messages. -/
def Kind.label : Kind → String
  | .null => "null"
  | .boolean => "boolean"
  | .integer => "integer"
  | .string => "string"
  | .name => "name"
  | .mark => "mark"
  | .operator => "operator"
  | .array => "array"
  | .dictionary => "dictionary"

/-- What an array may be used for. -/
inductive Access where
  /-- Executable and read-only: deferred code. -/
  | block
  /-- Read-only data. -/
  | literal
  /-- Writable data. -/
  | mutable
deriving DecidableEq, Repr

/-- The word for a permission. -/
def Access.label : Access → String
  | .block => "block"
  | .literal => "literal"
  | .mutable => "mutable"

/-- What a signature asks of one operand. -/
inductive Param where
  | any
  | null
  | boolean
  | integer
  | string
  | name
  | mark
  | operator
  /-- Any array, whatever its permission. -/
  | array
  | block
  | mutableArray
  | dictionary
  /-- Writable dictionary. -/
  | mutableDictionary
deriving DecidableEq, Repr

namespace Param

/-- Every parameter type. -/
def all : List Param :=
  [.any, .null, .boolean, .integer, .string, .name, .mark, .operator, .array, .block,
    .mutableArray, .dictionary, .mutableDictionary]

/-- The word for a parameter type in messages. -/
def label : Param → String
  | .any => "any"
  | .null => "null"
  | .boolean => "boolean"
  | .integer => "integer"
  | .string => "string"
  | .name => "name"
  | .mark => "mark"
  | .operator => "operator"
  | .array => "array"
  | .block => "block"
  | .mutableArray => "mutable array"
  | .dictionary => "dictionary"
  | .mutableDictionary => "mutable dictionary"

end Param

end StackScript
