/-!
# Names of the builtin operators

The operators every machine knows, in the order of the registry, with the names hosted code gives
them.  What they do is defined in the other modules of `StackScript.Operator`.
-/

namespace StackScript

/-- A builtin operator. -/
inductive Builtin where
  -- Operand stack
  | drop | duplicate | exchange | clear | count | index | roll
  -- Constants, marks and builders
  | trueValue | falseValue | nullValue | mark | openArray | closeArray | openBlock | closeBlock
  | openDictionary | closeDictionary | clearToMark | countToMark
  -- Integers and truth values
  | add | sub | mul | div | mod | neg | abs | equal | notEqual | less | greater
  | negate | conjoin | disjoin
  -- Arrays
  | array | unpack | fill | length | get | put
  -- Dictionaries and scopes
  | dictionary | define | openScope | closeScope | load | locate | known | currentScope
  -- Control flow
  | execute | execIf | execEither | repeatBlock | loop | leaveLoop | stop | stopped | ensure | bind
deriving DecidableEq, Repr

namespace Builtin

/-- Every builtin, in registration order. -/
def all : List Builtin :=
  [.drop, .duplicate, .exchange, .clear, .count, .index, .roll,
    .trueValue, .falseValue, .nullValue, .mark, .openArray, .closeArray, .openBlock, .closeBlock,
    .openDictionary, .closeDictionary, .clearToMark, .countToMark,
    .add, .sub, .mul, .div, .mod, .neg, .abs, .equal, .notEqual, .less, .greater,
    .negate, .conjoin, .disjoin,
    .array, .unpack, .fill, .length, .get, .put,
    .dictionary, .define, .openScope, .closeScope, .load, .locate, .known, .currentScope,
    .execute, .execIf, .execEither, .repeatBlock, .loop, .leaveLoop, .stop, .stopped, .ensure,
    .bind]

/-- The name hosted code uses. -/
def name : Builtin → String
  | .drop => "pop"
  | .duplicate => "dup"
  | .exchange => "exch"
  | .clear => "clear"
  | .count => "count"
  | .index => "index"
  | .roll => "roll"
  | .trueValue => "true"
  | .falseValue => "false"
  | .nullValue => "null"
  | .mark => "mark"
  | .openArray => "["
  | .closeArray => "]"
  | .openBlock => "\x7b"
  | .closeBlock => "\x7d"
  | .openDictionary => "<<"
  | .closeDictionary => ">>"
  | .clearToMark => "cleartomark"
  | .countToMark => "counttomark"
  | .add => "add"
  | .sub => "sub"
  | .mul => "mul"
  | .div => "div"
  | .mod => "mod"
  | .neg => "neg"
  | .abs => "abs"
  | .equal => "eq"
  | .notEqual => "neq"
  | .less => "lt"
  | .greater => "gt"
  | .negate => "not"
  | .conjoin => "and"
  | .disjoin => "or"
  | .array => "array"
  | .unpack => "aload"
  | .fill => "astore"
  | .length => "length"
  | .get => "get"
  | .put => "put"
  | .dictionary => "dict"
  | .define => "def"
  | .openScope => "begin"
  | .closeScope => "end"
  | .load => "load"
  | .locate => "where"
  | .known => "known"
  | .currentScope => "currentdict"
  | .execute => "exec"
  | .execIf => "if"
  | .execEither => "ifelse"
  | .repeatBlock => "repeat"
  | .loop => "loop"
  | .leaveLoop => "break"
  | .stop => "stop"
  | .stopped => "stopped"
  | .ensure => "finally"
  | .bind => "bind"

/-- The builtin of a given name. -/
def ofName? (name : String) : Option Builtin := all.find? (·.name == name)

/-- Operators a break can leave. -/
def isLoop : Builtin → Bool
  | .repeatBlock | .loop => true
  | _ => false

theorem mem_all (b : Builtin) : b ∈ all := by cases b <;> decide

end Builtin

end StackScript
