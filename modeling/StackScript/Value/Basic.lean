import StackScript.Exception
import StackScript.Operator.Builtin
import StackScript.Text.Bytes

/-!
# Values

The data scripts compute with.  A value is a datum together with the place in a source text it came
from, if any; equality of data, not of values, is what the language means by equality.

The shape of a datum fixes its permissions: only strings and names can be executable or not, an
executable array is a block and therefore read-only, an operator is always executable.

Strings, arrays and dictionaries are *tracked*: holding one means holding a counted reference.
-/

namespace StackScript

/-- Where a value came from in a source text. -/
structure Provenance where
  /-- Name of the source. -/
  origin : String
  /-- The whole source text. -/
  source : String
  offset : Nat
  length : Nat
deriving DecidableEq, Repr

namespace Provenance

/-- A source text as a whole. -/
def whole (origin source : String) : Provenance where
  origin := origin
  source := source
  offset := 0
  length := source.utf8ByteSize

/-- A part of the same source, relative to this one. -/
def slice (p : Provenance) (offset length : Nat) : Provenance :=
  { p with offset := p.offset + offset, length := length }

/-- The text of the place, empty when the range does not fit the source. -/
def text (p : Provenance) : String := (Text.slice? p.source p.offset p.length).getD ""

/-- Origin and offset. -/
def describe (p : Provenance) : String := s!"{p.origin}@{p.offset}"

end Provenance

/-- A named operator: one of the builtins, or one the host provides. -/
inductive Operator where
  | builtin (b : Builtin)
  /-- An operator of the host; `looping` if a break can leave it. -/
  | native (name : String) (looping : Bool)
deriving DecidableEq, Repr

namespace Operator

/-- Name of an operator. -/
def name : Operator → String
  | .builtin b => b.name
  | .native name _ => name

/-- Operators a break can leave. -/
def isLoop : Operator → Bool
  | .builtin b => b.isLoop
  | .native _ looping => looping

end Operator

/-- Payload of a value. -/
inductive Datum where
  | null
  | boolean (b : Bool)
  | integer (n : Word)
  /-- A string literal, or a source text when executable. -/
  | string (text : String) (executable : Bool)
  /-- A name, looked up when executable. -/
  | name (text : String) (executable : Bool)
  | mark
  | operator (o : Operator)
  | array (handle : Handle) (access : Access)
  | dictionary (handle : Handle) (writable : Bool)
deriving DecidableEq, Repr

namespace Datum

/-- Type tag. -/
def kind : Datum → Kind
  | .null => .null
  | .boolean _ => .boolean
  | .integer _ => .integer
  | .string .. => .string
  | .name .. => .name
  | .mark => .mark
  | .operator _ => .operator
  | .array .. => .array
  | .dictionary .. => .dictionary

/-- Executed rather than moved to the operand stack. -/
def isExecutable : Datum → Bool
  | .string _ executable => executable
  | .name _ executable => executable
  | .operator _ => true
  | .array _ access => access == .block
  | _ => false

/-- Cannot be modified. -/
def isReadOnly : Datum → Bool
  | .array _ access => access != .mutable
  | .dictionary _ writable => !writable
  | _ => true

/-- Holding the datum involves a counted reference. -/
def isTracked : Datum → Bool
  | .string .. | .array .. | .dictionary .. => true
  | _ => false

/-- The same datum, whatever the permissions: containers are the same when they share a handle. -/
def same : Datum → Datum → Bool
  | .array a _, .array b _ => a == b
  | .dictionary a _, .dictionary b _ => a == b
  | .string a _, .string b _ => a == b
  | .name a _, .name b _ => a == b
  | a, b => a == b

end Datum

/-- A value. -/
structure Value where
  datum : Datum
  /-- Diagnostics only. -/
  source : Option Provenance := none
deriving DecidableEq, Repr

namespace Value

/-! ### Constructors -/

/-- The null value. -/
def null : Value := ⟨.null, none⟩

/-- A mark, which delimits operands. -/
def mark : Value := ⟨.mark, none⟩

/-- A truth value. -/
def boolean (b : Bool) : Value := ⟨.boolean b, none⟩

/-- An integer. -/
def integer (n : Word) : Value := ⟨.integer n, none⟩

/-- A string literal. -/
def string (text : String) : Value := ⟨.string text false, none⟩

/-- A source text to be executed. -/
def code (text : String) : Value := ⟨.string text true, none⟩

/-- An executable name. -/
def name (text : String) : Value := ⟨.name text true, none⟩

/-- A literal name. -/
def literalName (text : String) : Value := ⟨.name text false, none⟩

/-- An operator, executable like all of them. -/
def operator (o : Operator) : Value := ⟨.operator o, none⟩

/-- An array of the heap, under a permission. -/
def array (handle : Handle) (access : Access) : Value := ⟨.array handle access, none⟩

/-- A dictionary of the heap, writable or not. -/
def dictionary (handle : Handle) (writable : Bool) : Value := ⟨.dictionary handle writable, none⟩

/-- The same datum with another source. -/
def withSource (v : Value) (source : Option Provenance) : Value := { v with source := source }

/-! ### Observations -/

/-- Type tag. -/
def kind (v : Value) : Kind := v.datum.kind

/-- Executed rather than moved to the operand stack. -/
def isExecutable (v : Value) : Bool := v.datum.isExecutable

/-- Cannot be modified. -/
def isReadOnly (v : Value) : Bool := v.datum.isReadOnly

/-- Holding the value involves a counted reference. -/
def isTracked (v : Value) : Bool := v.datum.isTracked

/-- Permission of an array. -/
def access? (v : Value) : Option Access :=
  match v.datum with
  | .array _ access => some access
  | _ => none

/-- A deferred piece of code. -/
def isBlock (v : Value) : Bool := v.access? == some .block

/-- A value that goes to the operand stack when met in a block. -/
def isInert (v : Value) : Bool := !v.isExecutable || v.isBlock

/-- A mark. -/
def isMark (v : Value) : Bool := v.datum == .mark

/-- The truth value, if it is one. -/
def toBoolean? (v : Value) : Option Bool :=
  match v.datum with
  | .boolean b => some b
  | _ => none

/-- The integer, if it is one. -/
def toWord? (v : Value) : Option Word :=
  match v.datum with
  | .integer n => some n
  | _ => none

/-- Text of a string or a name. -/
def toText? (v : Value) : Option String :=
  match v.datum with
  | .string text _ | .name text _ => some text
  | _ => none

/-- Text of a name, literal or not. -/
def toName? (v : Value) : Option String :=
  match v.datum with
  | .name text _ => some text
  | _ => none

/-- The operator, if it is one. -/
def toOperator? (v : Value) : Option Operator :=
  match v.datum with
  | .operator o => some o
  | _ => none

/-- Handle of a container. -/
def handle? (v : Value) : Option Handle :=
  match v.datum with
  | .array handle _ | .dictionary handle _ => some handle
  | _ => none

/-- The same datum, whatever the permissions. -/
def same (v w : Value) : Bool := v.datum.same w.datum

end Value

/-- An operand of a parameter type. -/
def Param.accepts (p : Param) (v : Value) : Bool :=
  match p with
  | .any => true
  | .null => v.kind == .null
  | .boolean => v.kind == .boolean
  | .integer => v.kind == .integer
  | .string => v.kind == .string
  | .name => v.kind == .name
  | .mark => v.kind == .mark
  | .operator => v.kind == .operator
  | .array => v.kind == .array
  | .block => v.access? == some .block
  | .mutableArray => v.access? == some .mutable
  | .dictionary => v.kind == .dictionary
  | .mutableDictionary => v.kind == .dictionary && !v.isReadOnly

end StackScript
