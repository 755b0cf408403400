import StackScript.Memory.Basic
import StackScript.Text.Escape

/-!
# Values as text

A value is shown the way it would be written in a script.  Containers nested deeper than
`Memory.maxDepth` are abbreviated, which also keeps a container that holds itself printable.
-/

namespace StackScript

/-- The text of a value that is no container. -/
def Datum.text : Datum → String
  | .null => "null"
  | .boolean true => "true"
  | .boolean false => "false"
  | .integer n => toString n
  | .string text _ => "\"" ++ String.ofList (Text.escape text.toList) ++ "\""
  | .name text true => text
  | .name text false => "/" ++ text
  | .mark => "-mark-"
  | .operator o => "-" ++ o.name ++ "-"
  | .array .. => "[ ... ]"
  | .dictionary .. => "<< ... >>"

/-- The brackets of an array. -/
def Access.brackets : Access → String × String
  | .block => ("\x7b", "\x7d")
  | .literal | .mutable => ("[", "]")

namespace Memory

/-- Levels of nesting that are shown. -/
def maxDepth : Nat := 16

/-- Items between brackets, each after a blank. -/
def enclose (brackets : String × String) (items : List String) : String :=
  brackets.1 ++ String.join (items.map (" " ++ ·)) ++ " " ++ brackets.2

/-- The text of a value with at most `levels` levels of nesting. -/
def formatTo (m : Memory) : Nat → Value → Except Breach String
  | 0, v =>
    match v.datum with
    | .array _ access => return enclose access.brackets ["..."]
    | .dictionary .. => return enclose ("<<", ">>") ["..."]
    | datum => return datum.text
  | levels + 1, v =>
    match v.datum with
    | .array handle access => do
      let s ← m.array handle
      let items ← s.toList.mapM (m.formatTo levels)
      return enclose access.brackets items
    | .dictionary handle _ => do
      let d ← m.dictionary handle
      let entries ← d.names.mapM fun name =>
        match d.get? name with
        | none => return "/" ++ name
        | some item => return "/" ++ name ++ " " ++ (← m.formatTo levels item)
      return enclose ("<<", ">>") entries
    | datum => return datum.text

/-- The text of a value. -/
def format (m : Memory) (v : Value) : Except Breach String := m.formatTo maxDepth v

/-- The texts of several values, separated by blanks. -/
def formatAll (m : Memory) (values : List Value) : Except Breach String := do
  return " ".intercalate (← values.mapM m.format)

end Memory

end StackScript
