import StackScript.Text.Hidden

/-!
# Quoting in diagnostics

Diagnostics show a text between double quotes on one line: a quote, a backslash and the usual
control characters are escaped, and any other hidden character is given by its code.
-/

namespace StackScript.Text

/-- Lowercase hexadecimal digits of a code point. -/
def hexadecimal (n : Nat) : String := String.ofList (Nat.toDigits 16 n)

/-- One character of a quoted diagnostic. -/
def diagnosticChar (c : Char) : String :=
  if c = '\x00' then "\\0"
  else if c = '\t' then "\\t"
  else if c = '\r' then "\\r"
  else if c = '\n' then "\\n"
  else if c = '"' then "\\\""
  else if c = '\\' then "\\\\"
  else if isHidden c then "\\u\x7b" ++ hexadecimal c.toNat ++ "\x7d"
  else c.toString

/-- A text as diagnostics show it. -/
def diagnostic (text : String) : String :=
  "\"" ++ String.join (text.toList.map diagnosticChar) ++ "\""

end StackScript.Text
