/-!
# Escapes in strings

How the characters of a string are written between double quotes.  `unescape` reads every escape
back (`unescape_escape`); it also accepts a needless escape, which stands for the escaped
character itself.
-/

namespace StackScript.Text

/-- Write the characters of a string: double quote, backslash, newline and tab are escaped. -/
def escape : List Char → List Char
  | [] => []
  | '"' :: rest => '\\' :: '"' :: escape rest
  | '\\' :: rest => '\\' :: '\\' :: escape rest
  | '\n' :: rest => '\\' :: 'n' :: escape rest
  | '\t' :: rest => '\\' :: 't' :: escape rest
  | c :: rest => c :: escape rest

/-- The character an escaped character stands for. -/
def unescapeChar : Char → Char
  | 'n' => '\n'
  | 't' => '\t'
  | c => c

/-- Read the characters of a string. A backslash at the very end stands for itself. -/
def unescape : List Char → List Char
  | [] => []
  | ['\\'] => ['\\']
  | '\\' :: c :: rest => unescapeChar c :: unescape rest
  | c :: rest => c :: unescape rest

theorem unescape_cons {c : Char} (h : c ≠ '\\') (rest : List Char) :
    unescape (c :: rest) = c :: unescape rest := by
  rw [unescape] <;> simp_all

theorem unescape_escape (s : List Char) : unescape (escape s) = s := by
  fun_induction escape s with
  | case1 => rfl
  | case2 rest ih => simp [unescape, unescapeChar, ih]
  | case3 rest ih => simp [unescape, unescapeChar, ih]
  | case4 rest ih => simp [unescape, unescapeChar, ih]
  | case5 rest ih => simp [unescape, unescapeChar, ih]
  | case6 c rest _ h _ _ ih => rw [unescape_cons (by simpa using h), ih]

end StackScript.Text
