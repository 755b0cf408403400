import StackScript.Text.Escape

/-!
# Lexemes

The lexical grammar of scripts, on lists of characters.

* a *gap* is any run of blanks and comments; a comment goes from `%` to the end of its line;
* a *name character* is any character that is no blank and none of `%`, `"`, `/`, `[`, `]`,
  `\x7b`, `\x7d`, and that does not start `<<` or `>>`;
* after the gap, a lexeme is the first of these that fits: a string, a delimiter, an integer not
  followed by a name character, a literal name, a name.

`skipGap` drops the gap, and `scanLexeme` reads one lexeme after it and returns what follows.
-/

namespace StackScript.Text

/-- Blanks separate lexemes. -/
def isBlank (c : Char) : Bool := c == ' ' || c == '\t' || c == '\r' || c == '\n'

/-- Characters that end a name wherever they stand. -/
def isSpecial (c : Char) : Bool :=
  isBlank c || c == '%' || c == '"' || c == '/' || c == '[' || c == ']' || c == '\x7b' ||
    c == '\x7d'

/-- The text starts with a name character. -/
def startsName : List Char → Bool
  | [] => false
  | c :: rest => !isSpecial c && !((c == '<' || c == '>') && rest.head? == some c)

/-- Skip blanks and comments; the flag tells whether a comment is open. -/
def skipGap : Bool → List Char → List Char
  | _, [] => []
  | true, c :: rest => skipGap (c != '\n') rest
  | false, c :: rest =>
    if isBlank c then skipGap false rest
    else if c == '%' then skipGap true rest
    else c :: rest

/-- A lexeme. -/
inductive Lexeme where
  /-- A string, its escapes read. -/
  | string (text : List Char)
  /-- An integer: its sign, if any, and its digits. -/
  | integer (text : List Char)
  /-- A literal name, without its slash. -/
  | literalName (text : List Char)
  /-- A name or a delimiter. -/
  | name (text : List Char)
deriving DecidableEq, Repr

/-- What is read at the start of a text. -/
inductive Scan where
  /-- Nothing is left. -/
  | finished
  /-- A string without its closing quote. -/
  | unterminated
  /-- A lexeme and what follows it. -/
  | found (lexeme : Lexeme) (rest : List Char)
deriving DecidableEq, Repr

/-! ### Parts of lexemes -/

/-- Longest run of name characters and what follows it. -/
def spanName : List Char → List Char × List Char
  | [] => ([], [])
  | c :: rest =>
    if startsName (c :: rest) then (c :: (spanName rest).1, (spanName rest).2) else ([], c :: rest)

/-- What stands before the closing quote, escapes included, and what follows the quote. -/
def spanString : List Char → Option (List Char × List Char)
  | [] => none
  | '"' :: rest => some ([], rest)
  | ['\\'] => none
  | '\\' :: c :: rest => (spanString rest).map fun p => ('\\' :: c :: p.1, p.2)
  | c :: rest => (spanString rest).map fun p => (c :: p.1, p.2)

/-- A delimiter at the start of the text. -/
def delimiter? : List Char → Option (List Char × List Char)
  | '<' :: '<' :: rest => some (['<', '<'], rest)
  | '>' :: '>' :: rest => some (['>', '>'], rest)
  | '[' :: rest => some (['['], rest)
  | ']' :: rest => some ([']'], rest)
  | '\x7b' :: rest => some (['\x7b'], rest)
  | '\x7d' :: rest => some (['\x7d'], rest)
  | _ => none

/-- An optional sign and what follows it. -/
def splitSign : List Char → List Char × List Char
  | '-' :: rest => (['-'], rest)
  | text => ([], text)

/-- Digits after an optional sign, when no name character follows. -/
def integer? (text : List Char) : Option (List Char × List Char) :=
  let digits := (splitSign text).2.takeWhile Char.isDigit
  let rest := (splitSign text).2.dropWhile Char.isDigit
  if digits.isEmpty || startsName rest then none else some ((splitSign text).1 ++ digits, rest)

/-! ### Scanning -/

/-- Read the lexeme at the start of a text without leading gap. -/
def scanLexeme (text : List Char) : Scan :=
  match text with
  | [] => .finished
  | c :: rest =>
    if c = '"' then
      match spanString rest with
      | some (content, after) => .found (.string (unescape content)) after
      | none => .unterminated
    else match delimiter? text with
      | some (delimiter, after) => .found (.name delimiter) after
      | none =>
        match integer? text with
        | some (digits, after) => .found (.integer digits) after
        | none =>
          if c = '/' then .found (.literalName (spanName rest).1) (spanName rest).2
          else .found (.name (c :: (spanName rest).1)) (spanName rest).2

/-- What follows a gap is no longer than the text. -/
theorem length_skipGap_le (open_ : Bool) (text : List Char) :
    (skipGap open_ text).length ≤ text.length := by
  induction text generalizing open_ with
  | nil => simp [skipGap]
  | cons c rest ih =>
    cases open_ with
    | true => exact Nat.le_succ_of_le (ih _)
    | false =>
      unfold skipGap
      split
      · exact Nat.le_succ_of_le (ih _)
      · split
        · exact Nat.le_succ_of_le (ih _)
        · exact Nat.le_refl _

end StackScript.Text
