import StackScript.Text.Lexeme
import StackScript.Value.Basic

/-!
# Tokens

A token is the value of a lexeme with its place in the text.  Text is never read ahead:
`Token.next` reads the one token that follows a cursor, and `Token.all` repeats it from each
token's end, which is after its start, so reading a text always ends.
-/

namespace StackScript

/-- The integer written by digits after an optional minus sign. -/
def Word.readDecimal (text : List Char) : Int :=
  let digit (n : Nat) (c : Char) : Nat := 10 * n + (c.toNat - 48)
  let magnitude : Int := ((text.filter Char.isDigit).foldl digit 0 : Nat)
  if text.head? = some '-' then -magnitude else magnitude

/-- A value and its place in a text, in bytes. -/
structure Token where
  value : Value
  start : Nat
  stop : Nat
deriving DecidableEq, Repr

namespace Token

/-- The value of a lexeme; an integer has to fit a word. -/
def valueOf : Text.Lexeme → Except Cause Value
  | .string text => .ok (.string (String.ofList text))
  | .literalName text => .ok (.literalName (String.ofList text))
  | .name text => .ok (.name (String.ofList text))
  | .integer text =>
    match Word.ofInt? (Word.readDecimal text) with
    | some n => .ok (.integer n)
    | none => .error (.literalRange (String.ofList text))

/-- The line of `text` in which `rest`, the end of `text`, starts; carriage returns left out. -/
def lineAt (text rest : List Char) : String :=
  let before := (text.take (text.length - rest.length)).reverse.takeWhile (· != '\n')
  let after := rest.takeWhile (· != '\n')
  String.ofList ((before.reverse ++ after).filter (· != '\r'))

/-- Read the token that follows `cursor`; there is none when only blanks and comments are left. -/
def next (source : String) (cursor : Nat) : Except Cause (Option Token) :=
  match Text.dropBytes cursor source.toList with
  | none => .error (.notBoundary cursor)
  | some text =>
    let start := Text.skipGap false text
    match Text.scanLexeme start with
    | .finished => .ok none
    | .unterminated => .error (.unterminated cursor (lineAt text start))
    | .found lexeme rest =>
      let stop := cursor + Text.byteLength text
      (valueOf lexeme).map fun value => some
        { value := value
          start := stop - Text.byteLength start
          stop := stop - Text.byteLength rest }

/-- The tokens that follow `cursor`, at most `count` of them. -/
def upTo (source : String) : Nat → Nat → Except Cause (List Token)
  | 0, _ => .ok []
  | count + 1, cursor =>
    match next source cursor with
    | .error c => .error c
    | .ok none => .ok []
    | .ok (some token) => (upTo source count token.stop).map (token :: ·)

/-- Every token of a text; there are no more tokens than characters. -/
def all (source : String) : Except Cause (List Token) := upTo source (source.length + 1) 0

end Token

end StackScript
