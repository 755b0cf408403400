/-!
# Byte offsets in a text

Offsets and lengths in texts count the bytes of the UTF-8 encoding.  A cut is possible only at a
character boundary: `dropBytes` and `takeBytes` give `none` inside a character or past the end.
-/

namespace StackScript.Text

/-- Number of bytes of a list of characters. -/
def byteLength : List Char → Nat
  | [] => 0
  | c :: rest => c.utf8Size + byteLength rest

/-- What is left after the first `n` bytes. -/
def dropBytes (n : Nat) : List Char → Option (List Char)
  | [] => if n = 0 then some [] else none
  | c :: rest =>
    if n = 0 then some (c :: rest)
    else if c.utf8Size ≤ n then dropBytes (n - c.utf8Size) rest
    else none

/-- The first `n` bytes. -/
def takeBytes (n : Nat) : List Char → Option (List Char)
  | [] => if n = 0 then some [] else none
  | c :: rest =>
    if n = 0 then some []
    else if c.utf8Size ≤ n then (takeBytes (n - c.utf8Size) rest).map (c :: ·)
    else none

/-- The `length` bytes from `offset` on. -/
def slice? (text : String) (offset length : Nat) : Option String :=
  ((dropBytes offset text.toList).bind (takeBytes length)).map String.ofList

@[simp] theorem byteLength_append (s t : List Char) :
    byteLength (s ++ t) = byteLength s + byteLength t := by
  induction s with
  | nil => simp [byteLength]
  | cons c rest ih => simp [byteLength, ih, Nat.add_assoc]

theorem dropBytes_byteLength (s t : List Char) : dropBytes (byteLength s) (s ++ t) = some t := by
  induction s with
  | nil => cases t <;> simp [byteLength, dropBytes]
  | cons c rest ih =>
    have hpos : c.utf8Size ≠ 0 := Nat.pos_iff_ne_zero.1 c.utf8Size_pos
    simp [byteLength, dropBytes, hpos, ih]

end StackScript.Text
