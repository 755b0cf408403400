import Mathlib.Data.List.Basic
import StackScript.Value.Token
import StackScript.Proofs.Ordinary

/-!
# Cursors in a text

A text can be cut where a character begins, and at its end (`Text.Boundary`).  What follows a lexeme
is an end of the text, so reading a token from a boundary leaves the cursor at a boundary again
(`Token.boundary_of_next`), and it fails for ordinary causes only (`Token.ordinary_of_next`).
-/

namespace StackScript

namespace Text

/-- The text can be cut at the cursor. -/
def Boundary (text : String) (cursor : ℕ) : Prop := ∃ rest, dropBytes cursor text.toList = some rest

theorem boundary_zero (text : String) : Boundary text 0 := by
  cases h : text.toList <;> simp [Boundary, h, dropBytes]

/-- Cutting a text splits it. -/
theorem eq_append_of_dropBytes {n : ℕ} {text rest : List Char} (h : dropBytes n text = some rest) :
    ∃ before, text = before ++ rest ∧ byteLength before = n := by
  fun_induction dropBytes n text with
  | case1 =>
    obtain rfl : [] = rest := Option.some.inj h
    exact ⟨[], rfl, rfl⟩
  | case2 | case5 => cases h
  | case3 c tail =>
    obtain rfl : c :: tail = rest := Option.some.inj h
    exact ⟨[], rfl, rfl⟩
  | case4 n c tail _ hle ih =>
    obtain ⟨before, rfl, hn⟩ := ih h
    exact ⟨c :: before, rfl, by rw [byteLength, hn]; omega⟩

/-! ### What follows is an end of the text -/

theorem skipGap_suffix (open_ : Bool) (text : List Char) : skipGap open_ text <:+ text := by
  fun_induction skipGap open_ text with
  | case1 => exact List.suffix_rfl
  | case2 c rest ih => exact ih.trans (List.suffix_cons c rest)
  | case3 c rest _ ih => exact ih.trans (List.suffix_cons c rest)
  | case4 c rest _ _ ih => exact ih.trans (List.suffix_cons c rest)
  | case5 c rest => exact List.suffix_rfl

theorem spanName_suffix (text : List Char) : (spanName text).2 <:+ text := by
  fun_induction spanName text with
  | case1 => exact List.suffix_rfl
  | case2 c rest _ ih => exact ih.trans (List.suffix_cons c rest)
  | case3 => exact List.suffix_rfl

theorem spanString_suffix {text content after : List Char}
    (h : spanString text = some (content, after)) : after <:+ text := by
  fun_induction spanString text generalizing content with
  | case1 | case3 => cases h
  | case2 rest =>
    cases h
    exact List.suffix_cons _ _
  | case4 c rest ih =>
    obtain ⟨⟨s, t⟩, hs, he⟩ := Option.map_eq_some_iff.1 h
    cases he
    exact (ih hs).trans ((List.suffix_cons c rest).trans (List.suffix_cons _ _))
  | case5 c rest _ _ _ ih =>
    obtain ⟨⟨s, t⟩, hs, he⟩ := Option.map_eq_some_iff.1 h
    cases he
    exact (ih hs).trans (List.suffix_cons c rest)

theorem delimiter_suffix {text delimiter after : List Char}
    (h : delimiter? text = some (delimiter, after)) : after <:+ text := by
  unfold delimiter? at h
  split at h <;> cases h
  case h_1 | h_2 => exact (List.suffix_cons _ _).trans (List.suffix_cons _ _)
  all_goals exact List.suffix_cons _ _

theorem integer_suffix {text digits after : List Char}
    (h : integer? text = some (digits, after)) : after <:+ text := by
  have signed : (splitSign text).2 <:+ text := by
    unfold splitSign
    split
    · exact List.suffix_cons _ _
    · exact List.suffix_rfl
  simp only [integer?] at h
  split at h
  · cases h
  · cases h
    exact (List.dropWhile_suffix _).trans signed

theorem scanLexeme_suffix {text rest : List Char} {lexeme : Lexeme}
    (h : scanLexeme text = .found lexeme rest) : rest <:+ text := by
  cases text with
  | nil => cases h
  | cons c tail =>
    have further (rest : List Char) (hrest : rest <:+ tail) : rest <:+ c :: tail :=
      hrest.trans (List.suffix_cons c tail)
    simp only [scanLexeme] at h
    split at h
    · split at h
      · rename_i hs
        cases h
        exact further _ (spanString_suffix hs)
      · cases h
    · split at h
      · rename_i hd
        cases h
        exact delimiter_suffix hd
      · split at h
        · rename_i hi
          cases h
          exact integer_suffix hi
        · split at h <;> cases h <;> exact further _ (spanName_suffix tail)

/-- A text can be cut where an end of it begins. -/
theorem dropBytes_of_suffix {text : String} {cursor : ℕ} {start rest : List Char}
    (h : dropBytes cursor text.toList = some start) (hrest : rest <:+ start) :
    dropBytes (cursor + byteLength start - byteLength rest) text.toList = some rest := by
  obtain ⟨before, hbefore, rfl⟩ := eq_append_of_dropBytes h
  obtain ⟨passed, rfl⟩ := hrest
  have stop : byteLength before + byteLength (passed ++ rest) - byteLength rest =
      byteLength (before ++ passed) := by
    rw [byteLength_append, byteLength_append]
    omega
  rw [stop, hbefore, ← List.append_assoc]
  exact dropBytes_byteLength _ _

/-- A boundary is the place of an end of the text. -/
theorem boundary_of_suffix {text : String} {cursor : ℕ} {start rest : List Char}
    (h : dropBytes cursor text.toList = some start) (hrest : rest <:+ start) :
    Boundary text (cursor + byteLength start - byteLength rest) :=
  ⟨rest, dropBytes_of_suffix h hrest⟩

end Text

namespace Token

variable {text : String} {cursor : ℕ}

/-- A token is the value of the lexeme after the gap, and the cursor goes on after that. -/
theorem exists_lexeme_of_next {token : Token} (h : Token.next text cursor = .ok (some token)) :
    ∃ start lexeme rest, Text.dropBytes cursor text.toList = some start ∧
      Text.scanLexeme (Text.skipGap false start) = .found lexeme rest ∧
        valueOf lexeme = .ok token.value ∧
          token.stop = cursor + Text.byteLength start - Text.byteLength rest := by
  unfold Token.next at h
  split at h
  · cases h
  · rename_i start hstart
    dsimp only at h
    split at h
    · cases h
    · cases h
    · rename_i lexeme rest hscan
      cases hvalue : valueOf lexeme with
      | error c => rw [hvalue] at h; cases h
      | ok value =>
        rw [hvalue] at h
        obtain rfl := Option.some.inj (Except.ok.inj h)
        exact ⟨start, lexeme, rest, hstart, hscan, hvalue, rfl⟩

/-- **A cursor stays where a character begins.** -/
theorem boundary_of_next {token : Token} (h : Token.next text cursor = .ok (some token)) :
    Text.Boundary text token.stop := by
  obtain ⟨start, lexeme, rest, hstart, hscan, -, hstop⟩ := exists_lexeme_of_next h
  rw [hstop]
  exact Text.boundary_of_suffix hstart
    ((Text.scanLexeme_suffix hscan).trans (Text.skipGap_suffix false start))

/-- What a token stands for: a string, an integer, or a name. -/
theorem datum_of_next {token : Token} (h : Token.next text cursor = .ok (some token)) :
    (∃ content, token.value.datum = .string content false) ∨
      (∃ n, token.value.datum = .integer n) ∨ ∃ name exec, token.value.datum = .name name exec := by
  obtain ⟨start, lexeme, rest, -, -, hvalue, -⟩ := exists_lexeme_of_next h
  unfold valueOf at hvalue
  split at hvalue
  · rw [← Except.ok.inj hvalue]
    exact .inl ⟨_, rfl⟩
  · rw [← Except.ok.inj hvalue]
    exact .inr (.inr ⟨_, _, rfl⟩)
  · rw [← Except.ok.inj hvalue]
    exact .inr (.inr ⟨_, _, rfl⟩)
  · split at hvalue
    · rw [← Except.ok.inj hvalue]
      exact .inr (.inl ⟨_, rfl⟩)
    · cases hvalue

/-- Whatever the cursor, reading asks for no loop to be left. -/
theorem raises_next {c : Cause} (h : Token.next text cursor = .error c) :
    c.condition ≠ .loopBreak := by
  unfold Token.next at h
  split at h
  · cases h
    exact nofun
  · dsimp only at h
    split at h
    · cases h
    · cases h
      exact nofun
    · rename_i lexeme rest _
      cases hvalue : valueOf lexeme with
      | ok v => rw [hvalue] at h; cases h
      | error c' =>
        rw [hvalue] at h
        obtain rfl := Except.error.inj h
        unfold valueOf at hvalue
        split at hvalue
        · cases hvalue
        · cases hvalue
        · cases hvalue
        · split at hvalue
          · cases hvalue
          · cases hvalue
            exact nofun

/-- From a boundary, reading fails for a mistake in the text only. -/
theorem ordinary_of_next {c : Cause} (hcursor : Text.Boundary text cursor)
    (h : Token.next text cursor = .error c) : c.Ordinary := by
  obtain ⟨start, hstart⟩ := hcursor
  unfold Token.next at h
  rw [hstart] at h
  dsimp only at h
  split at h
  · cases h
  · cases h
    exact nofun
  · rename_i lexeme rest _
    cases hvalue : valueOf lexeme with
    | ok v => rw [hvalue] at h; cases h
    | error c' =>
      rw [hvalue] at h
      obtain rfl := Except.error.inj h
      unfold valueOf at hvalue
      split at hvalue
      · cases hvalue
      · cases hvalue
      · cases hvalue
      · split at hvalue
        · cases hvalue
        · cases hvalue
          exact nofun

end Token

end StackScript
