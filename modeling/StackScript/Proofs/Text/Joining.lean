import StackScript.Proofs.Text.Lexing

/-!
# Joining texts

No lexeme looks past the end of its line unless it is a string that is still open, so where reading a
text comes to its end, nothing is read differently when another line follows: two texts, the one below
the other, have the tokens of the one and then those of the other (`Text.Lexes.joined`).

So the tokens of a text cover it, and stay what they are when another text is added below
(`Token.all_covers`).
-/

namespace StackScript

namespace Text

variable {text more gap run lexeme rest : List Char} {v : Value} {n : ℕ} {k : Option Condition}
  {ts us : List Token}

/-! ### Gaps -/

/-- Where a gap ends before the line does, nothing else is skipped. -/
theorem skipGap_append (inside : Bool) (h : skipGap inside text ≠ []) (more : List Char) :
    skipGap inside (text ++ more) = skipGap inside text ++ more := by
  fun_induction skipGap inside text with
  | case1 => exact absurd rfl h
  | case2 c rest ih => exact ih h
  | case3 c rest hblank ih =>
    rw [List.cons_append, skipGap, if_pos hblank]
    exact ih h
  | case4 c rest hblank hpercent ih =>
    rw [List.cons_append, skipGap, if_neg hblank, if_pos hpercent]
    exact ih h
  | case5 c rest hblank hpercent =>
    rw [List.cons_append, skipGap, if_neg hblank, if_neg hpercent]

/-- A gap that goes on to the end of the line goes on in the next one, where no comment is open. -/
theorem skipGap_line_end (inside : Bool) (h : skipGap inside text = []) (more : List Char) :
    skipGap inside (text ++ '\n' :: more) = skipGap false more := by
  fun_induction skipGap inside text with
  | case1 inside => cases inside <;> rfl
  | case2 c rest ih => exact ih h
  | case3 c rest hblank ih =>
    rw [List.cons_append, skipGap, if_pos hblank]
    exact ih h
  | case4 c rest hblank hpercent ih =>
    rw [List.cons_append, skipGap, if_neg hblank, if_pos hpercent]
    exact ih h
  | case5 c rest => cases h

/-! ### Lexemes before the end of a line -/

theorem head?_line_end (text more : List Char) {c : Char} (hc : c ≠ '\n') :
    (text ++ '\n' :: more).head? = some c ↔ text.head? = some c := by
  cases text <;> simp [hc.symm]

theorem nameAhead_line_end : NameAhead (text ++ '\n' :: more) ↔ NameAhead text := by
  cases text with
  | nil => simp [NameAhead]
  | cons c rest =>
    rw [List.cons_append, NameAhead, NameAhead, head?_line_end rest more (by decide),
      head?_line_end rest more (by decide)]

theorem NameRun.line_end (h : NameRun text run rest) (more : List Char) :
    NameRun (text ++ '\n' :: more) run (rest ++ '\n' :: more) where
  split := by rw [h.split, List.append_assoc]
  names passed ahead hrun hne := by
    rw [← List.append_assoc]
    exact nameAhead_line_end.2 (h.names passed ahead hrun hne)
  ends := mt nameAhead_line_end.1 h.ends

variable {sign digits : List Char}

theorem Numeral.line_end (h : Numeral text sign digits rest) (more : List Char) :
    Numeral (text ++ '\n' :: more) sign digits (rest ++ '\n' :: more) where
  split := by rw [h.split, List.append_assoc]
  sign := h.sign
  nonempty := h.nonempty
  digits := h.digits
  longest c hc := by
    by_cases hline : c = '\n'
    · subst hline
      rfl
    · exact h.longest c ((head?_line_end rest more hline).1 hc)
  apart := mt nameAhead_line_end.1 h.apart

/-- No number goes on in the next line. -/
theorem Numeral.of_line_end {after : List Char}
    (h : Numeral (text ++ '\n' :: more) sign digits after) :
    ∃ rest, Numeral text sign digits rest := by
  have within : '\n' ∉ sign ++ digits := by
    intro hmem
    rcases List.mem_append.1 hmem with hsign | hdigit
    · rcases h.sign with hs | hs <;> rw [hs] at hsign <;> simp at hsign
    · exact absurd (h.digits _ hdigit) (by decide)
  rcases List.append_eq_append_iff.1 h.split with ⟨passed, hsplit, hrest⟩ | ⟨rest, hsplit, hrest⟩
  · cases passed with
    | nil =>
      refine ⟨[], by rw [List.append_nil] at hsplit ⊢; exact hsplit.symm, h.sign, h.nonempty, h.digits,
        nofun, id⟩
    | cons c passed =>
      obtain rfl : '\n' = c := (List.cons.inj hrest).1
      exact absurd (hsplit ▸ List.mem_append_right _ List.mem_cons_self) within
  · obtain rfl : after = rest ++ '\n' :: more := hrest
    refine ⟨rest, hsplit, h.sign, h.nonempty, h.digits, fun c hc => h.longest c ?_,
      mt nameAhead_line_end.2 h.apart⟩
    cases rest with
    | nil => cases hc
    | cons d rest => exact hc

/-- **What is read before the end of a line** is read whatever follows. -/
theorem Reads.line_end {v : Value} (h : Reads text (.ok (some (v, rest)))) (more : List Char) :
    Reads (text ++ '\n' :: more) (.ok (some (v, rest ++ '\n' :: more))) := by
  generalize hx : (Except.ok (some (v, rest)) : Except Condition (Option (Value × List Char))) = x at h
  cases h with
  | finished | unterminated | tooLarge => cases hx
  | string h =>
    cases hx
    rw [List.append_assoc, List.cons_append]
    exact .string h
  | delimiter h after =>
    cases hx
    rw [List.append_assoc]
    exact .delimiter h _
  | integer h hn =>
    cases hx
    exact .integer (h.line_end more) hn
  | literalName h =>
    cases hx
    exact .literalName (h.line_end more)
  | name hinteger h hrun =>
    cases hx
    refine .name (fun sign digits after hn => ?_) (h.line_end more) hrun
    obtain ⟨rest, hn⟩ := hn.of_line_end
    exact hinteger sign digits rest hn

/-! ### Joined texts -/

theorem Opens.skipGap_eq (h : Opens text gap rest) : skipGap false text = rest := by
  obtain ⟨gap', h'⟩ := exists_opens text
  exact (h.unique h').2.symm

/-- What a text begins with is there whatever follows. -/
theorem Opens.append (h : Opens text gap rest) (hrest : rest ≠ []) (more : List Char) :
    Opens (text ++ more) gap (rest ++ more) := by
  obtain ⟨gap', h'⟩ := exists_opens (text ++ more)
  rw [skipGap_append false (by rwa [h.skipGap_eq]), h.skipGap_eq] at h'
  have same : gap ++ (rest ++ more) = gap' ++ (rest ++ more) := by
    rw [← h'.split, h.split, List.append_assoc]
  rwa [List.append_cancel_right same]

/-- A text that is a gap goes on with the gap of the next line. -/
theorem Opens.line_end (h : Opens text gap []) (h' : Opens more run rest) :
    Opens (text ++ '\n' :: more) (text ++ '\n' :: run) rest := by
  obtain ⟨joined, h''⟩ := exists_opens (text ++ '\n' :: more)
  rw [skipGap_line_end false h.skipGap_eq, h'.skipGap_eq] at h''
  have same : text ++ '\n' :: run ++ rest = joined ++ rest := by
    rw [← h''.split, h'.split, List.append_assoc, List.cons_append]
  rwa [List.append_cancel_right same]

/-- **Texts that are joined** have the tokens of the first one and then those of the second one. -/
theorem Lexes.joined (h : Lexes n text ts none)
    (h' : Lexes (n + byteLength (text ++ ['\n'])) more us k) :
    Lexes n (text ++ '\n' :: more) (ts ++ us) k := by
  generalize hend : (none : Option Condition) = e at h
  induction h with
  | @finished n text gap hopens =>
    have passed (run : List Char) : n + byteLength (text ++ '\n' :: run) =
        n + byteLength (text ++ ['\n']) + byteLength run := by
      simp only [byteLength_append, byteLength]
      omega
    cases h' with
    | finished hopens' => exact .finished (hopens.line_end hopens')
    | failed hopens' h' => exact .failed (hopens.line_end hopens') h'
    | @token _ _ run lexeme rest v later _ hopens' h' hrest =>
      have begun : Lexes (n + byteLength (text ++ '\n' :: run ++ lexeme)) rest later k := by
        rwa [List.append_assoc, List.cons_append, passed (run ++ lexeme)]
      have joined := Lexes.token (hopens.line_end hopens') h' begun
      rwa [List.append_assoc, List.cons_append, passed run, passed (run ++ lexeme)] at joined
  | failed => cases hend
  | @token n text gap lexeme rest v ts e hopens h hrest ih =>
    have begun : lexeme ++ rest ≠ [] := h.ne_nil
    have opens := hopens.append begun ('\n' :: more)
    have read := h.line_end more
    rw [List.append_assoc] at opens read
    refine .token opens read (ih ?_ hend)
    have passed : n + byteLength (text ++ ['\n']) =
        n + byteLength (gap ++ lexeme) + byteLength (rest ++ ['\n']) := by
      rw [hopens.split]
      simp only [byteLength_append]
      omega
    rwa [← passed]

theorem byteLength_eq (text : List Char) : byteLength text = (String.ofList text).utf8ByteSize := by
  induction text with
  | nil => rfl
  | cons c rest ih =>
    rw [← List.singleton_append, String.ofList_append, String.utf8ByteSize_append, byteLength_append,
      ih]
    congr 1
    simp [byteLength]

end Text

/-! ### The guarantee -/

namespace Token

open Text

variable {source : String} {ts : List Token}

/-- What is read of a text that another one is added to below. -/
theorem lexes_joined {more : String} {us : List Token} {k : Option Condition}
    (h : Lexes 0 source.toList ts none) (h' : Lexes 0 more.toList us k) :
    Lexes 0 (source ++ "\n" ++ more).toList
      (ts ++ us.map (shifted (source.utf8ByteSize + 1))) k := by
  have length : 0 + byteLength (source.toList ++ ['\n']) = 0 + (source.utf8ByteSize + 1) := by
    rw [byteLength_append, byteLength_eq source.toList, String.ofList_toList]
    rfl
  have chars : (source ++ "\n" ++ more).toList = source.toList ++ '\n' :: more.toList := by
    simp
  rw [chars]
  exact h.joined (length ▸ h'.shift (source.utf8ByteSize + 1))

/-- **The tokens of a text cover it.**  Reading one token after the other comes to the end.  The tokens
have places that are not empty, in order, cut where characters begin, and every byte that is outside of
them is in a gap.  When another text is added below, what is read are the same tokens and then those of
that text, moved, and it fails if that text does and for the same condition. -/
theorem all_covers (h : Token.all source = .ok ts) :
    (∃ stop, Follow source 0 ts stop ∧ next source stop = .ok none) ∧
    Covered 0 source.toList ts ∧
    ∀ more : String,
      (∀ us, Token.all more = .ok us → Token.all (source ++ "\n" ++ more) =
        .ok (ts ++ us.map (shifted (source.utf8ByteSize + 1)))) ∧
      ∀ k, (∃ c, Token.all (source ++ "\n" ++ more) = .error c ∧ c.condition = k) ↔
        ∃ c, Token.all more = .error c ∧ c.condition = k := by
  have read : Lexes 0 source.toList ts none := all_eq_ok_iff.1 h
  refine ⟨?_, read.covered, fun more => ?_⟩
  · obtain ⟨stop, follow, ended⟩ := follow_of_lexes [] read
    rw [List.nil_append, String.ofList_toList] at follow ended
    exact ⟨stop, follow, ended⟩
  refine ⟨fun us hus => all_eq_ok_iff.2 (lexes_joined read (all_eq_ok_iff.1 hus)), fun k => ?_⟩
  rw [exists_all_eq_error_iff, exists_all_eq_error_iff]
  constructor
  · rintro ⟨us, hus⟩
    obtain ⟨us', k', h'⟩ := exists_lexes 0 more.toList
    obtain ⟨-, rfl⟩ := hus.unique (lexes_joined read h')
    exact ⟨us', h'⟩
  · rintro ⟨us, hus⟩
    exact ⟨_, lexes_joined read hus⟩

/-- A text that ends in a comment, with a string of two lines in it. -/
theorem all_covers_of_comment :
    Token.all "/\u00e9 \"a\n\"% [" = .ok [⟨.literalName "\u00e9", 0, 3⟩, ⟨.string "a\n", 4, 8⟩] ∧
    Covered 0 "/\u00e9 \"a\n\"% [".toList [⟨.literalName "\u00e9", 0, 3⟩, ⟨.string "a\n", 4, 8⟩] ∧
    Token.all ("/\u00e9 \"a\n\"% [" ++ "\n" ++ "[") =
      .ok [⟨.literalName "\u00e9", 0, 3⟩, ⟨.string "a\n", 4, 8⟩, ⟨.name "[", 12, 13⟩] := by
  have read : Token.all "/\u00e9 \"a\n\"% [" =
      .ok [⟨.literalName "\u00e9", 0, 3⟩, ⟨.string "a\n", 4, 8⟩] := by rfl
  have read' : Token.all "[" = .ok [⟨.name "[", 0, 1⟩] := by rfl
  obtain ⟨-, covered, joined⟩ := all_covers read
  exact ⟨read, covered, (joined "[").1 _ read'⟩

end Token

end StackScript
