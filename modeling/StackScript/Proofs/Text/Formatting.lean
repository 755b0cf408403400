import Mathlib.Data.List.Forall2
import StackScript.Memory.Display
import StackScript.Proofs.Text.Lexing

/-!
# Formatting what has been read

A value that has been read from a text is written in a way that is read as the same value, if a blank
follows or nothing (`Text.Reads.stands`).  So words with blanks between them are read one by one
(`Text.exists_lexes_of_stands`), and formatting the tokens of a text gives one with the same values, which
is formatted as itself (`Token.formatting_is_read_back`).
-/

namespace StackScript

namespace Text

variable {text lexeme run rest sign digits : List Char} {v : Value}

/-! ### Words -/

/-- The characters are a lexeme of their own: if a blank follows or nothing, they are read as the
value. -/
def Stands (lexeme : List Char) (v : Value) : Prop :=
  ∀ rest, (∀ c, rest.head? = some c → c = ' ') → Reads (lexeme ++ rest) (.ok (some (v, rest)))

theorem not_nameAhead_of_blank (hrest : ∀ c, rest.head? = some c → c = ' ') : ¬ NameAhead rest := by
  cases rest with
  | nil => exact id
  | cons c rest =>
    obtain rfl := hrest c rfl
    intro h
    exact h.1 (by decide)

/-- Characters of a name stay what they are before a blank. -/
theorem NameAhead.before_blank {ahead : List Char} (h : NameAhead (ahead ++ text)) (hne : ahead ≠ [])
    (hrest : ∀ c, rest.head? = some c → c = ' ') : NameAhead (ahead ++ rest) := by
  cases ahead with
  | nil => exact absurd rfl hne
  | cons c ahead =>
    cases ahead with
    | cons d ahead => exact h
    | nil =>
      refine ⟨h.1, ?_, ?_⟩
      · rintro ⟨-, hhead⟩
        exact absurd (hrest _ hhead) (by decide)
      · rintro ⟨-, hhead⟩
        exact absurd (hrest _ hhead) (by decide)

theorem NameRun.before_blank {after : List Char} (h : NameRun text run after)
    (hrest : ∀ c, rest.head? = some c → c = ' ') : NameRun (run ++ rest) run rest where
  split := rfl
  names passed ahead hrun hne := (h.names passed ahead hrun hne).before_blank hne hrest
  ends := not_nameAhead_of_blank hrest

/-- A name that would be a number before a blank is one already. -/
theorem NameRun.numeral_of_before_blank {after after' : List Char} (h : NameRun text run after)
    (hrest : ∀ c, rest.head? = some c → c = ' ') (hn : Numeral (run ++ rest) sign digits after') :
    Numeral text sign digits after := by
  have blank : ' ' ∉ sign ++ digits := by
    intro hmem
    rcases List.mem_append.1 hmem with hsign | hdigit
    · rcases hn.sign with hs | hs <;> rw [hs] at hsign <;> simp at hsign
    · exact absurd (hn.digits _ hdigit) (by decide)
  have whole : run = sign ++ digits := by
    rcases List.append_eq_append_iff.1 hn.split with ⟨passed, hpassed, hafter⟩ | ⟨ahead, hrun, hafter⟩
    · -- nothing of what follows is in the number
      cases passed with
      | nil => rw [hpassed, List.append_nil]
      | cons c passed =>
        obtain rfl := hrest c (by rw [hafter]; rfl)
        exact absurd (hpassed ▸ List.mem_append_right _ List.mem_cons_self) blank
    · -- and no name goes on behind it
      by_contra hne
      have hahead : ahead ≠ [] := by
        rintro rfl
        exact hne (by rw [hrun, List.append_nil])
      rw [hafter] at hn
      exact hn.apart ((h.names _ ahead hrun hahead).before_blank hahead hrest)
  refine ⟨by rw [h.split, whole], hn.sign, hn.nonempty, hn.digits, fun c hc => ?_, h.ends⟩
  by_contra hdigit
  refine h.ends ?_
  obtain ⟨tail, rfl⟩ : ∃ tail, after = c :: tail := by
    cases after <;> simp_all
  exact nameAhead_of_sign_or_digit (.inr (by simpa using hdigit)) tail

/-! ### Numbers -/

/-- An integer is written in digits that are read as it. -/
theorem exists_numeral_toString (n : ℤ) (hrest : ∀ c, rest.head? = some c → c = ' ') :
    ∃ sign digits, (toString n).toList = sign ++ digits ∧
      Numeral (sign ++ digits ++ rest) sign digits rest ∧ written sign digits = n := by
  have digits (k : ℕ) : ∀ c ∈ Nat.toDigits 10 k, c.isDigit = true := fun c hc =>
    Nat.isDigit_of_mem_toDigits (by decide) (by decide) hc
  have value (k : ℕ) :
      Nat.ofDigits 10 ((Nat.toDigits 10 k).reverse.map fun c => c.toNat - 48) = k := by
    rw [Nat.ofDigits_eq_foldr, List.map_reverse, List.foldr_reverse, List.foldl_map]
    have read := Nat.ofDigitChars_ten_toDigits (n := k)
    rw [Nat.ofDigitChars_eq_foldl] at read
    simpa [Nat.add_comm] using read
  have longest : ∀ c, rest.head? = some c → c.isDigit = false := by
    intro c hc
    obtain rfl := hrest c hc
    decide
  have apart := not_nameAhead_of_blank hrest
  rw [Int.toString_eq_repr, Int.repr_eq_if]
  by_cases hn : 0 ≤ n
  · refine ⟨[], Nat.toDigits 10 n.toNat, ?_, ⟨rfl, .inl rfl, Nat.toDigits_ne_nil, digits _, longest,
      apart⟩, ?_⟩
    · rw [if_pos hn, Nat.toList_repr, List.nil_append]
    · rw [written, if_pos rfl, value]
      omega
  · refine ⟨['-'], Nat.toDigits 10 (-n).toNat, ?_, ⟨rfl, .inr rfl, Nat.toDigits_ne_nil, digits _,
      longest, apart⟩, ?_⟩
    · rw [if_neg hn, String.toList_append, Nat.toList_repr]
      rfl
    · rw [written, if_neg (List.cons_ne_nil _ _), value]
      omega

/-! ### Strings -/

/-- What has been escaped spells the text. -/
theorem spells_escape (s : List Char) : Spells (escape s) s := by
  fun_induction escape s with
  | case1 => exact .nil
  | case2 rest ih | case3 rest ih => exact .escaped (by decide) (by decide) ih
  | case4 rest ih => exact .newline ih
  | case5 rest ih => exact .tab ih
  | case6 c rest hquote hescape _ _ ih =>
    exact .plain (by simpa using hquote) (by simpa using hescape) ih

/-! ### Values that have been read -/

/-- Every integer is written as a word. -/
theorem stands_integer (n : Word) : Stands (Value.integer n).datum.text.toList (.integer n) := by
  intro rest hrest
  obtain ⟨sign, digits, hwritten, numeral, hvalue⟩ := exists_numeral_toString n.toInt hrest
  rw [show (Value.integer n).datum.text.toList = sign ++ digits from hwritten]
  exact .integer numeral hvalue.symm

/-- Every string is written as a word. -/
theorem stands_string (s : String) : Stands (Value.string s).datum.text.toList (.string s) := by
  intro rest _
  have written : (Value.string s).datum.text.toList = '"' :: escape s.toList ++ ['"'] := by
    simp [Value.string, Datum.text]
  rw [written, List.append_assoc]
  have read : Reads ('"' :: escape s.toList ++ '"' :: rest) _ := .string (spells_escape s.toList)
  rwa [String.ofList_toList] at read

/-- **What has been read is written as a word.** -/
theorem Reads.stands {after : List Char} (h : Reads text (.ok (some (v, after)))) :
    Stands v.datum.text.toList v := by
  generalize hx : (Except.ok (some (v, after)) : Except Condition (Option (Value × List Char))) = x at h
  cases h with
  | finished | unterminated | tooLarge => cases hx
  | string =>
    cases hx
    exact stands_string _
  | integer =>
    cases hx
    exact stands_integer _
  | @delimiter mark h after =>
    cases hx
    intro rest _
    rw [show (Value.name (String.ofList mark)).datum.text.toList = mark from String.toList_ofList]
    exact .delimiter h rest
  | @literalName tail run after h =>
    cases hx
    intro rest hrest
    have written : (Value.literalName (String.ofList run)).datum.text.toList = '/' :: run := by
      simp [Value.literalName, Datum.text]
    rw [written]
    exact .literalName (h.before_blank hrest)
  | @name _ run after hinteger h hrun =>
    cases hx
    intro rest hrest
    rw [show (Value.name (String.ofList run)).datum.text.toList = run from String.toList_ofList]
    refine .name (fun sign digits after' hn => ?_) (h.before_blank hrest) hrun
    exact hinteger sign digits after (h.numeral_of_before_blank hrest hn)

/-- No gap begins where something is read. -/
theorem Reads.not_mem {x : Value × List Char} (h : Reads text (.ok (some x))) :
    ∀ c, text.head? = some c → c ∉ [' ', '\t', '\r', '\n', '%'] := by
  have ahead {text : List Char} (h : NameAhead text) :
      ∀ c, text.head? = some c → c ∉ [' ', '\t', '\r', '\n', '%'] := by
    intro c hc hmem
    cases text with
    | nil => cases hc
    | cons d tail =>
      obtain rfl := Option.some.inj hc
      exact h.1 (by simp only [List.mem_cons, List.not_mem_nil, or_false] at hmem ⊢; tauto)
  generalize hx : (Except.ok (some x) : Except Condition (Option (Value × List Char))) = y at h
  cases h with
  | finished | unterminated | tooLarge => cases hx
  | string | literalName =>
    intro c hc
    obtain rfl := Option.some.inj hc
    decide
  | @delimiter mark h after =>
    simp only [delimiters, List.mem_cons, List.not_mem_nil, or_false] at h
    intro c hc
    obtain rfl | rfl | rfl | rfl | rfl | rfl := h <;> obtain rfl := Option.some.inj hc <;> decide
  | integer h => exact ahead h.ahead
  | @name _ run after _ h hrun =>
    refine ahead ?_
    rw [h.split]
    exact h.names [] run rfl hrun

/-- A gap of one blank, or of none. -/
theorem opens_of_reads {x : Value × List Char} (h : Reads text (.ok (some x))) :
    Opens text [] text ∧ Opens (' ' :: text) [' '] text := by
  have skipped : skipGap false text = text := by
    cases text with
    | nil => rfl
    | cons c tail =>
      have hc := h.not_mem c rfl
      have hblank : isBlank c = false := by
        rw [Bool.eq_false_iff, ne_eq, isBlank_iff]
        simp only [List.mem_cons, List.not_mem_nil, or_false] at hc ⊢
        tauto
      have hpercent : (c == '%') = false := by
        simp only [List.mem_cons, List.not_mem_nil, or_false] at hc
        simp only [beq_eq_false_iff_ne]
        tauto
      simp [skipGap, hblank, hpercent]
  obtain ⟨gap, opens⟩ := exists_opens text
  obtain ⟨gap', opens'⟩ := exists_opens (' ' :: text)
  rw [skipped] at opens
  rw [show skipGap false (' ' :: text) = skipGap false text from rfl, skipped] at opens'
  have none : gap = [] := List.append_cancel_right (show gap ++ text = [] ++ text from opens.split.symm)
  have one : gap' = [' '] :=
    List.append_cancel_right (show gap' ++ text = [' '] ++ text from opens'.split.symm)
  exact ⟨none ▸ opens, one ▸ opens'⟩

/-! ### Words one after the other -/

/-- Words that follow something, each after a blank. -/
theorem exists_lexes_after {words : List (List Char)} {values : List Value}
    (h : List.Forall₂ Stands words values) (n : ℕ) :
    ∃ ts, Lexes n (words.flatMap (' ' :: ·)) ts none ∧ ts.map Token.value = values := by
  induction h generalizing n with
  | nil =>
    obtain ⟨gap, hopens⟩ := exists_opens []
    exact ⟨[], .finished hopens, rfl⟩
  | @cons word v words values hword _ ih =>
    have blank : ∀ c, (words.flatMap (' ' :: ·)).head? = some c → c = ' ' := by
      cases words <;> simp_all
    have read := hword _ blank
    obtain ⟨ts, hts, hvalues⟩ := ih (n + byteLength ([' '] ++ word))
    exact ⟨_, .token (opens_of_reads read).2 read hts, congrArg (v :: ·) hvalues⟩

theorem intercalate_cons (word : List Char) (words : List (List Char)) :
    [' '].intercalate (word :: words) = word ++ words.flatMap (' ' :: ·) := by
  induction words generalizing word with
  | nil => simp [List.intercalate]
  | cons next words ih =>
    have step : [' '].intercalate (word :: next :: words) =
        word ++ ' ' :: [' '].intercalate (next :: words) := by
      simp [List.intercalate]
    rw [step, ih, List.flatMap_cons, List.cons_append]

/-- **Words with blanks between them** are read one by one. -/
theorem exists_lexes_of_stands {words : List (List Char)} {values : List Value}
    (h : List.Forall₂ Stands words values) (n : ℕ) :
    ∃ ts, Lexes n ([' '].intercalate words) ts none ∧ ts.map Token.value = values := by
  cases h with
  | nil => exact exists_lexes_after .nil n
  | @cons word v words values hword hwords =>
    rw [intercalate_cons]
    have blank : ∀ c, (words.flatMap (' ' :: ·)).head? = some c → c = ' ' := by
      cases words <;> simp_all
    have read := hword _ blank
    obtain ⟨ts, hts, hvalues⟩ := exists_lexes_after hwords (n + byteLength ([] ++ word))
    exact ⟨_, .token (opens_of_reads read).1 read hts, congrArg (v :: ·) hvalues⟩

/-- The tokens of a text are written as words. -/
theorem Lexes.stands {n : ℕ} {ts : List Token} {k : Option Condition} (h : Lexes n text ts k) :
    List.Forall₂ Stands ((ts.map Token.value).map fun v => v.datum.text.toList)
      (ts.map Token.value) := by
  induction h with
  | finished | failed => exact .nil
  | token _ h _ ih => exact .cons h.stands ih

end Text

/-! ### Formatting -/

namespace Memory

variable {m : Memory}

/-- A value that is no container is written as its datum. -/
theorem format_of_handle?_none {v : Value} (h : v.handle? = none) :
    m.format v = .ok v.datum.text := by
  unfold format
  rw [maxDepth, formatTo]
  unfold Value.handle? at h
  split <;> simp_all [pure, Except.pure]

theorem formatAll_of_handle?_none {values : List Value} (h : ∀ v ∈ values, v.handle? = none) :
    m.formatAll values = .ok (" ".intercalate (values.map fun v => v.datum.text)) := by
  have each : values.mapM m.format = .ok (values.map fun v => v.datum.text) := by
    induction values with
    | nil => rfl
    | cons v values ih =>
      obtain ⟨hv, hvalues⟩ := List.forall_mem_cons.1 h
      rw [List.mapM_cons, format_of_handle?_none hv, ih hvalues]
      rfl
  rw [formatAll, each]
  rfl

end Memory

namespace Token

open Text

variable {source : String} {ts : List Token}

/-- **Formatting tokens and reading them again** gives the same values, and formatting these gives the
same text.  Reading the characters of a string undoes escaping them. -/
theorem formatting_is_read_back (m : Memory) (h : Token.all source = .ok ts) :
    (∃ text us, m.formatAll (ts.map Token.value) = .ok text ∧ Token.all text = .ok us ∧
      us.map Token.value = ts.map Token.value ∧ m.formatAll (us.map Token.value) = .ok text) ∧
    ∀ s : List Char, unescape (escape s) = s := by
  refine ⟨?_, unescape_escape⟩
  have read : Lexes 0 source.toList ts none := all_eq_ok_iff.1 h
  have formatted := m.formatAll_of_handle?_none (List.forall_mem_map.2 read.handle?_eq_none)
  obtain ⟨us, read', same⟩ := exists_lexes_of_stands read.stands 0
  refine ⟨_, us, formatted, all_eq_ok_iff.2 ?_, same, by rw [same, formatted]⟩
  rwa [String.toList_intercalate, List.map_map]

/-- An empty name, a string with a quote and a line break, and what is almost a number. -/
theorem formatting_is_read_back_of_escapes :
    Token.all "/\"a\\\"\r\n\"\x7b-07<x" = .ok [⟨.literalName "", 0, 1⟩, ⟨.string "a\"\r\n", 1, 8⟩,
      ⟨.name "\x7b", 8, 9⟩, ⟨.name "-07<x", 9, 14⟩] ∧
    ∃ text us, (Memory.empty none false).formatAll
        [.literalName "", .string "a\"\r\n", .name "\x7b", .name "-07<x"] = .ok text ∧
      text = "/ \"a\\\"\r\\n\" \x7b -07<x" ∧ Token.all text = .ok us ∧ us.map Token.value =
        [.literalName "", .string "a\"\r\n", .name "\x7b", .name "-07<x"] := by
  have read : Token.all "/\"a\\\"\r\n\"\x7b-07<x" = .ok [⟨.literalName "", 0, 1⟩,
      ⟨.string "a\"\r\n", 1, 8⟩, ⟨.name "\x7b", 8, 9⟩, ⟨.name "-07<x", 9, 14⟩] := by rfl
  obtain ⟨⟨text, us, formatted, read', same, -⟩, -⟩ :=
    formatting_is_read_back (Memory.empty none false) read
  exact ⟨read, text, us, formatted, (Except.ok.inj formatted).symm.trans (by decide +kernel), read', same⟩

end Token

end StackScript
