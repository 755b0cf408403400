import Mathlib.Data.Nat.Digits.Defs
import StackScript.Proofs.Text.Cursor

/-!
# The lexical grammar

What a text may begin with, said without a reader: gaps are runs of blanks and comments, and after
the longest gap comes a string, a delimiter, an integer, a literal name or a name, the first of these
that fits (`Text.Reads`).

Reading follows the grammar (`Token.next_follows_grammar`): every text is in one case only, and the
token covers the bytes of its lexeme.
-/

namespace StackScript

namespace Text

/-! ### Gaps -/

/-- Runs of blanks and comments; a comment has no line break. -/
inductive Gap : List Char → Prop
  | nil : Gap []
  | blank {c : Char} {rest : List Char} (hc : c ∈ [' ', '\t', '\r', '\n']) (h : Gap rest) :
    Gap (c :: rest)
  | comment {line rest : List Char} (hline : '\n' ∉ line) (h : Gap rest) :
    Gap ('%' :: line ++ rest)

/-- The longest gap a text begins with, and what follows it. -/
structure Opens (text gap rest : List Char) : Prop where
  split : text = gap ++ rest
  isGap : Gap gap
  longest : ∀ other rest', text = other ++ rest' → Gap other → other.length ≤ gap.length

theorem isBlank_iff {c : Char} : isBlank c = true ↔ c ∈ [' ', '\t', '\r', '\n'] := by
  simp [isBlank, or_assoc]

theorem skipGap_line {line : List Char} (hline : '\n' ∉ line) (rest : List Char) :
    skipGap true (line ++ rest) = skipGap true rest := by
  induction line with
  | nil => rfl
  | cons c line ih =>
    have hc : c ≠ '\n' := fun h => hline (h ▸ List.mem_cons_self)
    simp only [List.cons_append, skipGap, bne_iff_ne.2 hc]
    exact ih fun h => hline (List.mem_cons_of_mem c h)

/-- Skipping leaves nothing of a gap, whether it begins inside of a comment or not. -/
theorem exists_skipGap_append {gap : List Char} (h : Gap gap) (rest : List Char) (inside : Bool) :
    ∃ inside', skipGap inside (gap ++ rest) = skipGap inside' rest := by
  induction h generalizing inside with
  | nil => exact ⟨inside, rfl⟩
  | @blank c gap hc _ ih =>
    cases inside with
    | true => exact ih (c != '\n')
    | false =>
      rw [List.cons_append, skipGap, if_pos (isBlank_iff.2 hc)]
      exact ih false
  | @comment line gap hline _ ih =>
    have within : skipGap inside ('%' :: line ++ gap ++ rest) = skipGap true (gap ++ rest) := by
      rw [List.append_assoc]
      cases inside <;> simp [skipGap, isBlank, skipGap_line hline]
    rw [within]
    exact ih true

/-- What is skipped is a gap, or the rest of a comment and a gap. -/
theorem exists_skipped (inside : Bool) (text : List Char) :
    ∃ line gap, text = line ++ gap ++ skipGap inside text ∧ '\n' ∉ line ∧ Gap gap ∧
      (inside = false → line = []) := by
  fun_induction skipGap inside text with
  | case1 inside => exact ⟨[], [], rfl, List.not_mem_nil, .nil, fun _ => rfl⟩
  | case2 c rest ih =>
    obtain ⟨line, gap, hrest, hline, hgap, hout⟩ := ih
    by_cases hc : c = '\n'
    · subst hc
      obtain rfl := hout (by decide)
      exact ⟨[], '\n' :: gap, by simpa using hrest, List.not_mem_nil, .blank (by decide) hgap, by simp⟩
    · refine ⟨c :: line, gap, congrArg (c :: ·) hrest, ?_, hgap, by simp⟩
      simpa [Ne.symm hc] using hline
  | case3 c rest hblank ih =>
    obtain ⟨line, gap, hrest, -, hgap, hout⟩ := ih
    obtain rfl := hout rfl
    exact ⟨[], c :: gap, congrArg (c :: ·) hrest, List.not_mem_nil, .blank (isBlank_iff.1 hblank) hgap,
      fun _ => rfl⟩
  | case4 c rest _ hpercent ih =>
    obtain ⟨line, gap, hrest, hline, hgap, -⟩ := ih
    obtain rfl : c = '%' := by simpa using hpercent
    exact ⟨[], '%' :: line ++ gap, by simpa using hrest, List.not_mem_nil, .comment hline hgap,
      fun _ => rfl⟩
  | case5 c rest => exact ⟨[], [], rfl, List.not_mem_nil, .nil, fun _ => rfl⟩

/-- **Skipping a gap** skips the longest one. -/
theorem exists_opens (text : List Char) : ∃ gap, Opens text gap (skipGap false text) := by
  obtain ⟨line, gap, htext, -, hgap, hout⟩ := exists_skipped false text
  obtain rfl := hout rfl
  rw [List.nil_append] at htext
  refine ⟨gap, htext, hgap, fun other rest hother isGap => ?_⟩
  obtain ⟨inside, hskip⟩ := exists_skipGap_append isGap rest false
  have short : (skipGap false text).length ≤ rest.length := by
    rw [hother, hskip]
    exact length_skipGap_le inside rest
  have h := congrArg List.length htext
  have h' := congrArg List.length hother
  simp only [List.length_append] at h h'
  omega

theorem Opens.unique {text gap gap' rest rest' : List Char} (h : Opens text gap rest)
    (h' : Opens text gap' rest') : gap = gap' ∧ rest = rest' := by
  have length := le_antisymm (h'.longest gap rest h.split h.isGap)
    (h.longest gap' rest' h'.split h'.isGap)
  exact List.append_inj (h.split.symm.trans h'.split) length

/-- No gap begins where the longest one ends. -/
theorem Opens.not_mem {text gap rest : List Char} (h : Opens text gap rest) :
    ∀ c, rest.head? = some c → c ∉ [' ', '\t', '\r', '\n', '%'] := by
  obtain ⟨gap', h'⟩ := exists_opens text
  obtain ⟨-, rfl⟩ := h.unique h'
  have stops (inside : Bool) (text : List Char) (c : Char)
      (hc : (skipGap inside text).head? = some c) : isBlank c = false ∧ c ≠ '%' := by
    fun_induction skipGap inside text with
    | case1 => cases hc
    | case2 _ _ ih | case3 _ _ _ ih | case4 _ _ _ _ ih => exact ih hc
    | case5 d rest hblank hpercent =>
      obtain rfl : d = c := Option.some.inj hc
      exact ⟨Bool.eq_false_iff.2 hblank, by simpa using hpercent⟩
  intro c hc hmem
  obtain ⟨hblank, hpercent⟩ := stops false text c hc
  have hnot : c ∉ [' ', '\t', '\r', '\n'] := fun h => by simp [isBlank_iff.2 h] at hblank
  simp only [List.mem_cons, List.not_mem_nil, or_false, not_or] at hmem hnot
  tauto

/-! ### Names -/

/-- The text begins with a character of a name. -/
def NameAhead : List Char → Prop
  | [] => False
  | c :: rest => c ∉ [' ', '\t', '\r', '\n', '%', '"', '/', '[', ']', '\x7b', '\x7d'] ∧
    ¬ (c = '<' ∧ rest.head? = some '<') ∧ ¬ (c = '>' ∧ rest.head? = some '>')

/-- The longest run of characters of a name a text begins with, and what follows it. -/
structure NameRun (text run rest : List Char) : Prop where
  split : text = run ++ rest
  names : ∀ passed ahead, run = passed ++ ahead → ahead ≠ [] → NameAhead (ahead ++ rest)
  ends : ¬ NameAhead rest

theorem startsName_iff {text : List Char} : startsName text = true ↔ NameAhead text := by
  cases text with
  | nil => simp [startsName, NameAhead]
  | cons c rest =>
    have special : isSpecial c = true ↔
        c ∈ [' ', '\t', '\r', '\n', '%', '"', '/', '[', ']', '\x7b', '\x7d'] := by
      simp [isSpecial, isBlank, or_assoc]
    simp only [startsName, NameAhead, Bool.and_eq_true, Bool.not_eq_true', ← special,
      Bool.not_eq_true]
    grind

theorem nameRun_spanName (text : List Char) : NameRun text (spanName text).1 (spanName text).2 := by
  fun_induction spanName text with
  | case1 => exact ⟨rfl, fun _ ahead h hne => absurd (List.append_eq_nil_iff.1 h.symm).2 hne, id⟩
  | case2 c rest hstarts ih =>
    refine ⟨congrArg (c :: ·) ih.split, fun passed ahead h hne => ?_, ih.ends⟩
    cases passed with
    | nil =>
      obtain rfl : c :: (spanName rest).1 = ahead := h
      rw [List.cons_append, ← ih.split]
      exact startsName_iff.1 hstarts
    | cons a passed => exact ih.names passed ahead (List.cons.inj h).2 hne
  | case3 c rest hstarts =>
    exact ⟨rfl, fun _ ahead h hne => absurd (List.append_eq_nil_iff.1 h.symm).2 hne,
      fun h => hstarts (startsName_iff.2 h)⟩

theorem NameRun.cons {c : Char} {text run rest : List Char} (h : NameRun (c :: text) (c :: run) rest) :
    NameRun text run rest where
  split := (List.cons.inj h.split).2
  names passed ahead hrun hne := h.names (c :: passed) ahead (by rw [hrun, List.cons_append]) hne
  ends := h.ends

theorem NameRun.eq_spanName {text run rest : List Char} (h : NameRun text run rest) :
    spanName text = (run, rest) := by
  induction run generalizing text with
  | nil =>
    obtain rfl : text = rest := h.split
    have hends := mt startsName_iff.1 h.ends
    cases text with
    | nil => rfl
    | cons c text => rw [spanName, if_neg hends]
  | cons c run ih =>
    obtain ⟨text, rfl⟩ : ∃ tail, text = c :: tail := ⟨run ++ rest, h.split⟩
    have ahead := h.names [] (c :: run) rfl (List.cons_ne_nil c run)
    rw [← h.split] at ahead
    rw [spanName, if_pos (startsName_iff.2 ahead), ih h.cons]

/-! ### Integers -/

/-- An integer a text begins with: a sign or none, the longest run of digits, and then no character
of a name. -/
structure Numeral (text sign digits rest : List Char) : Prop where
  split : text = sign ++ digits ++ rest
  sign : sign = [] ∨ sign = ['-']
  nonempty : digits ≠ []
  digits : ∀ c ∈ digits, c.isDigit = true
  longest : ∀ c, rest.head? = some c → c.isDigit = false
  apart : ¬ NameAhead rest

/-- The integer that is written so. -/
def written (sign digits : List Char) : ℤ :=
  (if sign = [] then 1 else -1) *
    (Nat.ofDigits 10 (digits.reverse.map fun c => c.toNat - 48) : ℕ)

theorem takeWhile_digits {digits rest : List Char} (hd : ∀ c ∈ digits, c.isDigit = true)
    (hl : ∀ c, rest.head? = some c → c.isDigit = false) :
    (digits ++ rest).takeWhile Char.isDigit = digits ∧
      (digits ++ rest).dropWhile Char.isDigit = rest := by
  rw [List.takeWhile_append_of_pos hd, List.dropWhile_append_of_pos hd]
  cases rest with
  | nil => simp
  | cons c rest => simp [hl c rfl]

theorem ne_minus_of_isDigit {c : Char} (h : c.isDigit = true) : c ≠ '-' := by
  rintro rfl
  exact absurd h (by decide)

theorem Numeral.splitSign {text sign digits rest : List Char} (h : Numeral text sign digits rest) :
    Text.splitSign text = (sign, digits ++ rest) := by
  rcases h.sign with rfl | rfl
  · obtain ⟨c, tail, rfl⟩ := List.exists_cons_of_ne_nil h.nonempty
    have hc : c ≠ '-' := ne_minus_of_isDigit (h.digits c List.mem_cons_self)
    rw [h.split]
    simp [Text.splitSign, hc]
  · rw [h.split]
    rfl

theorem Numeral.integer? {text sign digits rest : List Char} (h : Numeral text sign digits rest) :
    Text.integer? text = some (sign ++ digits, rest) := by
  obtain ⟨htake, hdrop⟩ := takeWhile_digits h.digits h.longest
  have apart : startsName rest = false := Bool.eq_false_iff.2 (mt startsName_iff.1 h.apart)
  simp only [Text.integer?, h.splitSign, htake, hdrop, apart, Bool.or_false, List.isEmpty_iff,
    if_neg h.nonempty]

theorem exists_numeral {text written rest : List Char} (h : integer? text = some (written, rest)) :
    ∃ sign digits, written = sign ++ digits ∧ Numeral text sign digits rest := by
  have signed : text = (splitSign text).1 ++ (splitSign text).2 ∧
      ((splitSign text).1 = [] ∨ (splitSign text).1 = ['-']) := by
    unfold splitSign
    split
    · exact ⟨rfl, .inr rfl⟩
    · exact ⟨rfl, .inl rfl⟩
  simp only [integer?] at h
  split at h
  · cases h
  · rename_i hok
    cases h
    simp only [Bool.or_eq_true, List.isEmpty_iff, not_or, Bool.not_eq_true] at hok
    refine ⟨_, _, rfl, ?_, signed.2, hok.1, fun c hc => ?_, fun c hc => ?_, fun h => ?_⟩
    · rw [List.append_assoc, List.takeWhile_append_dropWhile]
      exact signed.1
    · simpa using List.all_eq_true.1 List.all_takeWhile c hc
    · simpa [List.head?_dropWhile_not, hc] using List.head?_dropWhile_not Char.isDigit (splitSign text).2
    · exact absurd (startsName_iff.2 h) (by simp [hok.2])

/-- Reading the digits gives what is written. -/
theorem Numeral.readDecimal {text sign digits rest : List Char} (h : Numeral text sign digits rest) :
    Word.readDecimal (sign ++ digits) = written sign digits := by
  have kept : digits.filter Char.isDigit = digits := List.filter_eq_self.2 h.digits
  have folded : digits.foldl (fun n c => 10 * n + (c.toNat - 48)) 0 =
      Nat.ofDigits 10 (digits.reverse.map fun c => c.toNat - 48) := by
    rw [Nat.ofDigits_eq_foldr, List.map_reverse, List.foldr_reverse, List.foldl_map]
    simp [Nat.add_comm]
  rcases h.sign with rfl | rfl
  · obtain ⟨c, tail, rfl⟩ := List.exists_cons_of_ne_nil h.nonempty
    have hc : c ≠ '-' := ne_minus_of_isDigit (h.digits c List.mem_cons_self)
    simp only [Word.readDecimal, written, List.nil_append, kept, folded, List.head?_cons]
    rw [if_neg fun h => hc (Option.some.inj h), if_pos trivial, one_mul]
  · have filtered : (['-'] ++ digits).filter Char.isDigit = digits := by
      simpa [show Char.isDigit '-' = false by decide] using kept
    simp only [Word.readDecimal, written, filtered, folded]
    rw [if_pos (show (['-'] ++ digits).head? = some '-' from rfl), if_neg (List.cons_ne_nil '-' []),
      neg_one_mul]

/-! ### Strings -/

/-- What may stand between two quotes, and the text it spells. -/
inductive Spells : List Char → List Char → Prop
  | nil : Spells [] []
  | plain {c : Char} {content text : List Char} (hquote : c ≠ '"') (hescape : c ≠ '\\')
    (h : Spells content text) : Spells (c :: content) (c :: text)
  | newline {content text : List Char} (h : Spells content text) :
    Spells ('\\' :: 'n' :: content) ('\n' :: text)
  | tab {content text : List Char} (h : Spells content text) :
    Spells ('\\' :: 't' :: content) ('\t' :: text)
  | escaped {c : Char} {content text : List Char} (hn : c ≠ 'n') (ht : c ≠ 't')
    (h : Spells content text) : Spells ('\\' :: c :: content) (c :: text)

theorem spanString_escape (c : Char) (rest : List Char) :
    spanString ('\\' :: c :: rest) = (spanString rest).map fun p => ('\\' :: c :: p.1, p.2) := by
  rw [spanString]

theorem spanString_plain {c : Char} (hquote : c ≠ '"') (hescape : c ≠ '\\') (rest : List Char) :
    spanString (c :: rest) = (spanString rest).map fun p => (c :: p.1, p.2) := by
  rw [spanString] <;> simp_all

theorem Spells.spanString {content text : List Char} (h : Spells content text) (after : List Char) :
    Text.spanString (content ++ '"' :: after) = some (content, after) := by
  induction h with
  | nil => simp [Text.spanString]
  | plain hquote hescape _ ih =>
    rw [List.cons_append, spanString_plain hquote hescape, ih, Option.map_some]
  | newline _ ih | tab _ ih | escaped _ _ _ ih =>
    rw [List.cons_append, List.cons_append, spanString_escape, ih, Option.map_some]

theorem Spells.unescape {content text : List Char} (h : Spells content text) :
    Text.unescape content = text := by
  induction h with
  | nil => rfl
  | plain _ hescape _ ih => rw [unescape_cons hescape, ih]
  | newline _ ih | tab _ ih => rw [Text.unescape, ih]; rfl
  | @escaped c _ _ hn ht _ ih =>
    have same : unescapeChar c = c := by
      unfold unescapeChar
      split <;> simp_all
    rw [Text.unescape, ih, same]

theorem spells_of_spanString {rest content after : List Char}
    (h : spanString rest = some (content, after)) :
    rest = content ++ '"' :: after ∧ ∃ text, Spells content text := by
  fun_induction Text.spanString rest generalizing content with
  | case1 | case3 => cases h
  | case2 rest =>
    cases h
    exact ⟨rfl, [], .nil⟩
  | case4 c rest ih =>
    obtain ⟨⟨inner, tail⟩, hinner, hpair⟩ := Option.map_eq_some_iff.1 h
    cases hpair
    obtain ⟨rfl, text, hspells⟩ := ih hinner
    refine ⟨rfl, ?_⟩
    by_cases hn : c = 'n'
    · exact ⟨_, hn ▸ hspells.newline⟩
    · by_cases ht : c = 't'
      · exact ⟨_, ht ▸ hspells.tab⟩
      · exact ⟨_, hspells.escaped hn ht⟩
  | case5 c rest hquote hlast hescape ih =>
    obtain ⟨⟨inner, tail⟩, hinner, hpair⟩ := Option.map_eq_some_iff.1 h
    cases hpair
    obtain ⟨rfl, text, hspells⟩ := ih hinner
    have hescape : c ≠ '\\' := by
      rintro rfl
      cases inner with
      | nil => exact hescape '"' tail rfl rfl
      | cons d inner => exact hescape d _ rfl rfl
    exact ⟨rfl, _, hspells.plain hquote hescape⟩

/-! ### What is read -/

/-- The delimiters. -/
def delimiters : List (List Char) := [['['], [']'], ['\x7b'], ['\x7d'], ['<', '<'], ['>', '>']]

/-- What is read at the start of a text that no gap begins, and what is left then: the value of a
lexeme, nothing at the end, or a failure. -/
inductive Reads : List Char → Except Condition (Option (Value × List Char)) → Prop
  | finished : Reads [] (.ok none)
  | string {content text rest : List Char} (h : Spells content text) :
    Reads ('"' :: content ++ '"' :: rest) (.ok (some (.string (String.ofList text), rest)))
  | unterminated {tail : List Char}
    (h : ∀ content text rest, Spells content text → tail ≠ content ++ '"' :: rest) :
    Reads ('"' :: tail) (.error .undefinedResult)
  | delimiter {mark : List Char} (h : mark ∈ delimiters) (rest : List Char) :
    Reads (mark ++ rest) (.ok (some (.name (String.ofList mark), rest)))
  | integer {text sign digits rest : List Char} (h : Numeral text sign digits rest) {n : Word}
    (hn : n.toInt = written sign digits) : Reads text (.ok (some (.integer n, rest)))
  | tooLarge {text sign digits rest : List Char} (h : Numeral text sign digits rest)
    (hn : written sign digits < -2 ^ 63 ∨ 2 ^ 63 ≤ written sign digits) :
    Reads text (.error .limitCheck)
  | literalName {text run rest : List Char} (h : NameRun text run rest) :
    Reads ('/' :: text) (.ok (some (.literalName (String.ofList run), rest)))
  | name {text run rest : List Char} (hinteger : ∀ sign digits rest, ¬ Numeral text sign digits rest)
    (h : NameRun text run rest) (hrun : run ≠ []) :
    Reads text (.ok (some (.name (String.ofList run), rest)))

/-- What comes of a scan. -/
def Scan.reading : Scan → Except Condition (Option (Value × List Char))
  | .finished => .ok none
  | .unterminated => .error .undefinedResult
  | .found lexeme rest =>
    match Token.valueOf lexeme with
    | .ok v => .ok (some (v, rest))
    | .error c => .error c.condition

/-- A word is the one integer it stands for. -/
theorem ofInt_of_toInt {n : Word} {i : ℤ} (h : n.toInt = i) : Word.ofInt? i = some n := by
  subst h
  have range : -9223372036854775808 ≤ n.toInt ∧ n.toInt ≤ 9223372036854775807 :=
    ⟨n.bits.le_toInt, n.bits.toInt_le⟩
  rw [Word.ofInt?, if_pos range]
  exact congrArg some (by simp [Word.ofInt, Word.toInt])

theorem reading_integer {text sign digits rest : List Char} (h : Numeral text sign digits rest) :
    (Scan.found (.integer (sign ++ digits)) rest).reading =
      match Word.ofInt? (written sign digits) with
      | some n => .ok (some (.integer n, rest))
      | none => .error .limitCheck := by
  simp only [Scan.reading, Token.valueOf, h.readDecimal]
  cases Word.ofInt? (written sign digits) <;> rfl

theorem delimiter_of_mem {mark : List Char} (h : mark ∈ delimiters) (rest : List Char) :
    delimiter? (mark ++ rest) = some (mark, rest) := by
  simp only [delimiters, List.mem_cons, List.not_mem_nil, or_false] at h
  obtain rfl | rfl | rfl | rfl | rfl | rfl := h <;> rfl

theorem mem_delimiters {text mark after : List Char} (h : delimiter? text = some (mark, after)) :
    mark ∈ delimiters ∧ text = mark ++ after := by
  unfold delimiter? at h
  split at h <;> cases h <;> exact ⟨by decide, rfl⟩

theorem delimiter_eq_none_of_ahead {text : List Char} (h : NameAhead text) :
    delimiter? text = none := by
  cases hd : delimiter? text with
  | none => rfl
  | some p =>
    obtain ⟨hmark, rfl⟩ := mem_delimiters hd
    simp only [delimiters, List.mem_cons, List.not_mem_nil, or_false] at hmark
    obtain hm | hm | hm | hm | hm | hm := hmark <;> rw [hm] at h <;> simp [NameAhead] at h

theorem ahead_of_delimiter_eq_none {c : Char} {tail : List Char}
    (hc : c ∉ [' ', '\t', '\r', '\n', '%', '"', '/']) (h : delimiter? (c :: tail) = none) :
    NameAhead (c :: tail) := by
  have apart (mark rest : List Char) (hmark : mark ∈ delimiters) : c :: tail ≠ mark ++ rest := by
    intro htext
    rw [htext, delimiter_of_mem hmark] at h
    cases h
  refine ⟨fun hmem => ?_, ?_, ?_⟩
  · simp only [List.mem_cons, List.not_mem_nil, or_false] at hmem
    have special : [c] ∈ delimiters := by
      obtain rfl | rfl | rfl | rfl | rfl | rfl | rfl | rfl | rfl | rfl | rfl := hmem <;>
        first | decide | exact absurd hc (by decide)
    exact apart [c] tail special rfl
  · rintro ⟨rfl, hhead⟩
    obtain ⟨d, rest, rfl⟩ : ∃ d rest, tail = d :: rest := by
      cases tail <;> simp at hhead ⊢
    obtain rfl := Option.some.inj hhead
    exact apart ['<', '<'] rest (by decide) rfl
  · rintro ⟨rfl, hhead⟩
    obtain ⟨d, rest, rfl⟩ : ∃ d rest, tail = d :: rest := by
      cases tail <;> simp at hhead ⊢
    obtain rfl := Option.some.inj hhead
    exact apart ['>', '>'] rest (by decide) rfl

/-- A sign or a digit is a character of a name. -/
theorem nameAhead_of_sign_or_digit {c : Char} (hc : c = '-' ∨ c.isDigit = true) (tail : List Char) :
    NameAhead (c :: tail) := by
  refine ⟨fun hmem => ?_, ?_, ?_⟩
  · simp only [List.mem_cons, List.not_mem_nil, or_false] at hmem
    obtain rfl | rfl | rfl | rfl | rfl | rfl | rfl | rfl | rfl | rfl | rfl := hmem <;>
      exact absurd hc (by decide)
  · rintro ⟨rfl, -⟩
    exact absurd hc (by decide)
  · rintro ⟨rfl, -⟩
    exact absurd hc (by decide)

theorem Numeral.ahead {text sign digits rest : List Char} (h : Numeral text sign digits rest) :
    NameAhead text := by
  obtain ⟨c, tail, rfl⟩ := List.exists_cons_of_ne_nil h.nonempty
  rw [h.split]
  rcases h.sign with rfl | rfl
  · exact nameAhead_of_sign_or_digit (.inr (h.digits c List.mem_cons_self)) _
  · exact nameAhead_of_sign_or_digit (.inl rfl) _

theorem NameAhead.not_mem {c : Char} {tail : List Char} (h : NameAhead (c :: tail)) {d : Char}
    (hd : d ∈ [' ', '\t', '\r', '\n', '%', '"', '/', '[', ']', '\x7b', '\x7d']) : c ≠ d := by
  rintro rfl
  exact h.1 hd

theorem scanLexeme_of_numeral {text sign digits rest : List Char} (h : Numeral text sign digits rest) :
    scanLexeme text = .found (.integer (sign ++ digits)) rest := by
  have hd := delimiter_eq_none_of_ahead h.ahead
  have hi := h.integer?
  have ha := h.ahead
  cases text with
  | nil => exact ha.elim
  | cons c tail =>
    have hquote : c ≠ '"' := ha.not_mem (by decide)
    simp only [scanLexeme, if_neg hquote, hd, hi]

/-- **What the grammar gives is what scanning gives.** -/
theorem Reads.eq_reading {text : List Char} {x : Except Condition (Option (Value × List Char))}
    (h : Reads text x) : (scanLexeme text).reading = x := by
  cases h with
  | finished => rfl
  | @string content spelled rest h =>
    have hs := h.spanString rest
    simp only [List.cons_append, scanLexeme, if_pos, hs, Scan.reading, Token.valueOf, h.unescape]
  | @unterminated tail h =>
    cases hs : spanString tail with
    | none => simp only [scanLexeme, if_pos, hs, Scan.reading]
    | some p =>
      obtain ⟨content, after⟩ := p
      obtain ⟨htail, spelled, hspells⟩ := spells_of_spanString hs
      exact absurd htail (h _ _ _ hspells)
  | @delimiter mark h rest =>
    have hd := delimiter_of_mem h rest
    obtain ⟨c, tail, rfl, hquote⟩ : ∃ c tail, mark = c :: tail ∧ c ≠ '"' := by
      simp only [delimiters, List.mem_cons, List.not_mem_nil, or_false] at h
      obtain rfl | rfl | rfl | rfl | rfl | rfl := h <;> exact ⟨_, _, rfl, by decide⟩
    rw [List.cons_append] at hd ⊢
    simp only [scanLexeme, if_neg hquote, hd, Scan.reading, Token.valueOf]
  | @integer _ sign digits rest h n hn =>
    rw [scanLexeme_of_numeral h, reading_integer h, ofInt_of_toInt hn]
  | @tooLarge _ sign digits rest h hn =>
    have none : Word.ofInt? (written sign digits) = none := Word.ofInt?_eq_none_iff.2 (by omega)
    rw [scanLexeme_of_numeral h, reading_integer h, none]
  | @literalName tail run rest h =>
    -- no number begins with a slash, which is no character of a name
    have noInteger : integer? ('/' :: tail) = none := by
      simp [integer?, splitSign, show Char.isDigit '/' = false by decide]
    have hd : delimiter? ('/' :: tail) = none := by simp [delimiter?]
    have hquote : '/' ≠ '"' := by decide
    simp only [scanLexeme, if_neg hquote, hd, noInteger, if_pos, h.eq_spanName, Scan.reading,
      Token.valueOf]
  | @name _ run rest hinteger h hrun =>
    obtain ⟨c, run, rfl⟩ := List.exists_cons_of_ne_nil hrun
    obtain ⟨tail, rfl⟩ : ∃ tail, text = c :: tail := ⟨run ++ rest, h.split⟩
    have ahead : NameAhead (c :: tail) := h.split ▸ h.names [] (c :: run) rfl hrun
    have noInteger : integer? (c :: tail) = none := by
      cases hi : integer? (c :: tail) with
      | none => rfl
      | some p =>
        obtain ⟨_, after⟩ := p
        obtain ⟨sign, digits, -, hn⟩ := exists_numeral hi
        exact absurd hn (hinteger sign digits after)
    have hquote : c ≠ '"' := ahead.not_mem (by decide)
    have hslash : c ≠ '/' := ahead.not_mem (by decide)
    simp only [scanLexeme, if_neg hquote, delimiter_eq_none_of_ahead ahead, noInteger, if_neg hslash,
      h.cons.eq_spanName, Scan.reading, Token.valueOf]

/-- **Scanning reads what the grammar says**, where no gap is before. -/
theorem reads_reading {text : List Char}
    (h : ∀ c, text.head? = some c → c ∉ [' ', '\t', '\r', '\n', '%']) :
    Reads text (scanLexeme text).reading := by
  cases text with
  | nil => exact .finished
  | cons c tail =>
    have hgap := h c rfl
    by_cases hquote : c = '"'
    · subst hquote
      cases hs : spanString tail with
      | none =>
        simp only [scanLexeme, if_pos, hs, Scan.reading]
        refine .unterminated fun content spelled rest hspells htail => ?_
        rw [htail, hspells.spanString] at hs
        cases hs
      | some p =>
        obtain ⟨content, after⟩ := p
        obtain ⟨rfl, spelled, hspells⟩ := spells_of_spanString hs
        simp only [scanLexeme, if_pos, hs, Scan.reading, Token.valueOf, hspells.unescape]
        exact .string hspells
    · cases hd : delimiter? (c :: tail) with
      | some p =>
        obtain ⟨mark, after⟩ := p
        obtain ⟨hmark, htext⟩ := mem_delimiters hd
        simp only [scanLexeme, if_neg hquote, hd, Scan.reading, Token.valueOf]
        rw [htext]
        exact .delimiter hmark after
      | none =>
        cases hi : integer? (c :: tail) with
        | some p =>
          obtain ⟨_, after⟩ := p
          obtain ⟨sign, digits, hwritten, hn⟩ := exists_numeral hi
          simp only [scanLexeme, if_neg hquote, hd, hi]
          rw [hwritten, reading_integer hn]
          cases hword : Word.ofInt? (written sign digits) with
          | some n => exact .integer hn (Word.toInt_of_ofInt? hword)
          | none => exact .tooLarge hn (by have := Word.ofInt?_eq_none_iff.1 hword; omega)
        | none =>
          simp only [scanLexeme, if_neg hquote, hd, hi]
          by_cases hslash : c = '/'
          · subst hslash
            exact .literalName (nameRun_spanName tail)
          · rw [if_neg hslash]
            have ahead := ahead_of_delimiter_eq_none (by simpa [hquote, hslash] using hgap) hd
            have hspan : spanName (c :: tail) = (c :: (spanName tail).1, (spanName tail).2) := by
              rw [spanName, if_pos (startsName_iff.2 ahead)]
            have run := nameRun_spanName (c :: tail)
            rw [hspan] at run
            refine .name (fun sign digits rest hn => ?_) run (List.cons_ne_nil c _)
            rw [hn.integer?] at hi
            cases hi

/-- The grammar says one thing of a text that no gap begins. -/
theorem reads_iff {text : List Char}
    (h : ∀ c, text.head? = some c → c ∉ [' ', '\t', '\r', '\n', '%'])
    {x : Except Condition (Option (Value × List Char))} :
    Reads text x ↔ (scanLexeme text).reading = x :=
  ⟨fun hx => hx.eq_reading, fun hx => hx ▸ reads_reading h⟩

theorem reads_none_iff {text : List Char} : Reads text (.ok none) ↔ text = [] := by
  constructor
  · intro h
    generalize hx : (Except.ok none : Except Condition (Option (Value × List Char))) = x at h
    cases h with
    | finished => rfl
    | string | unterminated | delimiter | integer | tooLarge | literalName | name => cases hx
  · rintro rfl
    exact .finished

end Text

namespace Token

open Text

/-- **Tokens follow the grammar.**  At a boundary, `next` skips the longest gap; it finds nothing when
nothing is left, it reads a token when the grammar reads its value, and the token has the place of its
lexeme, and it fails as the grammar says. -/
theorem next_follows_grammar (before text : List Char) :
    ∃ gap rest, Opens text gap rest ∧
      (next (String.ofList (before ++ text)) (byteLength before) = .ok none ↔ rest = []) ∧
      (∀ token, next (String.ofList (before ++ text)) (byteLength before) = .ok (some token) ↔
        ∃ lexeme after, rest = lexeme ++ after ∧ Reads rest (.ok (some (token.value, after))) ∧
          token.start = byteLength (before ++ gap) ∧
          token.stop = byteLength (before ++ gap ++ lexeme)) ∧
      ∀ k, (∃ c, next (String.ofList (before ++ text)) (byteLength before) = .error c ∧
        c.condition = k) ↔ Reads rest (.error k) := by
  obtain ⟨gap, hopens⟩ := exists_opens text
  have reads {x} := @reads_iff _ hopens.not_mem x
  have suffix {lexeme rest} := @scanLexeme_suffix (skipGap false text) rest lexeme
  have hsplit := hopens.split
  simp only [next, String.toList_ofList, dropBytes_byteLength]
  generalize skipGap false text = rest at *
  refine ⟨gap, rest, hopens, ?_⟩
  simp only [← reads_none_iff, reads]
  cases hscan : scanLexeme rest with
  | finished => simp [Scan.reading]
  | unterminated => simp [Scan.reading, Cause.condition]
  | found lexeme after =>
    obtain ⟨written, rfl⟩ := suffix hscan
    cases hvalue : valueOf lexeme with
    | error c => simp [Scan.reading, hvalue, Except.map]
    | ok v =>
      simp only [Scan.reading, hvalue, Except.map]
      refine ⟨by simp, fun token => ?_, by simp⟩
      have start : byteLength before + byteLength text - byteLength (written ++ after) =
          byteLength (before ++ gap) := by
        simp only [hsplit, byteLength_append]
        omega
      have stop : byteLength before + byteLength text - byteLength after =
          byteLength (before ++ gap ++ written) := by
        simp only [hsplit, byteLength_append]
        omega
      simp only [start, stop, Except.ok.injEq, Option.some.injEq, Prod.mk.injEq]
      constructor
      · rintro rfl
        exact ⟨written, after, rfl, ⟨rfl, rfl⟩, rfl, rfl⟩
      · rintro ⟨other, _, hother, ⟨rfl, rfl⟩, hstart, hstop⟩
        obtain rfl := List.append_cancel_right hother
        cases token
        simp_all

end Token

end StackScript
