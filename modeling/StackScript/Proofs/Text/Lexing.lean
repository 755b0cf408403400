import StackScript.Proofs.Text.Grammar
import StackScript.Proofs.Text.Nesting

/-!
# The tokens of a text

What the grammar says of a whole text: gap and lexeme in turn, until nothing is left or there is nothing
to read (`Text.Lexes`).  Every text has its tokens, and reading one token after the other finds them and
ends (`Token.all_eq_ok_iff`, `Token.exists_all_eq_error_iff`).

The tokens have the places of their lexemes, in order, and what is outside of all of them is blank or in
a comment (`Text.Lexes.covered`).
-/

namespace StackScript

namespace Text

variable {text gap gap' lexeme rest rest' : List Char} {v : Value} {n m : ℕ} {k : Option Condition}
  {ts : List Token}

/-! ### What the grammar says of a whole text -/

/-- The tokens of a text that begins at a byte offset, and the condition that reading ends with, if it
fails. -/
inductive Lexes : ℕ → List Char → List Token → Option Condition → Prop
  | finished {n : ℕ} {text gap : List Char} (hopens : Opens text gap []) : Lexes n text [] none
  | failed {n : ℕ} {text gap rest : List Char} {k : Condition} (hopens : Opens text gap rest)
      (h : Reads rest (.error k)) : Lexes n text [] (some k)
  | token {n : ℕ} {text gap lexeme rest : List Char} {v : Value} {ts : List Token}
      {k : Option Condition} (hopens : Opens text gap (lexeme ++ rest))
      (h : Reads (lexeme ++ rest) (.ok (some (v, rest))))
      (hrest : Lexes (n + byteLength (gap ++ lexeme)) rest ts k) :
      Lexes n text
        ({ value := v
           start := n + byteLength gap
           stop := n + byteLength (gap ++ lexeme) } :: ts) k

/-- The grammar gives one reading. -/
theorem Reads.unique {x y : Except Condition (Option (Value × List Char))} (h : Reads text x)
    (h' : Reads text y) : x = y :=
  h.eq_reading.symm.trans h'.eq_reading

/-- Where there is something to read there is something. -/
theorem Reads.ne_nil {x : Value × List Char} (h : Reads text (.ok (some x))) : text ≠ [] := by
  rintro rfl
  cases h.unique .finished

theorem Reads.ne_nil_of_error {k : Condition} (h : Reads text (.error k)) : text ≠ [] := by
  rintro rfl
  cases h.unique .finished

/-- What is read is an end of the text, and a lexeme is not empty. -/
theorem Reads.exists_lexeme (h : Reads text (.ok (some (v, rest)))) :
    ∃ lexeme, text = lexeme ++ rest ∧ lexeme ≠ [] := by
  generalize hx : (Except.ok (some (v, rest)) : Except Condition (Option (Value × List Char))) = x at h
  cases h with
  | finished | unterminated | tooLarge => cases hx
  | @string content spelled rest h =>
    cases hx
    exact ⟨'"' :: content ++ ['"'], by simp, by simp⟩
  | @delimiter mark h after =>
    cases hx
    refine ⟨mark, rfl, ?_⟩
    rintro rfl
    exact absurd h (by decide)
  | integer h hn =>
    cases hx
    exact ⟨_, h.split, fun hnil => h.nonempty (List.append_eq_nil_iff.1 hnil).2⟩
  | @literalName tail run _ h =>
    cases hx
    exact ⟨'/' :: run, by rw [h.split, List.cons_append], List.cons_ne_nil _ _⟩
  | name _ h hrun =>
    cases hx
    exact ⟨_, h.split, hrun⟩

theorem Reads.lexeme_ne_nil (h : Reads (lexeme ++ rest) (.ok (some (v, rest)))) : lexeme ≠ [] := by
  obtain ⟨lexeme', same, hne⟩ := h.exists_lexeme
  rwa [List.append_cancel_right same]

/-- What is read is no container. -/
theorem Reads.handle?_eq_none (h : Reads text (.ok (some (v, rest)))) : v.handle? = none := by
  generalize hx : (Except.ok (some (v, rest)) : Except Condition (Option (Value × List Char))) = x at h
  cases h with
  | finished | unterminated | tooLarge => cases hx
  | string | delimiter | integer | literalName | name =>
    cases hx
    rfl

/-- No token is a container. -/
theorem Lexes.handle?_eq_none (h : Lexes n text ts k) : ∀ t ∈ ts, t.value.handle? = none := by
  induction h with
  | finished | failed => exact List.forall_mem_nil _
  | token _ h _ ih => exact List.forall_mem_cons.2 ⟨h.handle?_eq_none, ih⟩

/-- **Every text has its tokens.** -/
theorem exists_lexes (n : ℕ) (text : List Char) : ∃ ts k, Lexes n text ts k := by
  induction hlength : text.length using Nat.strong_induction_on generalizing n text with
  | _ length ih =>
    subst hlength
    obtain ⟨gap, hopens⟩ := exists_opens text
    have hread := reads_reading hopens.not_mem
    generalize skipGap false text = start at *
    cases hx : (scanLexeme start).reading with
    | error k =>
      rw [hx] at hread
      exact ⟨[], some k, .failed hopens hread⟩
    | ok x =>
      rw [hx] at hread
      cases x with
      | none =>
        obtain rfl := reads_none_iff.1 hread
        exact ⟨[], none, .finished hopens⟩
      | some x =>
        obtain ⟨v, rest⟩ := x
        obtain ⟨lexeme, rfl, hne⟩ := hread.exists_lexeme
        have shorter : rest.length < text.length := by
          have hpos := List.length_pos_iff.2 hne
          rw [hopens.split]
          simp only [List.length_append]
          omega
        obtain ⟨ts, k, hrest⟩ := ih rest.length shorter (n + byteLength (gap ++ lexeme)) rest rfl
        exact ⟨_, k, .token hopens hread hrest⟩

/-- The tokens of a text are settled. -/
theorem Lexes.unique {ts' : List Token} {k' : Option Condition} (h : Lexes n text ts k)
    (h' : Lexes n text ts' k') : ts = ts' ∧ k = k' := by
  induction h generalizing ts' k' with
  | finished hopens =>
    cases h' with
    | finished => exact ⟨rfl, rfl⟩
    | failed hopens' h' =>
      obtain ⟨-, rfl⟩ := hopens.unique hopens'
      exact absurd rfl h'.ne_nil_of_error
    | token hopens' h' =>
      obtain ⟨-, same⟩ := hopens.unique hopens'
      exact absurd same.symm h'.ne_nil
  | failed hopens h =>
    cases h' with
    | finished hopens' =>
      obtain ⟨-, rfl⟩ := hopens.unique hopens'
      exact absurd rfl h.ne_nil_of_error
    | failed hopens' h' =>
      obtain ⟨-, rfl⟩ := hopens.unique hopens'
      cases h.unique h'
      exact ⟨rfl, rfl⟩
    | token hopens' h' =>
      obtain ⟨-, rfl⟩ := hopens.unique hopens'
      cases h.unique h'
  | token hopens h hrest ih =>
    cases h' with
    | finished hopens' =>
      obtain ⟨-, same⟩ := hopens.unique hopens'
      exact absurd same h.ne_nil
    | failed hopens' h' =>
      obtain ⟨-, rfl⟩ := hopens.unique hopens'
      cases h.unique h'
    | token hopens' h' hrest' =>
      obtain ⟨rfl, same⟩ := hopens.unique hopens'
      rw [← same] at h'
      cases h.unique h'
      obtain rfl := List.append_cancel_right same
      obtain ⟨rfl, rfl⟩ := ih hrest'
      exact ⟨rfl, rfl⟩

end Text

/-- The token in a text that has been moved by so many bytes. -/
def Token.shifted (n : ℕ) (t : Token) : Token :=
  { t with start := t.start + n, stop := t.stop + n }

namespace Text

variable {text gap gap' lexeme rest rest' : List Char} {v : Value} {n m : ℕ} {k : Option Condition}
  {ts : List Token}

/-- The place of a text is that of its tokens. -/
theorem Lexes.shift (h : Lexes n text ts k) (m : ℕ) :
    Lexes (n + m) text (ts.map (Token.shifted m)) k := by
  induction h with
  | finished hopens => exact .finished hopens
  | failed hopens h => exact .failed hopens h
  | @token n text gap lexeme rest v ts k hopens h _ ih =>
    have moved := Lexes.token (n := n + m) hopens h (by rwa [Nat.add_right_comm])
    rwa [Nat.add_right_comm, Nat.add_right_comm n m] at moved

/-! ### What the tokens cover -/

/-- The tokens have places in a text that begins at a byte offset: these are not empty, they are in
order, each from where a character begins to where one ends, and every byte outside of all of them is in
a gap that meets none of them. -/
structure Covered (n : ℕ) (text : List Char) (ts : List Token) : Prop where
  nonempty : ∀ t ∈ ts, t.start < t.stop
  apart : ts.Pairwise fun t u => t.stop ≤ u.start
  cut : ∀ t ∈ ts, ∃ before lexeme after, text = before ++ lexeme ++ after ∧
    t.start = n + byteLength before ∧ t.stop = n + byteLength (before ++ lexeme)
  skipped : ∀ i, n ≤ i → i < n + byteLength text → (∀ t ∈ ts, i < t.start ∨ t.stop ≤ i) →
    ∃ before gap after, text = before ++ gap ++ after ∧ Gap gap ∧
      n + byteLength before ≤ i ∧ i < n + byteLength (before ++ gap) ∧
        ∀ t ∈ ts, t.stop ≤ n + byteLength before ∨ n + byteLength (before ++ gap) ≤ t.start

theorem byteLength_pos {text : List Char} (h : text ≠ []) : 0 < byteLength text := by
  cases text with
  | nil => exact absurd rfl h
  | cons c rest =>
    have := c.utf8Size_pos
    simp only [byteLength]
    omega

/-- A text after the first token of another is covered by what is left. -/
theorem Covered.cons {t : Token} (hgap : Gap gap) (hlexeme : lexeme ≠ [])
    (hstart : t.start = n + byteLength gap) (hstop : t.stop = n + byteLength (gap ++ lexeme))
    (h : Covered (n + byteLength (gap ++ lexeme)) rest ts) :
    Covered n (gap ++ (lexeme ++ rest)) (t :: ts) := by
  have length := byteLength_pos hlexeme
  have sum : byteLength (gap ++ lexeme) = byteLength gap + byteLength lexeme := byteLength_append ..
  -- the places of the other tokens are behind the first one
  have behind (u : Token) (hu : u ∈ ts) : t.stop ≤ u.start := by
    obtain ⟨before, lexeme', after, -, hu, -⟩ := h.cut u hu
    omega
  refine ⟨?_, List.pairwise_cons.2 ⟨behind, h.apart⟩, ?_, ?_⟩
  · intro u hu
    rcases List.mem_cons.1 hu with rfl | hu
    · omega
    · exact h.nonempty u hu
  · intro u hu
    rcases List.mem_cons.1 hu with rfl | hu
    · exact ⟨gap, lexeme, rest, by simp, hstart, hstop⟩
    · obtain ⟨before, lexeme', after, rfl, hu, hu'⟩ := h.cut u hu
      refine ⟨gap ++ lexeme ++ before, lexeme', after, by simp, ?_, ?_⟩
      · rw [hu, byteLength_append _ before]
        omega
      · rw [hu', List.append_assoc _ before, byteLength_append _ (before ++ lexeme')]
        omega
  · intro i hi hlast outside
    by_cases early : i < t.start
    · refine ⟨[], gap, lexeme ++ rest, rfl, hgap, by simpa [byteLength] using hi, ?_, ?_⟩
      · rwa [List.nil_append, ← hstart]
      · intro u hu
        rw [List.nil_append, ← hstart]
        rcases List.mem_cons.1 hu with rfl | hu
        · exact .inr le_rfl
        · have := behind u hu
          exact .inr (by omega)
    · have late : t.stop ≤ i := (outside t List.mem_cons_self).resolve_left early
      have last : i < n + byteLength (gap ++ lexeme) + byteLength rest := by
        simp only [byteLength_append] at hlast sum ⊢
        omega
      obtain ⟨before, gap', after, rfl, hgap', hbefore, hafter, apart⟩ :=
        h.skipped i (by omega) last fun u hu => outside u (List.mem_cons_of_mem t hu)
      have front (text : List Char) : n + byteLength (gap ++ lexeme ++ text) =
          n + byteLength (gap ++ lexeme) + byteLength text := by
        rw [byteLength_append _ text]
        omega
      refine ⟨gap ++ lexeme ++ before, gap', after, by simp, hgap', ?_, ?_, ?_⟩
      · rwa [front]
      · rwa [List.append_assoc _ before, front]
      · intro u hu
        rw [List.append_assoc _ before, front, front]
        rcases List.mem_cons.1 hu with rfl | hu
        · exact .inl (by omega)
        · exact apart u hu

/-- **The tokens cover the text**, but for gaps. -/
theorem Lexes.covered (h : Lexes n text ts none) : Covered n text ts := by
  generalize hk : (none : Option Condition) = k at h
  induction h with
  | @finished n text gap hopens =>
    have all : text = gap := by simpa using hopens.split
    refine ⟨by simp, .nil, by simp, fun i hi hlast _ => ?_⟩
    exact ⟨[], gap, [], by simp [all], hopens.isGap, by simpa [byteLength] using hi,
      by simpa [all] using hlast, by simp⟩
  | failed => cases hk
  | token hopens h _ ih =>
    rw [hopens.split]
    exact .cons hopens.isGap h.lexeme_ne_nil rfl rfl (ih hk)

end Text

/-! ### Reading one token after the other -/

namespace Token

open Text

variable {before text gap lexeme rest : List Char} {v : Value} {k : Option Condition} {ts : List Token}

/-- What reading a token at a boundary comes to. -/
inductive Comes (before text : List Char) : Except Cause (Option Token) → Prop
  | ended {gap : List Char} (hopens : Opens text gap []) : Comes before text (.ok none)
  | failed {gap rest : List Char} {c : Cause} (hopens : Opens text gap rest)
    (h : Reads rest (.error c.condition)) : Comes before text (.error c)
  | token {gap lexeme rest : List Char} {v : Value} (hopens : Opens text gap (lexeme ++ rest))
    (h : Reads (lexeme ++ rest) (.ok (some (v, rest)))) : Comes before text (.ok (some
      { value := v
        start := byteLength before + byteLength gap
        stop := byteLength before + byteLength (gap ++ lexeme) }))

/-- **Reading a token** comes to what the grammar says. -/
theorem comes (before text : List Char) :
    Comes before text (next (String.ofList (before ++ text)) (byteLength before)) := by
  obtain ⟨gap, hopens⟩ := exists_opens text
  have hread := reads_reading hopens.not_mem
  have suffix {lexeme rest} := @scanLexeme_suffix (skipGap false text) rest lexeme
  have hsplit := hopens.split
  simp only [next, String.toList_ofList, dropBytes_byteLength]
  generalize skipGap false text = start at *
  cases hscan : scanLexeme start with
  | finished =>
    rw [hscan] at hread
    obtain rfl := reads_none_iff.1 hread
    exact .ended hopens
  | unterminated =>
    rw [hscan] at hread
    exact .failed hopens hread
  | found lexeme rest =>
    obtain ⟨written, rfl⟩ := suffix hscan
    rw [hscan, Scan.reading] at hread
    cases hvalue : valueOf lexeme with
    | error c =>
      rw [hvalue] at hread
      simp only [hvalue, Except.map]
      exact .failed hopens hread
    | ok v =>
      rw [hvalue] at hread
      have came : Comes before text _ := .token hopens hread
      have start : byteLength before + byteLength text - byteLength (written ++ rest) =
          byteLength before + byteLength gap := by
        rw [hsplit, byteLength_append gap]
        omega
      have stop : byteLength before + byteLength text - byteLength rest =
          byteLength before + byteLength (gap ++ written) := by
        simp only [hsplit, byteLength_append]
        omega
      simpa only [hvalue, Except.map, start, stop] using came

/-- **Reading a token moves the cursor on.** -/
theorem lt_stop_of_next {text : String} {cursor : ℕ} {token : Token}
    (h : next text cursor = .ok (some token)) : cursor < token.stop := by
  obtain ⟨start, -, -, hstart, -⟩ := exists_lexeme_of_next h
  obtain ⟨before, hbefore, rfl⟩ := eq_append_of_dropBytes hstart
  have came := comes before start
  rw [← hbefore, String.ofList_toList, h] at came
  cases came with
  | token _ reads =>
    have length := byteLength_pos reads.lexeme_ne_nil
    dsimp only
    rw [byteLength_append]
    omega

/-- So do tokens that are read one after the other, if there are any. -/
theorem Follow.le {text : String} {a b : ℕ} (h : Follow text a ts b) : a ≤ b := by
  induction h with
  | nil => exact le_rfl
  | cons h _ ih => exact (lt_stop_of_next h).le.trans ih

/-- There is a token where the grammar reads one. -/
theorem next_of_reads (before : List Char) (hopens : Opens text gap (lexeme ++ rest))
    (h : Reads (lexeme ++ rest) (.ok (some (v, rest)))) :
    next (String.ofList (before ++ text)) (byteLength before) = .ok (some
      { value := v
        start := byteLength before + byteLength gap
        stop := byteLength before + byteLength (gap ++ lexeme) }) := by
  have came := comes before text
  generalize next (String.ofList (before ++ text)) (byteLength before) = x at came ⊢
  cases came with
  | ended hopens' =>
    obtain ⟨-, same⟩ := hopens.unique hopens'
    exact absurd same h.ne_nil
  | failed hopens' h' =>
    obtain ⟨-, rfl⟩ := hopens.unique hopens'
    cases h.unique h'
  | token hopens' h' =>
    obtain ⟨rfl, same⟩ := hopens.unique hopens'
    rw [← same] at h'
    cases h.unique h'
    obtain rfl := List.append_cancel_right same
    rfl

theorem next_of_opens (before : List Char) (hopens : Opens text gap []) :
    next (String.ofList (before ++ text)) (byteLength before) = .ok none := by
  have came := comes before text
  generalize next (String.ofList (before ++ text)) (byteLength before) = x at came ⊢
  cases came with
  | ended => rfl
  | failed hopens' h =>
    obtain ⟨-, rfl⟩ := hopens.unique hopens'
    exact absurd rfl h.ne_nil_of_error
  | token hopens' h =>
    obtain ⟨-, same⟩ := hopens.unique hopens'
    exact absurd same.symm h.ne_nil

/-- Reading fails where the grammar does. -/
theorem exists_next_eq_error (before : List Char) {k : Condition} (hopens : Opens text gap rest)
    (h : Reads rest (.error k)) :
    ∃ c, next (String.ofList (before ++ text)) (byteLength before) = .error c ∧ c.condition = k := by
  have came := comes before text
  generalize next (String.ofList (before ++ text)) (byteLength before) = x at came ⊢
  cases came with
  | ended hopens' =>
    obtain ⟨-, rfl⟩ := hopens.unique hopens'
    exact absurd rfl h.ne_nil_of_error
  | @failed _ _ c hopens' h' =>
    obtain ⟨-, rfl⟩ := hopens.unique hopens'
    exact ⟨c, rfl, Except.error.inj (h'.unique h)⟩
  | token hopens' h' =>
    obtain ⟨-, rfl⟩ := hopens.unique hopens'
    cases h.unique h'

/-- One token is read after the other, up to the end. -/
theorem follow_of_lexes (before : List Char) (h : Lexes (byteLength before) text ts none) :
    ∃ stop, Follow (String.ofList (before ++ text)) (byteLength before) ts stop ∧
      next (String.ofList (before ++ text)) stop = .ok none := by
  generalize hn : byteLength before = n at h
  generalize hk : (none : Option Condition) = k at h
  induction h generalizing before with
  | finished hopens =>
    subst hn
    exact ⟨_, .nil _, next_of_opens before hopens⟩
  | failed => cases hk
  | @token n text gap lexeme rest v ts k hopens h hrest ih =>
    subst hn
    have passed : before ++ text = before ++ (gap ++ lexeme) ++ rest := by
      rw [hopens.split, List.append_assoc, List.append_assoc]
    obtain ⟨stop, later, ended⟩ := ih (before ++ (gap ++ lexeme)) (byteLength_append ..) hk
    rw [← passed] at later ended
    exact ⟨stop, .cons (next_of_reads before hopens h) later, ended⟩

/-- What is read one after the other, up to a failure, is what the grammar says. -/
theorem lexes_of_follow (before : List Char) {stop : ℕ} {c : Cause}
    (h : Follow (String.ofList (before ++ text)) (byteLength before) ts stop)
    (failed : next (String.ofList (before ++ text)) stop = .error c) :
    Lexes (byteLength before) text ts (some c.condition) := by
  have came := comes before text
  induction ts generalizing before text with
  | nil =>
    cases h
    rw [failed] at came
    cases came with
    | failed hopens h => exact .failed hopens h
  | cons t ts ih =>
    cases h with
    | cons read later =>
      rw [read] at came
      cases came with
      | @token gap lexeme rest v hopens h =>
        have passed : before ++ text = before ++ (gap ++ lexeme) ++ rest := by
          rw [hopens.split, List.append_assoc, List.append_assoc]
        rw [passed] at later failed
        have rest := ih (before ++ (gap ++ lexeme)) (byteLength_append .. ▸ later) failed (comes _ _)
        exact .token hopens h (byteLength_append .. ▸ rest)

/-- There are enough steps for every token of a text. -/
theorem lexes_of_upTo (before text : List Char) {count : ℕ} (hcount : text.length < count) :
    match upTo (String.ofList (before ++ text)) count (byteLength before) with
    | .ok ts => Lexes (byteLength before) text ts none
    | .error c => ∃ ts, Lexes (byteLength before) text ts (some c.condition) := by
  induction count generalizing before text with
  | zero => exact absurd hcount (Nat.not_lt_zero _)
  | succ count ih =>
    have came := comes before text
    rw [upTo]
    generalize next (String.ofList (before ++ text)) (byteLength before) = x at came ⊢
    cases came with
    | ended hopens => exact .finished hopens
    | failed hopens h => exact ⟨[], .failed hopens h⟩
    | @token gap lexeme rest v hopens h =>
      have passed : before ++ text = before ++ (gap ++ lexeme) ++ rest := by
        rw [hopens.split, List.append_assoc, List.append_assoc]
      have shorter : rest.length < count := by
        have hpos := List.length_pos_iff.2 h.lexeme_ne_nil
        have hlength := congrArg List.length hopens.split
        simp only [List.length_append] at hlength
        omega
      have later := ih (before ++ (gap ++ lexeme)) rest shorter
      rw [← passed, byteLength_append] at later
      dsimp only
      cases hall : upTo (String.ofList (before ++ text)) count
          (byteLength before + byteLength (gap ++ lexeme)) with
      | ok ts =>
        rw [hall] at later
        exact .token hopens h later
      | error c =>
        rw [hall] at later
        exact later.imp' (_ :: ·) fun _ hrest => .token hopens h hrest

theorem lexes_all (source : String) :
    match Token.all source with
    | .ok ts => Lexes 0 source.toList ts none
    | .error c => ∃ ts, Lexes 0 source.toList ts (some c.condition) := by
  have read := lexes_of_upTo [] source.toList (Nat.lt_succ_self source.toList.length)
  rwa [List.nil_append, String.ofList_toList, String.length_toList] at read

/-- **Reading every token of a text** succeeds when the grammar reads it to the end. -/
theorem all_eq_ok_iff {source : String} :
    Token.all source = .ok ts ↔ Lexes 0 source.toList ts none := by
  have read := lexes_all source
  constructor
  · intro h
    rwa [h] at read
  · intro h
    cases hall : Token.all source with
    | ok us =>
      rw [hall] at read
      rw [(read.unique h).1]
    | error c =>
      rw [hall] at read
      obtain ⟨us, read⟩ := read
      cases (read.unique h).2

/-- It fails when the grammar does, and for the same condition. -/
theorem exists_all_eq_error_iff {source : String} {k : Condition} :
    (∃ c, Token.all source = .error c ∧ c.condition = k) ↔
      ∃ ts, Lexes 0 source.toList ts (some k) := by
  have read := lexes_all source
  constructor
  · rintro ⟨c, h, rfl⟩
    rwa [h] at read
  · rintro ⟨ts, h⟩
    cases hall : Token.all source with
    | ok us =>
      rw [hall] at read
      cases (read.unique h).2
    | error c =>
      rw [hall] at read
      obtain ⟨us, read⟩ := read
      exact ⟨c, rfl, Option.some.inj (read.unique h).2⟩

end Token

end StackScript
