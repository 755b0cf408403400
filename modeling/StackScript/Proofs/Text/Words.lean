import StackScript.Proofs.Memory.Outlines
import StackScript.Proofs.Text.Formatting

/-!
# Data written in words

The text of a value, containers and all, consists of words with blanks between them
(`Outline.words`): a value that is no container is one word, and a container is what it holds, written
between two others.  If names can be told from the words around them, these words are read one by one
(`Outline.exists_lexes`).

Not every value is written as itself: null and the truth values are written as the names of constants.  In a
block they would be taken for names, so a block is written as what it holds only if there are none of
these in it (`Outline.IsCode`).
-/

namespace StackScript

open Text

namespace Datum

/-- The word for a value that is no container. -/
def word (d : Datum) : Value :=
  match d with
  | .null | .boolean _ => .name d.text
  | _ => ⟨d, none⟩

theorem text_word (d : Datum) : d.word.datum.text = d.text := by
  cases d with
  | null | integer | string | name | mark | operator | array | dictionary => rfl
  | boolean b => cases b <;> rfl

/-- The text of the datum is a token of its own, which is read as this datum. -/
def LexesBack (d : Datum) : Prop := ∃ start stop, Token.all d.text = .ok [⟨⟨d, none⟩, start, stop⟩]

/-- Data outside of blocks: names among them are literal, and can be told from the words around them. -/
def IsData : Datum → Prop
  | .null | .boolean _ | .integer _ | .string _ false => True
  | .name text false => LexesBack (.name text false)
  | _ => False

/-- Data in blocks: names among them are no braces, and can be told from the words around them. -/
def IsCode : Datum → Prop
  | .integer _ | .string _ false => True
  | .name text executable =>
    (executable = true → Session.isBrace text = false) ∧ LexesBack (.name text executable)
  | _ => False

/-! ### Words that stand for themselves -/

theorem stands_of_lexesBack {d : Datum} (h : d.LexesBack) : Stands d.text.toList ⟨d, none⟩ := by
  obtain ⟨start, stop, h⟩ := h
  have read : Lexes 0 d.text.toList [⟨⟨d, none⟩, start, stop⟩] none := Token.all_eq_ok_iff.1 h
  cases read.stands with
  | cons h _ => exact h

/-- Data are no containers, and no marks. -/
theorem IsData.handle?_eq_none {d : Datum} (h : d.IsData) : Value.handle? ⟨d, none⟩ = none := by
  cases d with
  | array | dictionary => exact h.elim
  | null | boolean | integer | string | name | mark | operator => rfl

theorem IsData.ne_mark {d : Datum} (h : d.IsData) : d ≠ .mark := by
  rintro rfl
  exact h

/-- What is data is written as a word. -/
theorem IsData.stands {d : Datum} (h : d.IsData) : Stands d.text.toList d.word := by
  unfold IsData at h
  split at h
  · exact stands_of_lexesBack (d := .name "null" true) ⟨0, 4, rfl⟩
  · rename_i b
    cases b
    · exact stands_of_lexesBack (d := .name "false" true) ⟨0, 5, rfl⟩
    · exact stands_of_lexesBack (d := .name "true" true) ⟨0, 4, rfl⟩
  · exact stands_integer _
  · exact stands_string _
  · exact stands_of_lexesBack h
  · exact h.elim

/-- What is code is written as a word for itself. -/
theorem IsCode.word {d : Datum} (h : d.IsCode) : d.word = ⟨d, none⟩ := by
  unfold IsCode at h
  split at h
  · rfl
  · rfl
  · rfl
  · exact h.elim

/-- It is neither a container nor a brace. -/
theorem IsCode.handle?_eq_none {d : Datum} (h : d.IsCode) :
    Value.handle? ⟨d, none⟩ = none := by
  unfold IsCode at h
  split at h
  · rfl
  · rfl
  · rfl
  · exact h.elim

theorem IsCode.unbraced {d : Datum} (h : d.IsCode) :
    (d == .name "\x7b" true) = false ∧ (d == .name "\x7d" true) = false := by
  unfold IsCode at h
  split at h
  · exact ⟨rfl, rfl⟩
  · exact ⟨rfl, rfl⟩
  · rename_i text executable
    cases executable with
    | false => simp
    | true => simpa [Session.isBrace] using h.1 rfl
  · exact h.elim

theorem IsCode.stands {d : Datum} (h : d.IsCode) : Stands d.text.toList d.word := by
  rw [h.word]
  unfold IsCode at h
  split at h
  · exact stands_integer _
  · exact stands_string _
  · exact stands_of_lexesBack h.2
  · exact h.elim

end Datum

namespace Outline

/-- The words for the values, one after the other. -/
def words : Outline → List Value
  | nil => []
  | plain d rest => d.word :: rest.words
  | array access items rest =>
    .name access.brackets.1 :: (items.words ++ .name access.brackets.2 :: rest.words)
  | dictionary _ entries rest => .name "<<" :: (entries.words ++ .name ">>" :: rest.words)

/-- What is in the blocks is code, and so is what is in the blocks among it. -/
def IsCode : Outline → Prop
  | nil => True
  | plain d rest => d.IsCode ∧ rest.IsCode
  | array access items rest => access = .block ∧ items.IsCode ∧ rest.IsCode
  | dictionary .. => False

/-- The values are data, and what is in the blocks among them is code. -/
def IsData : Outline → Prop
  | nil => True
  | plain d rest => d.IsData ∧ rest.IsData
  | array .block items rest => items.IsCode ∧ rest.IsData
  | array _ items rest | dictionary _ items rest => items.IsData ∧ rest.IsData

variable {o : Outline} {text : String} {ts : List Token}

/-! ### Words and texts -/

/-- The characters of words, each after a blank. -/
def spelled (words : List Value) : List Char := words.flatMap fun v => ' ' :: v.datum.text.toList

theorem spelled_append (vs ws : List Value) : spelled (vs ++ ws) = spelled vs ++ spelled ws :=
  List.flatMap_append

theorem toList_enclose (brackets : String × String) (items : List String) :
    (Memory.enclose brackets items).toList =
      brackets.1.toList ++ (items.flatMap fun t => ' ' :: t.toList) ++ ' ' :: brackets.2.toList := by
  simp [Memory.enclose, String.toList_join, List.flatMap_map]

/-- **The texts of values** are their words. -/
theorem spelled_words (o : Outline) : spelled o.words = o.texts.flatMap fun t => ' ' :: t.toList := by
  induction o with
  | nil => rfl
  | plain d rest ih =>
    rw [words, texts, List.flatMap_cons, ← ih, ← d.text_word]
    rfl
  | array access items rest ihitems ihrest =>
    rw [words, texts, List.flatMap_cons, ← ihrest, toList_enclose, ← ihitems]
    change _ ++ spelled (_ ++ _ :: _) = _
    rw [spelled_append]
    simp [spelled, Value.name, Datum.text]
  | dictionary writable entries rest ihentries ihrest =>
    rw [words, texts, List.flatMap_cons, ← ihrest, toList_enclose, ← ihentries]
    change _ ++ spelled (_ ++ _ :: _) = _
    rw [spelled_append]
    simp [spelled, Value.name, Datum.text]

/-- The text of one value is its words with blanks between them. -/
theorem toList_text (h : o.texts = [text]) :
    text.toList = [' '].intercalate (o.words.map fun v => v.datum.text.toList) := by
  have same := spelled_words o
  rw [h] at same
  cases hw : o.words with
  | nil => rw [hw] at same; cases same
  | cons v words =>
    rw [hw] at same
    rw [List.map_cons, intercalate_cons, List.flatMap_map]
    simpa [spelled] using same.symm

/-! ### Words that are read -/

theorem stands_bracket (access : Access) {bracket : String}
    (h : bracket = access.brackets.1 ∨ bracket = access.brackets.2 ∨ bracket = "<<" ∨ bracket = ">>") :
    Stands bracket.toList (.name bracket) := by
  refine Datum.stands_of_lexesBack (d := .name bracket true) ?_
  cases access <;> rcases h with rfl | rfl | rfl | rfl
  all_goals exact ⟨_, _, rfl⟩

theorem IsCode.stands (h : o.IsCode) : ∀ v ∈ o.words, Stands v.datum.text.toList v := by
  induction o with
  | nil => exact List.forall_mem_nil _
  | plain d rest ih =>
    exact List.forall_mem_cons.2 ⟨by rw [d.text_word]; exact h.1.stands, ih h.2⟩
  | array access items rest ihitems ihrest =>
    obtain ⟨rfl, hitems, hrest⟩ := h
    refine List.forall_mem_cons.2 ⟨stands_bracket _ (.inl rfl), List.forall_mem_append.2
      ⟨ihitems hitems, List.forall_mem_cons.2 ⟨stands_bracket _ (.inr (.inl rfl)), ihrest hrest⟩⟩⟩
  | dictionary => exact h.elim

theorem IsData.stands (h : o.IsData) : ∀ v ∈ o.words, Stands v.datum.text.toList v := by
  induction o with
  | nil => exact List.forall_mem_nil _
  | plain d rest ih =>
    exact List.forall_mem_cons.2 ⟨by rw [d.text_word]; exact h.1.stands, ih h.2⟩
  | array access items rest ihitems ihrest =>
    have inside : (∀ v ∈ items.words, Stands v.datum.text.toList v) ∧ rest.IsData := by
      cases access with
      | block => exact ⟨h.1.stands, h.2⟩
      | literal | mutable => exact ⟨ihitems h.1, h.2⟩
    refine List.forall_mem_cons.2 ⟨stands_bracket _ (.inl rfl), List.forall_mem_append.2
      ⟨inside.1, List.forall_mem_cons.2 ⟨stands_bracket _ (.inr (.inl rfl)), ihrest inside.2⟩⟩⟩
  | dictionary writable entries rest ihentries ihrest =>
    refine List.forall_mem_cons.2 ⟨stands_bracket .block (.inr (.inr (.inl rfl))),
      List.forall_mem_append.2 ⟨ihentries h.1, List.forall_mem_cons.2
        ⟨stands_bracket .block (.inr (.inr (.inr rfl))), ihrest h.2⟩⟩⟩

/-- **The text of data** is read word by word. -/
theorem IsData.exists_lexes (h : o.IsData) (single : o.texts = [text]) :
    ∃ ts, Lexes 0 text.toList ts none ∧ ts.map Token.value = o.words := by
  have stand : List.Forall₂ Stands (o.words.map fun v => v.datum.text.toList) o.words := by
    rw [List.forall₂_map_left_iff]
    exact List.forall₂_same.2 h.stands
  rw [toList_text single]
  exact exists_lexes_of_stands stand 0

/-! ### Code -/

/-- Code is the same when it is made anew. -/
theorem IsCode.anew_eq (h : o.IsCode) : o.anew = o := by
  induction o with
  | nil => rfl
  | plain d rest ih => rw [anew, ih h.2]
  | array access items rest ihitems ihrest =>
    obtain ⟨rfl, hitems, hrest⟩ := h
    rw [anew, ihitems hitems, ihrest hrest, Access.written]
  | dictionary => exact h.elim

/-- **The words for code** spell code with this outline. -/
theorem IsCode.exists_spells {make : Token → Value} (hmake : ∀ t, (make t).datum = t.value.datum)
    (h : o.IsCode) (hts : ts.map Token.value = o.words) : ∃ code, Token.Spells make ts code ∧
      ∀ (heap : Heap) (vs : List Value), heap.Reads vs code → heap.Outlines vs o := by
  induction o generalizing ts with
  | nil =>
    obtain rfl := List.map_eq_nil_iff.1 hts
    refine ⟨.nil, .nil, fun heap vs reads => ?_⟩
    cases reads
    exact .nil
  | plain d rest ih =>
    obtain ⟨t, ts, rfl, ht, hts⟩ := List.map_eq_cons_iff.1 hts
    obtain ⟨code, spells, outlines⟩ := ih h.2 hts
    have datum : t.value.datum = d := by rw [ht, h.1.word]
    obtain ⟨hopens, hcloses⟩ := h.1.unbraced
    refine ⟨.value (make t) code, .value ?_ ?_ spells, fun heap vs reads => ?_⟩
    · rw [Token.opens, datum, hopens]
    · rw [Token.closes, datum, hcloses]
    · cases reads with
      | value hv hrest =>
        have made : (make t).datum = d := (hmake t).trans datum
        have plain := Heap.Outlines.plain (by rw [Value.handle?, made]; exact h.1.handle?_eq_none)
          (outlines heap _ hrest)
        rwa [made] at plain
  | array access items rest ihitems ihrest =>
    obtain ⟨rfl, hitems, hrest⟩ := h
    obtain ⟨t, ts, rfl, ht, hts⟩ := List.map_eq_cons_iff.1 hts
    obtain ⟨body, us, rfl, hbody, hus⟩ := List.map_eq_append_iff.1 hts
    obtain ⟨u, us, rfl, hu, hus⟩ := List.map_eq_cons_iff.1 hus
    obtain ⟨code, spells, outlines⟩ := ihitems hitems hbody
    obtain ⟨code', spells', outlines'⟩ := ihrest hrest hus
    refine ⟨.block none code code', .block (by rw [Token.opens, ht]; rfl)
      (by rw [Token.closes, hu]; rfl) spells spells', fun heap vs reads => ?_⟩
    obtain ⟨v, vs, i, s, rfl, hv, hs, inside, behind⟩ := reads.of_block
    exact .array (Heap.datum_of_block? hv) hs (outlines heap _ inside) (outlines' heap _ behind)
  | dictionary => exact h.elim

end Outline

end StackScript
