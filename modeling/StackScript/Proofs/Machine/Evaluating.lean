import StackScript.Proofs.Guarantees.Blocks
import StackScript.Proofs.Operator.Listing
import StackScript.Proofs.Text.Words

/-!
# Texts of data are evaluated

When a text is executed that consists of words for data, the values are made anew and pushed: a session
that scans such words (`Session.Scans`) delivers values with the outline the words are written for
(`Session.Scans.evaluates`).  A word for a value that is no container delivers this value.  Words between
brackets deliver what the operator makes of the values they deliver themselves, and words between braces
deliver the block of the code they spell.
-/

namespace StackScript

open StackScript.Action Memory
open Relation (ReflTransGen)

/-- Tokens that stand between two others are followed by the rest. -/
theorem Token.Follow.exists_between {text : String} {ts : List Token} {a b : ℕ} {opening closing : Value}
    {inside behind : List Value} (h : Token.Follow text a ts b)
    (hts : ts.map Token.value = opening :: (inside ++ closing :: behind)) :
    ∃ t₀ t₁ us ts' d, t₀.value = opening ∧ t₁.value = closing ∧ us.map Token.value = inside ∧
      ts'.map Token.value = behind ∧ Token.Follow text a (t₀ :: us ++ [t₁]) d ∧
        Token.Follow text d ts' b := by
  obtain ⟨t₀, ts₀, rfl, ht₀, hts₀⟩ := List.map_eq_cons_iff.1 hts
  obtain ⟨us, ts₁, rfl, hus, hts₁⟩ := List.map_eq_append_iff.1 hts₀
  obtain ⟨t₁, ts', rfl, ht₁, hts'⟩ := List.map_eq_cons_iff.1 hts₁
  have split : t₀ :: (us ++ t₁ :: ts') = t₀ :: us ++ [t₁] ++ ts' := by simp
  rw [split] at h
  obtain ⟨d, hinside, hrest⟩ := h.append
  exact ⟨t₀, t₁, us, ts', d, ht₀, ht₁, hus, hts', hinside, hrest⟩

/-- Every builtin is found by its name. -/
def Machine.Standard (m : Machine) : Prop :=
  ∀ b : Builtin, ∃ scope v, m.resolution? b.name = some (scope, v) ∧ v.datum = .operator (.builtin b)

theorem Machine.Standard.braced {m : Machine} (h : m.Standard) : m.Braced :=
  ⟨h .openBlock, h .closeBlock⟩

namespace Session

variable {χ : Type} {Γ : Charter} {x : Stake} {s t u : Session χ} {f : Frame} {rest : List Frame}
  {text : String} {ts : List Token} {a b : ℕ} {vs ws : List Value} {o o' : Outline}

/-! ### Reading on -/

/-- An ample session in which the top frame reads a text, nothing is pending, no block is being defined, and
the builtins are found by their names. -/
structure Scans (Γ : Charter) (x : Stake) (text : String) (f : Frame) (rest : List Frame)
    (s : Session χ) : Prop where
  ample : s.Ample Γ x []
  frames : s.machine.calls.frames = f :: rest
  pending : s.machine.pending = none
  scans : f.Scans text
  depth : s.machine.blockDepth = 0
  standard : s.machine.Standard

/-- The text has been read up to a place, and the values have been pushed meanwhile. -/
structure Delivers (Γ : Charter) (x : Stake) (f : Frame) (rest : List Frame) (vs : List Value) (b : ℕ)
    (s t : Session χ) : Prop where
  arrives : Arrives Γ x [] s t
  scene : t.machine.scene = { s.machine.scene with
    operands := vs.reverse ++ s.machine.operands.items
    frames := { f with cursor := b } :: rest }

namespace Delivers

theorem operands (h : Delivers Γ x f rest vs b s t) :
    t.machine.operands.items = vs.reverse ++ s.machine.operands.items :=
  congrArg Scene.operands h.scene

theorem trans (h : Delivers Γ x f rest vs a s t)
    (h' : Delivers Γ x { f with cursor := a } rest ws b t u) :
    Delivers Γ x f rest (vs ++ ws) b s u := by
  refine ⟨h.arrives.trans h'.arrives, h'.scene.trans ?_⟩
  rw [h.scene, h.operands]
  simp

/-- What has been pushed stays what it is. -/
theorem outlines (h : Delivers Γ x f rest vs b s t) (ho : s.machine.memory.heap.Outlines ws o)
    (held : ∀ v ∈ ws, v ∈ s.machine.operands.items) : t.machine.memory.heap.Outlines ws o :=
  ho.of_retains h.arrives.retains fun v hv _ hi => .inl (.inl ⟨v, held v hv, hi⟩)

end Delivers

theorem Arrives.standard (h : Arrives Γ x [] s t)
    (hs : t.machine.scopes.items = s.machine.scopes.items) (standard : s.machine.Standard) :
    t.machine.Standard := by
  intro b
  rw [h.resolution?_eq hs]
  exact standard b

/-- The session goes on to scan the text when more has been pushed. -/
theorem Scans.of_arrives {operands : List Value} (hs : s.Scans Γ x text f rest)
    (ht : Arrives Γ x [] s t) (scene : t.machine.scene = { s.machine.scene with
      operands := operands
      frames := { f with cursor := b } :: rest }) :
    t.Scans Γ x text { f with cursor := b } rest where
  ample := ht.ample
  frames := congrArg Scene.frames scene
  pending := (congrArg Scene.pending scene).trans hs.pending
  scans := ⟨hs.scans.datum, hs.scans.supply⟩
  depth := (congrArg Scene.blockDepth scene).trans hs.depth
  standard := ht.standard (congrArg Scene.scopes scene) hs.standard

/-- **Values with an outline are delivered** by the text up to a place. -/
def Evaluates (Γ : Charter) (x : Stake) (f : Frame) (rest : List Frame) (o : Outline) (b : ℕ)
    (s : Session χ) : Prop :=
  ∃ t vs, Delivers Γ x f rest vs b s t ∧ t.machine.memory.heap.Outlines vs o ∧
    ∀ v ∈ vs, v.isMark = false

theorem Scans.evaluates_nil (hs : s.Scans Γ x text f rest) :
    s.Evaluates Γ x f rest .nil f.cursor := by
  refine ⟨s, [], ⟨hs.ample.arrives, ?_⟩, .nil, List.forall_mem_nil _⟩
  rw [← hs.frames]
  rfl

/-- What is delivered first is below what is delivered next. -/
theorem Evaluates.append (hs : s.Scans Γ x text f rest) (first : s.Evaluates Γ x f rest o a)
    (next : ∀ t : Session χ, t.Scans Γ x text { f with cursor := a } rest →
      t.Evaluates Γ x { f with cursor := a } rest o' b) :
    s.Evaluates Γ x f rest (o.append o') b := by
  obtain ⟨t, vs, ht, outlines, hmark⟩ := first
  obtain ⟨u, ws, hu, outlines', hmark'⟩ := next t (hs.of_arrives ht.arrives ht.scene)
  have kept := hu.outlines outlines fun v hv => by
    rw [ht.operands]
    exact List.mem_append_left _ (List.mem_reverse.2 hv)
  exact ⟨u, vs ++ ws, ht.trans hu, kept.append outlines',
    List.forall_mem_append.2 ⟨hmark, hmark'⟩⟩

/-! ### Words -/

/-- A word delivers the value it stands for. -/
theorem Scans.evaluates_word {d : Datum} {token : Token} (hs : s.Scans Γ x text f rest)
    (hd : d.IsData) (htoken : Token.next text f.cursor = .ok (some token))
    (hvalue : token.value = d.word) : s.Evaluates Γ x f rest (.plain d .nil) token.stop := by
  have delivered {v : Value} {t : Session χ} (hv : v.datum = d) (ht : Arrives Γ x [] s t)
      (scene : t.machine.scene = { s.machine.scene with
        operands := v :: s.machine.operands.items
        frames := { f with cursor := token.stop } :: rest }) :
      s.Evaluates Γ x f rest (.plain d .nil) token.stop := by
    refine ⟨t, [v], ⟨ht, scene⟩, ?_, List.forall_mem_singleton.2 ?_⟩
    · subst hv
      exact .plain hd.handle?_eq_none .nil
    · rw [Value.isMark, hv]
      exact beq_eq_false_iff_ne.2 hd.ne_mark
  have constant {b : Builtin} {c : Value} (hc : b.constant? = some c) (hd : c.datum = d)
      (hname : d.word = .name b.name) : s.Evaluates Γ x f rest (.plain d .nil) token.stop := by
    obtain ⟨scope, v, hfound, hv⟩ := hs.standard b
    obtain ⟨t, ht, scene⟩ := hs.ample.reads_constant hs.frames toCome_nil hs.pending hs.scans htoken
      (by rw [hvalue, hname]; rfl) hs.depth hfound hv hc
    exact delivered hd ht scene
  have literal (hword : d.word = ⟨d, none⟩) (inert : d.isExecutable = false) :
      s.Evaluates Γ x f rest (.plain d .nil) token.stop := by
    have datum : (tokenValue f.value text token).datum = d := by
      rw [tokenValue, hvalue, hword]
      rfl
    obtain ⟨t, ht, scene⟩ := hs.ample.pushes hs.frames toCome_nil hs.pending hs.scans htoken
      (by rw [Value.isExecutable, datum, inert])
    exact delivered datum ht scene
  cases d with
  | null => exact constant (b := .nullValue) rfl rfl rfl
  | boolean b =>
    cases b with
    | true => exact constant (b := .trueValue) rfl rfl rfl
    | false => exact constant (b := .falseValue) rfl rfl rfl
  | integer n => exact literal rfl rfl
  | string text executable | name text executable =>
    cases executable with
    | false => exact literal rfl rfl
    | true => exact hd.elim
  | mark | operator | array | dictionary => exact hd.elim

/-! ### Containers -/

/-- Words between two brackets deliver what the operator makes of what these words deliver. -/
theorem Scans.evaluates_between (opening closing : Builtin) {t₀ t₁ : Token} {handle : Handle → Value}
    {P : List Value → Object → Prop} (hs : s.Scans Γ x text f rest)
    (hopening : opening.constant? = some .mark) (hopens : t₀.value.datum = .name opening.name true)
    (hcloses : t₁.value.datum = .name closing.name true)
    (hfollow : Token.Follow text f.cursor (t₀ :: ts ++ [t₁]) b)
    (hts : ∀ (t : Session χ) (d : ℕ), t.Scans Γ x text { f with cursor := t₀.stop } rest →
      Token.Follow text t₀.stop ts d → t.Evaluates Γ x { f with cursor := t₀.stop } rest o d)
    (encloses : ∀ (h : Heap) (vs : List Value), h.Outlines vs o → (∀ v ∈ vs, v.isMark = false) →
      closing.Encloses vs handle (P vs) id) :
    ∃ t i c vs, Delivers Γ x f rest [handle i] b s t ∧
      t.machine.memory.heap.object? i = some c ∧ P vs c ∧ t.machine.memory.heap.Outlines vs o := by
  obtain ⟨d, htoken, hinside, hclosing, rfl⟩ := hfollow.exists_inside
  obtain ⟨scope, v, hfound, hv⟩ := hs.standard opening
  obtain ⟨t, ht, opened⟩ := hs.ample.reads_constant hs.frames toCome_nil hs.pending hs.scans htoken hopens
    hs.depth hfound hv hopening
  obtain ⟨u, vs, hu, outlines, hmark⟩ := hts t d (hs.of_arrives ht opened) hinside
  have collected : u.machine.scene = { s.machine.scene with
      operands := vs.reverse ++ Value.mark :: s.machine.operands.items
      frames := { f with cursor := d } :: rest
      blockDepth := s.machine.blockDepth } := by
    rw [hu.scene, opened, show t.machine.operands.items = _ from congrArg Scene.operands opened]
    rfl
  obtain ⟨scope', w, hfound', hw⟩ := hs.standard closing
  obtain ⟨u', i, c, hu', scene, object, hc, retains⟩ := (ht.trans hu.arrives).encloses
    (encloses _ vs outlines hmark) hs.frames toCome_nil hs.pending hs.scans collected hclosing hcloses
    (.inl hs.depth) rfl hfound' hw
  exact ⟨u', i, c, vs, ⟨hu', scene⟩, object, hc,
    outlines.of_retains retains fun v hv j hj => ⟨v, hv, hj⟩⟩

/-- Words between braces deliver a block. -/
theorem Scans.evaluates_block {t₀ t₁ : Token} (hs : s.Scans Γ x text f rest) (code : o.IsCode)
    (hopens : t₀.opens = true) (hcloses : t₁.closes = true) (hts : ts.map Token.value = o.words)
    (hfollow : Token.Follow text f.cursor (t₀ :: ts ++ [t₁]) b) :
    s.Evaluates Γ x f rest (.array .block o .nil) b := by
  obtain ⟨body, spells, outlines⟩ :=
    code.exists_spells (fun t => (rfl : (tokenValue f.value text t).datum = t.value.datum)) hts
  obtain ⟨t, i, ht, scene, reads⟩ := Ample.blocks (gathers_of_spells spells) hs.ample hs.frames
    (fun _ _ _ => toCome_nil) hs.pending hs.scans rfl hs.standard.braced hopens hcloses hfollow
  obtain ⟨v, ws, j, q, same, hv, hq, inside, -⟩ := reads.of_block
  obtain ⟨rfl, rfl⟩ := List.cons.inj same
  exact ⟨t, [.array i .block], ⟨ht, scene⟩,
    .array (Heap.datum_of_block? hv) hq (outlines _ _ inside) .nil, List.forall_mem_singleton.2 rfl⟩

/-! ### Values in a row -/

/-- **Words for data deliver the values anew.** -/
theorem Scans.evaluates {h : Heap} (ho : h.Outlines vs o) (data : o.IsData)
    (hs : s.Scans Γ x text f rest) (hfollow : Token.Follow text f.cursor ts b)
    (hts : ts.map Token.value = o.words) : s.Evaluates Γ x f rest o.anew b := by
  induction ho generalizing s f ts b with
  | nil =>
    obtain rfl := List.map_eq_nil_iff.1 hts
    cases hfollow
    exact hs.evaluates_nil
  | plain hv _ ih =>
    obtain ⟨t₀, ts, rfl, ht₀, hts⟩ := List.map_eq_cons_iff.1 hts
    cases hfollow with | cons htoken hrest => ?_
    exact (hs.evaluates_word data.1 htoken ht₀).append hs fun t ht => ih data.2 ht hrest hts
  | @array v vs i access q items rest' hv hq hitems hrest' ihitems ihrest =>
    obtain ⟨t₀, t₁, us, ts₁, d, ht₀, ht₁, hus, hbehind, hinside, hrest⟩ :=
      hfollow.exists_between hts
    cases access with
    | block =>
      refine .append (o := .array .block items.anew .nil) hs ?_ fun t ht => ihrest data.2 ht hrest hbehind
      rw [data.1.anew_eq]
      exact hs.evaluates_block data.1 (by rw [Token.opens, ht₀]; rfl) (by rw [Token.closes, ht₁]; rfl)
        hus hinside
    | literal | mutable =>
      refine .append (o := .array .literal items.anew .nil) hs ?_ fun t ht => ihrest data.2 ht hrest hbehind
      obtain ⟨t, i, _, ws, ht, object, ⟨q', rfl, rfl⟩, outlines⟩ := hs.evaluates_between
        .openArray .closeArray rfl (by rw [ht₀]; rfl) (by rw [ht₁]; rfl)
        hinside (fun t d ht follow => ihitems data.1 ht follow hus)
        fun h vs _ hmark => Builtin.encloses_array hmark
      exact ⟨t, _, ht, .array rfl object outlines .nil, List.forall_mem_singleton.2 rfl⟩
  | @dictionary v vs i writable q entries rest' hv hq once hentries hrest' ihentries ihrest =>
    obtain ⟨t₀, t₁, us, ts₁, d, ht₀, ht₁, hus, hbehind, hinside, hrest⟩ :=
      hfollow.exists_between hts
    refine .append (o := .dictionary true entries.anew .nil) hs ?_ fun t ht => ihrest data.2 ht hrest hbehind
    obtain ⟨t, i, _, ws, ht, object, ⟨e, rfl, once', listing⟩, outlines⟩ := hs.evaluates_between
      .openDictionary .closeDictionary rfl (by rw [ht₀]; rfl)
      (by rw [ht₁]; rfl) hinside (fun t d ht follow => ihentries data.1 ht follow hus)
      fun h vs outlines hmark => Builtin.encloses_listing hmark once (by
        rw [outlines.plain?_eq, Outline.data_anew, hentries.plain?_eq])
    exact ⟨t, _, ht, .dictionary rfl object once' (outlines.of_datum listing) .nil,
      List.forall_mem_singleton.2 rfl⟩

end Session

end StackScript
