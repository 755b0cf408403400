import StackScript.Proofs.Machine.Scanning
import StackScript.Proofs.Text.Lexing

/-!
# Blocks mirror the source

A text between braces is not executed: its tokens are collected above a mark, and what is between a pair
of braces becomes a block when the second one is met, be it within another block or not.  So the tokens
of a text that stand between a pair of braces leave one block that reads as the code they spell, and
nothing else (`blocks_mirror_the_source`).
-/

namespace StackScript

open StackScript.Action Memory
open Relation (ReflTransGen)

/-- The braces stand for the operators that begin and end a block. -/
structure Machine.Braced (m : Machine) : Prop where
  opens : ∃ scope v, m.resolution? "\x7b" = some (scope, v) ∧
    v.datum = .operator (.builtin .openBlock)
  closes : ∃ scope v, m.resolution? "\x7d" = some (scope, v) ∧
    v.datum = .operator (.builtin .closeBlock)

namespace Session

variable {χ : Type} {Γ : Charter} {x : Stake} {s t u : Session χ} {f : Frame}
  {rest goal : List Frame} {text : String} {token : Token} {ts : List Token} {code : Code} {b : ℕ}

/-! ### Braces -/

/-- The operator that begins a block pushes a mark. -/
theorem Ample.begins {v : Value} (h : s.Ample Γ x goal)
    (hframes : s.machine.calls.frames = { value := v } :: rest)
    (hgoal : ToCome goal ({ value := v } :: rest)) (hp : s.machine.pending = none)
    (hv : v.datum = .operator (.builtin .openBlock)) :
    ∃ t, Arrives Γ x goal s t ∧ t.machine.scene = { s.machine.scene with
      operands := .mark :: s.machine.operands.items
      frames := rest
      blockDepth := s.machine.blockDepth + 1 } := by
  refine h.turns hframes hgoal.ne rfl ?_ fun i =>
    holds_of_operator hv hframes (List.subset_cons_self _ _) rfl rfl i
  rw [step_of_builtin hp rfl hv]
  refine (dispatch_ends (E := fun c μ => c = { s.machine.scene with
      operands := .mark :: s.machine.operands.items
      frames := { value := v, state := .firstCall } :: rest
      blockDepth := s.machine.blockDepth + 1 } ∧ s.machine.memory.Sheds μ)
    h.sound h.growing rfl hframes rfl (matchOperands_nil _) ?_
    fun c μ ν he hν => ⟨he.1, trans_of Sheds he.2 hν⟩).mono ?_
  · intro m hm recounts _
    refine (Operation.beginBlock_grants (hm.growing h.growing) []).mono fun _ m' ⟨h', recounts'⟩ =>
      ⟨_, ⟨h'.scene, h'.growth.trans hm.growth⟩, ?_, ?_,
        trans_of Sheds recounts.sheds recounts'.sheds⟩
    · exact hm.frames
    · rw [hm.scene, hm.operands, show m.blockDepth = s.machine.blockDepth from
        congrArg Scene.blockDepth hm.scene]
      rfl
  · rintro _ t ⟨_, ht, rfl, sheds⟩
    exact ⟨ht, sheds⟩

/-- A brace that opens pushes a mark. -/
theorem Ample.opens (h : s.Ample Γ x goal) (hframes : s.machine.calls.frames = f :: rest)
    (hgoal : ToCome goal (f :: rest)) (hp : s.machine.pending = none) (hf : f.Scans text)
    (hbraced : s.machine.Braced)
    (htoken : Token.next text f.cursor = .ok (some token)) (hopens : token.opens = true) :
    ∃ t, Arrives Γ x goal s t ∧ t.machine.scene = { s.machine.scene with
      operands := .mark :: s.machine.operands.items
      frames := { f with cursor := token.stop } :: rest
      blockDepth := s.machine.blockDepth + 1 } := by
  obtain ⟨scope, v, hfound, hv⟩ := hbraced.opens
  obtain ⟨t, source, ht, scene⟩ := h.resolves hframes hgoal hp hf htoken
    (by simpa [Token.opens] using hopens) (.inr rfl) hfound
  obtain ⟨u, hu, scene'⟩ := ht.ample.begins (congrArg Scene.frames scene)
    (hgoal.push _ _) ((congrArg Scene.pending scene).trans hp) hv
  refine ⟨u, ht.trans hu, scene'.trans ?_⟩
  rw [scene, show t.machine.operands.items = s.machine.operands.items from
    congrArg Scene.operands scene, show t.machine.blockDepth = s.machine.blockDepth from
    congrArg Scene.blockDepth scene]

/-! ### Code -/

/-- While a block is being defined, the tokens are collected as the code they spell. -/
def Gathers (Γ : Charter) (x : Stake) (goal : List Frame) (v : Value) (text : String)
    (ts : List Token) (code : Code) : Prop :=
  ∀ (s : Session χ) (f : Frame) (rest : List Frame) (b : ℕ), s.Ample Γ x goal →
    s.machine.calls.frames = f :: rest →
    (∀ c, f.cursor ≤ c → c < b → ToCome goal ({ f with cursor := c } :: rest)) →
      s.machine.pending = none → f.Scans text → f.value = v →
      0 < s.machine.blockDepth → s.machine.Braced → Token.Follow text f.cursor ts b →
        ∃ t vs, Arrives Γ x goal s t ∧ t.machine.scene = { s.machine.scene with
          operands := vs.reverse ++ s.machine.operands.items
          frames := { f with cursor := b } :: rest } ∧
            t.machine.memory.heap.Reads vs code ∧ ∀ v ∈ vs, v.isMark = false

theorem Arrives.braced (h : Arrives Γ x goal s t)
    (hs : t.machine.scopes.items = s.machine.scopes.items) (hbraced : s.machine.Braced) :
    t.machine.Braced :=
  ⟨h.resolution?_eq hs _ ▸ hbraced.opens, h.resolution?_eq hs _ ▸ hbraced.closes⟩

/-- **Tokens between braces become a block** of the code they spell, whether within another block or
not. -/
theorem Ample.blocks {v : Value} (hgathers : Gathers (χ := χ) Γ x goal v text ts code)
    (h : s.Ample Γ x goal) (hframes : s.machine.calls.frames = f :: rest)
    (hgoal : ∀ c, f.cursor ≤ c → c < b → ToCome goal ({ f with cursor := c } :: rest))
    (hp : s.machine.pending = none) (hf : f.Scans text) (hv : f.value = v)
    (hbraced : s.machine.Braced) {t₀ t₁ : Token} (hopens : t₀.opens = true)
    (hcloses : t₁.closes = true) (hfollow : Token.Follow text f.cursor (t₀ :: ts ++ [t₁]) b) :
    ∃ t i, Arrives Γ x goal s t ∧ t.machine.scene = { s.machine.scene with
      operands := .array i .block :: s.machine.operands.items
      frames := { f with cursor := b } :: rest } ∧
        t.machine.memory.heap.Reads [.array i .block] (.block none code .nil) := by
  obtain ⟨d, htoken, hbody, hclosing, rfl⟩ := hfollow.exists_inside
  have first : f.cursor < t₀.stop := Token.lt_stop_of_next htoken
  have inside : t₀.stop ≤ d := hbody.le
  have last : d < t₁.stop := Token.lt_stop_of_next hclosing
  -- a mark is pushed, what the tokens between spell is collected, and the closing brace builds
  obtain ⟨t, ht, opened⟩ := h.opens hframes (hgoal f.cursor le_rfl (by omega)) hp hf hbraced htoken hopens
  obtain ⟨u, vs, hu, gathered, reads, hmark⟩ := hgathers t { f with cursor := t₀.stop } rest d ht.ample
    (congrArg Scene.frames opened) (fun c hc hd => hgoal c (first.le.trans hc) (hd.trans last))
    ((congrArg Scene.pending opened).trans hp) ⟨hf.datum, hf.supply⟩ hv
    (by rw [show t.machine.blockDepth = _ from congrArg Scene.blockDepth opened]; exact Nat.succ_pos _)
    (ht.braced (congrArg Scene.scopes opened) hbraced) hbody
  rw [opened] at gathered
  have arrived := ht.trans hu
  obtain ⟨scope, w, hfound, hw⟩ := hbraced.closes
  have collected : u.machine.scene = { s.machine.scene with
      operands := vs.reverse ++ Value.mark :: s.machine.operands.items
      frames := { f with cursor := d } :: rest
      blockDepth := s.machine.blockDepth + 1 } := by
    rw [gathered, show t.machine.operands.items = _ from congrArg Scene.operands opened]
  obtain ⟨u', i, _, hu', scene, object, ⟨a, rfl, ha⟩, retains⟩ := arrived.encloses
    (Builtin.encloses_block hmark) hframes (hgoal d (by omega) last) hp hf collected hclosing
    (by simpa [Token.closes] using hcloses) (.inr rfl) rfl hfound hw
  exact ⟨u', i, hu', scene, .block (v := .array i .block) rfl object
    (ha ▸ reads.of_retains retains fun v hv j hj => ⟨v, hv, hj⟩) .nil⟩

/-- **While a block is being defined** its tokens are collected, blocks within it being built on the
way. -/
theorem gathers_of_spells {v : Value} (h : Token.Spells (tokenValue v text) ts code) :
    Gathers (χ := χ) Γ x goal v text ts code := by
  -- on what is spelled; a nested block is built by `Ample.blocks` from the hypothesis about its body
  induction h with
  | nil =>
    intro s f rest b hs hframes hgoal hp hf hv hdepth hbraced hfollow
    cases hfollow
    refine ⟨s, [], hs.arrives, ?_, .nil, List.forall_mem_nil _⟩
    rw [← hframes]
    rfl
  | @value token ts code hopens hcloses _ ih =>
    intro s f rest b hs hframes hgoal hp hf hv hdepth hbraced hfollow
    cases hfollow with | cons htoken hrest => ?_
    have on := Token.lt_stop_of_next htoken
    obtain ⟨t, ht, scene⟩ := hs.collects hframes (hgoal f.cursor le_rfl (on.trans_le hrest.le)) hp hf
      hdepth htoken hopens hcloses
    obtain ⟨u, vs, hu, scene', reads, hmark⟩ := ih t { f with cursor := token.stop } rest b ht.ample
      (congrArg Scene.frames scene) (fun c hc => hgoal c (on.le.trans hc))
      ((congrArg Scene.pending scene).trans hp) ⟨hf.datum, hf.supply⟩ hv
      (by rwa [show t.machine.blockDepth = _ from congrArg Scene.blockDepth scene])
      (ht.braced (congrArg Scene.scopes scene) hbraced) hrest
    refine ⟨u, tokenValue v text token :: vs, ht.trans hu, scene'.trans ?_,
      .value (block?_tokenValue htoken v) reads,
      List.forall_mem_cons.2 ⟨isMark_tokenValue htoken v, hmark⟩⟩
    rw [scene, show t.machine.operands.items = _ from congrArg Scene.operands scene, hv]
    simp
  | @block t₀ t₁ ts us body code hopens hcloses _ _ ihbody ihrest =>
    intro s f rest b hs hframes hgoal hp hf hv hdepth hbraced hfollow
    obtain ⟨d, hblock, hus⟩ : ∃ d, Token.Follow text f.cursor (t₀ :: ts ++ [t₁]) d ∧
        Token.Follow text d us b := Token.Follow.append (by simpa using hfollow)
    obtain ⟨t, i, ht, scene, reads⟩ := Ample.blocks ihbody hs hframes
      (fun c hc hd => hgoal c hc (hd.trans_le hus.le)) hp hf hv hbraced hopens hcloses hblock
    obtain ⟨u, vs, hu, scene', reads', hmark⟩ := ihrest t { f with cursor := d } rest b ht.ample
      (congrArg Scene.frames scene) (fun c hc => hgoal c (hblock.le.trans hc))
      ((congrArg Scene.pending scene).trans hp) ⟨hf.datum, hf.supply⟩ hv
      (by rwa [show t.machine.blockDepth = _ from congrArg Scene.blockDepth scene])
      (ht.braced (congrArg Scene.scopes scene) hbraced) hus
    refine ⟨u, .array i .block :: vs, ht.trans hu, scene'.trans ?_, ?_,
      List.forall_mem_cons.2 ⟨rfl, hmark⟩⟩
    · rw [scene, show t.machine.operands.items = _ from congrArg Scene.operands scene]
      simp
    · -- the block built first is still what it was
      have kept := reads.of_retains hu.retains fun v hv j hj =>
        .inl (.inl ⟨v, by rw [scene]; exact List.mem_cons.2 (.inl (List.mem_singleton.1 hv)), hj⟩)
      cases kept with
      | block hv hs hbody => exact .block hv hs hbody reads'

end Session

open Session in
/-- **Blocks mirror the source.**  Let a host have reached a session in which no exception is pending,
and the braces stand for the operators that begin and end a block.  Let the top frame read a text at a
place where tokens stand between a pair of braces, and let braces be balanced in these tokens.  If no
allocation is refused before the text goes on after the second brace, then some cycles later one block has
been pushed that reads as the code the tokens spell, and the text goes on there.  Everything else the
session shows is as it was, and so is every container it led to, or its host. -/
theorem blocks_mirror_the_source {χ : Type} {options : Options} {m₀ : Machine}
    {owned : List Value} {s : Session χ} {f : Frame} {rest : List Frame} {text : String}
    {opening closing : Token} {ts : List Token} {stop : ℕ}
    (hm₀ : m₀.Created options) (h : Reached m₀ owned s) (hp : s.machine.pending = none)
    (hbraced : s.machine.Braced)
    (hgranted : ¬ s.StarvesBefore ({ f with cursor := stop } :: rest))
    (hframes : s.machine.calls.frames = f :: rest) (hf : f.Scans text)
    (hopens : opening.opens = true) (hcloses : closing.closes = true)
    (hts : Token.balanced 0 ts = true)
    (hfollow : Token.Follow text f.cursor (opening :: ts ++ [closing]) stop) :
    ∃ code t i, Token.Spells (tokenValue f.value text) ts code ∧ Cycles s t ∧
      t.machine.scene = { s.machine.scene with
        operands := .array i .block :: s.machine.operands.items
        frames := { f with cursor := stop } :: rest } ∧
      t.machine.memory.heap.Reads [.array i .block] (.block none code .nil) ∧
      Heap.Retains (s.machine.Roots (.refs owned)) s.machine.memory.heap t.machine.memory.heap := by
  obtain ⟨Γ, -, kept⟩ := h.sound hm₀
  have ample : s.Ample Γ (.refs owned) ({ f with cursor := stop } :: rest) :=
    ⟨kept.sound, h.growing hm₀, hgranted⟩
  obtain ⟨code, spells⟩ := Token.exists_code_of_balanced (tokenValue f.value text) hts
  obtain ⟨t, i, ht, scene, reads⟩ := Ample.blocks (gathers_of_spells spells) ample hframes
    (fun c _ hc => ⟨fun same => hc.ne (congrArg Frame.cursor (List.cons.inj same).1), le_rfl⟩) hp hf rfl
    hbraced hopens hcloses hfollow
  exact ⟨code, t, i, spells, ht.cycles, scene, reads, ht.retains⟩

/-- A block within a block, of names that are not looked up. -/
theorem nested_blocks_are_built : ∃ (s t : Session Unit) (code : Code) (i : Handle),
    Session.trial {} "1 \x7ba \x7bstop\x7d\x7d" 1 = some s ∧ Session.Cycles s t ∧
      t.machine.operands.items = .array i .block :: s.machine.operands.items ∧
        t.machine.memory.heap.Reads [.array i .block] (.block none code .nil) := by
  have facts : (Session.trial {} "1 \x7ba \x7bstop\x7d\x7d" 1).map (fun s => (s.machine.calls.frames,
      s.machine.pending, (s.machine.resolution? "\x7b").map fun found => found.2.datum,
        (s.machine.resolution? "\x7d").map fun found => found.2.datum, s.concludes 20)) =
      some ([{ value := ⟨.string "1 \x7ba \x7bstop\x7d\x7d" true,
        some (.whole "-" "1 \x7ba \x7bstop\x7d\x7d")⟩, cursor := 1 }], none,
          some (.operator (.builtin .openBlock)), some (.operator (.builtin .closeBlock)), true) := by
    decide +kernel
  obtain ⟨s, hs, facts⟩ := Option.map_eq_some_iff.1 facts
  simp only [Prod.mk.injEq] at facts
  obtain ⟨frames, pending, opens, closes, concludes⟩ := facts
  obtain ⟨m₀, created, reached⟩ := Reached.of_trial (by rintro t ⟨⟩) hs
  have braced : s.machine.Braced := by
    obtain ⟨⟨scope, v⟩, found, hv⟩ := Option.map_eq_some_iff.1 opens
    obtain ⟨⟨scope', v'⟩, found', hv'⟩ := Option.map_eq_some_iff.1 closes
    exact ⟨⟨scope, v, found, hv⟩, ⟨scope', v', found', hv'⟩⟩
  have follow : Token.Follow "1 \x7ba \x7bstop\x7d\x7d" 1 (⟨.name "\x7b", 2, 3⟩ ::
      [⟨.name "a", 3, 4⟩, ⟨.name "\x7b", 5, 6⟩, ⟨.name "stop", 6, 10⟩, ⟨.name "\x7d", 10, 11⟩] ++
        [⟨.name "\x7d", 11, 12⟩]) 12 :=
    .cons rfl (.cons rfl (.cons rfl (.cons rfl (.cons rfl (.cons rfl (.nil 12))))))
  obtain ⟨code, t, i, -, cycles, scene, reads, -⟩ := blocks_mirror_the_source created reached pending
    braced (Session.not_starvesBefore (Session.granted_of_concludes concludes)) frames ⟨rfl, rfl⟩ rfl
    rfl rfl follow
  exact ⟨s, t, code, i, hs, cycles, congrArg Scene.operands scene, reads⟩

end StackScript
