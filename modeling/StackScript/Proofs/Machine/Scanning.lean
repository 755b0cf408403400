import StackScript.Proofs.Machine.Arriving
import StackScript.Proofs.Operator.Pairing
import StackScript.Proofs.Operator.Writing
import StackScript.Proofs.Text.Nesting

/-!
# Texts that are read

A frame that reads a text queues its tokens or pushes them, one in each cycle.  The lemmas below say where
the cycles of an ample session lead that are spent on a token: one that is no executable name is pushed
(`Session.Ample.pushes`), a name is collected while a block is being defined
(`Session.Ample.collects`), and it gives way to what it is bound to when it is looked up
(`Session.Ample.resolves`).

What stands between two tokens may become a container.  The operators that build one
(`Builtin.Encloses`) replace the items above a mark by it, so that it takes the place of all that has been
read since the mark (`Session.Arrives.encloses`).
-/

namespace StackScript

open StackScript.Action Memory
open Relation (ReflTransGen)

/-- The frame reads a text. -/
structure Frame.Scans (f : Frame) (text : String) : Prop where
  datum : f.value.datum = .string text true
  supply : f.supply = none

/-! ### Operators that build a container -/

/-- What the operator makes of the items above a mark takes the place of the mark and the items: a container
with the property, which holds all the containers among them.  The number of blocks that are being defined
goes on to be `depth` of what it was. -/
structure Builtin.Encloses (b : Builtin) (items : List Value) (handle : Handle → Value)
    (P : Object → Prop) (depth : ℕ → ℕ) : Prop where
  proper : b.constant? = none
  asks : b.signature = []
  handles : ∀ i, (handle i).handle? = some i
  keeps : ∀ o, P o → ∀ v ∈ items, ∀ j, v.handle? = some j → ∃ w ∈ o.values, w.handle? = some j
  grants : ∀ (own : Option ℕ) (m : Machine) (below : List Value), m.Growing →
    m.memory.heap.WellFormed → m.operands.items = items.reverse ++ Value.mark :: below →
      ((b.operation []).runOn own m).Grants fun _ m' => ∃ i,
        m.Becomes { m.scene with
          operands := handle i :: below
          blockDepth := depth m.blockDepth } m' ∧ m.memory.heap.Gains i P m'.memory.heap

section

variable {items : List Value} (hmark : ∀ v ∈ items, v.isMark = false)
include hmark

/-- The items of an array. -/
theorem Builtin.encloses_array :
    Builtin.closeArray.Encloses items (.array · .literal) (Object.Lists items) id where
  proper := rfl
  asks := rfl
  handles _ := rfl
  keeps := by
    rintro _ ⟨s, rfl, rfl⟩ v hv j hj
    exact ⟨v, List.mem_reverse.1 hv, hj⟩
  grants own m below growing wf hitems :=
    (Operation.collectArray_grants growing wf .literal hitems rfl hmark).mono
      fun _ _ h => h.imp fun _ h => h.imp_right Heap.Builds.gains

/-- The items of a block. -/
theorem Builtin.encloses_block :
    Builtin.closeBlock.Encloses items (.array · .block) (Object.Lists items) (· - 1) where
  proper := rfl
  asks := rfl
  handles _ := rfl
  keeps := by
    rintro _ ⟨s, rfl, rfl⟩ v hv j hj
    exact ⟨v, List.mem_reverse.1 hv, hj⟩
  grants own m below growing wf hitems :=
    (Operation.endBlock_grants growing wf hitems rfl hmark []).mono
      fun _ _ h => h.imp fun _ h => h.imp_right Heap.Builds.gains

end

namespace Session

variable {χ : Type} {Γ : Charter} {x : Stake} {s t u : Session χ} {f : Frame} {rest goal : List Frame}
  {text name : String} {token : Token} {a b : ℕ} {items below : List Value}

/-! ### Cycles of a frame, by what it executes -/

theorem step_of_text (hp : s.machine.pending = none) (hf : f.Scans text) (index : ℕ) :
    step Natives.none index f s = stepSource index f text s := by
  rw [step_of_not_pending (by simp [hp]), advance, hf.supply]
  dsimp only
  rw [hf.datum]

/-! ### Single tokens -/

/-- A token of a text is no container. -/
theorem handle?_tokenValue (htoken : Token.next text a = .ok (some token)) (v : Value) :
    (tokenValue v text token).handle? = none :=
  handle?_of_token htoken

theorem isMark_tokenValue (htoken : Token.next text a = .ok (some token)) (v : Value) :
    (tokenValue v text token).isMark = false := by
  rw [Value.isMark, tokenValue, Value.withSource]
  rcases Token.datum_of_next htoken with ⟨_, hd⟩ | ⟨_, hd⟩ | ⟨_, _, hd⟩ <;> rw [hd] <;> rfl

theorem block?_tokenValue (htoken : Token.next text a = .ok (some token)) (v : Value) :
    (tokenValue v text token).block? = none := by
  rw [Value.block?, tokenValue, Value.withSource]
  rcases Token.datum_of_next htoken with ⟨_, hd⟩ | ⟨_, hd⟩ | ⟨_, _, hd⟩ <;> rw [hd]

/-- Above the other frames, that of a token holds nothing. -/
theorem below_of_token (htoken : Token.next text a = .ok (some token)) (v : Value) {g : Frame}
    (hframes : s.machine.calls.frames = { value := tokenValue v text token } :: rest)
    (hg : g ∈ s.machine.scene.frames) : (g.value.handle? = none ∧ g.locals = none) ∨
      ∃ g' ∈ rest, g'.value = g.value ∧ g'.locals = g.locals := by
  change g ∈ s.machine.calls.frames at hg
  rw [hframes] at hg
  rcases List.mem_cons.1 hg with rfl | hg
  · exact .inl ⟨handle?_tokenValue htoken v, rfl⟩
  · exact .inr ⟨g, hg, rfl, rfl⟩

/-- Reading on gives nothing up. -/
theorem holds_of_read {c : Scene} (top : List Frame)
    (hframes : s.machine.calls.frames = f :: rest) {cursor : ℕ}
    (hc : c.frames = top ++ { f with cursor := cursor } :: rest)
    (hoperands : s.machine.operands.items ⊆ c.operands)
    (hscopes : c.scopes = s.machine.scopes.items) (i : Handle)
    (hi : s.machine.scene.Holds i) : c.Holds i := by
  refine hi.mono hoperands (fun g hg => .inr ?_) hscopes
  change g ∈ s.machine.calls.frames at hg
  rw [hframes] at hg
  rw [hc]
  rcases List.mem_cons.1 hg with rfl | hg
  · exact ⟨_, List.mem_append_right _ List.mem_cons_self, rfl, rfl⟩
  · exact ⟨g, List.mem_append_right _ (List.mem_cons_of_mem _ hg), rfl, rfl⟩

/-- A token that is executable is queued above the text. -/
theorem Ample.queues (h : s.Ample Γ x goal) (hframes : s.machine.calls.frames = f :: rest)
    (hgoal : ToCome goal (f :: rest)) (hp : s.machine.pending = none) (hf : f.Scans text)
    (htoken : Token.next text f.cursor = .ok (some token))
    (hexec : (tokenValue f.value text token).isExecutable = true) :
    ∃ t, Arrives Γ x goal s t ∧ t.machine.scene = { s.machine.scene with
      frames := { value := tokenValue f.value text token } ::
        { f with cursor := token.stop } :: rest } := by
  refine h.turns hframes hgoal.ne hf.supply ?_ fun i =>
    holds_of_read [_] hframes rfl (List.Subset.refl _) rfl i
  rw [step_of_text hp hf]
  exact (stepSource_queues h.growing hframes htoken hexec).mono fun _ _ ht => ⟨ht.1, ht.2.sheds⟩

/-- Any other token is pushed. -/
theorem Ample.pushes (h : s.Ample Γ x goal) (hframes : s.machine.calls.frames = f :: rest)
    (hgoal : ToCome goal (f :: rest)) (hp : s.machine.pending = none) (hf : f.Scans text)
    (htoken : Token.next text f.cursor = .ok (some token))
    (hinert : (tokenValue f.value text token).isExecutable = false) :
    ∃ t, Arrives Γ x goal s t ∧ t.machine.scene = { s.machine.scene with
      operands := tokenValue f.value text token :: s.machine.operands.items
      frames := { f with cursor := token.stop } :: rest } := by
  refine h.turns hframes hgoal.ne hf.supply ?_ fun i =>
    holds_of_read [] hframes rfl (List.subset_cons_self _ _) rfl i
  rw [step_of_text hp hf]
  exact (stepSource_pushes h.growing hframes htoken hinert).mono fun _ _ ht => ⟨ht.1, ht.2.sheds⟩

/-- While a block is being defined, a token that is no brace is collected. -/
theorem Ample.collects (h : s.Ample Γ x goal) (hframes : s.machine.calls.frames = f :: rest)
    (hgoal : ToCome goal (f :: rest)) (hp : s.machine.pending = none) (hf : f.Scans text)
    (hdepth : 0 < s.machine.blockDepth)
    (htoken : Token.next text f.cursor = .ok (some token)) (hopens : token.opens = false)
    (hcloses : token.closes = false) :
    ∃ t, Arrives Γ x goal s t ∧ t.machine.scene = { s.machine.scene with
      operands := tokenValue f.value text token :: s.machine.operands.items
      frames := { f with cursor := token.stop } :: rest } := by
  cases hexec : (tokenValue f.value text token).isExecutable with
  | false => exact h.pushes hframes hgoal hp hf htoken hexec
  | true =>
    obtain ⟨name, hname⟩ : ∃ name, token.value.datum = .name name true := by
      rw [Value.isExecutable, tokenValue, Value.withSource] at hexec
      rcases Token.datum_of_next htoken with ⟨_, hd⟩ | ⟨_, hd⟩ | ⟨name, exec, hd⟩ <;>
        rw [hd] at hexec
      · cases hexec
      · cases hexec
      · obtain rfl : exec = true := hexec
        exact ⟨name, hd⟩
    have brace : isBrace name = false := by
      rw [Token.opens, hname] at hopens
      rw [Token.closes, hname] at hcloses
      simp_all [isBrace]
    obtain ⟨t, ht, scene⟩ := h.queues hframes hgoal hp hf htoken hexec
    have frames : t.machine.calls.frames = { value := tokenValue f.value text token } ::
        { f with cursor := token.stop } :: rest := congrArg Scene.frames scene
    have operands : t.machine.operands.items = s.machine.operands.items :=
      congrArg Scene.operands scene
    have depth : t.machine.blockDepth = s.machine.blockDepth := congrArg Scene.blockDepth scene
    have collected : (step Natives.none ({ f with cursor := token.stop } :: rest).length
        { value := tokenValue f.value text token } t).Grants fun _ u => t.machine.Becomes
          { t.machine.scene with
            operands := tokenValue f.value text token :: t.machine.operands.items
            frames := { f with cursor := token.stop } :: rest } u.machine ∧
          t.machine.memory.Sheds u.machine.memory := by
      rw [step_of_name ((congrArg Scene.pending scene).trans hp) rfl hname]
      exact stepName_collects ht.ample.growing frames (depth ▸ hdepth) brace _
    obtain ⟨u, hu, scene'⟩ := ht.ample.turns frames (hgoal.push _ _).ne rfl collected fun i hi =>
      hi.mono (List.subset_cons_self _ _) (fun g hg => below_of_token htoken _ frames hg) rfl
    refine ⟨u, ht.trans hu, scene'.trans ?_⟩
    rw [scene, operands]

/-- A name that is looked up gives way to what it is bound to. -/
theorem Ample.resolves (h : s.Ample Γ x goal) (hframes : s.machine.calls.frames = f :: rest)
    (hgoal : ToCome goal (f :: rest)) (hp : s.machine.pending = none) (hf : f.Scans text)
    (htoken : Token.next text f.cursor = .ok (some token))
    (hname : token.value.datum = .name name true)
    (lookup : s.machine.blockDepth = 0 ∨ isBrace name = true) {scope v : Value}
    (hfound : s.machine.resolution? name = some (scope, v)) :
    ∃ t source, Arrives Γ x goal s t ∧ t.machine.scene = { s.machine.scene with
      frames := { value := v.withSource source } :: { f with cursor := token.stop } :: rest } := by
  have named : (tokenValue f.value text token).datum = .name name true := hname
  obtain ⟨t, ht, scene⟩ := h.queues hframes hgoal hp hf htoken (by rw [Value.isExecutable, named]; rfl)
  have frames : t.machine.calls.frames = { value := tokenValue f.value text token } ::
      { f with cursor := token.stop } :: rest := congrArg Scene.frames scene
  have found : t.machine.resolution? name = some (scope, v) :=
    (ht.resolution?_eq (congrArg Scene.scopes scene) name).trans hfound
  obtain ⟨source, resolved⟩ : ∃ source, (step Natives.none
      ({ f with cursor := token.stop } :: rest).length
      { value := tokenValue f.value text token } t).Grants fun _ u => t.machine.Becomes
        { t.machine.scene with
          frames := { value := v.withSource source } :: { f with cursor := token.stop } :: rest }
        u.machine ∧ t.machine.memory.Sheds u.machine.memory := by
    rw [step_of_name ((congrArg Scene.pending scene).trans hp) rfl hname]
    have depth : t.machine.blockDepth = s.machine.blockDepth := congrArg Scene.blockDepth scene
    exact ⟨_, stepName_resolves ht.ample.sound ht.ample.growing frames (depth ▸ lookup) found _⟩
  obtain ⟨u, hu, scene'⟩ := ht.ample.turns frames (hgoal.push _ _).ne rfl resolved fun i hi =>
    hi.mono (List.Subset.refl _) (fun g hg => (below_of_token htoken _ frames hg).imp_right
      fun ⟨g', hg', same⟩ => ⟨g', List.mem_cons_of_mem _ hg', same⟩) rfl
  refine ⟨u, source, ht.trans hu, scene'.trans ?_⟩
  rw [scene]

/-! ### Operators -/

/-- The frame of an operator holds nothing. -/
theorem holds_of_operator {c : Scene} {v : Value} {o : Operator} (hv : v.datum = .operator o)
    (hframes : s.machine.calls.frames = { value := v } :: rest)
    (hoperands : s.machine.operands.items ⊆ c.operands) (hc : c.frames = rest)
    (hscopes : c.scopes = s.machine.scopes.items) (i : Handle)
    (hi : s.machine.scene.Holds i) : c.Holds i := by
  refine hi.mono hoperands (fun g hg => ?_) hscopes
  change g ∈ s.machine.calls.frames at hg
  rw [hframes] at hg
  rcases List.mem_cons.1 hg with rfl | hg
  · exact .inl ⟨by rw [Value.handle?, hv], rfl⟩
  · exact .inr ⟨g, hc ▸ hg, rfl, rfl⟩

/-- A constant is pushed. -/
theorem Ample.yields {b : Builtin} {v c : Value} (h : s.Ample Γ x goal)
    (hframes : s.machine.calls.frames = { value := v } :: rest)
    (hgoal : ToCome goal ({ value := v } :: rest)) (hp : s.machine.pending = none)
    (hv : v.datum = .operator (.builtin b)) (hb : b.constant? = some c) :
    ∃ t, Arrives Γ x goal s t ∧ t.machine.scene = { s.machine.scene with
      operands := c :: s.machine.operands.items
      frames := rest } := by
  refine h.turns hframes hgoal.ne rfl ?_ fun i =>
    holds_of_operator hv hframes (List.subset_cons_self _ _) rfl rfl i
  rw [step_of_builtin hp rfl hv, stepOperator, Behaviour.ofOperator, Behaviour.ofBuiltin, hb]
  exact pushOperand_popFrame_grants h.growing hframes c

/-- A name of a constant is read, and the constant is pushed. -/
theorem Ample.reads_constant {b : Builtin} {scope v c : Value} (h : s.Ample Γ x goal)
    (hframes : s.machine.calls.frames = f :: rest) (hgoal : ToCome goal (f :: rest))
    (hp : s.machine.pending = none) (hf : f.Scans text)
    (htoken : Token.next text f.cursor = .ok (some token))
    (hname : token.value.datum = .name name true) (depth : s.machine.blockDepth = 0)
    (hfound : s.machine.resolution? name = some (scope, v))
    (hv : v.datum = .operator (.builtin b)) (hb : b.constant? = some c) :
    ∃ t, Arrives Γ x goal s t ∧ t.machine.scene = { s.machine.scene with
      operands := c :: s.machine.operands.items
      frames := { f with cursor := token.stop } :: rest } := by
  obtain ⟨t, source, ht, scene⟩ := h.resolves hframes hgoal hp hf htoken hname (.inl depth) hfound
  obtain ⟨u, hu, scene'⟩ := ht.ample.yields (congrArg Scene.frames scene)
    (hgoal.push _ _) ((congrArg Scene.pending scene).trans hp) hv hb
  refine ⟨u, ht.trans hu, scene'.trans ?_⟩
  rw [scene, show t.machine.operands.items = s.machine.operands.items from
    congrArg Scene.operands scene]

theorem matchOperands_nil (m : Machine) : m.matchOperands [] = .ok [] := by
  simp [Machine.matchOperands, Machine.matchOperands.go]

section

variable {b : Builtin} {handle : Handle → Value} {P : Object → Prop} {depth : ℕ → ℕ}
  (hb : b.Encloses items handle P depth)
include hb

/-- The items above a mark give way to a container. -/
theorem Ample.ends {v : Value} (h : s.Ample Γ x goal)
    (hframes : s.machine.calls.frames = { value := v } :: rest)
    (hgoal : ToCome goal ({ value := v } :: rest)) (hp : s.machine.pending = none)
    (hv : v.datum = .operator (.builtin b))
    (hitems : s.machine.operands.items = items.reverse ++ Value.mark :: below) :
    ∃ t i, s.Next t ∧ t.Ample Γ x goal ∧ t.machine.scene = { s.machine.scene with
      operands := handle i :: below
      frames := rest
      blockDepth := depth s.machine.blockDepth } ∧
        s.machine.memory.heap.Gains i P t.machine.memory.heap := by
  obtain ⟨t, next, ample, i, becomes, gains⟩ := h.next (P := fun t => ∃ i, s.machine.Becomes
    { s.machine.scene with
      operands := handle i :: below
      frames := rest
      blockDepth := depth s.machine.blockDepth } t.machine ∧
        s.machine.memory.heap.Gains i P t.machine.memory.heap) hframes hgoal.ne
    (fed_of_no_supply hframes rfl) (by
    rw [step_of_builtin hp rfl hv]
    refine (dispatch_ends (E := fun c μ => ∃ i, c = { s.machine.scene with
        operands := handle i :: below
        frames := { value := v, state := .firstCall } :: rest
        blockDepth := depth s.machine.blockDepth } ∧ s.machine.memory.heap.Gains i P μ.heap)
      h.sound h.growing hb.proper hframes rfl (hb.asks ▸ matchOperands_nil _) ?_ ?_).mono ?_
    · intro m hm recounts sound
      refine (hb.grants (some rest.length) m below (hm.growing h.growing) sound.wellFormed
        (hm.operands.trans hitems)).mono ?_
      rintro _ m' ⟨i, h', gains⟩
      refine ⟨_, ⟨h'.scene, h'.growth.trans hm.growth⟩, hm.frames, i, ?_,
        gains.of_content recounts.content⟩
      rw [hm.scene, show m.blockDepth = s.machine.blockDepth from congrArg Scene.blockDepth hm.scene]
    · rintro c μ ν ⟨i, hc, gains⟩ hν
      exact ⟨i, hc, gains.sheds hν⟩
    · rintro _ t ⟨_, ht, i, rfl, gains⟩
      exact ⟨i, ht, gains⟩)
  exact ⟨t, i, next, ample, becomes.scene, gains⟩

/-- What has been read since a mark gives way to a container.  What is held before, on the stack or by the
container, is retained. -/
theorem Ample.closes {scope v : Value} (h : s.Ample Γ x goal)
    (hframes : s.machine.calls.frames = f :: rest) (hgoal : ToCome goal (f :: rest))
    (hp : s.machine.pending = none) (hf : f.Scans text)
    (htoken : Token.next text f.cursor = .ok (some token))
    (hname : token.value.datum = .name name true)
    (lookup : s.machine.blockDepth = 0 ∨ isBrace name = true)
    (hfound : s.machine.resolution? name = some (scope, v)) (hv : v.datum = .operator (.builtin b))
    (hitems : s.machine.operands.items = items.reverse ++ Value.mark :: below) :
    ∃ t i o, Cycles s t ∧ t.Ample Γ x goal ∧ t.machine.scene = { s.machine.scene with
      operands := handle i :: below
      frames := { f with cursor := token.stop } :: rest
      blockDepth := depth s.machine.blockDepth } ∧
        t.machine.memory.heap.object? i = some o ∧ P o ∧
          ∀ R : Handle → Prop, (∀ j, R j → s.machine.Roots x j) →
            (∀ j, R j → t.machine.Roots x j ∨ ∃ v ∈ items, v.handle? = some j) →
              Heap.Retains R s.machine.memory.heap t.machine.memory.heap := by
  obtain ⟨t, source, ht, scene⟩ := h.resolves hframes hgoal hp hf htoken hname lookup hfound
  obtain ⟨u, i, next, ample, scene', gains⟩ := ht.ample.ends hb (congrArg Scene.frames scene)
    (hgoal.push _ _) ((congrArg Scene.pending scene).trans hp) hv
    ((congrArg Scene.operands scene).trans hitems)
  -- the container is on the stack, so it is there, and so is what it holds
  have known : u.machine.Knows x (handle i) :=
    Machine.knows_of_operand (by rw [show u.machine.operands.items = _ from
      congrArg Scene.operands scene']; exact List.mem_cons_self)
  obtain ⟨o, object, -⟩ := ample.sound.refersTo known (hb.handles i)
  have ho : P o := gains.replaces.shows o object
  refine ⟨u, i, o, ht.cycles.tail next, ample, ?_, object, ho, fun R hRs hRu => ?_⟩
  · rw [scene', scene, show t.machine.blockDepth = s.machine.blockDepth from
      congrArg Scene.blockDepth scene]
  · refine (ht.retains.mono hRs).trans (ht.ample.retains ample gains.replaces.drifts
      (by rintro _ rfl; exact gains.unused) (fun j hj => ht.ample.sound.live (ht.roots (hRs j hj))) ?_)
    intro j hj
    rcases hRu j hj with root | ⟨v, hv, hj⟩
    · exact ample.sound.live root
    · exact ample.sound.closed i j ⟨o, object, hb.keeps o ho v hv j hj⟩

/-- **What has been read since a mark becomes a container**, which is all that is left of it. -/
theorem Arrives.encloses {scope v : Value} {stop among : ℕ} (ht : Arrives Γ x goal s t)
    (hframes : s.machine.calls.frames = f :: rest)
    (hgoal : ToCome goal ({ f with cursor := stop } :: rest)) (hp : s.machine.pending = none)
    (hf : f.Scans text)
    (scene : t.machine.scene = { s.machine.scene with
      operands := items.reverse ++ Value.mark :: s.machine.operands.items
      frames := { f with cursor := stop } :: rest
      blockDepth := among })
    (htoken : Token.next text stop = .ok (some token))
    (hname : token.value.datum = .name name true) (lookup : among = 0 ∨ isBrace name = true)
    (back : depth among = s.machine.blockDepth)
    (hfound : s.machine.resolution? name = some (scope, v))
    (hv : v.datum = .operator (.builtin b)) :
    ∃ u i o, Arrives Γ x goal s u ∧ u.machine.scene = { s.machine.scene with
      operands := handle i :: s.machine.operands.items
      frames := { f with cursor := token.stop } :: rest } ∧
        u.machine.memory.heap.object? i = some o ∧ P o ∧
          Heap.Retains (fun j => ∃ v ∈ items, v.handle? = some j) t.machine.memory.heap
            u.machine.memory.heap := by
  have among_eq : t.machine.blockDepth = among := congrArg Scene.blockDepth scene
  obtain ⟨u, i, o, cycles, ample, closed, object, ho, retains⟩ := ht.ample.closes hb
    (f := { f with cursor := stop }) (congrArg Scene.frames scene)
    hgoal ((congrArg Scene.pending scene).trans hp) ⟨hf.datum, hf.supply⟩ htoken hname (among_eq ▸ lookup)
    ((ht.resolution?_eq (congrArg Scene.scopes scene) name).trans hfound) hv
    (congrArg Scene.operands scene)
  have final : u.machine.scene = { s.machine.scene with
      operands := handle i :: s.machine.operands.items
      frames := { f with cursor := token.stop } :: rest } := by
    rw [closed, scene, among_eq, back]
    rfl
  have holds (j : Handle) (hj : s.machine.scene.Holds j) : u.machine.scene.Holds j := by
    rw [final]
    exact holds_of_read [] hframes rfl (List.subset_cons_self _ _) rfl j hj
  have kept := retains (s.machine.Roots x) (fun j => ht.roots) fun j hj => .inl (hj.imp_left (holds j))
  have inside := retains (fun j => ∃ v ∈ items, v.handle? = some j)
    (fun j ⟨v, hv, hj⟩ => .inl (.inl ⟨v, by rw [scene]; simp [hv], hj⟩)) fun j => .inr
  exact ⟨u, i, o, ⟨ht.cycles.trans cycles, ample, holds, ht.retains.trans kept⟩, final, object, ho,
    inside⟩

end

end Session

end StackScript
