import StackScript.Proofs.Machine.Ample
import StackScript.Proofs.Memory.Codes

/-!
# Building from a mark

A mark remembers where a literal array or a block begins.  The operators that begin one push it, and
those that end one replace it, with all that is above it, by the array built from that.  They are
granted what they do unless memory is short.
-/

namespace StackScript

open StackScript.Action Memory

namespace Operation

variable {α β : Type} {own : Option ℕ} {m : Machine} {p : Operation α} {f : α → Operation β}
  {M : α → Machine → Prop} {P : β → Machine → Prop} {items below : List Value} {mark : Value}

theorem grants_runOn_bind (hp : (p.runOn own m).Grants M)
    (hf : ∀ a m', M a m' → ((f a).runOn own m').Grants P) : ((p >>= f).runOn own m).Grants P := by
  rw [runOn, Program.run_bind]
  exact grants_bind hp hf

theorem grants_ask {r : Request} {M : r.Answer → Machine → Prop} (hr : (r.perform own m).Grants M) :
    ((ask r).runOn own m).Grants M := by
  rw [runOn, ask, Program.run_request]
  exact hr

/-! ### Locals -/

section

variable {g : Frame} {above rest : List Frame} {d : Handle} {Q : Dictionary → Prop}

/-- A local is looked up in the dictionary of the operator's own frame. -/
theorem local?_grants (above : List Frame) (hframes : m.calls.frames = above ++ g :: rest)
    (hlocals : g.locals = some d)
    (hd : m.memory.heap.Shows d fun o => ∃ D, o = .dictionary D ∧ Q D) (name : String) :
    ((local? name).runOn (some rest.length) m).Grants fun a m' =>
      m' = m ∧ ∃ D, Q D ∧ a = D.get? name := by
  unfold local?
  rw [runOn_bind (ownFrame_runOn (CallStack.frame?_above hframes)), runOn_bind machine_runOn]
  unfold Machine.localOf
  rw [hlocals]
  dsimp only
  cases hm : m.memory.dictionary d with
  | error b => trivial
  | ok D =>
    obtain ⟨_, same, hD⟩ := hd _ (Memory.object?_of_dictionary hm)
    cases same
    exact ⟨rfl, D, hD, rfl⟩

/-- A local that has to be there. -/
theorem expectLocal_grants (above : List Frame) (hframes : m.calls.frames = above ++ g :: rest)
    (hlocals : g.locals = some d)
    (hd : m.memory.heap.Shows d fun o => ∃ D, o = .dictionary D ∧ Q D) {name : String} {v : Value}
    (hv : ∀ D, Q D → D.get? name = some v) :
    ((expectLocal name).runOn (some rest.length) m).Grants fun a m' => m' = m ∧ a = v := by
  refine grants_runOn_bind (local?_grants above hframes hlocals hd name) ?_
  rintro _ _ ⟨rfl, D, hD, rfl⟩
  rw [hv D hD]
  exact ⟨rfl, rfl⟩

end

/-! ### Marks -/

/-- How many operands are above the nearest mark. -/
theorem markDepth_runOn (hitems : m.operands.items = items.reverse ++ mark :: below)
    (isMark : mark.isMark = true) (hmark : ∀ v ∈ items, v.isMark = false) :
    markDepth.runOn own m = .done items.length m := by
  have depth : m.markDepth = .ok items.length := by
    have none : items.reverse.findIdx? Value.isMark = none := by simpa using hmark
    rw [Machine.markDepth, hitems, List.findIdx?_append, none]
    simp [List.findIdx?_cons, isMark]
  change runOn own (Program.ofExcept m.markDepth) m = _
  rw [depth]
  rfl

/-- The operands above the nearest mark. -/
theorem aboveMark_runOn (hitems : m.operands.items = items.reverse ++ mark :: below)
    (isMark : mark.isMark = true) (hmark : ∀ v ∈ items, v.isMark = false) :
    aboveMark.runOn own m = .done items m := by
  rw [aboveMark, runOn_bind (markDepth_runOn hitems isMark hmark)]
  change Outcome.done (m.operands.items.take items.length).reverse m = _
  rw [hitems]
  simp

/-- What has been built takes the place of a mark and of all that is above it. -/
theorem adopt_grants (hm : m.Growing) (hitems : m.operands.items = items.reverse ++ mark :: below)
    (v : Value) : ((adopt (items.length + 1) v).runOn own m).Grants fun _ m' =>
      m.Becomes { m.scene with operands := v :: below } m' ∧ m.memory.Sheds m'.memory := by
  have many : items.length + 1 ≤ m.operands.length := by
    unfold Sequence.length
    rw [hitems]
    simp
  refine (grants_ask (r := .adopt (items.length + 1) v) (Machine.adopt_grants hm many v)).mono
    fun _ m' ⟨becomes, sheds⟩ => ⟨?_, sheds⟩
  rwa [hitems, List.drop_append, List.drop_eq_nil_of_le (by simp), List.length_reverse,
    Nat.add_sub_cancel_left, List.drop_one, List.tail_cons, List.nil_append] at becomes

/-- What is above a mark becomes an array, which takes its place. -/
theorem collectArray_grants (hm : m.Growing) (hw : m.memory.heap.WellFormed) (access : Access)
    (hitems : m.operands.items = items.reverse ++ mark :: below) (isMark : mark.isMark = true)
    (hmark : ∀ v ∈ items, v.isMark = false) :
    ((collectArray access).runOn own m).Grants fun _ m' => ∃ i,
      m.Becomes { m.scene with operands := .array i access :: below } m' ∧
        m.memory.heap.Builds i items m'.memory.heap := by
  unfold collectArray
  rw [runOn_bind (aboveMark_runOn hitems isMark hmark)]
  refine grants_runOn_bind (grants_ask (Machine.createArray_grants hw access items)) ?_
  rintro _ m₁ ⟨i, rfl, h₁, s, hs, stores⟩
  refine (adopt_grants (h₁.growing hm) (h₁.operands.trans hitems) _).mono fun _ m₂ ⟨h₂, sheds⟩ =>
    ⟨i, ⟨h₂.scene.trans ?_, h₂.growth.trans h₁.growth⟩, s, hs, _, stores, sheds⟩
  rw [h₁.scene]

/-- A block begins with a mark. -/
theorem beginBlock_grants (hm : m.Growing) (params : List Value) :
    ((beginBlock params).runOn own m).Grants fun _ m' => m.Becomes
      { m.scene with operands := .mark :: m.operands.items, blockDepth := m.blockDepth + 1 } m' ∧
        m.memory.Recounts m'.memory := by
  refine grants_runOn_bind (grants_ask (r := .exchange 0 [.mark])
    (Machine.pushOperands_grants hm [.mark])) fun _ m₁ ⟨h₁, recounts⟩ => ?_
  have opened : (openBlock.runOn own m₁) =
      .done () { m₁ with blockDepth := m₁.blockDepth + 1 } := rfl
  have depth : m₁.blockDepth = m.blockDepth := congrArg Scene.blockDepth h₁.scene
  rw [opened]
  refine ⟨⟨?_, h₁.growth⟩, recounts⟩
  change { m₁.scene with blockDepth := m₁.blockDepth + 1 } = _
  rw [h₁.scene, depth]
  rfl

/-- It ends when what has been collected becomes an array. -/
theorem endBlock_grants (hm : m.Growing) (hw : m.memory.heap.WellFormed)
    (hitems : m.operands.items = items.reverse ++ mark :: below) (isMark : mark.isMark = true)
    (hmark : ∀ v ∈ items, v.isMark = false) (params : List Value) :
    ((endBlock params).runOn own m).Grants fun _ m' => ∃ i,
      m.Becomes { m.scene with
        operands := .array i .block :: below
        blockDepth := m.blockDepth - 1 } m' ∧ m.memory.heap.Builds i items m'.memory.heap := by
  refine grants_runOn_bind (collectArray_grants hm hw .block hitems isMark hmark) ?_
  rintro _ m₁ ⟨i, h₁, builds⟩
  have closed : (closeBlock.runOn own m₁) =
      .done () { m₁ with blockDepth := m₁.blockDepth - 1 } := rfl
  have depth : m₁.blockDepth = m.blockDepth := congrArg Scene.blockDepth h₁.scene
  rw [closed]
  refine ⟨i, ⟨?_, h₁.growth⟩, builds⟩
  change { m₁.scene with blockDepth := m₁.blockDepth - 1 } = _
  rw [h₁.scene, depth]

end Operation

end StackScript
