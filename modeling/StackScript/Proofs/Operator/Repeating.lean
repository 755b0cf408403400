import StackScript.Proofs.Machine.Drafting
import StackScript.Proofs.Operator.Deferring

/-!
# Counting rounds

`repeat` has among its locals the block it is to execute, and how many more times (`Heap.Counts`).  When
it is invoked for the first time it binds these locals (`Operation.repeat_binds`).  At the beginning of a
round it counts down and queues the block (`Operation.repeat_counts_down`), or is done
(`Operation.repeat_ends`).
-/

namespace StackScript

open StackScript.Action

/-! ### Locals -/

/-- The locals of a `repeat` that is to execute a block `n` more times. -/
structure Dictionary.Counts (D : Dictionary) (block : Value) (n : ℕ) : Prop where
  body : D.get? "block" = some block
  count : D.get? "count" = some (.integer (.ofInt n))
  values : ∀ v ∈ D.values, v = block ∨ v.handle? = none

/-- The dictionary `d`, if it is there, is that of the locals of a `repeat`. -/
def Heap.Counts (h : Heap) (d : Handle) (block : Value) (n : ℕ) : Prop :=
  h.Shows d fun o => ∃ D, o = .dictionary D ∧ D.Counts block n

/-- The locals of the frame at an index are those of a `repeat`. -/
def Machine.Counts (m : Machine) (index : ℕ) (block : Value) (n : ℕ) : Prop :=
  ∃ D, m.localObject? index = some (.dictionary D) ∧ D.Counts block n

variable {Γ : Charter} {n k : ℕ} {x : Stake} {m m' : Machine} {f : Frame} {above rest : List Frame}
  {d : Handle} {block count : Value} {operands : List Value} {w : Word} {D : Dictionary}

theorem Dictionary.Counts.put (h : D.Counts block n) (k : ℕ) :
    Counts { D with entries := D.entries.put "count" (.integer (.ofInt k)) } block k where
  body := (TextMap.find?_put_ne D.entries (by decide) _).trans h.body
  count := by rw [Dictionary.get?, TextMap.find?_put_self]
  values v hv := by
    rcases List.mem_cons.1 (D.values_put "count" _ hv) with rfl | hv
    · exact .inr rfl
    · exact h.values v hv

theorem Machine.Counts.of_steady (h : m.Counts k block n) (steady : m.Steady (k + 1) m') :
    m'.Counts k block n := by
  obtain ⟨D, hD, counts⟩ := h
  exact ⟨D, (steady k (Nat.lt_succ_self k)).trans hD, counts⟩

theorem Machine.Sound.counts (h : m.Sound Γ k x) (hframes : m.calls.frames = above ++ f :: rest)
    (hlocals : f.locals = some d) (hd : m.memory.heap.Counts d block n) :
    m.Counts rest.length block n := by
  obtain ⟨o, ho, D, rfl, counts⟩ := h.exists_localObject hframes hlocals hd
  exact ⟨D, ho, counts⟩

theorem Machine.Counts.heap (h : m.Counts rest.length block n)
    (hframes : m.calls.frames = above ++ f :: rest) (hlocals : f.locals = some d) :
    m.memory.heap.Counts d block n := by
  obtain ⟨D, hD, counts⟩ := h
  rw [localObject?, CallStack.frame?_above hframes, Option.bind_some, hlocals] at hD
  intro o ho
  exact ⟨D, Option.some.inj (ho.symm.trans hD), counts⟩

/-- Locals that nothing but their frame has referred to are gone without it. -/
theorem Machine.Sound.gone_of_counts {Γ' : Charter} {l : ℕ} (h : m.Sound Γ k x)
    (h' : m'.Sound Γ' l x) (hholds : ∀ i, m'.scene.Holds i → m.scene.Holds i)
    (hblock : ∀ i, block.handle? = some i → m.memory.heap.Live i)
    (hd : ¬ m.memory.heap.Live d) (drifts : m.memory.heap.Drifts (· = d) m'.memory.heap)
    (counts : m'.memory.heap.Counts d block n) : ¬ m'.memory.heap.Live d := by
  intro live
  rcases h'.held live with root | ⟨j, hj⟩
  · exact hd (h.live (root.imp_left (hholds d)))
  · by_cases hjd : j = d
    · subst hjd
      obtain ⟨o, ho, v, hv, hvj⟩ := hj
      obtain ⟨D, rfl, hD⟩ := counts o ho
      rcases hD.values v hv with rfl | none
      · exact hd (hblock j hvj)
      · rw [none] at hvj
        cases hvj
    · exact hd (h.closed j d (drifts.holds hjd hj))

/-! ### Operations -/

namespace Operation

/-- No round is left. -/
theorem repeat_ends (h : m.Sound Γ k x) (hs : m.StateIs rest.length .firstCall)
    (hcounts : m.Counts rest.length block 0) :
    (Builtin.repeatBlock.operation []).runOn (some rest.length) m = .done () m := by
  obtain ⟨D, hD, counts⟩ := hcounts
  change runOn _ (Operation.state >>= _) m = _
  rw [runOn_bind (state_runOn hs)]
  dsimp only
  rw [runOn_bind (expectLocal_runOn h ⟨D, hD, counts.count⟩)]
  rfl

/-- So it is if that is found out in the first call. -/
theorem repeat_completes (hframes : m.calls.frames = f :: rest) (hs : f.state = .firstCall)
    (hlocals : f.locals = some d) (hd : m.memory.heap.Counts d block 0) :
    ((Builtin.repeatBlock.operation []).runOn (some rest.length) m).Grants fun _ m' => m' = m := by
  have framed : m.calls.frames = [] ++ f :: rest := hframes
  change Outcome.Grants (runOn _ (Operation.state >>= _) m) _
  rw [runOn_bind (state_runOn ⟨f, CallStack.frame?_head hframes, hs⟩)]
  dsimp only
  refine grants_runOn_bind (expectLocal_grants [] framed hlocals hd fun D hD => hD.count) ?_
  rintro _ m ⟨rfl, rfl⟩
  rfl

/-- A round begins: one less is left, and the block is queued. -/
theorem repeat_counts_down (hm : m.Growing) (hframes : m.calls.frames = f :: rest)
    (hs : f.state = .firstCall) (hlocals : f.locals = some d)
    (hd : m.memory.heap.Counts d block (n + 1)) (hn : n < 9223372036854775807) :
    ((Builtin.repeatBlock.operation []).runOn (some rest.length) m).Grants fun _ m' =>
      m.Becomes { m.scene with
        frames := { value := block } :: { f with state := .callBeforePop } :: rest } m' ∧
      m.memory.heap.Drifts (· = d) m'.memory.heap ∧ m'.memory.heap.Counts d block n := by
  have state : m.StateIs rest.length .firstCall := ⟨f, CallStack.frame?_head hframes, hs⟩
  have framed : m.calls.frames = [] ++ f :: rest := hframes
  have remaining : (Word.ofInt ((n + 1 : ℕ) : ℤ)).toInt = n + 1 :=
    Word.toInt_ofInt (by omega) (by omega)
  change Outcome.Grants (runOn _ (Operation.state >>= _) m) _
  rw [runOn_bind (state_runOn state)]
  dsimp only
  refine grants_runOn_bind (expectLocal_grants [] framed hlocals hd fun D hD => hD.count) ?_
  rintro _ m ⟨rfl, rfl⟩
  have counted : runOn (some rest.length) (Program.ofOption Cause.repeatCount
      (Value.integer (.ofInt (n + 1 : ℕ))).toWord?) m = .done (.ofInt (n + 1 : ℕ)) m := rfl
  rw [runOn_bind counted, if_pos (by rw [remaining]; omega), remaining, add_sub_cancel_right]
  have bound := Machine.setLocal_grants framed hlocals hd "count" (.integer (.ofInt n))
  refine grants_runOn_bind (grants_ask (r := .setLocal "count" _) bound)
    fun _ m₁ ⟨h₁, replaces⟩ => ?_
  have framed₁ : m₁.calls.frames = [] ++ f :: rest := h₁.frames.trans hframes
  have counts : m₁.memory.heap.Counts d block n := by
    intro o ho
    obtain ⟨D, hD, rfl⟩ := replaces.shows o ho
    exact ⟨_, rfl, hD.put n⟩
  refine grants_runOn_bind (expectLocal_grants [] framed₁ hlocals counts fun D hD => hD.body) ?_
  rintro _ m₁ ⟨rfl, body⟩
  rw [body]
  refine grants_runOn_bind (grants_ask (r := .call block)
    (Machine.pushFrame_grants (h₁.growing hm) _)) fun _ m₂ ⟨h₂, recounts⟩ => ?_
  have framed₂ : m₂.calls.frames = [{ value := block }] ++ f :: rest := by
    rw [h₂.frames, framed₁]
    rfl
  obtain ⟨m₃, moved, memory, h₃⟩ :=
    Machine.setState_above _ .callBeforePop framed₂ (by rw [hs]; rfl)
  rw [runOn_setState, moved]
  refine ⟨⟨h₃.scene.trans ?_, (h₃.growth.trans h₂.growth).trans h₁.growth⟩, ?_, ?_⟩
  · rw [h₂.scene, h₁.scene]
    rfl
  · exact replaces.drifts.trans (memory ▸ recounts.sheds.drifts _)
  · exact memory ▸ counts.sheds recounts.sheds

/-- The operands become locals. -/
theorem repeat_binds (hm : m.Growing) (hw : m.memory.heap.WellFormed)
    (hframes : m.calls.frames = f :: rest) (hlocals : f.locals = none)
    (hoperands : m.operands.items = block :: count :: operands) (hcount : count.toWord? = some w)
    (hn : w.toInt = n) {P : Unit → Machine → Prop}
    (hnext : ∀ m' d, m.Becomes { m.scene with
        operands := operands
        frames := { f with locals := some d } :: rest } m' →
      ¬ m.memory.heap.Live d → m.memory.heap.Drifts (· = d) m'.memory.heap →
        m'.memory.heap.Counts d block n →
          ((Builtin.repeatBlock.operation []).runOn (some rest.length) m').Grants P) :
    ((Builtin.repeatBlock.operation [block, count]).runOn (some rest.length) m).Grants P := by
  have framed : m.calls.frames = [] ++ f :: rest := hframes
  have word : (matchedWord [block, count] 1).runOn (some rest.length) m = .done w m := by
    change (Program.ofOption _ count.toWord?).run (Request.perform (some rest.length)) m = _
    rw [hcount]
    rfl
  have index : (toIndex w).runOn (some rest.length) m = .done n m := by
    rw [toIndex, Word.index?, if_pos (by omega), hn]
    rfl
  have exact : w = .ofInt n := by
    have range := w.toInt_range
    exact Word.ext_toInt (by rw [Word.toInt_ofInt (by omega) (by omega), hn])
  change Outcome.Grants (runOn _ (matchedWord [block, count] 1 >>= _) m) _
  rw [runOn_bind word, runOn_bind index]
  have first : ((setLocal "block" block).runOn (some rest.length) m).Grants _ :=
    grants_ask (r := .setLocal "block" block)
      (Machine.setLocal_grants_of_none hw framed hlocals "block" block)
  refine grants_runOn_bind first ?_
  rintro _ m₁ ⟨d, h₀, h₁, stores, replaces⟩
  have framed₁ : m₁.calls.frames = [] ++ { f with locals := some d } :: rest := h₁.frames
  have bound : m₁.memory.heap.Shows d fun o => ∃ D, o = .dictionary D ∧
      D = { account := .system, entries := [("block", block)] } :=
    fun o ho => ⟨_, replaces.shows o ho, rfl⟩
  have second : ((setLocal "count" (.integer w)).runOn (some rest.length) m₁).Grants _ :=
    grants_ask (r := .setLocal "count" (.integer w))
      (Machine.setLocal_grants framed₁ rfl bound "count" (.integer w))
  refine grants_runOn_bind second ?_
  rintro _ m₂ ⟨h₂, replaces'⟩
  have operands₂ : m₂.operands.items = block :: count :: operands :=
    h₂.operands.trans (h₁.operands.trans hoperands)
  refine grants_runOn_bind (grants_ask (r := .exchange 2 []) (Machine.exchangeOperands_grants
    (h₂.growing (h₁.growing hm)) (by simp [Sequence.length, operands₂]))) ?_
  rintro _ m₃ ⟨h₃, sheds⟩
  refine hnext m₃ d ⟨?_, (h₃.growth.trans h₂.growth).trans h₁.growth⟩ (not_not.2 stores.unused)
    ((stores.drifts.trans replaces.drifts).trans (replaces'.drifts.trans (sheds.drifts _))) ?_
  · rw [h₃.scene, operands₂, h₂.scene, h₁.scene]
    rfl
  · have counts : m₂.memory.heap.Counts d block n := by
      intro o ho
      obtain ⟨D, rfl, rfl⟩ := replaces'.shows o ho
      refine ⟨_, rfl, rfl, ?_, fun v hv => ?_⟩
      · rw [Dictionary.get?, TextMap.find?_put_self, exact]
      · rcases List.mem_cons.1 (Dictionary.values_put _ "count" _ hv) with rfl | hv
        · exact .inr rfl
        · exact .inl (List.mem_singleton.1 hv)
    exact counts.sheds sheds

end Operation

end StackScript
