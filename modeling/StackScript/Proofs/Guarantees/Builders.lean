import StackScript.Proofs.Guarantees.Stores
import StackScript.Proofs.Operator.Pairing

/-!
# What is built from a mark

`]`, `}` and `>>` replace the nearest mark, and all that is above it, by a new array, block or dictionary
that holds exactly that.  `cleartomark` removes the mark and what is above it, and `counttomark` says how
much that is (`builders_collect_the_group`).  What is below the mark stays in any case.

A container may be refused by the ledger at any time, even when a dictionary has got some of its entries.
It is disposed of then, and the operands are as they were (`Served.collects`).
-/

namespace StackScript

open Memory (Has)
open Cells

variable {χ : Type} {natives : Natives χ} {options : Options} {m₀ : Machine} {owned : List Value}
  {s t : Session χ} {rest : List Frame} {b : Builtin} {items below : List Value} {mark : Value}

namespace Session

/-- The next cycle leaves a container that has just been created on top of the operands `below`, and the
others are as they were; or memory is short, and nothing has changed. -/
def Collects (natives : Natives χ) (owned : List Value) (rest : List Frame) (below : List Value)
    (handle : Handle → Value) (P : Object → Prop) (s : Session χ) : Prop :=
  (∃ t i o, EndsIn natives owned rest
      { s.machine.scene with operands := handle i :: below, frames := rest } s t ∧
    ¬ s.machine.memory.heap.Live i ∧ t.machine.memory.heap.object? i = some o ∧ P o ∧
      s.machine.memory.heap.Drifts (· = i) t.machine.memory.heap) ∨
  ∃ e t, e.condition = .memoryOverflow ∧ Declines natives owned rest e s t

end Session

namespace Served

variable (hm₀ : m₀.Created options) (h : Served natives m₀ owned s)
include hm₀ h

/-! ### Containers -/

/-- **A container is built**, or else what has been built of it is disposed of. -/
theorem collects {handle : Handle → Value} {P : Object → Prop} (d : s.Dispatches b rest)
    (proper : b.constant? = none) (asks : b.signature = [])
    (handles : ∀ i, (handle i).handle? = some i)
    (builds : ∀ m : Machine, m.Growing → m.memory.heap.WellFormed →
      m.operands.items = s.machine.operands.items → m.blockDepth = s.machine.blockDepth →
        ((b.operation []).runOn (some rest.length) m).Grants fun _ m' => ∃ i,
          m.Becomes { m.scene with operands := handle i :: below } m' ∧
            m.memory.heap.Gains i P m'.memory.heap)
    (fails : ∀ (σ : Cells) (m : Machine), σ.Counted → m.memory.Has σ →
      (∀ v ∈ m.operands.items, σ.Houses v) →
        (b.operation []).Fails (some rest.length) m (m.Unscathed σ)) :
    s.Collects natives owned rest below handle P := by
  obtain ⟨Γ, -, sound⟩ := h.sound hm₀
  obtain ⟨-, _, hb, -⟩ := sound.memory
  have counted : Counted s.machine.memory.heap.cell? := hb.positive
  have accepts : List.Forall₂ (fun p v => Param.accepts p v = true) b.signature [] := by
    rw [asks]
    exact .nil
  refine (h.exists_dispatched (E := fun after μ => ∃ i, after = handle i :: below ∧
      s.machine.memory.heap.Gains i P μ.heap) (X := (·.condition = .memoryOverflow))
    hm₀ d proper (List.nil_append _).symm accepts (fun e he => by rw [he]; decide)
    fun Γ' v m engages sound' growing => ?_).imp_left ?_
  · have cells : m.memory.Has s.machine.memory.heap.cell? := by
      have held := engages.cells
      rwa [lend_nil] at held
    -- what is built if it is granted, and what is left if it is not, are two facts about one outcome
    have built := builds m growing sound'.wellFormed engages.operands
      (congrArg Scene.blockDepth engages.becomes.scene)
    have failed := fails _ m counted cells fun v hv =>
      sound'.houses cells (Machine.knows_of_operand hv)
    refine (built.and failed.yields).mono ?_ fun e m' ⟨he, unscathed⟩ => ⟨he, by rwa [lend_nil]⟩
    rintro - m' ⟨⟨i, becomes, gains⟩, -⟩
    exact ⟨_, becomes.scene, i, rfl, gains.of_content engages.sameView.contents⟩
  · rintro ⟨_, t, μ, ends, ⟨i, rfl, gains⟩, freed⟩
    have gains := gains.sheds freed.sheds
    have operands : t.machine.operands.items = handle i :: below := congrArg Scene.operands ends.scene
    obtain ⟨o, ho, -⟩ := (ends.conducts.owns Γ sound).refersTo
      (Machine.knows_of_operand (operands ▸ .head below)) (handles i)
    exact ⟨t, i, o, ends, gains.unused, ho, gains.replaces.shows o ho, gains.replaces.drifts⟩

/-! ### Operators -/

section

variable (hitems : s.machine.operands.items = items.reverse ++ mark :: below)
  (isMark : mark.isMark = true) (hmark : ∀ v ∈ items, v.isMark = false)
include hitems isMark hmark

/-- **What is above a mark is counted**, which takes a slot. -/
theorem counts (d : s.Dispatches .countToMark rest) :
    (∃ t, Session.EndsIn natives owned rest { s.machine.scene with
        operands := .integer (Word.ofCount items.length) :: s.machine.operands.items
        frames := rest } s t ∧ s.machine.memory.SameHoldings t.machine.memory) ∨
      ∃ e t, e.condition = .memoryOverflow ∧ Session.Declines natives owned rest e s t := by
  obtain ⟨Γ, -, sound⟩ := h.sound hm₀
  obtain ⟨-, _, hb, -⟩ := sound.memory
  have counted : Counted s.machine.memory.heap.cell? := hb.positive
  refine (h.dispatches (E := fun μ => μ.Has s.machine.memory.heap.cell?)
    (X := (·.condition = .memoryOverflow)) hm₀ d rfl (List.nil_append _).symm .nil
    (.integer (Word.ofCount items.length) :: s.machine.operands.items)
    (fun e he => by rw [he]; decide) fun Γ' v m engages sound' growing => ?_).imp_left ?_
  · have operands := engages.operands.trans hitems
    have cells : m.memory.Has s.machine.memory.heap.cell? := by
      have held := engages.cells
      rwa [lend_nil] at held
    -- the number costs a slot, so it may be refused, with everything as it was
    have failed : ((Operation.countToMark []).runOn (some rest.length) m).Meets True _ _ :=
      Operation.fails_of_withdraws counted cells
    have kept : (Machine.exchangeOperands 0 [.integer (Word.ofCount items.length)] m).Meets True
        (fun _ m' => m'.memory.Has s.machine.memory.heap.cell?) fun _ => True :=
      Machine.exchangeOperands_has counted counted cells
        (by rw [lend_cons_of_handle?_none rfl, List.take_zero])
    have granted : (Machine.exchangeOperands 0 [.integer (Word.ofCount items.length)] m).Grants _ :=
      Machine.exchangeOperands_grants growing (Nat.zero_le _)
    change ((Operation.countToMark []).runOn (some rest.length) m).Yields _ _
    rw [Operation.countToMark_runOn operands isMark hmark] at failed ⊢
    refine ((granted.and kept.yields).and failed.yields).mono ?_ fun e m' h => ⟨h.1.1, ?_⟩
    · rintro - m' ⟨⟨⟨becomes, -⟩, cells⟩, -⟩
      exact ⟨becomes.scene.trans (by rw [engages.operands]; rfl), cells⟩
    · rw [lend_nil]
      exact h.2
  · rintro ⟨t, μ, ends, cells, freed⟩
    have same := (freed.keeps _ counted (by rwa [lend_nil])).cells
    have lends : s.machine.memory.Lends [] t.machine.memory :=
      ends.lends sound d (by rw [same, lend_nil]) (.refl _)
    exact ⟨t, ends, sound.sameHoldings_of_references (ends.conducts.owns Γ sound) rfl same
      lends.references⟩

end

end Served

/-! ### The guarantee -/

end StackScript
