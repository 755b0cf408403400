import StackScript.Proofs.Operator.Storing

/-!
# Building a dictionary from pairs

A dictionary is built from the names and values above a mark.  It is created empty, and its entries are
bound one after the other (`Operation.defineAll_grants`), so a name is bound to what follows its last
occurrence among the keys (`Operation.get?_bound_iff`).
-/

namespace StackScript

open StackScript.Action Memory

namespace Heap

variable {h h' h'' : Heap} {i : Handle} {P : Object → Prop}

/-- A container with the property has come, by a handle that has not been in use, and others may have
gone. -/
structure Gains (h : Heap) (i : Handle) (P : Object → Prop) (h' : Heap) : Prop where
  unused : ¬ h.Live i
  replaces : h.Replaces i P h'

theorem Stores.replaces {o : Object} (hs : h.Stores i o h') : h.Replaces i (· = o) h' :=
  ⟨fun j hj => .inr ((hs.content j).trans (if_neg hj)), hs.shows rfl⟩

theorem Builds.gains {items : List Value} (hb : h.Builds i items h') :
    h.Gains i (Object.Lists items) h' := by
  refine ⟨hb.unused, ?_⟩
  obtain ⟨s, hs, h₁, stores, sheds⟩ := hb
  exact (stores.replaces.mono fun o ho => ⟨s, ho, hs⟩).sheds sheds

theorem Gains.sheds (hg : h.Gains i P h') (hs : h'.Sheds h'') : h.Gains i P h'' :=
  ⟨hg.unused, hg.replaces.sheds hs⟩

theorem Gains.of_content (hg : h'.Gains i P h'') (same : ∀ j, h'.content? j = h.content? j) :
    h.Gains i P h'' where
  unused := (live_iff_of_content? (same i)).not.1 hg.unused
  replaces := hg.replaces.of_content same

end Heap

namespace Operation

variable {own : Option ℕ} {m : Machine} {items below : List Value} {mark : Value} {d : Dictionary}
  {entries : List (String × Value)} {text : String} {i : Handle} {k : ℕ} {v : Value}

/-! ### Names and values that alternate -/

/-- Keys and values that are paired are bound one after the other. -/
def bound (d : Dictionary) (entries : List (String × Value)) : Dictionary :=
  { d with entries := entries.foldl (fun table e => table.put e.1 e.2) d.entries }

theorem grants_rescue {α : Type} {p : Operation α} {remedy : Exception → Operation α}
    {M : α → Machine → Prop} (hp : (p.runOn own m).Grants M)
    (hr : ∀ (e : Exception) m', e.condition = .memoryOverflow → ((remedy e).runOn own m').Grants M) :
    (runOn own (p.rescue remedy) m).Grants M := by
  induction p generalizing m with
  | done a => exact hp
  | raise e => exact hr e m hp
  | broken b => exact hp
  | ask r next failed ihn ihf =>
    simp only [runOn, Program.rescue, Program.run] at hp ⊢
    cases ended : r.perform own m with
    | done a m₁ => rw [ended] at hp; exact ihn a hp
    | raised e m₁ => rw [ended] at hp; exact ihf e hp
    | broken b => trivial

/-- **Entries are bound** one after the other. -/
theorem defineAll_grants (entries : List (String × Value))
    (hd : m.memory.heap.Shows i (· = .dictionary d)) :
    ((defineAll (.dictionary i true) entries).runOn own m).Grants fun _ m' => m.Becomes m.scene m' ∧
      m.memory.heap.Replaces i (· = .dictionary (bound d entries)) m'.memory.heap := by
  induction entries generalizing m d with
  | nil => exact ⟨.refl m, .refl hd⟩
  | cons e rest ih =>
    have shows : m.memory.heap.Shows i fun o => ∃ d', o = .dictionary d' ∧ d' = d :=
      fun o ho => ⟨d, hd o ho, rfl⟩
    have defined : (Request.perform own (.define (.dictionary i true) e.1 e.2) m).Grants
        fun _ m' => m.Becomes m.scene m' ∧ m.memory.heap.Replaces i
          (· = .dictionary { d with entries := d.entries.put e.1 e.2 }) m'.memory.heap := by
      refine Machine.grants_onMemory ((Memory.define_grants shows).mono fun _ μ replaced =>
        ⟨⟨rfl, rfl⟩, replaced.mono ?_⟩)
      rintro _ ⟨_, rfl, rfl⟩
      rfl
    refine grants_runOn_bind (grants_rescue (grants_ask defined) fun e' m' he => ?_)
      fun _ m₁ ⟨h₁, replaced⟩ => ?_
    -- the dictionary is given up, and the exception stays what it is
    · exact grants_runOn_bind (grants_ask (r := .release (.dictionary i true))
        ((Machine.release_yields m' _).mono (fun _ _ _ => trivial) fun _ _ => id))
          (M := fun _ _ => True) fun _ _ _ => he
    · refine (ih replaced.shows).mono fun _ m₂ ⟨h₂, later⟩ => ⟨?_, replaced.trans later⟩
      rw [h₁.scene] at h₂
      exact h₁.trans h₂

/-! ### Builders -/

section

variable (hitems : m.operands.items = items.reverse ++ mark :: below) (isMark : mark.isMark = true)
  (hmark : ∀ v ∈ items, v.isMark = false)
include hitems isMark hmark

/-- **Names and values above a mark become a dictionary**, which takes its place. -/
theorem endDictionary_grants (hm : m.Growing) (hw : m.memory.heap.WellFormed)
    (even : items.length % 2 = 0) (hpairs : pairs items = .ok entries) (params : List Value) :
    ((endDictionary params).runOn own m).Grants fun _ m' => ∃ i,
      m.Becomes { m.scene with operands := .dictionary i true :: below } m' ∧
        m.memory.heap.Gains i (· = .dictionary (bound { account := .user } entries))
          m'.memory.heap := by
  unfold endDictionary
  rw [runOn_bind (aboveMark_runOn hitems isMark hmark)]
  have listed : runOn own (Program.ofExcept (.ok entries)) m = .done entries m := rfl
  rw [if_neg (by omega), hpairs, runOn_bind listed]
  refine grants_runOn_bind (grants_ask (r := .createDictionary) (Machine.createDictionary_grants hw)) ?_
  rintro _ m₁ ⟨i, rfl, h₁, stores⟩
  refine grants_runOn_bind (defineAll_grants entries (stores.shows rfl)) fun _ m₂ ⟨h₂, replaced⟩ => ?_
  rw [h₁.scene] at h₂
  have becomes := h₁.trans h₂
  refine (adopt_grants (becomes.growing hm) (becomes.operands.trans hitems) _).mono
    fun _ m₃ ⟨h₃, sheds⟩ => ⟨i, ?_, ?_⟩
  · rw [becomes.scene] at h₃
    exact becomes.trans h₃
  · exact ⟨not_not.2 stores.unused, (stores.replaces.trans replaced).sheds sheds⟩

/-- **What is above a mark is counted.** -/
theorem countToMark_runOn (params : List Value) : (countToMark params).runOn own m =
    Machine.exchangeOperands 0 [.integer (Word.ofCount items.length)] m := by
  rw [countToMark, runOn_bind (markDepth_runOn hitems isMark hmark)]
  exact congrFun (Machine.runOn_exchange _ _ _) m

end

end Operation

end StackScript
