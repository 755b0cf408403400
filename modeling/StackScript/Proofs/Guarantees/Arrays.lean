import StackScript.Proofs.Machine.Regaining
import StackScript.Proofs.Operator.Storing

/-!
# Filling an array and unpacking it

`astore` takes as many operands as an array is long and puts them in its slots, and `aload` pushes them
again.  Each undoes the other (`filling_inverts_unpacking`), whatever the array holds, itself included.

An array is filled as soon as there are enough operands (`Served.fills`).  It is unpacked unless the
ledger refuses the slots (`Served.unpacks`), and it cannot if there have been as many operands before
(`Served.unpacks_again`).  The references the unpacked items have borrowed are given back by filling the
array with them.
-/

namespace StackScript

open Memory (Has)
open Cells

variable {χ : Type} {natives : Natives χ} {options : Options} {m₀ : Machine}
  {owned owned' owned₀ : List Value} {s s₀ t u : Session χ} {rest : List Frame} {array : Value} {i : Handle}
  {q : Sequence} {values below operands : List Value}

/-- From `t` to `u` the operands and what is in the container stay as they are, and the memory is
taken up by nothing new. -/
structure Session.Resumes (i : Handle) (t u : Session χ) : Prop where
  operands : u.machine.operands.items = t.machine.operands.items
  container : u.machine.memory.heap.object? i = t.machine.memory.heap.object? i
  outweighs : t.machine.memory.Outweighs u.machine.memory

/-! ### Single cycles -/

namespace Served

/-- **An array is filled** with as many operands as it has slots, and that is not refused.  If they are
what it holds, they give back what they have borrowed. -/
theorem fills (hm₀ : m₀.Created options) (h : Served natives m₀ owned s)
    (d : s.Dispatches .fill rest) (hd : array.datum = .array i .mutable)
    (ho : s.machine.memory.heap.object? i = some (.array q))
    (hoperands : s.machine.operands.items = array :: (values.reverse ++ below))
    (hlength : values.length = q.length) (c : Cells) :
    ∃ t, Session.EndsIn natives owned rest
        { s.machine.scene with operands := array :: below, frames := rest } s t ∧
      s.machine.memory.heap.Replaces i (Object.Lists values) t.machine.memory.heap ∧
        (q.toList = values → c.Counted → s.machine.memory.heap.cell? = lend c values →
          t.machine.memory.heap.cell? = c) := by
  have accepts : List.Forall₂ (fun p v => Param.accepts p v = true) Builtin.fill.signature [array] :=
    .cons (Param.accepts_of_datum hd).1 .nil
  have operands : s.machine.operands.items = [array] ++ (values.reverse ++ below) := hoperands
  obtain ⟨t, μ, ends, ⟨replaced, restored⟩, freed⟩ := h.performs
    (E := fun μ => s.machine.memory.heap.Replaces i (Object.Lists values) μ.heap ∧
      (q.toList = values → c.Counted → s.machine.memory.heap.cell? = lend c values →
        μ.Has (lend c [array])))
    hm₀ d rfl operands accepts (array :: below) fun Γ v m engages sound growing => by
      have same := engages.sameView.contents
      have items := engages.operands.trans hoperands
      have ho' : m.memory.heap.object? i = some (.array q) :=
        (engages.sameView.object? i).trans ho
      have ready : m.Ready rest.length (values.length + 1) :=
        engages.ready sound (by simp [Sequence.length, hoperands])
      have filled := Operation.fillArray_fills sound growing ready (by simp) hd ho' items hlength
      -- what has been borrowed is returned only if the array gets back the values it held
      by_cases known : q.toList = values ∧ c.Counted ∧ s.machine.memory.heap.cell? = lend c values
      · obtain ⟨hq, hc, cells⟩ := known
        have restored : ((Operation.fillArray [array]).runOn (some rest.length) m).Meets True _ _ :=
          Operation.fillArray_restores hc hd (cells ▸ engages.cells) ho' items hq
        exact (filled.and restored).mono (fun _ _ ⟨⟨scene, replaced⟩, has⟩ =>
          ⟨scene, replaced.of_content same, fun _ _ _ => has⟩) fun _ h => h.1
      · exact filled.mono (fun _ _ ⟨scene, replaced⟩ => ⟨scene, replaced.of_content same,
          fun hq hc cells => absurd ⟨hq, hc, cells⟩ known⟩) fun _ => id
  exact ⟨t, ends, replaced.sheds freed.sheds,
    fun hq hc cells => (freed.keeps c hc (restored hq hc cells)).cells⟩

/-- What has been stored is in the array, which is there still if it is left on top. -/
theorem lists_filled {c : Scene} (hm₀ : m₀.Created options) (h : Served natives m₀ owned s)
    (hd : array.datum = .array i .mutable) (ends : Session.EndsIn natives owned rest c s t)
    (hc : c.operands = array :: below)
    (replaced : s.machine.memory.heap.Replaces i (Object.Lists values) t.machine.memory.heap) :
    ∃ q', t.machine.memory.heap.object? i = some (.array q') ∧ q'.toList = values := by
  obtain ⟨Γ, -, sound⟩ := h.sound hm₀
  have operand : array ∈ t.machine.operands.items := by
    rw [show t.machine.operands.items = _ from congrArg Scene.operands ends.scene, hc]
    exact .head below
  obtain ⟨present, _, hb, -⟩ := (ends.conducts.owns Γ sound).memory
  obtain ⟨q', ho'⟩ := hb.array_of_known present (Machine.knows_of_operand operand) hd
  obtain ⟨_, same, hq'⟩ := replaced.shows _ ho'
  cases same
  exact ⟨q', ho', hq'⟩

/-- There have to be enough operands. -/
theorem declines_to_fill (hm₀ : m₀.Created options) (h : Served natives m₀ owned s)
    (d : s.Dispatches .fill rest) (hd : array.datum = .array i .mutable)
    (ho : s.machine.memory.heap.object? i = some (.array q))
    (hoperands : s.machine.operands.items = array :: operands) (hshort : operands.length < q.length) :
    ∃ t, Session.Declines natives owned rest Cause.notEnoughOperands.exception s t := by
  have operands_eq : s.machine.operands.items = [array] ++ operands := hoperands
  exact h.declines_at_once hm₀ d rfl operands_eq (.cons (Param.accepts_of_datum hd).1 .nil)
    (by decide) fun own m view => Operation.fillArray_raised (view.operands.trans hoperands) hd
      ((view.object? i).trans ho) hshort

/-- The operands and the items of the array have the texts of both. -/
theorem texts_of_items (array : Value) (items operands : List Value) :
    ((array :: (items.reverse ++ operands)).filterMap Value.string?).Perm
      (items.filterMap Value.string? ++ (array :: operands).filterMap Value.string?) := by
  rw [← List.filterMap_append]
  exact (((List.reverse_perm items).append_right operands).cons array |>.trans
    List.perm_middle.symm).filterMap _

/-- **An array is unpacked**, unless the ledger refuses the slots. -/
theorem unpacks (hm₀ : m₀.Created options) (h : Served natives m₀ owned s)
    (d : s.Dispatches .unpack rest) (hd : array.datum = .array i .mutable)
    (ho : s.machine.memory.heap.object? i = some (.array q))
    (hoperands : s.machine.operands.items = array :: operands) :
    (∃ t, Session.EndsIn natives owned rest { s.machine.scene with
        operands := array :: (q.toList.reverse ++ operands), frames := rest } s t ∧
      s.machine.memory.Lends q.toList t.machine.memory) ∨
    ∃ e t, e.condition = .memoryOverflow ∧ Session.Declines natives owned rest e s t := by
  obtain ⟨Γ, -, sound⟩ := h.sound hm₀
  obtain ⟨-, _, hb, -⟩ := sound.memory
  have counted : Counted s.machine.memory.heap.cell? := hb.positive
  have operands_eq : s.machine.operands.items = [array] ++ operands := hoperands
  refine (h.dispatches (E := fun μ => μ.Has ((lend s.machine.memory.heap.cell? q.toList).lend [array]))
    hm₀ d rfl operands_eq (.cons (Param.accepts_of_datum hd).2 .nil)
    (array :: (q.toList.reverse ++ operands)) (fun e he => by rw [he]; decide)
    fun Γ v m engages sound growing => ?_).imp_left fun ⟨t, μ, ends, has, freed⟩ => ⟨t, ends, ?_⟩
  · have ho' : m.memory.heap.object? i = some (.array q) :=
      (engages.sameView.object? i).trans ho
    exact Operation.unpackArray_lends growing counted hd engages.cells ho'
      (engages.operands.trans hoperands)
  · refine ends.lends sound d (freed.keeps _ (counted.lend _) has).cells ?_
    rw [hoperands]
    exact texts_of_items array q.toList operands

/-- **As many operands as there have been** are not refused. -/
theorem unpacks_again (hm₀ : m₀.Created options) (h₀ : Served natives m₀ owned₀ s₀)
    (h : Served natives m₀ owned s) (d : s.Dispatches .unpack rest)
    (hd : array.datum = .array i .mutable)
    (ho : s.machine.memory.heap.object? i = some (.array q))
    (hoperands : s.machine.operands.items = array :: operands)
    (surrounds : s₀.machine.Surrounds s.machine)
    (outweighs : s₀.machine.memory.Outweighs s.machine.memory)
    (room : q.length + operands.length < s₀.machine.operands.length) :
    ∃ t, Session.EndsIn natives owned rest { s.machine.scene with
      operands := array :: (q.toList.reverse ++ operands), frames := rest } s t := by
  obtain ⟨Γ, -, sound⟩ := h.sound hm₀
  obtain ⟨-, _, hb, -⟩ := sound.memory
  have counted : Counted s.machine.memory.heap.cell? := hb.positive
  have operands_eq : s.machine.operands.items = [array] ++ operands := hoperands
  obtain ⟨t, _, ends, -⟩ := h.performs (E := fun _ => True) hm₀ d rfl operands_eq
    (.cons (Param.accepts_of_datum hd).2 .nil) (array :: (q.toList.reverse ++ operands))
    fun Γ' v m engages sound' growing => by
      have ho' : m.memory.heap.object? i = some (.array q) :=
        (engages.sameView.object? i).trans ho
      have items := engages.operands.trans hoperands
      have length : m.operands.length = operands.length + 1 := congrArg List.length items
      have items_length : q.toList.length = q.length := List.length_reverse
      -- the texts among the items are interned already, since the array refers to them
      have referenced (w : Value) (hw : w ∈ q.toList ++ [array]) (text : String)
          (htext : w.string? = some text) : m.memory.ledger.strings.find? text ≠ none := by
        rcases List.mem_append.1 hw with hw | hw
        · exact sound'.referenced_of_item ho' (List.mem_reverse.1 hw) htext
        · rw [List.mem_singleton.1 hw, Value.string?, hd] at htext
          cases htext
      -- as many operands have been there before, so there is room for them again
      have regained : ((Operation.unpackArray [array]).runOn (some rest.length) m).Meets True
          (fun _ _ => True) fun _ => False := by
        rw [Operation.unpackArray_runOn hd ho']
        exact h₀.regains hm₀ h engages sound' (by simp [hoperands]) surrounds outweighs (by omega)
          (by rw [List.length_append, items_length, List.length_singleton]; omega) referenced
      have unpacked : ((Operation.unpackArray [array]).runOn (some rest.length) m).Grants _ :=
        (Operation.unpackArray_lends growing counted hd engages.cells ho' items).mono
          (fun _ _ h => h) fun _ _ h => h.1
      exact (regained.granted unpacked).mono (fun _ _ h => ⟨h.2.1, trivial⟩) fun _ => id
  exact ⟨t, ends⟩

/-- An operand is removed. -/
theorem drops (hm₀ : m₀.Created options) (h : Served natives m₀ owned s)
    (d : s.Dispatches .drop rest) (hoperands : s.machine.operands.items = array :: operands) :
    ∃ t, Session.EndsIn natives owned rest
      { s.machine.scene with operands := operands, frames := rest } s t := by
  have operands_eq : s.machine.operands.items = [array] ++ operands := hoperands
  obtain ⟨t, _, ends, -⟩ := h.performs (E := fun _ => True) hm₀ d rfl operands_eq (.cons rfl .nil)
    operands fun Γ v m engages sound growing => by
      have some : 1 ≤ m.operands.length := by simp [Sequence.length, engages.operands, hoperands]
      have sure : (Machine.exchangeOperands 1 [] m).Meets True _ _ :=
        Machine.exchangeOperands_sure sound.operands some (Nat.zero_le 1) (by simp)
      have granted : (Machine.exchangeOperands 1 [] m).Grants _ :=
        Machine.exchangeOperands_grants growing some
      refine Operation.meets_ask ((sure.granted granted).mono (fun _ _ ⟨_, becomes, _⟩ => ⟨?_, trivial⟩)
        fun _ => id)
      rw [becomes.scene, engages.operands, hoperands]
      rfl
  exact ⟨t, ends⟩

/-- A machine whose array has been filled takes up no more than before. -/
theorem outweighs_filled (hm₀ : m₀.Created options) (h : Served natives m₀ owned s)
    (d : s.Dispatches .fill rest)
    (ends : Session.EndsIn natives owned rest
      { s.machine.scene with operands := array :: below, frames := rest } s t)
    (ho : s.machine.memory.heap.object? i = some (.array q))
    (hoperands : s.machine.operands.items = array :: (values.reverse ++ below))
    (hlength : values.length = q.length)
    (replaced : s.machine.memory.heap.Replaces i (Object.Lists values) t.machine.memory.heap) :
    s.machine.memory.Outweighs t.machine.memory := by
  obtain ⟨Γ, -, sound⟩ := h.sound hm₀
  have kept (j : Handle) (o : Object) (hj : j ≠ i) (ho : t.machine.memory.heap.object? j = some o) :
      s.machine.memory.heap.object? j = some o := by
    rw [← ho]
    exact (Heap.object?_of_content?
      (replaced.drifts j (Heap.live_of_object? ho) hj).2).symm
  -- containers: the array is as long as it was, and the others are untouched
  refine ⟨fun j o ho' => ?_, fun text ht => ?_⟩
  · by_cases hj : j = i
    · subst hj
      obtain ⟨q', rfl, hq'⟩ := replaced.shows o ho'
      have same : q'.length = q.length := by
        rw [← hlength, ← hq', Sequence.toList, List.length_reverse]
        rfl
      exact ⟨_, ho, by rw [Object.footprint, Object.footprint, same]⟩
    · exact ⟨o, kept j o hj ho', le_rfl⟩
  · -- texts: what the array holds now was among the operands
    obtain ⟨w, htext, held⟩ := ((ends.conducts.owns Γ sound).references_pos_iff text).1 ht
    refine (sound.references_pos_iff text).2 ⟨w, htext, ?_⟩
    have operand (w : Value) (hw : w ∈ s.machine.operands.items) : w ∈ s.machine.stacked := by
      simp [Machine.stacked, hw]
    rcases held with held | held | ⟨j, o, ho', held⟩
    · exact .inl (ends.stacked_subset d (by simp [hoperands]) held)
    · exact .inr (.inl held)
    · by_cases hj : j = i
      · subst hj
        obtain ⟨q', rfl, rfl⟩ := replaced.shows o ho'
        refine .inl (operand w ?_)
        rw [hoperands]
        simp [Sequence.toList, show w ∈ q'.items from held]
      · exact .inr (.inr ⟨j, o, kept j o hj ho', held⟩)

/-- Filling an array with the items it has been unpacked into gives back what they have borrowed. -/
theorem restores (hm₀ : m₀.Created options) (h : Served natives m₀ owned s)
    (h' : Served natives m₀ owned' u) (d : u.Dispatches .fill rest)
    (hu : u.machine.operands.items = array :: (values.reverse ++ operands))
    (ends : Session.EndsIn natives owned' rest
      { u.machine.scene with operands := array :: operands, frames := rest } u t)
    (cells : t.machine.memory.heap.cell? = s.machine.memory.heap.cell?)
    (lends : s.machine.memory.Lends values u.machine.memory) :
    s.machine.memory.SameHoldings t.machine.memory := by
  obtain ⟨Γ, -, sounds⟩ := exists_charter hm₀
  have returns : t.machine.memory.Lends values u.machine.memory :=
    ends.returns (sounds h') d (by rw [lends.cells, cells]) <| by
      rw [hu]
      exact texts_of_items array values operands
  refine (sounds h).sameHoldings_of_references (ends.conducts.owns Γ (sounds h'))
    (by rw [Stake.units_refs, Stake.units_refs]) cells fun text => ?_
  have := (lends.references text).symm.trans (returns.references text)
  omega

end Served

/-! ### The guarantee -/

/-- **Filling an array and unpacking it undo each other.**  An array on top of as many operands as it
has slots is filled with them, whatever they are.  Unpacking it then is not refused, and leaves the
operands below it.  With fewer operands nothing happens.  What unpacking leaves, unless the ledger
refuses the slots, is undone by filling the array again. -/
theorem filling_inverts_unpacking (hm₀ : m₀.Created options) (h : Served natives m₀ owned s)
    (hoperands : s.machine.operands.items = array :: operands)
    (hd : array.datum = .array i .mutable)
    (ho : s.machine.memory.heap.object? i = some (.array q)) :
    (s.Dispatches .fill rest →
      (∀ values below, operands = values.reverse ++ below → values.length = q.length →
        ∃ t, Session.EndsIn natives owned rest
            { s.machine.scene with operands := array :: below, frames := rest } s t ∧
          (∃ q', t.machine.memory.heap.object? i = some (.array q') ∧ q'.toList = values) ∧
          s.machine.memory.heap.Drifts (· = i) t.machine.memory.heap ∧
          ∀ owned u rest, Served natives m₀ owned u → u.Dispatches .unpack rest → t.Resumes i u →
            s.machine.Surrounds u.machine →
            ∃ t', Session.EndsIn natives owned rest
                { u.machine.scene with operands := array :: operands, frames := rest } u t' ∧
              ∀ owned u' rest, Served natives m₀ owned u' → u'.Dispatches .drop rest →
                u'.machine.operands.items = t'.machine.operands.items →
                ∃ t'', Session.EndsIn natives owned rest
                  { u'.machine.scene with operands := operands, frames := rest } u' t'') ∧
      (operands.length < q.length → Cause.notEnoughOperands.condition = .stackUnderflow ∧
        ∃ t, Session.Declines natives owned rest Cause.notEnoughOperands.exception s t)) ∧
    (s.Dispatches .unpack rest →
      (∃ t, Session.EndsIn natives owned rest { s.machine.scene with
          operands := array :: (q.toList.reverse ++ operands), frames := rest } s t ∧
        s.machine.memory.Lends q.toList t.machine.memory ∧
        ∀ owned u rest, Served natives m₀ owned u → u.Dispatches .fill rest →
          u.machine.operands.items = t.machine.operands.items →
          u.machine.memory.heap.object? i = some (.array q) →
          ∃ t', Session.EndsIn natives owned rest
              { u.machine.scene with operands := array :: operands, frames := rest } u t' ∧
            (∃ q', t'.machine.memory.heap.object? i = some (.array q') ∧ q'.toList = q.toList) ∧
            (t.machine.memory.SameHoldings u.machine.memory →
              s.machine.memory.SameHoldings t'.machine.memory)) ∨
      ∃ e t, e.condition = .memoryOverflow ∧ Session.Declines natives owned rest e s t) := by
  obtain ⟨Γ, -, sounds⟩ := Served.exists_charter hm₀
  refine ⟨fun d => ⟨?_, fun short => ⟨rfl, h.declines_to_fill hm₀ d hd ho hoperands short⟩⟩,
    fun d => (h.unpacks hm₀ d hd ho hoperands).imp_left ?_⟩
  · rintro values below rfl hlength
    obtain ⟨t, ends, replaced, -⟩ := h.fills hm₀ d hd ho hoperands hlength fun _ => none
    obtain ⟨q', ho', hq'⟩ := h.lists_filled hm₀ hd ends rfl replaced
    refine ⟨t, ends, ⟨q', ho', hq'⟩, replaced.drifts, fun owned u rest hu d' resumes surrounds => ?_⟩
    have operands : t.machine.operands.items = array :: below := congrArg Scene.operands ends.scene
    have outweighs := h.outweighs_filled hm₀ d ends ho hoperands hlength replaced
    have length : q'.length = values.length := by rw [← hq']; exact List.length_reverse.symm
    obtain ⟨t', ends'⟩ := Served.unpacks_again hm₀ h hu d' hd (resumes.container.trans ho')
      (resumes.operands.trans operands) surrounds (outweighs.trans resumes.outweighs)
      (by simp [Sequence.length, hoperands, ← length])
    rw [hq'] at ends'
    have operands' : t'.machine.operands.items = array :: (values.reverse ++ below) :=
      congrArg Scene.operands ends'.scene
    exact ⟨t', ends', fun owned u' rest hu' d'' same => hu'.drops hm₀ d'' (same.trans operands')⟩
  · rintro ⟨t, ends, lends⟩
    refine ⟨t, ends, lends, fun owned u rest hu d' same ho' => ?_⟩
    have operands := same.trans (congrArg Scene.operands ends.scene)
    obtain ⟨t', ends', replaced, restored⟩ := hu.fills hm₀ d' hd ho' operands List.length_reverse
      s.machine.memory.heap.cell?
    refine ⟨t', ends', hu.lists_filled hm₀ hd ends' rfl replaced, fun held => ?_⟩
    obtain ⟨-, _, hb, -⟩ := (sounds h).memory
    have lent := lends.sameHoldings held
    exact h.restores hm₀ hu d' operands ends' (restored rfl hb.positive lent.cells) lent

/-- `aload astore aload pop` on a filled array. -/
theorem filling_follows_unpacking : ∃ (m₀ : Machine) (p a b c : Session Unit) (array : Value)
    (q : Sequence), m₀.Created {} ∧ Served Natives.none m₀ [] p ∧
      [p, a, b, c].map Session.dispatching? = [some .unpack, some .fill, some .unpack, some .drop] ∧
      array.datum = .array 5 .mutable ∧
      q.toList.map Value.toWord? = [1, 2].map (some ∘ Word.ofInt) ∧
      (∃ t, Session.EndsIn Natives.none [] p.machine.calls.frames.tail { p.machine.scene with
        operands := array :: q.toList.reverse, frames := p.machine.calls.frames.tail } p t) ∧
      (∃ t, Session.EndsIn Natives.none [] a.machine.calls.frames.tail { a.machine.scene with
        operands := [array], frames := a.machine.calls.frames.tail } a t ∧
          p.machine.memory.SameHoldings t.machine.memory) ∧
      (∃ t, Session.EndsIn Natives.none [] b.machine.calls.frames.tail { b.machine.scene with
        operands := array :: q.toList.reverse, frames := b.machine.calls.frames.tail } b t) ∧
      ∃ t, Session.EndsIn Natives.none [] c.machine.calls.frames.tail { c.machine.scene with
        operands := q.toList.reverse, frames := c.machine.calls.frames.tail } c t := by
  let text := "1 2 2 array astore aload astore aload pop"
  let next (s : Session Unit) := (Session.cycle Natives.none s).state?
  have facts : (Session.trial {} text 11).bind (fun p => (next p).bind fun p' =>
      (p'.traverse 0 2).bind fun a => (next a).bind fun a' => (a'.traverse 0 2).bind fun b =>
      (next b).bind fun b' => (b'.traverse 0 2).map fun c => decide (
        [p, a, b, c].map Session.dispatching? = [some .unpack, some .fill, some .unpack, some .drop] ∧
          p.machine.operands.items.map Value.datum = [.array 5 .mutable] ∧
          ((p.machine.memory.heap.object? 5).map fun o => o.values.map Value.toWord?) =
            some ([2, 1].map (some ∘ Word.ofInt)) ∧
          p'.machine.operands.items.length = 3 ∧
          a.machine.memory = p'.machine.memory ∧
          a.machine.operands.items = p'.machine.operands.items ∧
          a.machine.memory.heap.object? 5 = p.machine.memory.heap.object? 5 ∧
          b.machine.memory = a'.machine.memory ∧
          b.machine.operands.items = a'.machine.operands.items ∧
          b.machine.calls.length ≤ a.machine.calls.length ∧
          b.machine.scopes.length ≤ a.machine.scopes.length ∧
          b.machine.recordUnits ≤ a.machine.recordUnits ∧
          c.machine.operands.items = b'.machine.operands.items)) = some true := by decide +kernel
  obtain ⟨p, hp, facts⟩ := Option.bind_eq_some_iff.1 facts
  obtain ⟨p', hp', facts⟩ := Option.bind_eq_some_iff.1 facts
  obtain ⟨a, ha, facts⟩ := Option.bind_eq_some_iff.1 facts
  obtain ⟨a', ha', facts⟩ := Option.bind_eq_some_iff.1 facts
  obtain ⟨b, hb, facts⟩ := Option.bind_eq_some_iff.1 facts
  obtain ⟨b', hb', facts⟩ := Option.bind_eq_some_iff.1 facts
  obtain ⟨c, hc, facts⟩ := Option.map_eq_some_iff.1 facts
  obtain ⟨dispatching, data, items, unpacked, memory, operands, object, memory', operands', calls, scopes,
    records, operands''⟩ := of_decide_eq_true facts
  have builtins := dispatching
  simp only [List.map_cons, List.cons.injEq] at builtins
  obtain ⟨unpacking, filling, unpacking', dropping, -⟩ := builtins
  obtain ⟨m₀, created, reached⟩ := Reached.of_trial (by rintro t ⟨⟩) hp
  have served := reached.served
  obtain ⟨array, _, hoperands, hd, none⟩ := List.map_eq_cons_iff.1 data
  obtain rfl := List.map_eq_nil_iff.1 none
  obtain ⟨o, ho, words⟩ := Option.map_eq_some_iff.1 items
  obtain ⟨q, rfl⟩ : ∃ q, o = .array q := by
    obtain ⟨Γ, -, sound⟩ := served.sound created
    obtain ⟨present, _, balanced, -⟩ := sound.memory
    obtain ⟨q, hq⟩ := balanced.array_of_known present
      (Machine.knows_of_operand (hoperands ▸ .head _)) hd
    exact ⟨q, Option.some.inj (ho.symm.trans hq)⟩
  have on (s : Session Unit) : ∃ above, s.machine.calls.frames = above ++ [] :=
    ⟨_, (List.append_nil _).symm⟩
  -- the array is unpacked
  rcases (filling_inverts_unpacking created served hoperands hd ho).2
    (Session.dispatches_of_dispatching? unpacking) with
    ⟨t, unpacks, -, refills⟩ | ⟨e, t, -, declines⟩
  swap
  · obtain rfl : p' = t := Option.some.inj (hp'.symm.trans declines.conducts.leads)
    rw [declines.operands, hoperands] at unpacked
    cases unpacked
  obtain rfl : p' = t := Option.some.inj (hp'.symm.trans unpacks.conducts.leads)
  have served_a := (served.cycle unpacks.conducts).spans (.of_traverse [] [] ha (on _))
  -- it is filled again
  obtain ⟨t, fills, -, same⟩ := refills [] a _ served_a (Session.dispatches_of_dispatching? filling)
    operands (object.trans ho)
  obtain rfl : a' = t := Option.some.inj (ha'.symm.trans fills.conducts.leads)
  have served_b := (served_a.cycle fills.conducts).spans (.of_traverse [] [] hb (on _))
  have hoperands' : a.machine.operands.items = array :: (q.toList.reverse ++ []) :=
    operands.trans (congrArg Scene.operands unpacks.scene)
  -- and unpacked again
  obtain ⟨t, fills', -, -, unpacks_again⟩ :=
    ((filling_inverts_unpacking created served_a hoperands' hd (object.trans ho)).1
      (Session.dispatches_of_dispatching? filling)).1 _ [] rfl List.length_reverse
  obtain rfl : a' = t := Option.some.inj (ha'.symm.trans fills'.conducts.leads)
  obtain ⟨t, unpacks', drops⟩ := unpacks_again [] b _ served_b
    (Session.dispatches_of_dispatching? unpacking')
    ⟨operands', by rw [memory'], by
      rw [memory']
      exact Memory.SameHoldings.outweighs ⟨rfl, rfl, rfl, rfl⟩⟩
    ⟨calls, scopes, records⟩
  obtain rfl : b' = t := Option.some.inj (hb'.symm.trans unpacks'.conducts.leads)
  have served_c := (served_b.cycle unpacks'.conducts).spans (.of_traverse [] [] hc (on _))
  obtain ⟨t', drops⟩ := drops [] c _ served_c (Session.dispatches_of_dispatching? dropping) operands''
  have stored : q.toList.map Value.toWord? = [1, 2].map (some ∘ Word.ofInt) := by
    rw [Sequence.toList, List.map_reverse, show q.items.map Value.toWord? = _ from words]
    rfl
  rw [List.append_nil] at unpacks unpacks' drops
  exact ⟨m₀, p, a, b, c, array, q, created, served, dispatching, hd, stored, ⟨_, unpacks⟩,
    ⟨_, fills, same (memory ▸ ⟨rfl, rfl, rfl, rfl⟩)⟩, ⟨_, unpacks'⟩, t', drops⟩

end StackScript
