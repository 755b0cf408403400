import StackScript.Proofs.Machine.Arriving
import StackScript.Proofs.Memory.Codes
import StackScript.Proofs.Operator.Building

/-!
# Copying a block

`bind` makes a copy of a block in which executable names that stand for operators have given way to
these (`Machine.bound`), and nested blocks to their copies.  Between two invocations the locals of its
frame refer to a working copy, and say for which of the items the copy of a nested block is awaited
(`Heap.Copying`).  An invocation takes in the copy that has been awaited, if any, and goes on with the
next item, or replaces the working copy by a block.
-/

namespace StackScript

open StackScript.Action Memory

/-- What binding makes of a value that is no block: an executable name gives way to the operator it
stands for. -/
def Machine.bound (m : Machine) (v : Value) : Value :=
  match v.datum with
  | .name name true =>
    match m.resolution? name with
    | some (_, w) => if w.toOperator?.isSome then w.withSource v.source else v
    | none => v
  | _ => v

/-- The locals refer to the working copy, and to the item for which a copy is awaited. -/
structure Dictionary.Tracks (i : Handle) (awaited : Option ℕ) (d : Dictionary) : Prop where
  target : d.get? "target" = some (.array i .mutable)
  pending : (d.get? "pending").bind (fun v => v.toWord?.bind Word.index?) = awaited
  values : ∀ v ∈ d.values, ∀ k, v.handle? = some k → k = i

/-- The locals in `d` go with the working copy `i`, which holds these items. -/
structure Heap.Copying (d i : Handle) (awaited : Option ℕ) (items : List Value) (h : Heap) :
    Prop where
  ne : d ≠ i
  locals : h.Shows d fun o => ∃ D, o = .dictionary D ∧ D.Tracks i awaited
  items : h.Shows i (Object.Lists items)

namespace Heap

variable {h h' : Heap} {d i : Handle} {awaited awaited' : Option ℕ} {items items' : List Value}

theorem Copying.sheds (hc : h.Copying d i awaited items) (hs : h.Sheds h') :
    h'.Copying d i awaited items :=
  ⟨hc.ne, hc.locals.sheds hs, hc.items.sheds hs⟩

/-- The working copy and its locals have changed, and nothing else has but what has gone. -/
structure Revises (d i : Handle) (awaited : Option ℕ) (items : List Value) (h h' : Heap) :
    Prop where
  drifts : h.Drifts (fun k => k = d ∨ k = i) h'
  copying : h'.Copying d i awaited items

theorem Copying.revises (hc : h.Copying d i awaited items) : h.Revises d i awaited items h :=
  ⟨.refl _ h, hc⟩

theorem Revises.trans {h'' : Heap} (h₁₂ : h.Revises d i awaited items h')
    (h₂₃ : h'.Revises d i awaited' items' h'') : h.Revises d i awaited' items' h'' :=
  ⟨h₁₂.drifts.trans h₂₃.drifts, h₂₃.copying⟩

theorem Revises.sheds {h'' : Heap} (hr : h.Revises d i awaited items h') (hs : h'.Sheds h'') :
    h.Revises d i awaited items h'' :=
  ⟨hr.drifts.trans (hs.drifts _), hr.copying.sheds hs⟩

theorem Copying.setItems (hc : h.Copying d i awaited items)
    (hr : h.Replaces i (Object.Lists items') h') : h.Revises d i awaited items' h' :=
  ⟨hr.drifts.mono fun _ => .inr, hc.ne, hr.shows_of_ne hc.ne hc.locals, hr.shows⟩

theorem Copying.setPending {v : Value} (hc : h.Copying d i awaited items) (hv : v.handle? = none)
    (hr : h.Replaces d (fun o => ∃ D : Dictionary, D.Tracks i awaited ∧
      o = .dictionary { D with entries := D.entries.put "pending" v }) h') :
    h.Revises d i (v.toWord?.bind Word.index?) items h' := by
  refine ⟨hr.drifts.mono fun _ => .inl, hc.ne, fun o ho => ?_, hr.shows_of_ne hc.ne.symm hc.items⟩
  obtain ⟨D, tracks, rfl⟩ := hr.shows o ho
  refine ⟨_, rfl, ?_, ?_, fun w hw k hk => ?_⟩
  · exact (TextMap.find?_put_ne D.entries (by decide) v).trans tracks.target
  · rw [Dictionary.get?, TextMap.find?_put_self]
    rfl
  · rcases List.mem_cons.1 (D.values_put "pending" v hw) with rfl | hw
    · rw [hv] at hk
      cases hk
    · exact tracks.values w hw k hk

/-- A new array becomes a working copy once new locals refer to it. -/
theorem Stores.revises {h₁ h₂ h₃ : Heap} {s : Sequence} (stores : h.Stores i (.array s) h₁)
    (created : h₁.Stores d (.dictionary { account := .system }) h₂)
    (replaces : h₂.Replaces d (· = .dictionary
      { account := .system, entries := [("target", .array i .mutable)] }) h₃) :
    h₁.Revises d i none s.toList h₃ := by
  -- the dictionary is another new container
  have ne : d ≠ i := by
    rintro rfl
    have some := stores.content d
    rw [if_pos rfl, content?_eq_none_iff.2 created.unused] at some
    cases some
  refine ⟨?_, ne, fun o ho => ?_, ?_⟩
  · exact (created.drifts.mono fun _ => .inl).trans (replaces.drifts.mono fun _ => .inl)
  · refine ⟨_, replaces.shows o ho, rfl, rfl, fun w hw k hk => ?_⟩
    obtain rfl := List.mem_singleton.1 hw
    exact (Option.some.inj hk).symm
  · exact replaces.shows_of_ne ne.symm (created.shows_of_ne ne.symm (stores.shows ⟨s, rfl, rfl⟩))

end Heap

namespace Machine

variable {m m' : Machine} {v : Value}

theorem bound_eq_of_resolution? (h : ∀ name, m'.resolution? name = m.resolution? name) :
    m'.bound = m.bound := by
  funext v
  unfold bound
  simp only [h]

theorem bound_cases (m : Machine) (v : Value) : m.bound v = v ∨
    ∃ (w : Value) (o : Operator), w.datum = .operator o ∧ m.bound v = w.withSource v.source := by
  unfold bound
  split
  · split
    · rename_i w _
      split
      · rename_i hw
        unfold Value.toOperator? at hw
        split at hw
        · rename_i o hd
          exact .inr ⟨w, o, hd, rfl⟩
        · cases hw
      · exact .inl rfl
    · exact .inl rfl
  · exact .inl rfl

/-- Operators stay. -/
theorem bound_bound (m : Machine) (v : Value) : m.bound (m.bound v) = m.bound v := by
  rcases m.bound_cases v with same | ⟨w, o, hw, operator⟩
  · rw [same, same]
  · rw [operator, bound, Value.withSource, hw]

theorem block?_bound (hv : v.block? = none) : (m.bound v).block? = none := by
  rcases m.bound_cases v with same | ⟨w, o, hw, operator⟩
  · rw [same, hv]
  · rw [operator, Value.block?, Value.withSource, hw]

/-- A value that holds a container is none that is bound. -/
theorem handle?_bound {k : Handle} (hk : (m.bound v).handle? = some k) : v.handle? = some k := by
  rcases m.bound_cases v with same | ⟨w, o, hw, operator⟩
  · rwa [same] at hk
  · rw [operator, Value.handle?, Value.withSource, hw] at hk
    cases hk

end Machine

namespace Operation

variable {m m' : Machine} {f : Frame} {above rest : List Frame} {d i : Handle}
  {awaited : Option ℕ} {items content below : List Value} {own : Option ℕ} {access : Access}
  {Γ : Charter} {n : ℕ} {x : Stake}

/-! ### What the frame tells -/

theorem awaitedItem_grants (above : List Frame) (hframes : m.calls.frames = above ++ f :: rest)
    (hlocals : f.locals = some d) (h : m.memory.heap.Copying d i awaited items) :
    (awaitedItem.runOn (some rest.length) m).Grants fun a m' => m' = m ∧ a = awaited := by
  refine grants_runOn_bind (local?_grants above hframes hlocals h.locals "pending") ?_
  rintro _ _ ⟨rfl, D, tracks, rfl⟩
  exact ⟨rfl, tracks.pending⟩

/-- Reading an array finds the items it shows. -/
theorem items_grants (access : Access) (h : m.memory.heap.Shows i (Object.Lists content)) :
    ((Operation.items (.array i access)).runOn own m).Grants fun a m' => m' = m ∧ a = content := by
  rw [Operation.items, read, runOn_bind machine_runOn]
  have reads : (m.items (.array i access)).run =
      (m.memory.array i).map fun s => .ok s.toList := by
    change (liftM (m.memory.array i) >>= fun s => pure s.toList : Reading (List Value)).run = _
    cases m.memory.array i <;> rfl
  rw [reads]
  cases hs : m.memory.array i with
  | error b => trivial
  | ok s =>
    obtain ⟨_, same, rfl⟩ := h _ (Memory.object?_of_array hs)
    cases same
    exact ⟨rfl, rfl⟩

/-! ### Working on the copy -/

/-- What is awaited is noted down. -/
theorem setPending_grants (above : List Frame) (hframes : m.calls.frames = above ++ f :: rest)
    (hlocals : f.locals = some d) (h : m.memory.heap.Copying d i awaited items) (n : Word) :
    ((setLocal "pending" (.integer n)).runOn (some rest.length) m).Grants fun _ m' =>
      m.Becomes m.scene m' ∧ m.memory.heap.Revises d i n.index? items m'.memory.heap :=
  Outcome.Grants.mono (grants_ask (r := .setLocal "pending" (.integer n))
    (Machine.setLocal_grants hframes hlocals h.locals _ _)) fun _ _ ⟨becomes, replaces⟩ =>
      ⟨becomes, h.setPending rfl replaces⟩

/-- What an invocation takes from the operands above `below` to get from the items of the working copy
to those it goes on from. -/
inductive Collects (below : List Value) :
    List Value → Option ℕ → List Value → List Value → Prop
  | ready (items : List Value) : Collects below below none items items
  | awaits {items : List Value} {k : ℕ} (v : Value) (hk : k < items.length) :
    Collects below (v :: below) (some k) items (items.set k v)

/-- The copy of a nested block that has been awaited is taken in. -/
theorem collectBound_grants (hm : m.Growing) (hframes : m.calls.frames = f :: rest)
    (hlocals : f.locals = some d) (h : m.memory.heap.Copying d i awaited items)
    (hcollects : Collects below m.operands.items awaited items content) :
    ((collectBound (.array i .mutable)).runOn (some rest.length) m).Grants fun _ m' =>
      m.Becomes { m.scene with operands := below } m' ∧
        m.memory.heap.Revises d i none content m'.memory.heap := by
  refine grants_runOn_bind (awaitedItem_grants [] hframes hlocals h) ?_
  rintro _ m ⟨rfl, rfl⟩
  generalize hoperands : m.operands.items = operands at hcollects
  cases hcollects with
  | ready => exact ⟨⟨by rw [← hoperands]; rfl, rfl⟩, h.revises⟩
  | @awaits _ k v hk =>
    dsimp only
    unfold Machine.operand?
    rw [runOn_bind machine_runOn, hoperands]
    refine grants_runOn_bind (M := fun a m' => a = v ∧ m' = m) ⟨rfl, rfl⟩ ?_
    rintro v m ⟨rfl, rfl⟩
    refine grants_runOn_bind (grants_ask (r := .setItem (.array i .mutable) k _)
      (Machine.setItem_grants h.items hk _)) fun _ m₁ ⟨h₁, replaces⟩ => ?_
    have revised := h.setItems replaces
    have held : m₁.operands.items = v :: below := h₁.operands.trans hoperands
    have many : 1 ≤ m₁.operands.length := by
      unfold Sequence.length
      rw [held]
      simp
    refine grants_runOn_bind (grants_ask (r := .exchange 1 [])
      (Machine.exchangeOperands_grants (h₁.growing hm) many)) fun _ m₂ ⟨h₂, sheds⟩ => ?_
    have revised := revised.sheds sheds
    refine (setPending_grants [] ((h₂.frames.trans h₁.frames).trans hframes) hlocals
      revised.copying (.ofInt (-1))).mono fun _ m₃ ⟨h₃, revised'⟩ =>
        ⟨⟨h₃.scene.trans (h₂.scene.trans ?_), (h₃.growth.trans h₂.growth).trans h₁.growth⟩,
          revised.trans revised'⟩
    rw [h₁.scene, held]
    rfl

/-- A value that is no block is bound where it stands. -/
theorem bindItem_grants {item : Value} {k : ℕ} (hs : m.Sound Γ n x)
    (h : m.memory.heap.Copying d i awaited items) (hitem : items[k]? = some item)
    (hblock : item.block? = none) (step : Word) :
    ((bindItem (.array i .mutable) k item step).runOn own m).Grants fun _ m' =>
      m.Becomes m.scene m' ∧
        m.memory.heap.Revises d i awaited (items.set k (m.bound item)) m'.memory.heap := by
  obtain ⟨hk, rfl⟩ := List.getElem?_eq_some_iff.1 hitem
  -- where nothing is stored the item is bound to itself
  have kept (hbound : m.bound items[k] = items[k]) :
      m.Becomes m.scene m ∧
        m.memory.heap.Revises d i awaited (items.set k (m.bound items[k])) m.memory.heap := by
    rw [hbound, List.set_getElem_self]
    exact ⟨.refl m, h.revises⟩
  unfold bindItem
  split
  · rename_i name hd
    have located : (locate name).runOn own m = .done (m.resolution? name) m := by
      unfold locate
      rw [runOn_bind machine_runOn, hs.locate_eq]
      rfl
    rw [runOn_bind located]
    have bound : m.bound items[k] = match m.resolution? name with
        | some (_, w) => if w.toOperator?.isSome then w.withSource items[k].source else items[k]
        | none => items[k] := by
      unfold Machine.bound
      rw [hd]
    generalize m.resolution? name = found at bound ⊢
    cases found with
    | none => exact kept bound
    | some found =>
      obtain ⟨scope, w⟩ := found
      dsimp only at bound ⊢
      by_cases hop : w.toOperator?.isSome
      · rw [if_pos hop] at bound ⊢
        rw [bound]
        exact (grants_ask (r := .setItem (.array i .mutable) k _)
          (Machine.setItem_grants h.items hk _)).mono fun _ _ ⟨becomes, replaces⟩ =>
            ⟨becomes, h.setItems replaces⟩
      · rw [if_neg hop] at bound ⊢
        exact kept bound
  · rename_i b hd
    unfold Value.block? at hblock
    rw [hd] at hblock
    cases hblock
  · rename_i hname _
    refine kept ?_
    unfold Machine.bound
    split
    · rename_i name hd
      exact absurd hd (hname name)
    · rfl

/-- For a nested block another `bind` is queued, and its copy is awaited. -/
theorem bindItem_queues {item : Value} {b : Handle} (hm : m.Growing)
    (hframes : m.calls.frames = f :: rest) (hlocals : f.locals = some d)
    (h : m.memory.heap.Copying d i awaited items) (hblock : item.block? = some b) (k : ℕ)
    (step : Word) :
    ((bindItem (.array i .mutable) k item step).runOn (some rest.length) m).Grants fun _ m' =>
      m.Becomes { m.scene with
        operands := item :: m.operands.items
        frames := { value := f.value } :: f :: rest } m' ∧
        m.memory.heap.Revises d i (Word.ofInt (step.toInt - 1)).index? items m'.memory.heap := by
  have hd : item.datum = .array b .block := by
    unfold Value.block? at hblock
    split at hblock
    · rename_i hd
      cases hblock
      exact hd
    · cases hblock
  unfold bindItem
  rw [hd]
  dsimp only
  rw [runOn_bind (currentOperator_runOn (CallStack.frame?_head hframes))]
  refine grants_runOn_bind (grants_ask (r := .exchange 0 [item])
    (Machine.pushOperands_grants hm [item])) fun _ m₁ ⟨h₁, recounts⟩ => ?_
  have revised := h.revises.sheds recounts.sheds
  refine grants_runOn_bind (grants_ask (r := .call f.value)
    (Machine.pushFrame_grants (h₁.growing hm) { value := f.value })) fun _ m₂ ⟨h₂, recounts⟩ => ?_
  have revised := revised.sheds recounts.sheds
  have hframes₂ : m₂.calls.frames = [{ value := f.value }] ++ f :: rest :=
    h₂.frames.trans (congrArg _ (h₁.frames.trans hframes))
  refine (setPending_grants [_] hframes₂ hlocals revised.copying _).mono fun _ m₃ ⟨h₃, revised'⟩ =>
    ⟨⟨h₃.scene.trans (h₂.scene.trans ?_), (h₃.growth.trans h₂.growth).trans h₁.growth⟩,
      revised.trans revised'⟩
  rw [h₁.scene, h₁.frames, Machine.scene, hframes]
  rfl

/-- The working copy gives way to a block. -/
theorem finishBind_grants (hm : m.Growing) (hw : m.memory.heap.WellFormed)
    (h : m.memory.heap.Shows i (Object.Lists items)) :
    ((finishBind (.array i access)).runOn own m).Grants fun _ m' => ∃ j,
      m.Becomes { m.scene with operands := .array j .block :: m.operands.items } m' ∧
        m.memory.heap.Builds j items m'.memory.heap := by
  refine grants_runOn_bind (items_grants _ h) ?_
  rintro _ _ ⟨rfl, rfl⟩
  refine grants_runOn_bind (grants_ask (Machine.createArray_grants hw .block _)) ?_
  rintro _ m₁ ⟨j, rfl, h₁, s, hs, stores⟩
  refine (grants_ask (r := .adopt 0 (.array j .block)) (Machine.adopt_grants (h₁.growing hm)
    (Nat.zero_le _) _)).mono fun _ m₂ ⟨h₂, sheds⟩ =>
      ⟨j, ⟨h₂.scene.trans ?_, h₂.growth.trans h₁.growth⟩, s, hs, _, stores, sheds⟩
  rw [h₁.scene, h₁.operands]
  rfl

/-! ### Invocations -/

/-- An invocation in a running step takes in what has been awaited, and goes on with the next item. -/
theorem bindBlock_grants {P : Unit → Machine → Prop} {k : ℕ}
    (hb : Bound Γ rest.length x (.array i .mutable) m) (hm : m.Growing)
    (hframes : m.calls.frames = f :: rest) (hstate : f.state = .running (.ofInt (k + 1)))
    (hlocals : f.locals = some d) (hk : (k : ℤ) + 1 ≤ 9223372036854775807)
    (h : m.memory.heap.Copying d i awaited items)
    (hcollects : Collects below m.operands.items awaited items content)
    (hnext : ∀ m', m'.Sound Γ (rest.length + 1) x → m.Becomes { m.scene with operands := below } m' →
      m.memory.heap.Revises d i none content m'.memory.heap →
        ((match content[k]? with
          | none => do
            finishBind (.array i .mutable)
            setState .pop
          | some item => do
            bindItem (.array i .mutable) k item (.ofInt (k + 1))
            setState (.running (.ofInt (k + 1 + 1))) : Operation Unit).runOn
              (some rest.length) m').Grants P) :
    ((bindBlock []).runOn (some rest.length) m).Grants P := by
  have next : (Word.ofInt (k + 1)).toInt = (k : ℤ) + 1 := Word.toInt_ofInt (by omega) hk
  have index : (Word.ofInt ((k : ℤ) + 1 - 1)).index? = some k := by
    unfold Word.index?
    rw [add_sub_cancel_right, Word.toInt_ofInt (by omega) (by omega), if_pos (by omega), Int.toNat_natCast]
  have running : state.runOn (some rest.length) m = .done (.running (.ofInt (k + 1))) m :=
    state_runOn ⟨f, CallStack.frame?_head hframes, hstate⟩
  change ((state >>= _ : Operation Unit).runOn (some rest.length) m).Grants P
  rw [runOn_bind running]
  refine grants_runOn_bind (expectLocal_grants [] hframes hlocals h.locals fun D tracks => tracks.target) ?_
  rintro _ m ⟨rfl, rfl⟩
  refine grants_runOn_bind ((collectBound_grants hm hframes hlocals h hcollects).also
    hb.collectBound_tends) fun _ m' ⟨⟨becomes, revised⟩, ⟨sound, _⟩, _⟩ => ?_
  have converted : (toIndex (.ofInt ((k : ℤ) + 1 - 1))).runOn (some rest.length) m' = .done k m' := by
    unfold toIndex
    rw [index]
    rfl
  rw [next, runOn_bind converted]
  refine grants_runOn_bind (items_grants _ revised.copying.items) ?_
  rintro _ _ ⟨rfl, rfl⟩
  exact hnext _ sound becomes revised

/-- The first invocation makes a working copy, and removes the operand. -/
theorem beginBind_grants {P : Unit → Machine → Prop} {v : Value} {b : Handle}
    (hs : m.Sound Γ (rest.length + 1) x) (hm : m.Growing) (hframes : m.calls.frames = f :: rest)
    (hlocals : f.locals = none) (hoperands : m.operands.items = v :: below)
    (hv : v.block? = some b) (hcontent : m.memory.heap.Shows b (Object.Lists content))
    (hnext : ∀ m' d i, m'.Sound Γ (rest.length + 1) x →
      m.Becomes { m.scene with
        operands := below
        frames := { f with locals := some d } :: rest } m' →
      m.memory.heap.Revises d i none content m'.memory.heap → ¬ m.memory.heap.Live d →
        ¬ m.memory.heap.Live i →
          ((if content.isEmpty then finishBind (.array i .mutable)
            else setState (.running (.ofInt 1)) : Operation Unit).runOn
              (some rest.length) m').Grants P) :
    ((beginBind [v]).runOn (some rest.length) m).Grants P := by
  have known : m.Knows x v := Machine.knows_of_operand (by simp [hoperands])
  have read : ((Operation.items v).runOn (some rest.length) m).Grants fun a m' =>
      m' = m ∧ a = content := by
    obtain ⟨datum, source⟩ := v
    obtain rfl : datum = .array b .block := Heap.datum_of_block? hv
    exact items_grants .block hcontent
  change ((Operation.items v >>= _ : Operation Unit).runOn (some rest.length) m).Grants P
  refine grants_runOn_bind (read.also (reads_items hs known :
    (Operation.items v).Reads (some rest.length) m _)) ?_
  rintro _ _ ⟨⟨rfl, hvs⟩, -, items⟩
  obtain rfl := hvs.symm
  refine grants_runOn_bind (grants_ask ((Machine.createArray_grants hs.wellFormed .mutable _).also (L := True)
    (Machine.createArray_meets hs items))) ?_
  rintro _ m₁ ⟨⟨i, rfl, h₁, s, listed, stores⟩, -, gained⟩
  have hframes₁ : m₁.calls.frames = [] ++ f :: rest := h₁.frames.trans hframes
  have target : m₁.Knows (x + .refs [.array i .mutable]) (.array i .mutable) :=
    Machine.knows_of_pinned (by simp)
  have stored : ((setLocal "target" (.array i .mutable)).runOn (some rest.length) m₁).Grants
      fun _ m₂ => m₂.Sound Γ (rest.length + 1) (x + .refs [.array i .mutable]) ∧ ∃ d,
        m₁.Becomes { m₁.scene with frames := { f with locals := some d } :: rest } m₂ ∧
          ¬ m₁.memory.heap.Live d ∧ m₁.memory.heap.Revises d i none content m₂.memory.heap := by
    refine Outcome.Grants.mono (grants_ask (r := .setLocal "target" _)
      ((Machine.setLocal_grants_of_none gained.sound.wellFormed hframes₁ hlocals "target" _).also (L := True)
        (Machine.setLocal_meets gained.sound (Nat.lt_succ_self _) target))) ?_
    rintro _ m₂ ⟨⟨d, h₂, becomes, created, replaces⟩, ⟨sound, -⟩, -⟩
    exact ⟨sound, d, becomes, not_not.2 created.unused, listed ▸ stores.revises created replaces⟩
  refine grants_runOn_bind (by rw [runOn_attempt]; exact grants_attempt stored) ?_
  rintro _ m₂ (⟨_, rfl, sound₂, d, h₂, unused, revised⟩ | ⟨e, rfl, he⟩)
  · have released : (Machine.release (.array i .mutable) m₂).Grants fun _ m₃ =>
        m₂.Becomes m₂.scene m₃ ∧ m₂.memory.Sheds m₃.memory := Machine.release_yields m₂ _
    refine grants_runOn_bind (grants_ask (r := .release (.array i .mutable)) (released.also (L := True)
      (Machine.release_meets (F := fun _ => True) sound₂)))
      fun _ m₃ ⟨⟨h₃, sheds₃⟩, sound₃, _⟩ => ?_
    have returned : runOn (some rest.length) (Program.ofResult (.ok ())) m₃ = .done () m₃ := rfl
    rw [runOn_bind returned]
    have operands : m₃.operands.items = v :: below :=
      h₃.operands.trans (h₂.operands.trans (h₁.operands.trans hoperands))
    refine grants_runOn_bind (grants_ask (r := .exchange 1 []) ((Machine.exchangeOperands_grants
      ((h₃.growing (h₂.growing (h₁.growing hm)))) (by simp [Sequence.length, operands])).also (L := True)
        (Machine.exchangeOperands_meets sound₃ (List.forall_mem_nil _))))
      fun _ m₄ ⟨⟨h₄, sheds₄⟩, sound₄, _⟩ => ?_
    refine hnext m₄ d i sound₄ ⟨?_, ((h₄.growth.trans h₃.growth).trans h₂.growth).trans h₁.growth⟩
      ⟨?_, (revised.sheds (sheds₃.trans sheds₄)).copying⟩ (fun live => ?_) (not_not.2 stores.unused)
    · rw [h₄.scene, h₃.scene, operands, h₂.scene, h₁.scene]
      rfl
    · exact (stores.drifts.mono fun _ => .inr).trans (revised.sheds (sheds₃.trans sheds₄)).drifts
    · have same := (stores.content d).trans (if_neg revised.copying.ne)
      exact unused ((Heap.live_iff_of_content? same).2 live)
  · -- the copy goes, and the exception goes on
    refine grants_runOn_bind (grants_ask (r := .release _) (Machine.release_yields m₂ _)) ?_
    intro _ m₃ _
    exact he

end Operation

end StackScript
