import StackScript.Proofs.Operator.Lodging

/-!
# Beginning to bind a block

`bind` makes a working copy of the block, which becomes a local of the frame, and removes its operand.
If the copy cannot become a local it is disposed of (`Machine.Lodged.dispose`); a dictionary created
for the locals stays, without entries.

A block without items is bound at once, after its operand has been removed.  That does not fail any
more, since there is room for the empty block that is pushed (`Operation.finishBind_sure`).
-/

namespace StackScript

open Machine (Unscathed Lodged Built Undone)
open Cells

namespace Machine

variable {σ : Cells} {m m₁ m₂ : Machine} {i : ℕ} {v : Value} {name : String} {t : Handle}
  {o : Object}

/-- A value that has been lent to the locals is given up by its creator. -/
theorem Lodged.giveBack (hσ : σ.Counted) (lodged : m.Lodged σ i [(name, v)] m₁)
    (hv : σ.Houses v) :
    (release v m₁).Meets True (fun _ m₂ => m₂.operands = m.operands ∧
      ∃ d c, σ d = none ∧ 0 < c.count ∧ m₂.memory.Has (Function.update σ d (some c)))
      fun _ => False := by
  obtain ⟨d, account, hd, -, cells⟩ := lodged.lodging
  have apart : ∀ w ∈ [v], w.handle? ≠ some d := by simpa using hv.ne hd
  have lent : Object.values (.dictionary { account := account, entries := [(name, v)] }) = [v] := rfl
  rw [build, lent, ← lend_update apart] at cells
  have counted := hσ.update d
    (c := ⟨1, some (.dictionary { account := account, entries := [(name, v)] })⟩) Nat.one_pos
  exact meets_onMemory ((Memory.release_has counted cells).mono
    (fun _ μ hμ => ⟨lodged.operands, d, _, hd, Nat.one_pos, hμ⟩) fun _ => id)

/-- A container just created is disposed of that has not become a local, while the dictionary created
for the locals stays. -/
theorem Lodged.dispose (hσ : σ.Counted) (same : m.SameStacks m₁) (hv : v.handle? = some t)
    (ht : σ t = none) (ho : ∀ w ∈ o.values, σ.Houses w)
    (lodged : m₁.Lodged (σ.build t o) i [] m₂) :
    (release v m₂).Meets True (fun _ m₃ => m.Lodged σ i [] m₃) fun _ => False := by
  obtain ⟨d, account, hd, calls, cells⟩ := lodged.lodging
  have apart : d ≠ t := by
    rintro rfl
    rw [build, Function.update_self] at hd
    cases hd
  have fresh : σ d = none := by
    rwa [build, Function.update_of_ne apart, lend_eq_none] at hd
  have empty : Object.values (.dictionary { account := account, entries := [] }) = [] := rfl
  -- the order in which the two have been created does not matter
  have swapped : (σ.build t o).build d (.dictionary { account := account, entries := [] })
      = Cells.build (σ.build d (.dictionary { account := account, entries := [] }))
        t o := by
    simp only [build, empty, lend_nil]
    rw [lend_update fun w hw => (ho w hw).ne fresh, Function.update_comm apart.symm]
  rw [swapped] at cells
  have counted : (σ.build d (.dictionary { account := account, entries := [] })).Counted :=
    (hσ.lend _).update d Nat.one_pos
  have unused : σ.build d (.dictionary { account := account, entries := [] }) t = none := by
    rwa [build, Function.update_of_ne apart.symm, lend_eq_none]
  unfold SameStacks at same
  refine meets_onMemory ((Memory.release_built counted unused cells hv).mono (fun _ μ hμ => ?_)
    fun _ => id)
  refine ⟨?_, ?_, by simp, d, account, fresh, ?_, hμ⟩
  · exact lodged.operands.trans (by rw [same])
  · exact lodged.scopes.trans (by rw [same])
  · exact calls.trans (by rw [same])

/-- A container just created is disposed of, whether it has got as far as the locals or not. -/
theorem undo_creation (hσ : σ.Counted) (same : m.SameStacks m₁) (hv : v.handle? = some t)
    (ht : σ t = none) (ho : ∀ w ∈ o.values, σ.Houses w)
    (h : m₁.Unscathed (σ.build t o) m₂ ∨ m₁.Lodged (σ.build t o) i [] m₂) :
    (release v m₂).Meets True (fun _ m₃ => m.Undone σ i m₃) fun _ => False := by
  rcases h with ⟨same₂, cells⟩ | lodged
  · unfold SameStacks at same same₂
    have built : m.Built σ v o m₂ := ⟨by rw [same₂, same]; rfl, t, hv, ht, cells⟩
    exact (built.release hσ).mono (fun _ _ => .inl) fun _ => id
  · exact (lodged.dispose hσ same hv ht ho).mono (fun _ _ h => .inr ⟨_, h⟩) fun _ => id

end Machine

namespace Operation

variable {Γ : Charter} {x : Stake} {σ : Cells} {m : Machine} {i : ℕ} {g : Frame}
  {params : List Value}

/-- The copy of a block without items becomes a block where there is room for it. -/
theorem finishBind_sure {t : Handle} {c : Cell} {s : Sequence} {own : Option ℕ}
    (hc : m.memory.heap.cell? t = some c) (ho : c.object = some (.array s)) (hs : s.items = [])
    (room : m.operands.HasSlot m.memory.ledger) :
    (finishBind (.array t .mutable)).Fails own m fun _ => False := by
  have object : m.memory.heap.object? t = some (.array s) := by
    rw [Heap.object?, hc]
    exact ho
  have read : (items (.array t .mutable)).runOn own m = .done [] m := by
    have found : (m.items (.array t .mutable)).run = .ok (.ok s.toList) := by
      change (return (← m.memory.array t).toList : Reading (List Value)).run = _
      rw [Memory.array_of_object? object]
      rfl
    have empty : s.toList = [] := by rw [Sequence.toList, hs]; rfl
    change (Program.ofSound (m.items _).run >>= Program.ofExcept).run (Request.perform own) m = _
    rw [found, empty]
    rfl
  refine meets_bind (M := fun all m' => all = [] ∧ m' = m) (read ▸ ⟨rfl, rfl⟩) ?_
  rintro _ _ ⟨rfl, rfl⟩
  refine meets_bind (meets_ask (Machine.createArray_hasSlot room .block)) ?_
  rintro block m₁ ⟨hblock, room⟩
  exact meets_ask (Machine.adopt_sure room hblock)

/-- The operand is removed, and a block without items takes its place. -/
theorem bindEmpty_sure {block : Value} {rest : List Value} {j t d : Handle} {c e : Cell}
    {s : Sequence} (hσ : σ.Counted) (sound : m.Sound Γ (i + 1) x)
    (hitems : m.operands.items = block :: rest) (hblock : block.handle? = some j)
    (housed : σ.Houses block) (ht : σ t = none) (hd : σ d = none) (apart : d ≠ t)
    (ho : c.object = some (.array s)) (hs : s.items = []) (hc : 0 < c.count) (he : 0 < e.count)
    (cells : m.memory.Has (Function.update (Function.update (σ.lend [block]) t (some c)) d (some e))) :
    (pop 1 >>= fun _ => finishBind (.array t .mutable)).Fails (some i) m fun _ => False := by
  have hlent (k : Handle) (hk : σ k = none) : ∀ v ∈ [block], v.handle? ≠ some k := by
    simpa using housed.ne hk
  obtain ⟨b, hb⟩ := Option.ne_none_iff_exists'.1 (housed j hblock)
  have shared : m.memory.heap.cell? j = some { b with count := b.count + 1 } := by
    have hj (k : Handle) (hk : σ k = none) : j ≠ k := by rintro rfl; rw [hk] at hb; cases hb
    rw [cells.cells, Function.update_of_ne (hj d hd), Function.update_of_ne (hj t ht), lend, hb]
    simp [hblock]
  have room := Machine.popOperand_hasSlot sound hitems hblock shared
    (Nat.lt_succ_of_le (hσ j b hb))
  have fresh : Function.update σ t (some c) d = none := by rwa [Function.update_of_ne apart]
  rw [← lend_update (hlent t ht), ← lend_update (hlent d hd)] at cells
  have counted : Counted (Function.update (Function.update σ t (some c)) d (some e)) :=
    (hσ.update t hc).update d he
  have top : m.operands.items.take 1 = [block] := by rw [hitems]; rfl
  have removed : (Machine.exchangeOperands 1 [] m).Meets True (fun _ m' => m'.memory.Has
      (Function.update (Function.update σ t (some c)) d (some e))) fun _ => True := by
    refine Machine.meets_onOperands ((Sequence.exchange_has counted m.operands (top ▸ cells)
      []).mono (fun _ μ hμ => ?_) fun _ _ => trivial)
    rw [lend_nil] at hμ
    exact hμ.2
  refine meets_bind (meets_ask ((room.and removed).mono (fun _ _ => id) fun _ h => h.1)) ?_
  rintro _ m₁ ⟨room, cells₁⟩
  refine finishBind_sure (c := c) ?_ ho hs room
  rw [cells₁.cells, Function.update_of_ne apart.symm, Function.update_self]

/-- What has been attempted is followed up, whichever way it has ended. -/
theorem fails_attempt {α : Type} {r : Request} {P : r.Answer → Machine → Prop} {F G : Machine → Prop}
    {f : Except Exception r.Answer → Operation α} {own : Option ℕ}
    (h : (r.perform own m).Meets True P G)
    (done : ∀ a m', P a m' → Operation.Fails own m' (f (.ok a)) F)
    (failed : ∀ e m', G m' → Operation.Fails own m' (f (.error e)) F) :
    Operation.Fails own m ((ask r).attempt >>= f) F := by
  refine meets_bind (M := fun stored m' => Operation.Fails own m' (f stored) F) ?_ fun _ _ h => h
  exact meets_attempt (meets_ask (h.mono done fun m' hm' e => failed e m' hm'))

/-- Once the working copy is a local, its creator gives it up, and nothing fails any more. -/
theorem keepCopy_sure {block : Value} {rest : List Value} {j t : Handle} {s copy : Sequence}
    (hσ : σ.Counted)
    (hitems : m.operands.items = block :: rest) (hblock : block.handle? = some j)
    (housed : σ.Houses block) (fresh : σ t = none) (hcopy : copy.items = s.toList.reverse)
    (lodged : m.Lodged ((σ.lend [block]).build t (.array copy)) i
      [("target", .array t .mutable)] m₂)
    (sound : m₂.Sound Γ (i + 1) (x + .refs [.array t .mutable])) (ready : m₂.Ready i 1) :
    (release (.array t .mutable) >>= fun _ => pop 1 >>= fun _ =>
      if s.toList.isEmpty then finishBind (.array t .mutable) else setState (.running (.ofInt 1))).Fails
      (some i) m₂ fun _ => False := by
  have counted : ((σ.lend [block]).build t (.array copy)).Counted :=
    ((hσ.lend _).lend _).update t Nat.one_pos
  have housing : Cells.Houses ((σ.lend [block]).build t (.array copy))
      (.array t .mutable) := by
    intro k hk
    obtain rfl : t = k := Option.some.inj hk
    simp [build]
  have sounds : (Machine.release (.array t .mutable) m₂).Meets True _ (fun _ => True) :=
    Machine.release_meets sound
  have given := (lodged.giveBack counted housing).and
    (sounds.and (ready.perform (r := .release (.array t .mutable)) trivial (some i)))
  refine meets_bind (meets_ask (given.mono (fun _ _ => id) fun _ h => h.1.elim)) ?_
  rintro _ m₃ ⟨⟨operands, d, dict, hd, hdict, cells⟩, ⟨sound, -, -⟩, ready⟩
  by_cases hempty : s.toList.isEmpty
  · -- the operand leaves room for the block that is pushed
    have hcopy : copy.items = [] := by rw [hcopy, List.isEmpty_iff.1 hempty]; rfl
    have copied : Object.values (.array copy) = [] := hcopy
    have apart : d ≠ t := by
      rintro rfl
      rw [build, Function.update_self] at hd
      cases hd
    rw [build, Function.update_of_ne apart, lend_eq_none, lend_eq_none] at hd
    rw [build, copied, lend_nil] at cells
    rw [if_pos hempty]
    exact bindEmpty_sure hσ sound (operands ▸ hitems) hblock housed fresh hd apart rfl hcopy
      Nat.one_pos hdict cells
  · refine meets_bind ((pop_sure ready (some i)).mono (fun _ _ => id) fun _ h => h.elim)
      fun _ m₄ state => ?_
    rw [if_neg hempty]
    exact (setState_sure state rfl).mono (fun _ _ => id) fun _ h => h.elim

/-- A working copy of the block is bound in the frame, or nothing is left of it. -/
theorem beginBind_fails (hσ : σ.Counted) (h : m.memory.Has (σ.lend params))
    (hg : m.calls.frame? i = some g) (hlocals : g.locals = none)
    (htaken : params = m.operands.items.take params.length)
    (hparams : ∀ v ∈ params, σ.Houses v) (hlength : params.length = 1)
    (sound : m.Sound Γ (i + 1) x) (hx : ∀ v ∈ params, v ∈ x.values) (ready : m.Ready i 1) :
    (beginBind params).Fails (some i) m (m.Undone (σ.lend params) i) := by
  have hτ : (σ.lend params).Counted := hσ.lend params
  have look : m.Undone (σ.lend params) i m := .inl (Machine.unscathed_self h)
  obtain ⟨block, rfl⟩ := List.length_eq_one_iff.1 hlength
  have known : m.Knows x block := knows_params hx List.mem_cons_self
  refine Reads.step (P := fun v => v = block) (reads_ofOption fun _ h => (Option.some.inj h).symm)
    look ?_
  rintro block rfl
  refine (reads_array sound known).step look ?_
  rintro content ⟨j, access, s, hd, ho, rfl⟩
  have hblock : block.handle? = some j := by rw [Value.handle?, hd]
  have items (v : Value) (hv : v ∈ s.toList) : m.Knows x v :=
    Machine.knows_of_item ho (List.mem_reverse.1 hv)
  -- the working copy
  have sounds : (Machine.createArray .mutable s.toList m).Meets True _ _ :=
    Machine.createArray_meets sound items
  have created := Outcome.Meets.and (Machine.createArray_builds hτ h .mutable s.toList)
    (sounds.and (ready.perform (r := .createArray .mutable s.toList) trivial (some i)))
  refine meets_bind (meets_ask (created.mono (fun _ _ => id) fun _ h => .inl h.1)) ?_
  rintro _ m₁ ⟨⟨⟨t, rfl⟩, copy, hcopy, built⟩, ⟨-, gained⟩, ready₁⟩
  obtain ⟨_, ⟨⟩, fresh, cells⟩ := built.fresh
  have same := built.same
  unfold Machine.SameStacks at same
  have hg₁ : m₁.calls.frame? i = some g := by rw [same]; exact hg
  have counted : ((σ.lend [block]).build t (.array copy)).Counted :=
    (hτ.lend _).update t Nat.one_pos
  have housed : Cells.Houses ((σ.lend [block]).build t (.array copy))
      (.array t .mutable) := by
    intro k hk
    obtain rfl : t = k := Option.some.inj hk
    simp [build]
  -- it becomes a local, or it does not
  have pinned : m₁.Knows (x + .refs [.array t .mutable]) (.array t .mutable) :=
    Machine.knows_of_pinned (by simp)
  have sounds : (Machine.setLocal i "target" (.array t .mutable) m₁).Meets True _ _ :=
    Machine.setLocal_meets gained.sound (Nat.lt_succ_self i) pinned
  have bound := Outcome.Meets.and
    (Machine.setLocal_lodges counted cells hg₁ hlocals "target" housed)
    (sounds.and (ready₁.perform (r := .setLocal "target" (.array t .mutable)) trivial (some i)))
  refine fails_attempt (r := .setLocal "target" (.array t .mutable)) bound ?_ ?_
  · rintro _ m₂ ⟨lodged, ⟨⟨sound₂, -⟩, -⟩, ready₂⟩
    obtain ⟨rest, hitems⟩ : ∃ rest, m₁.operands.items = block :: rest := by
      have operands : m₁.operands = m.operands := by rw [same]
      cases hm : m.operands.items with
      | nil => rw [hm] at htaken; cases htaken
      | cons v rest =>
        rw [hm] at htaken
        exact ⟨rest, by rw [operands, hm, (List.cons.inj htaken).1]⟩
    exact (keepCopy_sure hσ hitems hblock (hparams block List.mem_cons_self) (lend_eq_none.1 fresh)
      hcopy lodged sound₂ ready₂).mono (fun _ _ => id) fun _ h => h.elim
  · rintro e m₂ ⟨h₂, -⟩
    have copied (w : Value) (hw : w ∈ Object.values (.array copy)) : (σ.lend [block]).Houses w := by
      have hw : w ∈ copy.items := hw
      rw [hcopy, List.mem_reverse] at hw
      exact sound.houses h (items w hw)
    have undone := Machine.undo_creation hτ built.same (v := .array t .mutable) rfl fresh copied h₂
    exact meets_bind (meets_ask (undone.always fun _ _ => id)) fun _ _ h => h

theorem bindBlock_fails (hσ : σ.Counted) (h : m.memory.Has (σ.lend params))
    (hg : m.calls.frame? i = some g) (hlocals : g.locals = none)
    (htaken : params = m.operands.items.take params.length)
    (hparams : ∀ v ∈ params, σ.Houses v) (hlength : params.length = 1)
    (sound : m.Sound Γ (i + 1) x) (hx : ∀ v ∈ params, v ∈ x.values) (ready : m.Ready i 1) :
    (bindBlock params).Fails (some i) m (m.Undone (σ.lend params) i) := by
  have begun : bindBlock params = beginBind params := by
    cases params with
    | nil => cases hlength
    | cons v rest => rfl
  rw [begun]
  exact beginBind_fails hσ h hg hlocals htaken hparams hlength sound hx ready

end Operation

end StackScript
