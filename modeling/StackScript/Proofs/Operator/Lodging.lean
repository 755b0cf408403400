import StackScript.Proofs.Machine.Headroom
import StackScript.Proofs.Operator.Pinning
import StackScript.Proofs.Operator.Undoing

/-!
# Operators that keep their operands in their frame

A loop, `finally` and `bind` bind values among the locals of their frame.  The locals stay there if the
operator fails, since the frame does.

Loops remove their operands once they have bound them, and queue the block after that.  So if the
block cannot be queued the operands are gone, and the block is among the locals
(`Operation.loopBlock_fails`).  Whatever else a loop fails for, its operands are there
(`Builtin.operation_risks`).
-/

namespace StackScript

open Machine (Unscathed Lodged Built)
open Cells

namespace Machine

variable {σ : Cells} {m m' : Machine} {i : ℕ} {entries : TextMap Value}

/-- The machine is as it was, but the operator's frame may have got locals. -/
def Undone (σ : Cells) (i : ℕ) (m m' : Machine) : Prop :=
  m.Unscathed σ m' ∨ ∃ entries, m.Lodged σ i entries m'

/-- What an operator leaves that fails while it holds on to `params`. A loop may have removed its
operands, which are then among the locals of its frame. -/
inductive Aftermath (σ : Cells) (params : List Value) (i : ℕ) (loops : Prop) (m m' : Machine) :
    Prop
  | kept (h : m.Undone (σ.lend params) i m')
  | taken {entries : TextMap Value} (hloops : loops)
    (items : m'.operands.items = m.operands.items.drop params.length)
    (same : σ.lend (entries.map Prod.snd) = σ.lend params)
    (h : Lodged σ i entries { m with operands := m'.operands } m')

theorem Aftermath.imp {params : List Value} {loops loops' : Prop}
    (h : m.Aftermath σ params i loops m') (hloops : loops → loops') :
    m.Aftermath σ params i loops' m' := by
  cases h with
  | kept h => exact .kept h
  | taken hl items same h => exact .taken (hloops hl) items same h

/-- A request that is refused leaves the locals there. -/
theorem Lodged.refused (hσ : σ.Counted) (h : m.Lodged σ i entries m') {r : Request} (hr : r.Single)
    (own : Option ℕ) :
    (r.perform own m').Meets True (fun _ _ => True) (m.Lodged σ i entries) := by
  obtain ⟨j, account, hj, calls, cells⟩ := h.lodging
  have counted : (σ.build j (.dictionary { account := account, entries := entries })).Counted :=
    (hσ.lend _).update j Nat.one_pos
  refine (r.perform_refused own counted cells hr).mono (fun _ _ => id) fun m'' h' => ?_
  have same := h'.same
  unfold SameStacks at same
  refine ⟨?_, ?_, h.housed, j, account, hj, ?_, h'.cells⟩
  · rw [same]; exact h.operands
  · rw [same]; exact h.scopes
  · rw [same]; exact calls

end Machine

namespace Operation

open Machine (Undone)

variable {Γ : Charter} {x : Stake} {σ : Cells} {m : Machine} {i : ℕ} {g : Frame}
  {params : List Value}

/-! ### Finalizers -/

theorem ensureFinalizer_fails (hσ : σ.Counted) (h : m.memory.Has σ)
    (hg : m.calls.frame? i = some g) (hlocals : g.locals = none) (hparams : ∀ v ∈ params, σ.Houses v)
    (ready : m.Ready i 2) : (ensureFinalizer params).Fails (some i) m (m.Undone σ i) := by
  have look : m.Undone σ i m := .inl (Machine.unscathed_self h)
  rw [Fails, ensureFinalizer, runOn_bind (state_runOn ready.state), if_pos rfl]
  refine (reads_matched 0).step look fun finalizer hfinalizer => ?_
  refine (reads_matched 1).step look fun body _ => ?_
  have bound := Machine.setLocal_lodges hσ h hg hlocals "finalizer" (hparams _ hfinalizer)
  have ready₁ := ready.perform (r := .setLocal "finalizer" finalizer) trivial (some i)
  refine meets_bind (meets_ask ((Outcome.Meets.and bound ready₁).mono (fun _ _ => id) ?_)) ?_
  · rintro m₁ ⟨h₁ | h₁, -⟩
    · exact .inl h₁
    · exact .inr ⟨_, h₁⟩
  rintro _ m₁ ⟨lodged, ready₁⟩
  refine fails_bind_sure ?_ (Program.asks_request.2 trivial) ready₁ fun _ m₂ ready₂ => ?_
  · exact meets_ask ((lodged.refused hσ (r := .call body) trivial (some i)).mono (fun _ _ => id)
      fun _ h => .inr ⟨_, h⟩)
  · exact meets_bind (pop_sure ready₂ _) fun _ _ state => setState_sure state rfl

/-! ### Loops -/

theorem handle?_of_toWord? {v : Value} {n : Word} (h : v.toWord? = some n) : v.handle? = none := by
  obtain ⟨datum, source⟩ := v
  cases datum with
  | integer => rfl
  | _ => cases h

theorem loopBlock_singleton (block : Value) : loopBlock [block] =
    (setLocal "block" block >>= fun _ => pop 1 >>= fun _ => loopBlock []) := rfl

theorem repeatBlock_pair (block count : Value) : repeatBlock [block, count] =
    (matchedWord [block, count] 1 >>= fun count => toIndex count >>= fun _ =>
      setLocal "block" block >>= fun _ => setLocal "count" (.integer count) >>= fun _ =>
        pop 2 >>= fun _ => repeatBlock []) := rfl

section

variable (hσ : σ.Counted) (h : m.memory.Has (σ.lend params)) (hg : m.calls.frame? i = some g)
  (hlocals : g.locals = none) (htaken : params = m.operands.items.take params.length)
  (hparams : ∀ v ∈ params, σ.Houses v)
include hσ

/-- The operands are removed, and what becomes of the operator after that is told of `m₁`. -/
theorem pop_lodged {entries : TextMap Value} {m₁ : Machine}
    (htaken : params = m.operands.items.take params.length) (hparams : ∀ v ∈ params, σ.Houses v)
    (lodged : m.Lodged (σ.lend params) i entries m₁) (ready : m₁.Ready i params.length) :
    ((pop params.length).runOn (some i) m₁).Meets True
      (fun _ m₂ => m₂.StateIs i .firstCall ∧
        m₂.operands.items = m.operands.items.drop params.length ∧
        Lodged σ i entries { m with operands := m₂.operands } m₂) fun _ => False := by
  have houses : ∀ v ∈ m.operands.items.take params.length, σ.Houses v := htaken ▸ hparams
  rw [htaken] at lodged
  have removed := lodged.exchangeOperands hσ houses
  exact ((pop_sure ready (some i)).and (meets_ask removed)).mono (fun _ _ => id) fun _ h => h.1

/-- The block is queued when the operands are gone already. -/
theorem call_fails {p : Operation Value} [Looks p] {entries : TextMap Value} {m₁ : Machine}
    (items : m₁.operands.items = m.operands.items.drop params.length)
    (same : σ.lend (entries.map Prod.snd) = σ.lend params)
    (lodged : Lodged σ i entries { m with operands := m₁.operands } m₁)
    (state : m₁.StateIs i .firstCall) :
    (p >>= fun block => call block >>= fun _ => setState .callBeforePop).Fails (some i) m₁
      (m.Aftermath σ params i True) := by
  have taken (m₂ : Machine) (h : Lodged σ i entries { m with operands := m₁.operands } m₂) :
      m.Aftermath σ params i True m₂ := by
    have operands : m₂.operands = m₁.operands := h.operands
    exact .taken trivial (operands ▸ items) same (operands ▸ h)
  refine fails_bind (taken m₁ lodged) fun block => ?_
  have called := lodged.refused hσ (r := .call block) trivial (some i)
  have moved : ∀ next, Request.call block ≠ .setState next := by simp
  refine meets_bind (meets_ask ((Outcome.Meets.and called
    (Request.perform_stateIs moved (some i) state)).mono (fun _ _ => id) fun _ h => taken _ h.1)) ?_
  exact fun _ m₂ h => (setState_sure h.2 rfl).mono (fun _ _ => id) fun _ h => h.elim

include h hg hlocals in
/-- The block of a loop is kept among the locals, while the operands are still there. -/
theorem block_lodges {k : ℕ} {block : Value} (hblock : σ.Houses block) (ready : m.Ready i k) :
    ((setLocal "block" block).runOn (some i) m).Meets True
      (fun _ m₁ => m.Lodged (σ.lend params) i [("block", block)] m₁ ∧ m₁.Ready i k)
      (m.Aftermath σ params i True) := by
  have bound := Machine.setLocal_lodges (hσ.lend params) h hg hlocals "block"
    (houses_lend.2 hblock)
  have ready₁ := ready.perform (r := .setLocal "block" block) trivial (some i)
  refine meets_ask ((Outcome.Meets.and bound ready₁).mono (fun _ _ => id) ?_)
  rintro m₁ ⟨h₁ | h₁, -⟩
  · exact .kept (.inl h₁)
  · exact .kept (.inr ⟨_, h₁⟩)

include h hg hlocals htaken hparams

theorem loopBlock_fails (hlength : params.length = 1) (ready : m.Ready i 1) :
    (loopBlock params).Fails (some i) m (m.Aftermath σ params i True) := by
  obtain ⟨block, rfl⟩ := List.length_eq_one_iff.1 hlength
  rw [loopBlock_singleton]
  refine meets_bind (block_lodges hσ h hg hlocals (hparams block List.mem_cons_self) ready) ?_
  rintro _ m₁ ⟨lodged, ready₁⟩
  refine meets_bind ((pop_lodged hσ htaken hparams lodged ready₁).mono (fun _ _ => id)
    fun _ h => h.elim) ?_
  rintro _ m₂ ⟨state, items, lodged⟩
  change ((Operation.state >>= _).runOn (some i) m₂).Meets _ _ _
  rw [runOn_bind (state_runOn state)]
  exact call_fails hσ items rfl lodged state

theorem repeatBlock_fails (hlength : params.length = 2) (ready : m.Ready i 2) :
    (repeatBlock params).Fails (some i) m (m.Aftermath σ params i True) := by
  have hτ : (σ.lend params).Counted := hσ.lend params
  have look : m.Aftermath σ params i True m := .kept (.inl (Machine.unscathed_self h))
  obtain ⟨block, count, rfl⟩ := List.length_eq_two.1 hlength
  rw [repeatBlock_pair]
  have number : (matchedWord [block, count] 1).Reads (some i) m fun n => count.toWord? = some n :=
    reads_ofOption fun _ h => h
  refine number.step look fun n hn => fails_bind look fun _ => ?_
  have counted : σ.Houses (.integer n) := houses_of_handle?_none rfl
  refine meets_bind (block_lodges hσ h hg hlocals (hparams block List.mem_cons_self) ready) ?_
  rintro _ m₁ ⟨lodged, ready₁⟩
  have bound := lodged.setLocal hτ hg "count" (houses_lend.2 counted)
  have ready₂ := ready₁.perform (r := .setLocal "count" (.integer n)) trivial (some i)
  refine meets_bind (meets_ask ((Outcome.Meets.and bound ready₂).mono (fun _ _ => id)
    fun _ h => .kept (.inr ⟨_, h.1⟩))) ?_
  rintro _ m₂ ⟨lodged, ready₂⟩
  refine meets_bind ((pop_lodged hσ htaken hparams lodged ready₂).mono (fun _ _ => id)
    fun _ h => h.elim) ?_
  rintro _ m₃ ⟨state, items, lodged⟩
  -- the count among the locals is no container, whatever it is
  have untracked : count.handle? = none := handle?_of_toWord? hn
  have same {entries : TextMap Value} (k : Word)
      (hentries : entries.map Prod.snd = [block, .integer k]) :
      σ.lend (entries.map Prod.snd) = σ.lend [block, count] := by
    have word : (Value.integer k).handle? = none := rfl
    rw [hentries]
    exact lend_congr (.of_eq (by simp only [List.filterMap_cons, untracked, word]))
  have bound₁ : (TextMap.put [("block", block)] "count" (.integer n)).map Prod.snd =
      [block, .integer n] := by simp [TextMap.put]
  have taken (m₄ : Machine) (h₄ : Lodged σ i (TextMap.put [("block", block)] "count" (.integer n))
      { m with operands := m₃.operands } m₄) : m.Aftermath σ [block, count] i True m₄ := by
    have operands : m₄.operands = m₃.operands := h₄.operands
    exact .taken trivial (operands ▸ items) (same n bound₁) (operands ▸ h₄)
  change ((Operation.state >>= _).runOn (some i) m₃).Meets _ _ _
  rw [runOn_bind (state_runOn state)]
  refine fails_bind (taken m₃ lodged) fun v => fails_bind (taken m₃ lodged) fun remaining => ?_
  split
  · generalize Word.ofInt (remaining.toInt - 1) = k
    have bound := lodged.setLocal hσ (f := g) hg "count"
      (houses_of_handle?_none (v := .integer k) rfl)
    have moved : ∀ next, Request.setLocal "count" (.integer k) ≠ .setState next := by simp
    refine meets_bind (meets_ask ((Outcome.Meets.and bound (Request.perform_stateIs moved (some i)
      state)).mono (fun _ _ => id) fun _ h => taken _ h.1)) ?_
    rintro _ m₄ ⟨lodged, state⟩
    have operands : m₄.operands = m₃.operands := lodged.operands
    exact call_fails hσ (operands ▸ items) (same k (by simp [TextMap.put])) (operands ▸ lodged)
      state
  · trivial

end

/-! ### What a loop fails for -/

section

variable {α β : Type} {own : Option ℕ} {m m₁ : Machine} {p : Operation α} {f : α → Operation β}
  {s : Sequence} {a : α} {e : Exception}

/-- Run from `m`, the operation asks for a value to be queued, and that is refused with `e`. -/
def RefusedCall (own : Option ℕ) (m : Machine) (p : Operation α) (e : Exception) : Prop :=
  ∃ v next failed m₁ m₂,
    Program.Comes (Request.perform own) p m (.ask (.call v) next failed) m₁ ∧
      (Request.call v).perform own m₁ = .raised e m₂

theorem RefusedCall.bind (hp : p.runOn own m = .done a m₁) (h : (f a).RefusedCall own m₁ e) :
    (p >>= f).RefusedCall own m e := by
  obtain ⟨v, next, failed, m₂, m₃, comes, refused⟩ := h
  exact ⟨v, next, failed, m₂, m₃, Program.comes_bind hp comes, refused⟩

/-- If the operation fails, the operands are `s`, or it has been refused to queue a value. -/
def Risks (own : Option ℕ) (m : Machine) (p : Operation α) (s : Sequence) : Prop :=
  (p.runOn own m).Yields (fun _ _ => True) fun e m' => m'.operands = s ∨ p.RefusedCall own m e

theorem Risks.step (hp : (p.runOn own m).Yields (fun a m' => (f a).Risks own m' s)
    fun _ m' => m'.operands = s) : (p >>= f).Risks own m s := by
  have seen : (p.runOn own m).Yields
      (fun a m' => p.runOn own m = .done a m' ∧ (f a).Risks own m' s)
      fun _ m' => m'.operands = s := by
    cases hrun : p.runOn own m with
    | done a m' => rw [hrun] at hp; exact ⟨rfl, hp⟩
    | raised e m' => rw [hrun] at hp; exact hp
    | broken b => trivial
  unfold Risks
  rw [runOn, Program.run_bind]
  refine Action.yields_bind (seen.mono (fun _ _ => id) fun _ _ => .inl) fun a m' h => ?_
  exact Outcome.Yields.mono h.2 (fun _ _ => id) fun _ _ refused => refused.imp_right (.bind h.1)

/-- Looking at the machine before. -/
theorem Risks.look [Looks p] (hf : ∀ a, (f a).Risks own m m.operands) :
    (p >>= f).Risks own m m.operands := by
  refine .step (Looks.runOn.yields.mono ?_ ?_)
  · rintro a _ rfl
    exact hf a
  · rintro _ _ rfl
    rfl

/-- After a step whose result is known. -/
theorem Risks.of_runOn (hp : p.runOn own m = .done a m) (hf : (f a).Risks own m s) :
    (p >>= f).Risks own m s := by
  refine .step ?_
  rw [hp]
  exact hf

variable {i : ℕ} {Γ : Charter} {x : Stake} {v : Value} {name : String}

theorem risks_call (hs : m.StateIs i .firstCall) :
    (call v >>= fun _ => setState .callBeforePop).Risks (some i) m s := by
  have moved : ∀ next, Request.call v ≠ .setState next := by simp
  have still := Request.perform_stateIs moved (some i) hs
  have called : ((call v).runOn (some i) m).Yields (fun _ m' => m'.StateIs i .firstCall)
      fun e _ => (call v >>= fun _ => setState .callBeforePop).RefusedCall (some i) m e := by
    rw [show (call v).runOn (some i) = _ from Program.run_request (r := Request.call v) _]
    cases hcall : (Request.call v).perform (some i) m with
    | done u m₁ => rw [hcall] at still; exact still
    | raised e m₁ => exact ⟨v, _, _, m, m₁, .refl _ m, hcall⟩
    | broken b => trivial
  unfold Risks
  rw [runOn, Program.run_bind]
  refine Action.yields_bind (called.mono (fun _ _ => id) fun _ _ => .inr) fun _ m' state => ?_
  exact (setState_sure state rfl).yields.mono (fun _ _ _ => trivial) fun _ _ => False.elim

/-- A local that is bound already can be bound to a value that is no text. -/
theorem setLocal_sure {w : Value} (h : m.LocalIs i name w) (hv : v.string? = none) :
    ((setLocal name v).runOn (some i) m).Meets True (fun _ _ => True) fun _ => False := by
  obtain ⟨d, hd, hw⟩ := h
  obtain ⟨j, hj, ho⟩ := Option.bind_eq_some_iff.1 hd
  obtain ⟨g, hg, hlocals⟩ := Option.bind_eq_some_iff.1 hj
  refine meets_ask (r := .setLocal name v) ?_
  change (Machine.setLocal i name v m).Meets True _ _
  unfold Machine.setLocal
  rw [Action.bind_done (Machine.ensureLocals_of_some hg hlocals)]
  refine Machine.meets_onMemory (Memory.define_sure ho (fun unbound => ?_) (by simp [hv]))
  rw [hw] at unbound
  cases unbound

/-- Binding a local leaves the operands, and the operator ready. -/
theorem setLocal_binds {k : ℕ} (h : m.Sound Γ (i + 1) x) (hv : (m.stake + x).Knows v)
    (ready : m.Ready i k) :
    ((setLocal name v).runOn (some i) m).Yields
      (fun _ m' => (m'.Sound Γ (i + 1) x ∧ m'.LocalIs i name v ∧
        ∀ other w, other ≠ name → m.LocalIs i other w → m'.LocalIs i other w) ∧
          m'.Ready i k ∧ m'.operands = m.operands) fun _ m' => m'.operands = m.operands := by
  have bound : ((setLocal name v).runOn (some i) m).Meets False _ _ := setLocal_leaves h hv
  have aside : ((setLocal name v).runOn (some i) m).Meets _ _ _ :=
    meets_ask ((ready.perform (r := .setLocal name v) trivial (some i)).and
      (Machine.spares_operands (r := .setLocal name v) trivial (some i) m))
  exact (bound.yields.and aside.yields).mono (fun _ _ h => ⟨h.1.1, h.2⟩) fun _ _ h => h.2.2

/-- Removing the operands leaves the locals. -/
theorem pop_binds {k : ℕ} (h : m.Sound Γ (i + 1) x) (ready : m.Ready i k) :
    ((pop k).runOn (some i) m).Meets True
      (fun _ m' => m'.Sound Γ (i + 1) x ∧ m'.StateIs i .firstCall ∧
        ∀ name w, m.LocalIs i name w → m'.LocalIs i name w) fun _ => False := by
  have popped : ((pop k).runOn (some i) m).Meets True _ _ := pop_meets h k
  exact ((pop_sure ready (some i)).and popped).mono (fun _ _ h' => ⟨h'.2.1, h'.1,
    fun name w hw => hw.of_steady h'.2.2.1 (Nat.lt_succ_self i)⟩) fun _ h => h.1

theorem loopBlock_risks (h : m.Sound Γ (i + 1) x) (hx : ∀ v ∈ params, v ∈ x.values)
    (hparams : Accepted Builtin.loop.signature params) (ready : m.Ready i 1) :
    (loopBlock params).Risks (some i) m m.operands := by
  obtain ⟨block, rfl, -⟩ := accepted_one hparams
  have known : (m.stake + x).Knows block := (Stake.knows_of_mem (hx block (by simp))).add_left _
  rw [loopBlock_singleton]
  refine .step ((setLocal_binds h known ready).mono ?_ fun _ _ => id)
  rintro _ m₁ ⟨⟨h₁, hblock, -⟩, ready₁, -⟩
  refine .step ((pop_binds h₁ ready₁).yields.mono ?_ fun _ _ => False.elim)
  rintro _ m₂ ⟨h₂, state, kept⟩
  exact .of_runOn (state_runOn state) <|
    .of_runOn (expectLocal_runOn h₂ (kept "block" block hblock)) (risks_call state)

theorem repeatBlock_risks (h : m.Sound Γ (i + 1) x) (hx : ∀ v ∈ params, v ∈ x.values)
    (hparams : Accepted Builtin.repeatBlock.signature params) (ready : m.Ready i 2) :
    (repeatBlock params).Risks (some i) m m.operands := by
  obtain ⟨block, count, rfl, -, hcount⟩ := accepted_two hparams
  obtain ⟨n, hn⟩ := Param.accepts_integer hcount
  have known : (m.stake + x).Knows block := (Stake.knows_of_mem (hx block (by simp))).add_left _
  have word : (matchedWord [block, count] 1).runOn (some i) m = .done n m := by
    change (Program.ofOption _ count.toWord?).run (Request.perform (some i)) m = _
    rw [hn]
    rfl
  rw [repeatBlock_pair]
  refine .of_runOn word (.look fun _ => ?_)
  refine .step ((setLocal_binds h known ready).mono ?_ fun _ _ => id)
  rintro _ m₁ ⟨⟨h₁, hblock, -⟩, ready₁, operands⟩
  have number : (m₁.stake + x).Knows (.integer n) := Stake.knows_of_handle?_none rfl
  refine .step ((setLocal_binds h₁ number ready₁).mono ?_ fun _ _ h => h.trans operands)
  rintro _ m₂ ⟨⟨h₂, hcount, others⟩, ready₂, -⟩
  have hblock := others "block" block (by decide) hblock
  refine .step ((pop_binds h₂ ready₂).yields.mono ?_ fun _ _ => False.elim)
  rintro _ m₃ ⟨h₃, state, kept⟩
  -- from here on the count is bound, so nothing is refused but the call
  refine .of_runOn (state_runOn state) <|
    .of_runOn (expectLocal_runOn h₃ (kept "count" _ hcount)) <|
      .of_runOn (a := n) rfl ?_
  split
  · have bound : ((setLocal "count" (.integer (.ofInt (n.toInt - 1)))).runOn (some i) m₃).Meets
        False _ _ := setLocal_leaves h₃ (Stake.knows_of_handle?_none rfl)
    have granted := setLocal_sure (v := .integer (.ofInt (n.toInt - 1))) (kept "count" _ hcount) rfl
    have still := Request.perform_stateIs (r := .setLocal "count" (.integer (.ofInt (n.toInt - 1))))
      (by simp) (some i) state
    refine .step ((bound.yields.and (granted.yields.and (meets_ask still).yields)).mono ?_
      fun _ _ h => h.2.1.elim)
    rintro _ m₄ ⟨⟨⟨h₄, -, others⟩, -⟩, -, state⟩
    exact .of_runOn (expectLocal_runOn h₄ (others "block" block (by decide)
      (kept "block" block hblock))) (risks_call state)
  · trivial

end

end Operation

/-- **A loop that fails** has been refused to queue its block, or its operands are still there: if
the count is out of range or its locals are refused, it has not removed them yet. -/
theorem Builtin.operation_risks {Γ : Charter} {x : Stake} {m : Machine} {i : ℕ} {b : Builtin}
    {params : List Value} (hb : b.isLoop = true) (h : m.Sound Γ (i + 1) x)
    (hx : ∀ v ∈ params, v ∈ x.values) (hparams : Accepted b.signature params)
    (ready : m.Ready i b.signature.length) :
    (b.operation params).Risks (some i) m m.operands := by
  cases b with
  | loop => exact Operation.loopBlock_risks h hx hparams ready
  | repeatBlock => exact Operation.repeatBlock_risks h hx hparams ready
  | _ => cases hb

end StackScript
