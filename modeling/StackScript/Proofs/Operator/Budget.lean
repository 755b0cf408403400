import StackScript.Proofs.Operator.Regimes

/-!
# How much work an invocation queues

Under a *budget*, each frame a program queues costs one unit, and the program asks for no loop to be
left, neither by itself nor by failing in what it queues (`Program.Regime.budget`).  Where it finds
itself and which operands it is given is no matter, since internal exceptions are allowed.

All builtins but `break` keep to a budget of one frame (`Builtin.operation_spends`).  So there are
few frames after an invocation (`Program.Obeys.runOn_budget`).
-/

namespace StackScript

attribute [local simp] Cause.condition

namespace Program.Regime

/-- The regime in which each frame costs one unit and no loop may be left. -/
def budget : Regime where
  governs := True
  price := 1
  finds _ := True
  raises := (· ≠ .loopBreak)
  common _ h := h.2
  settled := .inl nofun

@[simp] theorem governs_budget : budget.governs := trivial

@[simp] theorem price_budget : budget.price = 1 := rfl

@[simp] theorem raises_budget {c : Condition} : budget.raises c ↔ c ≠ .loopBreak := Iff.rfl

@[simp] theorem takes_budget (signature : List Param) (params : List Value) :
    budget.Takes signature params := .inl nofun

theorem mayAnswer_budget {r : Request} (a : r.Answer) : budget.MayAnswer r a := by
  cases r <;> trivial

end Program.Regime

namespace Operation

open Program (Obeys)
open Program.Regime (budget takes_budget)

variable {n : ℕ} {v : Value} {params : List Value}

/-! ### Reading at any time -/

@[simp] theorem spends_expectLocal {name : String} {Q : Value → ℕ → Prop} (h : ∀ v, Q v n) :
    (expectLocal name).Obeys budget n Q := by
  simp [expectLocal, h]

@[simp] theorem spends_currentOperator {Q : Value → ℕ → Prop} (h : ∀ v, Q v n) :
    currentOperator.Obeys budget n Q := by
  simp only [currentOperator, Program.obeys_bind]
  refine obeys_ownIndex fun index => obeys_machine fun m => ?_
  split
  · exact h _
  · simp

/-! ### Operators that are invoked again -/

theorem spends_endRound : endRound.Obeys budget n fun _ _ => True := by
  simp only [endRound, Program.obeys_bind]
  refine obeys_condition fun c => ?_
  split <;> simp

theorem spends_repeatBlock : (repeatBlock params).Obeys budget 1 fun _ _ => True := by
  -- without operands, only a round is left to do
  have round : (repeatBlock []).Obeys budget 1 fun _ _ => True := by
    change (state >>= _).Obeys budget 1 _
    rw [Program.obeys_bind]
    refine obeys_state fun c => ?_
    split
    · simp only [Program.obeys_bind, Program.obeys_ofOption]
      refine spends_expectLocal fun v => ⟨fun k _ => ?_, fun _ => by simp⟩
      split <;> simp
    · exact spends_endRound
    · simp
  cases params with
  | nil => exact round
  | cons v rest =>
    change (matched (v :: rest) 0 >>= _).Obeys budget 1 _
    change (state >>= _).Obeys budget 1 _ at round
    simp only [Program.obeys_bind] at round ⊢
    have taken := takes_budget Builtin.repeatBlock.signature (v :: rest)
    exact obeys_matched taken (by decide) fun block => obeys_matchedWord taken rfl fun count =>
      obeys_toIndex fun _ => obeys_setLocal trivial (obeys_setLocal trivial (obeys_pop round))

theorem spends_loopBlock : (loopBlock params).Obeys budget 1 fun _ _ => True := by
  have round : (loopBlock []).Obeys budget 1 fun _ _ => True := by
    change (state >>= _).Obeys budget 1 _
    rw [Program.obeys_bind]
    refine obeys_state fun c => ?_
    split
    · simp
    · exact spends_endRound
    · simp
  cases params with
  | nil => exact round
  | cons v rest =>
    change (matched (v :: rest) 0 >>= _).Obeys budget 1 _
    change (state >>= _).Obeys budget 1 _ at round
    simp only [Program.obeys_bind] at round ⊢
    exact obeys_matched (takes_budget Builtin.loop.signature _) (by decide) fun block =>
      obeys_setLocal trivial (obeys_pop round)

theorem spends_stoppedBlock : (stoppedBlock params).Obeys budget 1 fun _ _ => True := by
  simp only [stoppedBlock, Program.obeys_bind]
  refine obeys_state fun c => ?_
  split
  · simp only [Program.obeys_bind]
    refine obeys_matched (takes_budget Builtin.stopped.signature _) (by decide) fun block => ?_
    simp
  · simp only [Program.obeys_bind]
    refine obeys_condition fun c => ?_
    split
    · simp
    · split <;> simp
  · simp

theorem spends_ensureFinalizer : (ensureFinalizer params).Obeys budget 1 fun _ _ => True := by
  simp only [ensureFinalizer, Program.obeys_bind]
  refine obeys_state fun c => ?_
  split
  · simp only [Program.obeys_bind]
    have taken := takes_budget Builtin.ensure.signature params
    refine obeys_matched taken (by decide) fun finalizer =>
      obeys_matched taken (by decide) fun body => ?_
    simp
  · split
    · simp
    · split
      · simp
      · simp

theorem spends_beginBind : (beginBind params).Obeys budget n fun _ _ => True := by
  simp only [beginBind, Program.obeys_bind]
  refine obeys_matched (takes_budget Builtin.bind.signature _) (by decide) fun v =>
    obeys_items fun content => obeys_createArray fun target => ?_
  have left (stored : Except Exception Unit) (k : ℕ)
      (h : ∀ e, stored = .error e → e.condition ≠ .loopBreak) :
      (release target).Obeys budget k fun _ k => (Program.ofResult stored : Operation Unit).Obeys
        budget k fun _ k => (pop 1).Obeys budget k fun _ k => (if content.isEmpty then
          finishBind target else setState (.running (.ofInt 1)) : Operation Unit).Obeys budget k
            fun _ _ => True := by
    refine obeys_release (Program.obeys_ofResult.2 ⟨fun _ _ => obeys_pop ?_, h⟩)
    split
    · exact obeys_finishBind target
    · exact obeys_setState trivial trivial
  exact Obeys.attempt (obeys_setLocal trivial (left _ _ fun _ h => by cases h)) fun e k he =>
    left _ k fun e' he' => Except.error.inj he' ▸ he

theorem spends_collectBound (target : Value) {P : Unit → ℕ → Prop} (h : P () n) :
    (collectBound target).Obeys budget n P := by
  simp only [collectBound, Program.obeys_bind]
  refine obeys_awaitedItem fun awaited => ?_
  split
  · exact h
  · simp only [Program.obeys_bind, Program.obeys_ofOption]
    refine obeys_machine fun m => ⟨fun bound _ => ?_, fun _ => by simp⟩
    exact obeys_setItem (obeys_pop (obeys_setLocal trivial h))

theorem spends_bindItem (target item : Value) (index : ℕ) (step : Word) :
    (bindItem target index item step).Obeys budget 1 fun _ _ => True := by
  unfold bindItem
  split
  · simp only [Program.obeys_bind]
    refine obeys_locate fun found => ?_
    split
    · split <;> simp
    · exact trivial
  · simp
  · exact trivial

theorem spends_bindBlock : (bindBlock params).Obeys budget 1 fun _ _ => True := by
  unfold bindBlock
  split
  · exact spends_beginBind
  · simp only [Program.obeys_bind]
    refine obeys_state fun c => ?_
    split
    · simp only [Program.obeys_bind]
      refine spends_expectLocal fun target => spends_collectBound target <|
        obeys_toIndex fun index => obeys_items fun items => ?_
      split
      · simp only [Program.obeys_bind]
        exact (obeys_finishBind target).mono fun _ _ _ => obeys_setState trivial trivial
      · simp only [Program.obeys_bind]
        exact (spends_bindItem _ _ _ _).mono fun _ _ _ => obeys_setState trivial trivial
    · simp

end Operation

open Operation Program.Regime in
/-- **Every builtin but `break`** queues one frame at most, and asks for no loop to be left. -/
theorem Builtin.operation_spends {b : Builtin} (hb : b ≠ .leaveLoop) (params : List Value) :
    (b.operation params).Obeys budget 1 fun _ _ => True := by
  by_cases hresumes : b.resumes = true
  · cases b with
    | repeatBlock => exact spends_repeatBlock
    | loop => exact spends_loopBlock
    | stopped => exact spends_stoppedBlock
    | ensure => exact spends_ensureFinalizer
    | bind => exact spends_bindBlock
    | _ => cases hresumes
  · exact operation_obeys (Bool.eq_false_iff.2 hresumes) (fun h => absurd h hb) le_rfl
      (takes_budget _ _)

/-! ### After an invocation -/

/-- A request queues as many frames as it costs, if it succeeds, and none if it fails. -/
theorem Request.perform_length (r : Request) (own : Option ℕ) (m : Machine) :
    (r.perform own m).Meets True
      (fun _ m' => m'.calls.length = m.calls.length + Program.Regime.budget.cost r)
      fun m' => m'.calls.length = m.calls.length := by
  have spared {α : Type} {x : Action Machine α}
      (hx : Machine.Spares (fun m => m.calls.length) x) :
      (x m).Meets True (fun _ m' => m'.calls.length = m.calls.length + 0)
        fun m' => m'.calls.length = m.calls.length := hx m
  have updated (g : Frame → Frame) (m : Machine) (i : ℕ) :
      CallStack.length { m with calls := m.calls.update i g }.calls = m.calls.length := by
    have := congrArg List.length
      (CallStack.map_update (c := m.calls) (fun _ => ()) (g := g) (fun _ => rfl) i)
    simpa [CallStack.length] using this
  cases r with
  | call v =>
    exact (Machine.pushFrame_frames _ m).mono (fun _ _ h => CallStack.length_of_frames h)
      fun _ h => congrArg CallStack.length h
  | observe => exact rfl
  | openBlock | closeBlock => exact rfl
  | exchange drop values =>
    exact spared (Machine.spares_exchangeOperands (fun _ _ _ => rfl) drop values)
  | adopt drop created =>
    exact spared ((Machine.spares_exchangeOperands (fun _ _ _ => rfl) drop _).ensuring
      (Machine.spares_onMemory (fun _ _ => rfl) _))
  | release created => exact spared (Machine.spares_onMemory (fun _ _ => rfl) _)
  | clearOperands => exact spared (Machine.spares_onOperands (fun _ _ _ => rfl) _)
  | createArray access items =>
    exact spared (Machine.spares_createArray (fun _ _ => rfl) access items)
  | createFilledArray access length v =>
    exact spared (Machine.spares_createFilledArray (fun _ _ => rfl) access length v)
  | createDictionary => exact spared (Machine.spares_createDictionary fun _ _ => rfl)
  | setItem container index v =>
    exact spared (Machine.spares_setItem (fun _ _ => rfl) container index v)
  | define container name v =>
    exact spared (Machine.spares_define (fun _ _ => rfl) container name v)
  | openScope v => exact spared (Machine.spares_openScope (fun _ _ _ => rfl) v)
  | closeScope => exact spared (Machine.spares_closeScope fun _ _ _ => rfl)
  | intercept => exact spared (Machine.spares_intercept fun _ _ _ => rfl)
  | setState next =>
    exact spared (Machine.spares_onOwn fun j => Machine.spares_setState next fun m =>
      updated _ m j)
  | setLocal name v =>
    exact spared (Machine.spares_onOwn fun j => Machine.spares_setLocal (fun _ _ => rfl)
      (fun m _ => updated _ m j) name v)
  | stash =>
    exact spared (Machine.spares_onOwn fun j => Machine.spares_stash (fun _ _ _ => rfl)
      fun m _ => updated _ m j)
  | restore =>
    exact spared (Machine.spares_onOwn fun j => Machine.spares_restore (fun _ _ _ => rfl)
      fun m _ => updated _ m j)

/-- No request asks for a loop to be left. -/
theorem Request.perform_raises (r : Request) (i : ℕ) :
    (r.perform (some i)).Raises (· ≠ .loopBreak) := by
  by_cases hr : ∃ next, r = .setState next
  · obtain ⟨next, rfl⟩ := hr
    refine Action.raises_get.bind fun m => (Action.raises_ofSound _).bind fun f => ?_
    split
    · exact Machine.raises_updateFrame _ _
    · exact Action.raises_fail nofun
  · exact (perform_ordinary (fun next h => hr ⟨next, h⟩) i).mono fun _ h => h.2

/-- **What a program with a budget does.** -/
theorem Program.Obeys.runOn_budget {α : Type} {p : Operation α} {n i : ℕ} {P : α → ℕ → Prop}
    (h : p.Obeys .budget n P) :
    (Operation.runOn (some i) p).Raises (· ≠ .loopBreak) ∧
      ∀ m, (Operation.runOn (some i) p m).Meets True
        (fun _ m' => m'.calls.length ≤ m.calls.length + n)
        fun m' => m'.calls.length ≤ m.calls.length + n := by
  induction p generalizing n with
  | done a => exact ⟨Action.raises_pure a, fun m => Nat.le_add_right _ n⟩
  | raise e => exact ⟨Action.raises_raise h, fun m => Nat.le_add_right _ n⟩
  | broken b => exact ⟨fun _ _ _ h => (by cases h), fun _ => trivial⟩
  | ask r next failed ihn ihf =>
    obtain ⟨⟨-, hr⟩, hnext, hfailed⟩ := h
    replace hnext (a : r.Answer) := hnext a (Regime.mayAnswer_budget a)
    have raises := r.perform_raises i
    constructor
    · intro m e m' hm
      simp only [Operation.runOn, Program.run] at hm
      cases hperform : r.perform (some i) m with
      | done a m₁ => rw [hperform] at hm; exact (ihn a (hnext a)).1 m₁ e m' hm
      | raised e₁ m₁ =>
        rw [hperform] at hm
        exact (ihf e₁ (hfailed e₁ (raises m e₁ m₁ hperform))).1 m₁ e m' hm
      | broken b => rw [hperform] at hm; cases hm
    · intro m
      have lengths := r.perform_length (some i) m
      simp only [Operation.runOn, Program.run]
      cases hperform : r.perform (some i) m with
      | done a m₁ =>
        rw [hperform, Outcome.meets_done] at lengths
        exact ((ihn a (hnext a)).2 m₁).mono (fun _ _ h => by omega) fun _ h => by omega
      | raised e₁ m₁ =>
        rw [hperform, Outcome.meets_raised] at lengths
        exact ((ihf e₁ (hfailed e₁ (raises m e₁ m₁ hperform))).2 m₁).mono
          (fun _ _ h => by omega) fun _ h => by omega
      | broken b => trivial

end StackScript
