import StackScript.Operator.Flow
import StackScript.Proofs.Operator.Working

/-!
# Operators of control flow work

Between its invocations an operator of control flow keeps what it has to remember among the locals
of its frame, where it stays as long as the operator does not bind it anew.  The working copy of a
block that is being bound is held by nothing else: that it is still there while its items are
replaced follows from its name being bound (`Machine.Sound.anchored_of_local`).
-/

namespace StackScript

namespace Operation

variable {Γ : Charter} {i : ℕ} {x : Stake} {m : Machine} {params : List Value} {v : Value}

/-! ### Execution -/

/-- An operator that ends by removing operands, after another step. -/
theorem call_works (h : m.Sound Γ (i + 1) x) (hv : m.Knows x v) : Works Γ i x m (call v) :=
  works_of_steady (call_meets h hv)

theorem executeTop_works (h : m.Sound Γ (i + 1) x) (hx : ∀ v ∈ params, v ∈ x.values) :
    Works Γ i x m (executeTop params) := by
  refine (reads_matched 0).leaves h fun v hv => ?_
  split
  · exact (call_works h (knows_params hx hv)).step fun m' h' => pop_works h' 1
  · exact works_pure h

theorem executeIf_works (h : m.Sound Γ (i + 1) x) (hx : ∀ v ∈ params, v ∈ x.values) :
    Works Γ i x m (executeIf params) := by
  refine (reads_matched 0).leaves h fun block hblock => ?_
  refine (reads_matchedBoolean 1).leaves h fun condition _ => ?_
  dsimp only
  split
  · exact (call_works h (knows_params hx hblock)).step fun m' h' => pop_works h' 2
  · exact pop_works h 2

theorem executeEither_works (h : m.Sound Γ (i + 1) x) (hx : ∀ v ∈ params, v ∈ x.values) :
    Works Γ i x m (executeEither params) := by
  refine (reads_matched 0).leaves h fun otherwise hotherwise => ?_
  refine (reads_matched 1).leaves h fun whenTrue hwhenTrue => ?_
  refine (reads_matchedBoolean 2).leaves h fun condition _ => ?_
  refine (call_works h (knows_params hx ?_)).step fun m' h' => pop_works h' 3
  split
  · exact hwhenTrue
  · exact hotherwise

/-! ### Loops -/

theorem intercept_works (h : m.Sound Γ (i + 1) x) {p : Operation Unit}
    (hp : ∀ m', m'.Sound Γ (i + 1) x → Works Γ i x m' p) :
    Works Γ i x m (intercept >>= fun _ => p) :=
  Leaves.after (intercept_meets h) (fun _ _ h => h.2) fun _ m' h' => hp m' h'.1

theorem endRound_works (h : m.Sound Γ (i + 1) x) : Works Γ i x m endRound := by
  refine reads_condition.leaves h fun condition _ => ?_
  split
  · exact setState_works h
  · exact intercept_works h fun _ h' => works_pure h'
  · exact works_pure h

/-- Binding a local that others may know. -/
theorem setLocal_works {name : String} (h : m.Sound Γ (i + 1) x) (hv : (m.stake + x).Knows v) :
    Works Γ i x m (setLocal name v) :=
  (setLocal_leaves h hv).mono (fun _ _ h => ⟨h.1.1, h.2⟩) fun _ h => ⟨h.1.1, h.2⟩

theorem repeatBlock_works (h : m.Sound Γ (i + 1) x) (hx : ∀ v ∈ params, v ∈ x.values) :
    Works Γ i x m (repeatBlock params) := by
  unfold repeatBlock
  extract_lets next
  have round (m' : Machine) (h : m'.Sound Γ (i + 1) x) : Works Γ i x m' (next ()) := by
    refine (reads_state h (Nat.lt_succ_self i)).leaves h fun current _ => ?_
    split
    · refine (reads_expectLocal h (Nat.lt_succ_self i) _).leaves h fun count _ => ?_
      refine (reads_ofOption fun _ _ => trivial).leaves h fun remaining _ => ?_
      split
      · refine Works.step (setLocal_works h (Stake.knows_of_handle?_none rfl)) fun m₁ h₁ => ?_
        refine (reads_expectLocal h₁ (Nat.lt_succ_self i) _).leaves h₁ fun block hblock => ?_
        exact (call_works h₁ hblock.knows).step fun m₂ h₂ => setState_works h₂
      · exact works_pure h
    · exact endRound_works h
    · exact works_fail h
  split
  · refine (reads_matched 0).leaves h fun block hblock => ?_
    refine (reads_matchedWord 1).leaves h fun count _ => ?_
    refine (reads_toIndex count).leaves h fun _ _ => ?_
    have known : (m.stake + x).Knows block := (Stake.knows_of_mem (hx block hblock)).add_left _
    refine Works.step (setLocal_works h known) fun m₁ h₁ => ?_
    refine Works.step (setLocal_works h₁ (Stake.knows_of_handle?_none rfl)) fun m₂ h₂ => ?_
    exact Works.step (pop_works h₂ 2) fun m₃ h₃ => round m₃ h₃
  · exact round m h

theorem loopBlock_works (h : m.Sound Γ (i + 1) x) (hx : ∀ v ∈ params, v ∈ x.values) :
    Works Γ i x m (loopBlock params) := by
  unfold loopBlock
  extract_lets next
  have round (m' : Machine) (h : m'.Sound Γ (i + 1) x) : Works Γ i x m' (next ()) := by
    refine (reads_state h (Nat.lt_succ_self i)).leaves h fun current _ => ?_
    split
    · refine (reads_expectLocal h (Nat.lt_succ_self i) _).leaves h fun block hblock => ?_
      exact (call_works h hblock.knows).step fun m₁ h₁ => setState_works h₁
    · exact endRound_works h
    · exact works_fail h
  split
  · refine (reads_matched 0).leaves h fun block hblock => ?_
    have known : (m.stake + x).Knows block := (Stake.knows_of_mem (hx block hblock)).add_left _
    refine Works.step (setLocal_works h known) fun m₁ h₁ => ?_
    exact Works.step (pop_works h₁ 1) fun m₂ h₂ => round m₂ h₂
  · exact round m h

theorem leaveLoop_works (params : List Value) (h : m.Sound Γ (i + 1) x) :
    Works Γ i x m (leaveLoop params) := by
  refine reads_inLoop.leaves h fun inside _ => ?_
  split
  · exact works_fail h
  · exact works_fail h

/-! ### Exceptions -/

theorem stoppedBlock_works (h : m.Sound Γ (i + 1) x) (hx : ∀ v ∈ params, v ∈ x.values) :
    Works Γ i x m (stoppedBlock params) := by
  refine (reads_state h (Nat.lt_succ_self i)).leaves h fun current _ => ?_
  split
  · refine (reads_matched 0).leaves h fun block hblock => ?_
    refine (call_works h (knows_params hx hblock)).step fun m₁ h₁ => ?_
    exact Works.step (pop_works h₁ 1) fun m₂ h₂ => setState_works h₂
  · refine reads_condition.leaves h fun condition _ => ?_
    split
    · exact result_works h (Machine.knows_of_handle?_none rfl)
    · split
      · exact intercept_works h fun _ h' =>
          result_works h' (Machine.knows_of_handle?_none rfl)
      · exact works_pure h
  · exact works_fail h

theorem ensureFinalizer_works (h : m.Sound Γ (i + 1) x) (hx : ∀ v ∈ params, v ∈ x.values) :
    Works Γ i x m (ensureFinalizer params) := by
  refine (reads_state h (Nat.lt_succ_self i)).leaves h fun current _ => ?_
  split
  · refine (reads_matched 0).leaves h fun finalizer hfinalizer => ?_
    refine (reads_matched 1).leaves h fun body hbody => ?_
    have known : (m.stake + x).Knows finalizer :=
      (Stake.knows_of_mem (hx finalizer hfinalizer)).add_left _
    refine Works.step (setLocal_works h known) fun m₁ h₁ => ?_
    refine (call_works h₁ (knows_params hx hbody)).step fun m₂ h₂ => ?_
    exact Works.step (pop_works h₂ 2) fun m₃ h₃ => setState_works h₃
  split
  · refine Works.step (stash_works h) fun m₁ h₁ => ?_
    refine (reads_expectLocal h₁ (Nat.lt_succ_self i) _).leaves h₁ fun finalizer hfinalizer => ?_
    exact (call_works h₁ hfinalizer.knows).step fun m₂ h₂ => setState_works h₂
  split
  · exact Works.step (restore_works h) fun m₁ h₁ => setState_works h₁
  · exact works_fail h

/-! ### Binding -/

theorem finishBind_works {target : Value} (h : m.Sound Γ (i + 1) x) (ht : m.Knows x target) :
    Works Γ i x m (finishBind target) := by
  refine (reads_items h ht).leaves h fun items hitems => ?_
  refine Leaves.after (createArray_meets h hitems) (fun _ _ h => h.2.steady) ?_
  exact fun block m₁ ⟨_, gained⟩ => adopt_works gained.sound

theorem beginBind_works (h : m.Sound Γ (i + 1) x) (hx : ∀ v ∈ params, v ∈ x.values) :
    Works Γ i x m (beginBind params) := by
  refine (reads_matched 0).leaves h fun block hblock => ?_
  refine (reads_items h (knows_params hx hblock)).leaves h fun content hcontent => ?_
  refine Leaves.after (createArray_meets h hcontent) (fun _ _ h => h.2.steady) ?_
  rintro target m₁ ⟨-, gained⟩
  have known : (m₁.stake + (x + .refs [target])).Knows target :=
    Stake.knows_of_mem (by simp)
  -- the creator gives its reference up whether the copy has become a local or not
  refine Leaves.bind (M := fun stored m' => m'.Sound Γ (i + 1) (x + .refs [target]) ∧
      ∀ u, stored = .ok u → m'.LocalIs i "target" target)
    (meets_attempt ((setLocal_leaves gained.sound known).mono ?_ fun m' h' e =>
      ⟨⟨h'.1.1, nofun⟩, h'.2⟩)) ?_
  · exact fun _ m' ⟨⟨h', bound, _⟩, steady⟩ => ⟨⟨h', fun _ _ => bound⟩, steady⟩
  rintro stored m₂ ⟨h₂, bound⟩
  refine Leaves.after (release_meets h₂) (fun _ _ h => h.2.1) ?_
  rintro _ m₃ ⟨h₃, steady, -⟩
  cases stored with
  | error e => exact ⟨h₃, .refl i m₃⟩
  | ok u =>
    have bound := (bound u rfl).of_steady steady (Nat.lt_succ_self i)
    change Works Γ i x m₃ (pop 1 >>= _)
    refine Leaves.after (pop_meets h₃ 1) (fun _ _ h => h.2.1) ?_
    rintro _ m₄ ⟨h₄, steady, -⟩
    split
    · exact finishBind_works h₄ (bound.of_steady steady (Nat.lt_succ_self i)).knows
    · exact setState_works h₄

theorem reads_awaitedItem (h : m.Sound Γ (i + 1) x) :
    awaitedItem.Reads (some i) m fun _ => True :=
  (reads_local? h (Nat.lt_succ_self i) _).bind fun _ _ => reads_pure trivial

/-- The machine is sound, and the working copy of a block is bound in the operator's frame. -/
def Bound (Γ : Charter) (i : ℕ) (x : Stake) (target : Value) (m : Machine) : Prop :=
  m.Sound Γ (i + 1) x ∧ m.LocalIs i "target" target

/-- The step keeps the machine sound and the working copy bound, also if it raises. -/
def Tends (Γ : Charter) (i : ℕ) (x : Stake) (target : Value) (m : Machine) (p : Operation Unit) :
    Prop :=
  Leaves i m p (fun _ m' => Bound Γ i x target m') (Bound Γ i x target)

section

variable {α β : Type} {target : Value} {p : Operation α} {f : α → Operation β}
  {M : α → Machine → Prop} {R : β → Machine → Prop}

/-- After a step that leaves the locals of the operator alone. -/
theorem Bound.after (h : Bound Γ i x target m)
    (hp : (p.runOn (some i) m).Meets False M
      fun m' => m'.Sound Γ (i + 1) x ∧ m.Steady (i + 1) m')
    (hs : ∀ a m', M a m' → m'.Sound Γ (i + 1) x ∧ m.Steady (i + 1) m')
    (hf : ∀ a m', M a m' → Bound Γ i x target m' → Leaves i m' (f a) R (Bound Γ i x target)) :
    Leaves i m (p >>= f) R (Bound Γ i x target) := by
  have kept (m' : Machine) (h' : m'.Sound Γ (i + 1) x ∧ m.Steady (i + 1) m') :
      Bound Γ i x target m' := ⟨h'.1, h.2.of_steady h'.2 (Nat.lt_succ_self i)⟩
  exact Leaves.after (M := fun a m' => M a m')
    (hp.mono (fun _ _ => id) fun m' h' => ⟨kept m' h', h'.2⟩) (fun a m' h' => (hs a m' h').2)
    fun a m' h' => hf a m' h' (kept m' (hs a m' h'))

/-- The step keeps all locals. -/
theorem Bound.tends_of_steady {p : Operation Unit} (h : Bound Γ i x target m)
    (hp : (p.runOn (some i) m).Meets False
      (fun _ m' => m'.Sound Γ (i + 1) x ∧ m.Steady (i + 1) m')
      fun m' => m'.Sound Γ (i + 1) x ∧ m.Steady (i + 1) m') : Tends Γ i x target m p :=
  hp.mono (fun _ _ h' => ⟨⟨h'.1, h.2.of_steady h'.2 (Nat.lt_succ_self i)⟩,
    h'.2.mono (Nat.le_succ i)⟩) fun _ h' => ⟨⟨h'.1, h.2.of_steady h'.2 (Nat.lt_succ_self i)⟩,
      h'.2.mono (Nat.le_succ i)⟩

/-- Another local is bound. -/
theorem Bound.setLocal_tends {name : String} {v : Value} (h : Bound Γ i x target m)
    (hname : "target" ≠ name) (hv : (m.stake + x).Knows v) :
    Tends Γ i x target m (setLocal name v) :=
  (setLocal_leaves h.1 hv).mono
    (fun _ _ ⟨⟨h', _, others⟩, steady⟩ => ⟨⟨h', others "target" target hname h.2⟩, steady⟩)
    fun _ ⟨⟨h', kept⟩, steady⟩ => ⟨⟨h', kept "target" target h.2⟩, steady⟩

theorem Bound.collectBound_tends (h : Bound Γ i x target m) :
    Tends Γ i x target m (collectBound target) := by
  refine (reads_awaitedItem h.1).leaves h fun awaited _ => ?_
  split
  · exact leaves_pure h
  · rename_i index
    change Tends Γ i x target m (Program.ofOption _ (m.operand? 0) >>= _)
    refine (reads_ofOption (P := (· ∈ m.operands.items)) fun v hv => ?_).leaves h fun v hv => ?_
    · exact List.mem_of_getElem? hv
    refine h.after (setItem_meets h.1 h.2.knows (h.1.anchored_of_local h.2)
      (Machine.knows_of_operand hv)) (fun _ _ h => ⟨h.sound, h.steady⟩) ?_
    intro _ m₁ _ h₁
    refine h₁.after (pop_meets h₁.1 1) (fun _ _ h => ⟨h.1, h.2.1⟩) fun _ m₂ _ h₂ => ?_
    exact h₂.setLocal_tends (by decide) (Stake.knows_of_handle?_none rfl)

theorem Bound.bindItem_tends {item : Value} {index : ℕ} {step : Word}
    (h : Bound Γ i x target m) (hitem : m.Knows x item) :
    Tends Γ i x target m (bindItem target index item step) := by
  unfold bindItem
  split
  · rename_i name _
    refine (reads_locate h.1 name).leaves h fun found hfound => ?_
    split
    · rename_i scope v
      split
      · have known : m.Knows x v := (hfound scope v rfl).2
        exact h.tends_of_steady ((setItem_meets h.1 h.2.knows (h.1.anchored_of_local h.2)
          (known.withSource item.source)).mono (fun _ _ h => ⟨h.sound, h.steady⟩) fun _ => id)
      · exact leaves_pure h
    · exact leaves_pure h
  · refine reads_currentOperator.leaves h fun operator hoperator => ?_
    refine h.after (push_meets h.1 hitem) (fun _ _ h => ⟨h.1, h.2.1⟩) ?_
    rintro _ m₁ ⟨-, -, calls⟩ h₁
    obtain ⟨f, hf, rfl⟩ := hoperator
    rw [← calls] at hf
    refine h₁.after (call_meets h₁.1 (Machine.knows_of_frame hf)) (fun _ _ => id) ?_
    exact fun _ m₂ _ h₂ => h₂.setLocal_tends (by decide) (Stake.knows_of_handle?_none rfl)
  · exact leaves_pure h

theorem Bound.finishBind_tends (h : Bound Γ i x target m) :
    Tends Γ i x target m (finishBind target) := by
  refine (reads_items h.1 h.2.knows).leaves h fun items hitems => ?_
  refine Leaves.after (M := fun block m' => m.Gained Γ (i + 1) x block m')
    ((createArray_meets h.1 hitems).mono (fun _ _ h => h.2) fun m' h' =>
      ⟨⟨h'.1, h.2.of_steady h'.2 (Nat.lt_succ_self i)⟩, h'.2⟩) (fun _ _ h => h.steady) ?_
  intro block m₁ gained
  have bound := h.2.of_steady gained.steady (Nat.lt_succ_self i)
  exact (meets_ask (r := .adopt 0 block) (Machine.adopt_meets gained.sound)).mono
    (fun _ m' h' => ⟨⟨h'.1, bound.of_steady h'.2 (Nat.lt_succ_self i)⟩, h'.2.mono (Nat.le_succ i)⟩)
    fun m' h' => ⟨⟨h'.1, bound.of_steady h'.2 (Nat.lt_succ_self i)⟩, h'.2.mono (Nat.le_succ i)⟩

/-- An invocation after the first one leaves the working copy bound. -/
theorem Bound.bindBlock_tends (h : Bound Γ i x target m) :
    Tends Γ i x target m (bindBlock []) := by
  refine (reads_state h.1 (Nat.lt_succ_self i)).leaves h fun current _ => ?_
  split
  · refine (reads_expectLocal h.1 (Nat.lt_succ_self i) _).leaves h fun target' bound => ?_
    obtain rfl := bound.unique h.2
    refine Leaves.bind h.collectBound_tends fun _ m₁ h₁ => ?_
    refine (reads_toIndex _).leaves h₁ fun index _ => ?_
    refine (reads_items h₁.1 h₁.2.knows).leaves h₁ fun items hitems => ?_
    split
    · exact Leaves.bind h₁.finishBind_tends fun _ m₂ h₂ =>
        h₂.tends_of_steady (setState_meets h₂.1)
    · rename_i item hitem
      have known : m₁.Knows x item := hitems item (List.mem_of_getElem? hitem)
      exact Leaves.bind (h₁.bindItem_tends known) fun _ m₂ h₂ =>
        h₂.tends_of_steady (setState_meets h₂.1)
  · exact leaves_fail h

end

theorem bindBlock_works (h : m.Sound Γ (i + 1) x) (hx : ∀ v ∈ params, v ∈ x.values) :
    Works Γ i x m (bindBlock params) := by
  cases params with
  | cons v rest => exact beginBind_works h hx
  | nil =>
    by_cases hbound : ∃ target, m.LocalIs i "target" target
    · obtain ⟨target, bound⟩ := hbound
      exact (Bound.bindBlock_tends ⟨h, bound⟩).mono (fun _ _ h => ⟨h.1.1, h.2⟩) fun _ h =>
        ⟨h.1.1, h.2⟩
    · refine (reads_state h (Nat.lt_succ_self i)).leaves h fun current _ => ?_
      split
      · exact (reads_expectLocal h (Nat.lt_succ_self i) _).leaves h fun target bound =>
          absurd ⟨target, bound⟩ hbound
      · exact works_fail h

end Operation

end StackScript
