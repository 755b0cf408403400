import StackScript.Operator.Container
import StackScript.Operator.Literal
import StackScript.Operator.Scope
import StackScript.Proofs.Operator.Working

/-!
# Operators on containers work

Operators that create, read and modify containers, the builders of literal arrays, blocks and
dictionaries, and the operators on scopes.

A container that an operator modifies is held by the operator, by the stack of scopes, or by the
operator that has just created it, so it stays while its own items are exchanged.
-/

namespace StackScript

namespace Operation

variable {Γ : Charter} {i : ℕ} {x : Stake} {m : Machine} {params : List Value} {v : Value}

/-! ### Builders -/

theorem collectArray_works (access : Access) (h : m.Sound Γ (i + 1) x) :
    Works Γ i x m (collectArray access) := by
  refine reads_aboveMark.leaves h fun items hitems => ?_
  refine Leaves.after (createArray_meets h fun v hv => Machine.knows_of_operand (hitems v hv))
    (fun _ _ h => h.2.steady) ?_
  exact fun array m₁ ⟨_, gained⟩ => adopt_works gained.sound

theorem beginBlock_works (params : List Value) (h : m.Sound Γ (i + 1) x) :
    Works Γ i x m (beginBlock params) := by
  refine Works.step (result_works h (Machine.knows_of_handle?_none rfl)) fun m' h' => ?_
  exact openBlock_works h'

theorem endBlock_works (params : List Value) (h : m.Sound Γ (i + 1) x) :
    Works Γ i x m (endBlock params) :=
  (collectArray_works .block h).step fun _ h' => closeBlock_works h'

/-- The values among pairs come from the list they were made of. -/
theorem mem_of_mem_pairs {items : List Value} {entries : List (String × Value)}
    (h : pairs items = .ok entries) {e : String × Value} (he : e ∈ entries) : e.2 ∈ items := by
  fun_induction pairs items generalizing entries with
  | case1 key v rest name hname ih =>
    cases hrest : pairs rest with
    | error c => rw [hrest] at h; cases h
    | ok tail =>
      rw [hrest] at h
      obtain rfl : (name, v) :: tail = entries := Except.ok.inj h
      rcases List.mem_cons.1 he with rfl | he
      · simp
      · exact List.mem_cons_of_mem _ (List.mem_cons_of_mem _ (ih hrest he))
  | case2 => cases h
  | case3 =>
    obtain rfl : [] = entries := Except.ok.inj h
    cases he
  | case4 => cases h

/-- A dictionary just created gets its entries; if one of them fails, its creator gives it up. -/
theorem defineAll_leaves {dictionary : Value} (entries : List (String × Value))
    (h : m.Sound Γ (i + 1) (x + .refs [dictionary]))
    (hv : ∀ e ∈ entries, e.2 ∈ m.operands.items) :
    Leaves i m (defineAll dictionary entries)
      (fun _ m' => m'.Sound Γ (i + 1) (x + .refs [dictionary])) fun m' => m'.Sound Γ (i + 1) x := by
  induction entries generalizing m with
  | nil => exact leaves_pure h
  | cons entry rest ih =>
    obtain ⟨name, v⟩ := entry
    obtain ⟨hfirst, hrest⟩ := List.forall_mem_cons.1 hv
    have pinned : dictionary ∈ (x + .refs [dictionary]).values := by simp
    refine Leaves.after (meets_rescue (define_meets h (Machine.knows_of_pinned pinned)
      (Machine.anchored_of_pinned pinned) (Machine.knows_of_operand hfirst)) ?_)
      (fun _ _ h => h.steady) ?_
    · rintro e m₁ ⟨h₁, steady⟩
      exact meets_bind (release_meets h₁) fun _ m₂ h₂ => ⟨h₂.1, steady.trans h₂.2.1⟩
    · rintro _ m₁ ⟨h₁, -, same⟩
      exact ih h₁ fun e he => same.operands ▸ hrest e he

theorem endDictionary_works (params : List Value) (h : m.Sound Γ (i + 1) x) :
    Works Γ i x m (endDictionary params) := by
  refine reads_aboveMark.leaves h fun items hitems => ?_
  split
  · exact works_fail h
  refine (reads_ofExcept (P := fun entries => ∀ e ∈ entries, e.2 ∈ items) ?_).leaves h
    fun entries hentries => ?_
  · exact fun entries hentries e he => mem_of_mem_pairs hentries he
  refine Leaves.after (createDictionary_meets h) (fun _ _ h => h.2.steady) ?_
  rintro dictionary m₁ ⟨-, gained⟩
  refine Leaves.bind (defineAll_leaves entries gained.sound fun e he => ?_) fun _ m₂ h₂ =>
    adopt_works h₂
  exact gained.same.operands ▸ hitems _ (hentries e he)

theorem clearToMark_works (params : List Value) (h : m.Sound Γ (i + 1) x) :
    Works Γ i x m (clearToMark params) := by
  refine reads_markDepth.leaves h fun depth _ => ?_
  exact pop_works h _

theorem countToMark_works (params : List Value) (h : m.Sound Γ (i + 1) x) :
    Works Γ i x m (countToMark params) := by
  refine reads_markDepth.leaves h fun depth _ => ?_
  exact result_works h (Machine.knows_of_handle?_none rfl)

/-! ### Containers -/

theorem newArray_works (h : m.Sound Γ (i + 1) x) : Works Γ i x m (newArray params) := by
  refine (reads_matchedWord 0).leaves h fun w _ => ?_
  refine (reads_toIndex w).leaves h fun length _ => ?_
  refine Leaves.after (createFilledArray_meets h (Machine.knows_of_handle?_none rfl))
    (fun _ _ h => h.2.steady) ?_
  exact fun array m₁ ⟨_, gained⟩ => adopt_works gained.sound

theorem unpackArray_works (h : m.Sound Γ (i + 1) x) (hx : ∀ v ∈ params, v ∈ x.values) :
    Works Γ i x m (unpackArray params) := by
  refine (reads_matched 0).leaves h fun array harray => ?_
  refine (reads_items h (knows_params hx harray)).leaves h fun items hitems => ?_
  refine exchange_works h fun v hv => ?_
  rcases List.mem_append.1 hv with hv | hv
  · exact hitems v hv
  · obtain rfl : v = array := by simpa using hv
    exact knows_params hx harray

/-- Operands go into an array one after the other. -/
theorem setItems_works {array : Value} {index : ℕ} (h : m.Sound Γ (i + 1) x)
    (harray : array ∈ x.values) (values : List Value) (hv : ∀ v ∈ values, v ∈ m.operands.items) :
    Works Γ i x m (setItems array index values) := by
  induction values generalizing m index with
  | nil => exact works_pure h
  | cons v rest ih =>
    obtain ⟨hfirst, hrest⟩ := List.forall_mem_cons.1 hv
    refine Leaves.after (setItem_meets h (Machine.knows_of_pinned harray)
      (Machine.anchored_of_pinned harray) (Machine.knows_of_operand hfirst))
      (fun _ _ h => h.steady) ?_
    rintro _ m₁ ⟨h₁, -, same⟩
    exact ih h₁ fun w hw => same.operands ▸ hrest w hw

theorem fillArray_works (h : m.Sound Γ (i + 1) x) (hx : ∀ v ∈ params, v ∈ x.values) :
    Works Γ i x m (fillArray params) := by
  refine (reads_matched 0).leaves h fun array harray => ?_
  refine (reads_items h (knows_params hx harray)).leaves h fun items _ => ?_
  refine machine_step ?_
  dsimp only
  split
  · exact works_fail h
  refine Works.step (setItems_works h (hx array harray) _ fun v hv => ?_) fun m₁ h₁ => ?_
  · exact List.mem_of_mem_drop (List.mem_of_mem_take (List.mem_reverse.1 hv))
  · exact result_works h₁ (knows_params hx harray)

theorem reads_lengthOf (h : m.Sound Γ (i + 1) x) (hv : m.Knows x v) :
    (lengthOf v).Reads (some i) m fun _ => True := by
  unfold lengthOf
  split
  · exact (reads_items h hv).bind fun _ _ => reads_pure trivial
  · exact (reads_names h hv).bind fun _ _ => reads_pure trivial
  · exact reads_pure trivial
  · exact reads_pure trivial
  · exact reads_fail _

theorem replaceByLength_works (h : m.Sound Γ (i + 1) x) (hx : ∀ v ∈ params, v ∈ x.values) :
    Works Γ i x m (replaceByLength params) := by
  refine (reads_matched 0).leaves h fun v hv => ?_
  refine (reads_lengthOf h (knows_params hx hv)).leaves h fun length _ => ?_
  exact result_works h (Machine.knows_of_handle?_none rfl)

theorem reads_itemAt {key : Value} (h : m.Sound Γ (i + 1) x) (hv : m.Knows x v) :
    (itemAt v key).Reads (some i) m fun w => m.Knows x w := by
  unfold itemAt
  split
  · refine (reads_ofOption fun _ _ => trivial).bind fun index _ => ?_
    refine (reads_items h hv).bind fun all hall => ?_
    refine reads_ofOption fun w hw => hall w ?_
    obtain ⟨k, -, hk⟩ := Option.bind_eq_some_iff.1 hw
    exact List.mem_of_getElem? hk
  · refine (reads_ofOption fun _ _ => trivial).bind fun index _ => ?_
    refine (reads_ofOption fun _ _ => trivial).bind fun byte _ => ?_
    exact reads_pure (Machine.knows_of_handle?_none rfl)
  · refine (reads_ofOption fun _ _ => trivial).bind fun name _ => ?_
    exact (reads_entry h hv name).bind fun entry hentry => reads_ofOption hentry
  · exact reads_fail _

theorem getItem_works (h : m.Sound Γ (i + 1) x) (hx : ∀ v ∈ params, v ∈ x.values) :
    Works Γ i x m (getItem params) := by
  refine (reads_matched 0).leaves h fun key _ => ?_
  refine (reads_matched 1).leaves h fun container hcontainer => ?_
  refine (reads_itemAt h (knows_params hx hcontainer)).leaves h fun v hv => ?_
  exact result_works h hv

theorem reads_toPosition (index : Word) (length : ℕ) :
    (toPosition index length).Reads (some i) m fun _ => True :=
  reads_ofOption fun _ _ => trivial

theorem storeAt_works {container key : Value} (h : m.Sound Γ (i + 1) x)
    (hcontainer : container ∈ x.values) (hv : m.Knows x v) :
    Works Γ i x m (storeAt container key v) := by
  have known : m.Knows x container := Machine.knows_of_pinned hcontainer
  have anchored : m.Anchored x container := Machine.anchored_of_pinned hcontainer
  unfold storeAt
  split
  · refine (reads_ofOption fun _ _ => trivial).leaves h fun index _ => ?_
    refine (reads_items h known).leaves h fun items _ => ?_
    refine (reads_toPosition index _).leaves h fun position _ => ?_
    exact works_of_steady ((setItem_meets h known anchored hv).mono
      (fun _ _ h => ⟨h.sound, h.steady⟩) fun _ => id)
  · refine (reads_ofOption fun _ _ => trivial).leaves h fun name _ => ?_
    exact works_of_steady ((define_meets h known anchored hv).mono
      (fun _ _ h => ⟨h.sound, h.steady⟩) fun _ => id)
  · exact works_fail h
  · exact works_fail h

theorem putItem_works (h : m.Sound Γ (i + 1) x) (hx : ∀ v ∈ params, v ∈ x.values) :
    Works Γ i x m (putItem params) := by
  refine (reads_matched 0).leaves h fun v hv => ?_
  refine (reads_matched 1).leaves h fun key _ => ?_
  refine (reads_matched 2).leaves h fun container hcontainer => ?_
  refine Works.step (storeAt_works h (hx container hcontainer) (knows_params hx hv))
    fun m₁ h₁ => pop_works h₁ 3

/-! ### Dictionaries and scopes -/

theorem newDictionary_works (h : m.Sound Γ (i + 1) x) : Works Γ i x m (newDictionary params) := by
  refine (reads_matchedWord 0).leaves h fun w _ => ?_
  refine (reads_toIndex w).leaves h fun _ _ => ?_
  refine Leaves.after (createDictionary_meets h) (fun _ _ h => h.2.steady) ?_
  exact fun dictionary m₁ ⟨_, gained⟩ => adopt_works gained.sound

theorem bindName_works (h : m.Sound Γ (i + 1) x) (hx : ∀ v ∈ params, v ∈ x.values) :
    Works Γ i x m (bindName params) := by
  refine (reads_matched 0).leaves h fun v hv => ?_
  refine (reads_matchedName 1).leaves h fun name _ => ?_
  refine reads_currentScope.leaves h fun scope hscope => ?_
  refine Leaves.after (define_meets h (Machine.knows_of_scope hscope)
    (Machine.anchored_of_scope hscope) (knows_params hx hv)) (fun _ _ h => h.steady) ?_
  exact fun _ m₁ altered => pop_works altered.sound 2

theorem beginScope_works (h : m.Sound Γ (i + 1) x) (hx : ∀ v ∈ params, v ∈ x.values) :
    Works Γ i x m (beginScope params) := by
  refine (reads_matched 0).leaves h fun v hv => ?_
  exact Leaves.after (openScope_meets h (knows_params hx hv)) (fun _ _ h => h.2)
    fun _ m₁ h₁ => pop_works h₁.1 1

theorem endScope_works (params : List Value) (h : m.Sound Γ (i + 1) x) :
    Works Γ i x m (endScope params) :=
  closeScope_works h

theorem loadName_works (h : m.Sound Γ (i + 1) x) : Works Γ i x m (loadName params) := by
  refine (reads_matchedName 0).leaves h fun name _ => ?_
  exact (reads_lookup h name).leaves h fun v hv => result_works h hv

theorem locateName_works (h : m.Sound Γ (i + 1) x) : Works Γ i x m (locateName params) := by
  refine (reads_matchedName 0).leaves h fun name _ => ?_
  refine (reads_locate h name).leaves h fun found hfound => ?_
  split
  · rename_i scope v
    refine exchange_works h fun w hw => ?_
    rcases List.mem_pair.1 hw with rfl | rfl
    · exact Machine.knows_of_scope (hfound _ _ rfl).1
    · exact Machine.knows_of_handle?_none rfl
  · exact result_works h (Machine.knows_of_handle?_none rfl)

theorem isKnown_works (h : m.Sound Γ (i + 1) x) (hx : ∀ v ∈ params, v ∈ x.values) :
    Works Γ i x m (isKnown params) := by
  refine (reads_matchedName 0).leaves h fun name _ => ?_
  refine (reads_matched 1).leaves h fun dictionary hdictionary => ?_
  refine (reads_entry h (knows_params hx hdictionary) name).leaves h fun entry _ => ?_
  exact result_works h (Machine.knows_of_handle?_none rfl)

theorem pushScope_works (params : List Value) (h : m.Sound Γ (i + 1) x) :
    Works Γ i x m (pushScope params) := by
  refine reads_currentScope.leaves h fun scope hscope => ?_
  exact result_works h (Machine.knows_of_scope hscope)

end Operation

end StackScript
