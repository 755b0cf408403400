import StackScript.Operator.Arithmetic
import StackScript.Operator.Stack
import StackScript.Proofs.Operator.Working

/-!
# Operators on operands work

Operators that do nothing but read their operands and put their results in their place: those on
the operand stack, arithmetic, comparisons and logic.
-/

namespace StackScript

namespace Operation

variable {Γ : Charter} {i : ℕ} {x : Stake} {m : Machine} {params : List Value}

/-! ### The operand stack -/

theorem duplicateTop_works (h : m.Sound Γ (i + 1) x) (hx : ∀ v ∈ params, v ∈ x.values) :
    Works Γ i x m (duplicateTop params) := by
  refine (reads_matched 0).leaves h fun v hv => ?_
  exact result_works h (knows_params hx hv)

theorem exchangeTop_works (h : m.Sound Γ (i + 1) x) (hx : ∀ v ∈ params, v ∈ x.values) :
    Works Γ i x m (exchangeTop params) := by
  refine (reads_matched 0).leaves h fun top htop => ?_
  refine (reads_matched 1).leaves h fun below hbelow => ?_
  refine exchange_works h fun v hv => knows_params hx ?_
  rcases List.mem_pair.1 hv with rfl | rfl
  · exact htop
  · exact hbelow

theorem pushCount_works (params : List Value) (h : m.Sound Γ (i + 1) x) :
    Works Γ i x m (pushCount params) := by
  refine reads_operandCount.leaves h fun count _ => ?_
  exact result_works h (Machine.knows_of_handle?_none rfl)

theorem copyOperand_works (h : m.Sound Γ (i + 1) x) : Works Γ i x m (copyOperand params) := by
  refine (reads_matchedWord 0).leaves h fun w _ => ?_
  refine (reads_toIndex w).leaves h fun depth _ => ?_
  refine machine_step ?_
  refine (reads_ofOption (P := (· ∈ m.operands.items)) fun v hv => ?_).leaves h fun v hv => ?_
  · exact List.mem_of_getElem? hv
  · exact result_works h (Machine.knows_of_operand hv)

theorem mem_of_mem_rotated {items : List Value} {steps : ℤ} {v : Value}
    (hv : v ∈ rotated items steps) : v ∈ items := by
  rcases List.mem_append.1 hv with hv | hv
  · exact List.mem_of_mem_drop hv
  · exact List.mem_of_mem_take hv

theorem rollOperands_works (h : m.Sound Γ (i + 1) x) : Works Γ i x m (rollOperands params) := by
  refine (reads_matchedWord 0).leaves h fun steps _ => ?_
  refine (reads_matchedWord 1).leaves h fun w _ => ?_
  refine (reads_toIndex w).leaves h fun count _ => ?_
  refine machine_step ?_
  dsimp only
  split
  · exact works_fail h
  · refine exchange_works h fun v hv => Machine.knows_of_operand ?_
    exact List.mem_of_mem_drop (List.mem_of_mem_take (List.mem_reverse.1 (mem_of_mem_rotated hv)))

/-! ### Arithmetic -/

theorem combine_works {name : String} {f : Word → Word → Option Word} (h : m.Sound Γ (i + 1) x) :
    Works Γ i x m (combine name f params) := by
  refine (reads_matchedWord 0).leaves h fun right _ => ?_
  refine (reads_matchedWord 1).leaves h fun left _ => ?_
  refine (reads_ofOption fun _ _ => trivial).leaves h fun result _ => ?_
  exact result_works h (Machine.knows_of_handle?_none rfl)

theorem divide_works {name : String} {f : Word → Word → Option Word} (h : m.Sound Γ (i + 1) x) :
    Works Γ i x m (divide name f params) := by
  refine (reads_matchedWord 0).leaves h fun right _ => ?_
  split
  · exact works_fail h
  · exact combine_works h

theorem transform_works {name : String} {f : Word → Option Word} (h : m.Sound Γ (i + 1) x) :
    Works Γ i x m (transform name f params) := by
  refine (reads_matchedWord 0).leaves h fun w _ => ?_
  refine (reads_ofOption fun _ _ => trivial).leaves h fun result _ => ?_
  exact result_works h (Machine.knows_of_handle?_none rfl)

/-! ### Comparisons and logic -/

theorem compareEqual_works {expected : Bool} (h : m.Sound Γ (i + 1) x) :
    Works Γ i x m (compareEqual expected params) := by
  refine (reads_matched 1).leaves h fun left _ => ?_
  refine (reads_matched 0).leaves h fun right _ => ?_
  exact result_works h (Machine.knows_of_handle?_none rfl)

theorem compareWords_works {related : Word → Word → Bool} (h : m.Sound Γ (i + 1) x) :
    Works Γ i x m (compareWords related params) := by
  refine (reads_matchedWord 1).leaves h fun left _ => ?_
  refine (reads_matchedWord 0).leaves h fun right _ => ?_
  exact result_works h (Machine.knows_of_handle?_none rfl)

theorem combineLogic_works {booleans : Bool → Bool → Bool} {words : Word → Word → Word}
    (h : m.Sound Γ (i + 1) x) : Works Γ i x m (combineLogic booleans words params) := by
  refine (reads_matched 0).leaves h fun right _ => ?_
  refine (reads_matched 1).leaves h fun left _ => ?_
  split
  · exact result_works h (Machine.knows_of_handle?_none rfl)
  · exact result_works h (Machine.knows_of_handle?_none rfl)
  · exact works_fail h

theorem negateLogic_works (h : m.Sound Γ (i + 1) x) : Works Γ i x m (negateLogic params) := by
  refine (reads_matched 0).leaves h fun v _ => ?_
  split
  · exact result_works h (Machine.knows_of_handle?_none rfl)
  · exact result_works h (Machine.knows_of_handle?_none rfl)
  · exact works_fail h

end Operation

end StackScript
