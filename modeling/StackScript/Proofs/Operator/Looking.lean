import StackScript.Proofs.Operator.Transitions

/-!
# Steps that only look at the machine

A step of an operator that asks for nothing but to look at the machine leaves it as it is
(`Operation.Looks`).  Instances tell of each function that reads a part of the machine, and of each way
of putting steps together, so it need not be mentioned where operators are taken apart.
-/

namespace StackScript

namespace Operation

variable {α β : Type} {p : Operation α} {f : α → Operation β} {own : Option ℕ} {m : Machine}

/-- The operation does nothing but look at the machine. -/
class Looks (p : Operation α) : Prop where
  looks : p.Asks (· = .observe)

/-- It leaves the machine as it is. -/
theorem Looks.runOn [hp : Looks p] :
    (p.runOn own m).Meets True (fun _ m' => m' = m) (· = m) := by
  have asks := hp.looks
  clear hp
  induction p with
  | done a => rfl
  | raise e => rfl
  | broken b => trivial
  | ask r next failed ihn _ =>
    obtain ⟨rfl, hn, -⟩ := asks
    exact ihn _ (hn _)

/-! ### Putting steps together -/

instance (a : α) : Looks (pure a : Operation α) := ⟨trivial⟩

instance (c : Cause) : Looks (Program.fail c : Operation α) := ⟨trivial⟩

instance (c : Cause) (o : Option α) : Looks (Program.ofOption c o : Operation α) :=
  ⟨Program.asks_ofOption c o⟩

instance (r : Except Cause α) : Looks (Program.ofExcept r : Operation α) :=
  ⟨Program.asks_ofExcept r⟩

instance (r : Except Exception α) : Looks (Program.ofResult r : Operation α) :=
  ⟨Program.asks_ofResult r⟩

instance (r : Except Breach α) : Looks (Program.ofSound r : Operation α) :=
  ⟨Program.asks_ofSound r⟩

instance (r : Except Breach α) : Looks (liftM r : Operation α) := ⟨Program.asks_ofSound r⟩

instance [Looks p] [∀ a, Looks (f a)] : Looks (p >>= f) :=
  ⟨Looks.looks.bind fun _ => Looks.looks⟩

instance {c : Prop} [Decidable c] {q : Operation α} [Looks p] [Looks q] :
    Looks (if c then p else q) := by
  split <;> infer_instance

/-! ### Parts of the machine -/

instance : Looks site := ⟨Program.asks_request.2 rfl⟩

instance : Looks machine := by unfold machine; infer_instance

instance (g : Machine → Reading α) : Looks (read g) := by unfold read; infer_instance

instance : Looks ownIndex := by unfold ownIndex; infer_instance

instance : Looks ownFrame := by unfold ownFrame; infer_instance

instance : Looks currentOperator := by
  have (i : ℕ) (m : Machine) : Looks (match m.calls.frame? i with
      | some frame => return frame.value
      | none => Program.fail .operatorVanished) := by
    cases m.calls.frame? i <;> infer_instance
  unfold currentOperator
  infer_instance

instance : Looks state := by unfold state; infer_instance

instance (name : String) : Looks (local? name) := by unfold local?; infer_instance

instance (name : String) : Looks (expectLocal name) := by unfold expectLocal; infer_instance

instance : Looks inLoop := by unfold inLoop; infer_instance

instance : Looks condition := by unfold condition; infer_instance

instance : Looks operandCount := by unfold operandCount; infer_instance

instance : Looks markDepth := by unfold markDepth; infer_instance

instance : Looks currentScope := by unfold currentScope; infer_instance

instance (v : Value) : Looks (items v) := by unfold items; infer_instance

instance (v : Value) (name : String) : Looks ( entry? v name) := by unfold entry?; infer_instance

instance (v : Value) : Looks (names v) := by unfold names; infer_instance

instance (name : String) : Looks (lookup name) := by unfold lookup; infer_instance

instance (name : String) : Looks (locate name) := by unfold locate; infer_instance

/-! ### Operands -/

instance (params : List Value) (index : ℕ) : Looks (matched params index) := by
  unfold matched
  infer_instance

instance (params : List Value) (index : ℕ) : Looks (matchedWord params index) := by
  unfold matchedWord
  infer_instance

instance (params : List Value) (index : ℕ) : Looks (matchedBoolean params index) := by
  unfold matchedBoolean
  infer_instance

instance (params : List Value) (index : ℕ) : Looks (matchedName params index) := by
  unfold matchedName
  infer_instance

instance (n : Word) : Looks (toIndex n) := by unfold toIndex; infer_instance

instance : Looks aboveMark := by unfold aboveMark; infer_instance

instance (index : Word) (length : ℕ) : Looks (toPosition index length) := by
  unfold toPosition
  infer_instance

instance (v : Value) : Looks (lengthOf v) := by
  unfold lengthOf
  cases v.datum <;> infer_instance

instance (container key : Value) : Looks (itemAt container key) := by
  unfold itemAt
  cases container.datum <;> infer_instance

instance : Looks awaitedItem := by unfold awaitedItem; infer_instance

end Operation

end StackScript
