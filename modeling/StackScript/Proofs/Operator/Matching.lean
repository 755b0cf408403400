import StackScript.Proofs.Guarantees.Resolution
import StackScript.Proofs.Operator.Undoing

/-!
# What operators find out

A step of an operator that looks at its operands, at the machine or at a container is done at once: the
rest of the operator goes on with what the step has found.
-/

namespace StackScript

/-! ### Integers -/

theorem Value.datum_of_toWord? {v : Value} {w : Word} (h : v.toWord? = some w) :
    v.datum = .integer w := by
  unfold Value.toWord? at h
  split at h
  · rename_i hd
    rw [hd, Option.some.inj h]
  · cases h

theorem Value.handle?_of_toWord? {v : Value} {w : Word} (h : v.toWord? = some w) :
    v.handle? = none := by
  rw [Value.handle?, Value.datum_of_toWord? h]

theorem Value.string?_of_toWord? {v : Value} {w : Word} (h : v.toWord? = some w) :
    v.string? = none := by
  rw [Value.string?, Value.datum_of_toWord? h]

theorem Param.accepts_of_toWord? {v : Value} {w : Word} (h : v.toWord? = some w) :
    Param.accepts .integer v = true := by
  simp [accepts, Value.kind, Value.datum_of_toWord? h, Datum.kind]

namespace Operation

variable {α β : Type} {own : Option ℕ} {m : Machine} {v : Value} {w : Word} {params : List Value}
  {index : ℕ}

/-! ### Decisions -/

theorem ofOption_runOn {o : Option α} {a : α} (h : o = some a) (c : Cause) (k : α → Operation β) :
    runOn own (Program.ofOption c o >>= k) m = (k a).runOn own m := by
  rw [h]
  rfl

theorem ofOption_raised {o : Option α} (h : o = none) (c : Cause) (k : α → Operation β) :
    runOn own (Program.ofOption c o >>= k) m = .raised c.exception m := by
  rw [h]
  rfl

/-! ### Operands -/

theorem matched_runOn (hv : params[index]? = some v) (k : Value → Operation α) :
    (matched params index >>= k).runOn own m = (k v).runOn own m :=
  ofOption_runOn hv _ k

theorem matchedWord_runOn (hv : params[index]? = some v) (hw : v.toWord? = some w)
    (k : Word → Operation α) :
    (matchedWord params index >>= k).runOn own m = (k w).runOn own m := by
  have read : matchedWord params index = Program.done w := by
    rw [matchedWord, matched, hv]
    change Program.ofOption _ v.toWord? = _
    rw [hw]
    rfl
  rw [read]
  rfl

theorem toIndex_runOn (hw : 0 ≤ w.toInt) (k : ℕ → Operation α) :
    (toIndex w >>= k).runOn own m = (k w.toInt.toNat).runOn own m :=
  ofOption_runOn (if_pos hw) _ k

theorem toIndex_raised (hw : w.toInt < 0) (k : ℕ → Operation α) :
    (toIndex w >>= k).runOn own m = .raised (Cause.negative w).exception m :=
  ofOption_raised (if_neg (Int.not_le.2 hw)) _ k

/-! ### The machine -/

theorem machine_bind_runOn (k : Machine → Operation α) :
    (machine >>= k).runOn own m = (k m).runOn own m := runOn_bind machine_runOn

theorem read_runOn {g : Machine → Reading α} {a : α} (h : (g m).run = .ok (.ok a))
    (k : α → Operation β) : (read g >>= k).runOn own m = (k a).runOn own m := by
  refine runOn_bind ?_
  rw [read, machine_bind_runOn, h]
  rfl

theorem items_runOn {i : Handle} {access : Access} {s : Sequence} (hv : v.datum = .array i access)
    (ho : m.memory.heap.object? i = some (.array s)) (k : List Value → Operation α) :
    (items v >>= k).runOn own m = (k s.toList).runOn own m := by
  refine read_runOn ?_ k
  rw [Machine.items, hv]
  dsimp only
  rw [Memory.array_of_object? ho]
  rfl

theorem entry_runOn {i : Handle} {writable : Bool} {d : Dictionary}
    (hv : v.datum = .dictionary i writable) (ho : m.memory.heap.object? i = some (.dictionary d))
    (name : String) (k : Option Value → Operation α) :
    ( entry? v name >>= k).runOn own m = (k (d.get? name)).runOn own m := by
  refine read_runOn ?_ k
  rw [Machine.entry?, hv]
  dsimp only
  rw [Memory.dictionary_of_object? ho]
  rfl

end Operation

end StackScript
