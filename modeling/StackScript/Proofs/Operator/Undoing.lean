import StackScript.Proofs.Operator.Failing

/-!
# Operators that undo what they have done

An operator that has created a container and cannot go on disposes of it.
-/

namespace StackScript

open Machine (Unscathed Lodged Built)
open Cells

/-- Whatever is known has a cell. -/
theorem Machine.Sound.houses {Γ : Charter} {n : ℕ} {x : Stake} {m : Machine} {σ : Cells} {v : Value}
    (sound : m.Sound Γ n x) (h : m.memory.Has σ) (hv : m.Knows x v) : σ.Houses v := by
  obtain ⟨-, _, hb, -⟩ := sound.memory
  intro i hi
  obtain ⟨c, hc⟩ := hb.exists_cell_of_known hv hi
  rw [← h.cells, hc]
  exact nofun

/-- A text among the operands is referred to. -/
theorem Machine.Sound.referenced {Γ : Charter} {n : ℕ} {x : Stake} {m : Machine} {v : Value}
    (sound : m.Sound Γ n x) (hv : v ∈ m.operands.items) (text : String)
    (htext : v.string? = some text) : m.memory.ledger.strings.find? text ≠ none := by
  obtain ⟨-, _, hb, -⟩ := sound.memory
  have mentioned : 0 < (m.stake + x).mentions text :=
    Stake.mentions_pos_iff.2 ⟨v, by simp [mem_values_stake_of_operand hv], htext⟩
  intro hnone
  have count := hb.mentions text
  rw [Stake.mentions_add, Ledger.references, hnone, Option.getD_none] at count
  omega

namespace Operation

variable {Γ : Charter} {x : Stake} {σ : Cells} {m : Machine} {own : Option ℕ} {params : List Value}

/-! ### Containers -/

section

variable (hσ : σ.Counted) (h : m.memory.Has σ)
include hσ h

theorem collectArray_fails (access : Access) :
    (collectArray access).Fails own m (m.Unscathed σ) := by
  refine fails_bind (Machine.unscathed_self h) fun items => ?_
  refine meets_bind (meets_ask (Machine.createArray_builds hσ h access items)) ?_
  rintro array m₁ ⟨-, s, -, built⟩
  exact meets_ask (built.adopt hσ _)

theorem endBlock_fails (params : List Value) :
    (endBlock params).Fails own m (m.Unscathed σ) :=
  meets_bind (collectArray_fails hσ h .block) fun _ _ _ => trivial

theorem newArray_fails : (newArray params).Fails own m (m.Unscathed σ) := by
  have look := Machine.unscathed_self h
  refine fails_bind look fun w => fails_bind look fun length => ?_
  refine meets_bind (meets_ask (Machine.createFilledArray_builds hσ h .mutable length .null)) ?_
  rintro array m₁ ⟨o, built⟩
  exact meets_ask (built.adopt hσ _)

theorem newDictionary_fails : (newDictionary params).Fails own m (m.Unscathed σ) := by
  have look := Machine.unscathed_self h
  refine fails_bind look fun w => fails_bind look fun _ => ?_
  refine meets_bind (meets_ask (Machine.createDictionary_builds h)) ?_
  rintro dictionary m₁ ⟨-, d, -, built⟩
  exact meets_ask (built.adopt hσ _)

omit h in
/-- A dictionary just created gets its entries; if one of them fails, its creator gives it up. -/
theorem defineAll_fails {m' : Machine} {i : Handle} {d : Dictionary}
    (entries : List (String × Value)) (built : m.Built σ (.dictionary i true) (.dictionary d) m')
    (hd : ∀ w ∈ d.values, σ.Houses w) (hentries : ∀ e ∈ entries, σ.Houses e.2) :
    ((defineAll (.dictionary i true) entries).runOn own m').Meets True
      (fun _ m'' => ∃ o, m.Built σ (.dictionary i true) o m'') (m.Unscathed σ) := by
  induction entries generalizing m' d with
  | nil => exact ⟨_, built⟩
  | cons entry rest ih =>
    obtain ⟨name, v⟩ := entry
    obtain ⟨hv, hrest⟩ := List.forall_mem_cons.1 hentries
    refine meets_bind (meets_rescue (meets_ask (built.define hσ name hv hd)) ?_) ?_
    · intro e m₁ built₁
      exact meets_bind (meets_ask ((built₁.release hσ).always fun _ _ => id)) fun _ _ h => h
    · intro _ m₁ built₁
      refine ih built₁ (fun w hw => ?_) hrest
      rcases List.mem_cons.1 (Dictionary.values_put d name v hw) with rfl | hw
      · exact hv
      · exact hd w hw

theorem endDictionary_fails (params : List Value) (hm : ∀ v ∈ m.operands.items, σ.Houses v) :
    (endDictionary params).Fails own m (m.Unscathed σ) := by
  have look := Machine.unscathed_self h
  refine reads_aboveMark.step look fun items hitems => ?_
  split
  · exact look
  refine Reads.step (P := fun entries => ∀ e ∈ entries, e.2 ∈ items) ?_ look
    fun entries hentries => ?_
  · exact reads_ofExcept fun entries hpairs e he => mem_of_mem_pairs hpairs he
  refine meets_bind (meets_ask (Machine.createDictionary_builds h)) ?_
  rintro _ m₁ ⟨⟨i, rfl⟩, d, hd, built⟩
  refine meets_bind (defineAll_fails hσ entries built (by simp [hd]) fun e he =>
    hm e.2 (hitems _ (hentries e he))) ?_
  rintro _ m₂ ⟨o, built⟩
  exact meets_ask (built.adopt hσ _)

end

/-! ### Filling an array -/

section

variable {i k : ℕ} (sound : m.Sound Γ (i + 1) x)
include sound

theorem reads_array {v : Value} (hv : m.Knows x v) :
    (items v).Reads own m fun vs => ∃ j access s, v.datum = .array j access ∧
      m.memory.heap.object? j = some (.array s) ∧ vs = s.toList := by
  obtain ⟨present, σ, hb, -⟩ := sound.memory
  cases hd : v.datum with
  | array j access =>
    obtain ⟨s, ho⟩ := hb.array_of_known present hv hd
    refine reads_read (r := .ok s.toList) ?_ fun vs hvs => ⟨j, access, s, rfl, ho, ?_⟩
    · rw [Machine.items, hd]
      dsimp only
      rw [Memory.array_of_object? ho]
      rfl
    · exact (Except.ok.inj hvs).symm
  | null | boolean | integer | string | name | mark | operator | dictionary =>
    refine reads_read (r := .error (.notArray v.kind)) ?_ fun _ h => by cases h
    rw [Machine.items, hd]
    rfl

/-- Operands go into an array that has room for them. -/
theorem setItems_sure {array : Value} {j : Handle} {s : Sequence} {index : ℕ} (values : List Value)
    (ready : m.Ready i k) (harray : array ∈ x.values) (hd : array.datum = .array j .mutable)
    (ho : m.memory.heap.object? j = some (.array s)) (hroom : index + values.length ≤ s.length)
    (hv : ∀ v ∈ values, v ∈ m.operands.items) :
    ((setItems array index values).runOn (some i) m).Meets True (fun _ m' => m'.Ready i k)
      fun _ => False := by
  induction values generalizing m index s with
  | nil => exact ready
  | cons v rest ih =>
    obtain ⟨hfirst, hrest⟩ := List.forall_mem_cons.1 hv
    rw [List.length_cons] at hroom
    obtain ⟨present, σ, hb, -⟩ := sound.memory
    have knows := Machine.knows_of_operand (x := x) hfirst
    have stored : (Machine.setItem array index v m).Meets True
        (fun _ m' => m.Altered Γ (i + 1) x m' ∧ m'.memory.heap.object? j =
          some (.array (s.replace index v))) fun _ => False := by
      have altered : (Machine.setItem array index v m).Meets True _ _ :=
        Machine.setItem_meets sound (Machine.knows_of_pinned harray)
          (.inl trivial) knows
      unfold Machine.setItem at altered ⊢
      rw [hd] at altered ⊢
      have sure := Memory.setItem_sure ho (show index < s.length by omega) (sound.referenced hfirst)
      have changed : (Memory.setItem j index v m.memory).Meets True _ _ :=
        Memory.setItem_meets hb present ho (.inl trivial) knows
      exact altered.and (Machine.meets_onMemory ((sure.and changed).mono
        (fun _ μ h => h.2.object) fun _ h => h.1)) |>.mono (fun _ _ h => h) fun _ h => h.2
    have still := ready.perform (r := .setItem array index v) trivial (some i)
    refine meets_bind (meets_ask ((stored.and still).mono (fun _ _ => id) fun _ h => h.1)) ?_
    rintro _ m₁ ⟨⟨altered, ho₁⟩, ready₁⟩
    have length := s.length_replace index v
    refine ih altered.sound ready₁ ho₁ (by omega) fun w hw => ?_
    rw [altered.same.operands]
    exact hrest w hw

theorem fillArray_fails (h : m.memory.Has σ) (hx : ∀ v ∈ params, v ∈ x.values)
    (ready : m.Ready i k) : (fillArray params).Fails (some i) m (m.Unscathed σ) := by
  have look := Machine.unscathed_self h
  refine (reads_matched 0).step look fun array harray => ?_
  have pinned : array ∈ x.values := hx array harray
  refine (reads_array sound (Machine.knows_of_pinned pinned)).step look ?_
  rintro _ ⟨j, access, s, hd, ho, rfl⟩
  refine reads_machine.step look fun seen hseen => ?_
  rw [hseen]
  dsimp only
  split
  · exact look
  rename_i enough
  -- the values to be stored are operands, as many as there are items
  have length : s.toList.length = s.length := List.length_reverse
  have ready : m.Ready i (s.toList.length + 1) := ⟨ready.sized, Nat.not_lt.1 enough, ready.state⟩
  generalize hvalues : ((m.operands.items.drop 1).take s.toList.length).reverse = values
  have hv : ∀ v ∈ values, v ∈ m.operands.items := by
    intro v hv
    rw [← hvalues] at hv
    exact List.mem_of_mem_drop (List.mem_of_mem_take (List.mem_reverse.1 hv))
  have count : values.length ≤ s.length := by
    rw [← hvalues, ← length, List.length_reverse]
    exact List.length_take_le ..
  have stored : ((setItems array 0 values).runOn (some i) m).Meets True
      (fun _ m' => m'.Ready i (s.toList.length + 1)) (m.Unscathed σ) := by
    cases values with
    | nil => exact ready
    | cons v rest =>
      by_cases hmutable : access = .mutable
      · subst hmutable
        exact (setItems_sure sound _ ready pinned hd ho (by simpa using count) hv).mono
          (fun _ _ => id) fun _ h => h.elim
      · refine meets_bind (M := fun _ _ => False) (meets_ask ?_) fun _ _ h => h.elim
        change (Machine.setItem array 0 v m).Meets True _ _
        unfold Machine.setItem
        rw [hd]
        cases access with
        | mutable => exact absurd rfl hmutable
        | block | literal => exact look
  refine meets_bind stored fun _ m' ready' => meets_ask ?_
  refine (Machine.exchangeOperands_sure ready'.sized ready'.enough (Nat.le_add_left ..) ?_).mono
    (fun _ _ _ => trivial) fun _ h => h.elim
  simp [Value.string?, hd]

end

end Operation

end StackScript
