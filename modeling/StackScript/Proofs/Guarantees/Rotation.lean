import StackScript.Proofs.Machine.Dispatching
import StackScript.Proofs.Operator.Matching
import Mathlib.Data.Int.ModEq
import Mathlib.Data.List.Rotate

/-!
# Rolling is a rotation

`roll` rotates as many operands as it is told, by any number of steps, and keeps the others
(`rolled`).  Rotations by integers act on the operands, and the length of what is rotated acts as
zero does.  Nothing is asked of the ledger, so a roll is refused for its count only
(`roll_rotates`).
-/

namespace StackScript

/-! ### Rotations by integers -/

namespace Operation

variable {l : List Value} {a b : ℕ} {j k : ℤ}

theorem rotate_congr (h : a ≡ b [ZMOD l.length]) : l.rotate a = l.rotate b := by
  rw [← l.rotate_mod a, ← l.rotate_mod b]
  exact congrArg l.rotate (Int.natCast_modEq_iff.1 h)

theorem rotated_nil (j : ℤ) : rotated [] j = [] := by simp [rotated]

/-- Items that move toward the end move away from the beginning. -/
theorem rotated_eq_rotate (h : a ≡ -j [ZMOD l.length]) : rotated l j = l.rotate a := by
  rcases List.eq_nil_or_concat' l with rfl | ⟨_, _, hl⟩
  · rw [rotated_nil, List.rotate_nil]
  have positive : (0 : ℤ) < l.length := by simp [hl]
  have back := Int.emod_nonneg j positive.ne'
  have short := Int.emod_lt_of_pos j positive
  rw [rotated, ← List.rotate_eq_drop_append_take (Nat.sub_le ..)]
  refine rotate_congr (Int.ModEq.trans ?_ h.symm)
  have kept : ((l.length - (j % l.length).toNat : ℕ) : ℤ) = l.length + -(j % l.length) := by omega
  rw [kept]
  exact Int.ModEq.trans (by simp [Int.ModEq]) (Int.mod_modEq j l.length).neg

theorem exists_shift (hl : l ≠ []) (j : ℤ) : ∃ a : ℕ, a ≡ -j [ZMOD l.length] := by
  have positive := List.length_pos_iff.2 hl
  refine ⟨((-j) % l.length).toNat, ?_⟩
  rw [Int.toNat_of_nonneg (Int.emod_nonneg _ (by omega))]
  exact Int.mod_modEq ..

theorem rotated_perm (l : List Value) (j : ℤ) : (rotated l j).Perm l := by
  rcases eq_or_ne l [] with rfl | hl
  · rw [rotated_nil]
  · obtain ⟨a, ha⟩ := exists_shift hl j
    rw [rotated_eq_rotate ha]
    exact l.rotate_perm a

theorem length_rotated (l : List Value) (j : ℤ) : (rotated l j).length = l.length :=
  (rotated_perm l j).length_eq

theorem rotated_congr (h : j ≡ k [ZMOD l.length]) : rotated l j = rotated l k := by
  rcases eq_or_ne l [] with rfl | hl
  · rw [rotated_nil, rotated_nil]
  · obtain ⟨a, ha⟩ := exists_shift hl j
    rw [rotated_eq_rotate ha, rotated_eq_rotate (ha.trans h.neg)]

theorem rotated_zero (l : List Value) : rotated l 0 = l := by
  rw [rotated_eq_rotate (a := 0) (by simp), List.rotate_zero]

theorem rotated_rotated (l : List Value) (j k : ℤ) :
    rotated (rotated l j) k = rotated l (j + k) := by
  rcases eq_or_ne l [] with rfl | hl
  · rw [rotated_nil, rotated_nil, rotated_nil]
  · obtain ⟨a, ha⟩ := exists_shift hl j
    obtain ⟨b, hb⟩ := exists_shift hl k
    have sum : ((a + b : ℕ) : ℤ) ≡ -(j + k) [ZMOD l.length] := by
      rw [Nat.cast_add, neg_add]
      exact ha.add hb
    rw [rotated_eq_rotate ha, rotated_eq_rotate sum, ← List.rotate_rotate]
    exact rotated_eq_rotate (by rwa [List.length_rotate])

/-- Every item moves toward the end, and from the end to the beginning. -/
theorem getElem?_rotated {i : ℕ} (hi : i < l.length) (j : ℤ) :
    (rotated l j)[((i + j) % l.length).toNat]? = l[i]? := by
  have positive : (0 : ℤ) < l.length := by omega
  obtain ⟨a, ha⟩ := exists_shift (List.length_pos_iff.1 (Nat.zero_lt_of_lt hi)) j
  have place := Int.toNat_of_nonneg (Int.emod_nonneg (i + j) positive.ne')
  have inside := Int.emod_lt_of_pos (i + j) positive
  rw [rotated_eq_rotate ha, List.getElem?_rotate (by omega)]
  have back : (((i + j) % l.length).toNat + a : ℤ) ≡ i [ZMOD l.length] := by
    rw [place]
    exact ((Int.mod_modEq ..).add ha).trans (by rw [add_neg_cancel_right])
  have same : (((i + j) % l.length).toNat + a) % l.length = i % l.length :=
    Int.natCast_modEq_iff.1 (by exact_mod_cast back)
  rw [same, Nat.mod_eq_of_lt hi]

end Operation

/-! ### Rolled operands -/

section

variable {operands : List Value} {n : ℕ} {j k : ℤ}

/-- The operands, the top first, with the topmost `n` rotated by `j` steps toward the top. -/
def rolled (n : ℕ) (j : ℤ) (operands : List Value) : List Value :=
  (Operation.rotated (operands.take n).reverse j).reverse ++ operands.drop n

theorem length_rotated_take (hn : n ≤ operands.length) :
    (Operation.rotated (operands.take n).reverse j).reverse.length = n := by
  rw [List.length_reverse, Operation.length_rotated, List.length_reverse, List.length_take_of_le hn]

theorem take_rolled (hn : n ≤ operands.length) : (rolled n j operands).take n =
    (Operation.rotated (operands.take n).reverse j).reverse :=
  List.take_left' (length_rotated_take hn)

theorem drop_rolled (hn : n ≤ operands.length) : (rolled n j operands).drop n = operands.drop n :=
  List.drop_left' (length_rotated_take hn)

theorem length_rolled (hn : n ≤ operands.length) :
    (rolled n j operands).length = operands.length := by
  rw [rolled, List.length_append, length_rotated_take hn, List.length_drop]
  omega

theorem rolled_zero : rolled n 0 operands = operands := by
  rw [rolled, Operation.rotated_zero, List.reverse_reverse, List.take_append_drop]

theorem rolled_rolled (hn : n ≤ operands.length) :
    rolled n k (rolled n j operands) = rolled n (j + k) operands := by
  rw [rolled, take_rolled hn, drop_rolled hn, List.reverse_reverse, Operation.rotated_rotated]
  rfl

theorem rolled_congr (hn : n ≤ operands.length) (h : j ≡ k [ZMOD n]) :
    rolled n j operands = rolled n k operands := by
  rw [rolled, rolled, Operation.rotated_congr]
  rwa [List.length_reverse, List.length_take_of_le hn]

theorem getElem?_rolled {i : ℕ} (hn : n ≤ operands.length) (hi : i < n) (j : ℤ) :
    ((rolled n j operands).take n).reverse[((i + j) % n).toNat]? =
      (operands.take n).reverse[i]? := by
  have length : (operands.take n).reverse.length = n := by
    rw [List.length_reverse, List.length_take_of_le hn]
  rw [take_rolled hn, List.reverse_reverse]
  have moved := Operation.getElem?_rotated (l := (operands.take n).reverse) (i := i) (by omega) j
  rwa [length] at moved

end

/-! ### The guarantee -/

section

variable {χ : Type} {natives : Natives χ} {options : Options} {m₀ : Machine} {owned : List Value}
  {s : Session χ} {rest : List Frame} {steps count : Value} {operands : List Value} {j w : Word}

/-- **What `roll` does** on a machine that has its operands. -/
theorem Operation.rollOperands_runOn (own : Option ℕ) {m : Machine}
    (hm : m.operands.items = steps :: count :: operands) (hsteps : steps.toWord? = some j)
    (hcount : count.toWord? = some w) (hw : 0 ≤ w.toInt) :
    (rollOperands [steps, count]).runOn own m =
      if operands.length < w.toInt.toNat then .raised Cause.notEnoughOperands.exception m
      else Machine.exchangeOperands (w.toInt.toNat + 2)
        (rotated (operands.take w.toInt.toNat).reverse j.toInt) m := by
  rw [rollOperands, matchedWord_runOn rfl hsteps, matchedWord_runOn rfl hcount, toIndex_runOn hw,
    machine_bind_runOn]
  have length : m.operands.length = operands.length + 2 := congrArg List.length hm
  simp only [length, hm, Nat.add_lt_add_iff_right, List.drop_succ_cons, List.drop_zero]
  split
  · rfl
  · exact congrFun (Machine.runOn_exchange own _ _) m

/-- **Rolling is a rotation.**  The operands below the number of steps and the count are rolled, and
what is held does not change; a count that is negative or too large is refused. -/
theorem roll_rotates (hm₀ : m₀.Created options) (h : Served natives m₀ owned s)
    (d : s.Dispatches .roll rest)
    (hoperands : s.machine.operands.items = steps :: count :: operands)
    (hsteps : steps.toWord? = some j) (hcount : count.toWord? = some w) :
    (∀ n : ℕ, w.toInt = n → n ≤ operands.length →
      (∃ t, Session.EndsIn natives owned rest
        { s.machine.scene with operands := rolled n j.toInt operands, frames := rest } s t ∧
          s.machine.memory.SameHoldings t.machine.memory) ∧
      (∀ i < n, ∀ a : ℤ, ((rolled n a operands).take n).reverse[((i + a) % n).toNat]? =
        (operands.take n).reverse[i]?) ∧
      (∀ a : ℤ, (rolled n a operands).drop n = operands.drop n ∧
        (rolled n a operands).length = operands.length ∧
        rolled n (a % n) operands = rolled n a operands ∧
        rolled n (-a) (rolled n a operands) = operands) ∧
      (∀ a b : ℤ, rolled n b (rolled n a operands) = rolled n (a + b) operands) ∧
      rolled n 0 operands = operands) ∧
    (w.toInt < 0 → (Cause.negative w).condition = .rangeCheck ∧
      ∃ t, Session.Declines natives owned rest (Cause.negative w).exception s t) ∧
    ((operands.length : ℤ) < w.toInt → Cause.notEnoughOperands.condition = .stackUnderflow ∧
      ∃ t, Session.Declines natives owned rest Cause.notEnoughOperands.exception s t) := by
  have operands_eq : s.machine.operands.items = [steps, count] ++ operands := hoperands
  have accepts : List.Forall₂ (fun p v => Param.accepts p v = true) Builtin.roll.signature
      [steps, count] :=
    .cons (Param.accepts_of_toWord? hsteps) (.cons (Param.accepts_of_toWord? hcount) .nil)
  refine ⟨fun n hn enough => ⟨?_, ?_, ?_, ?_, rolled_zero⟩, fun negative => ⟨rfl, ?_⟩,
    fun beyond => ⟨rfl, ?_⟩⟩
  · have hw : w.toInt.toNat = n := by omega
    have length : s.machine.operands.length = operands.length + 2 := congrArg List.length hoperands
    -- the number of steps and the count hold nothing
    have taken {γ : Type} (f : Value → Option γ) (hf : f steps = none) (hf' : f count = none) :
        ((Operation.rotated (operands.take n).reverse j.toInt).filterMap f).Perm
          ((s.machine.operands.items.take (n + 2)).filterMap f) := by
      rw [hoperands, List.take_succ_cons, List.take_succ_cons, List.filterMap_cons_none hf,
        List.filterMap_cons_none hf']
      exact ((Operation.rotated_perm ..).trans (List.reverse_perm _)).filterMap f
    have rearranged := h.rearranges hm₀ d rfl operands_eq accepts (n + 2)
      (Operation.rotated (operands.take n).reverse j.toInt) (by omega)
      (by rw [Operation.length_rotated, List.length_reverse, List.length_take_of_le enough]; omega)
      (taken Value.handle? (Value.handle?_of_toWord? hsteps) (Value.handle?_of_toWord? hcount))
      (taken Value.string? (Value.string?_of_toWord? hsteps) (Value.string?_of_toWord? hcount))
      fun own m hm => by
        have := Operation.rollOperands_runOn own (hm.trans hoperands) hsteps hcount
          (by omega)
        rwa [hw, if_neg (Nat.not_lt.2 enough)] at this
    rwa [hoperands, List.drop_succ_cons, List.drop_succ_cons] at rearranged
  · exact fun i hi a => getElem?_rolled enough hi a
  · refine fun a => ⟨drop_rolled enough, length_rolled enough,
      rolled_congr enough (Int.mod_modEq a n), ?_⟩
    rw [rolled_rolled enough, add_neg_cancel, rolled_zero]
  · exact fun a b => rolled_rolled enough
  · refine h.declines_at_once hm₀ d rfl operands_eq accepts nofun fun own m hm => ?_
    change (Operation.rollOperands [steps, count]).runOn own m = _
    rw [Operation.rollOperands, Operation.matchedWord_runOn rfl hsteps,
      Operation.matchedWord_runOn rfl hcount, Operation.toIndex_raised negative]
  · refine h.declines_at_once hm₀ d rfl operands_eq accepts (by decide) fun own m hm => ?_
    have := Operation.rollOperands_runOn own (hm.operands.trans hoperands) hsteps
      hcount (by omega)
    rwa [if_pos (by omega)] at this

end

/-- `1 2 3 3 1 roll` takes the top below the other two. -/
theorem roll_takes_the_top_below : ∃ (m₀ : Machine) (s t : Session Unit) (x y z : Value),
    m₀.Created {} ∧ Served Natives.none m₀ [] s ∧ s.dispatching? = some .roll ∧
      s.machine.operands.items.map Value.toWord? = [1, 3, 3, 2, 1].map (some ∘ Word.ofInt) ∧
        s.machine.operands.items.drop 2 = [z, y, x] ∧
          Session.EndsIn Natives.none [] s.machine.calls.frames.tail { s.machine.scene with
            operands := [y, x, z], frames := s.machine.calls.frames.tail } s t := by
  have facts : (Session.trial {} "1 2 3 3 1 roll" 7).map (fun s =>
      (s.dispatching?, s.machine.operands.items.map Value.toWord?)) =
      some (some .roll, [1, 3, 3, 2, 1].map (some ∘ Word.ofInt)) := by decide +kernel
  obtain ⟨s, hs, facts⟩ := Option.map_eq_some_iff.1 facts
  obtain ⟨dispatching, words⟩ := Prod.mk.inj facts
  obtain ⟨m₀, created, reached⟩ := Reached.of_trial (by rintro t ⟨⟩) hs
  obtain ⟨steps, _, operands, hsteps, h⟩ := List.map_eq_cons_iff.1 words
  obtain ⟨count, _, rfl, hcount, h⟩ := List.map_eq_cons_iff.1 h
  obtain ⟨z, _, rfl, -, h⟩ := List.map_eq_cons_iff.1 h
  obtain ⟨y, _, rfl, -, h⟩ := List.map_eq_cons_iff.1 h
  obtain ⟨x, _, rfl, -, h⟩ := List.map_eq_cons_iff.1 h
  obtain rfl := List.map_eq_nil_iff.1 h
  obtain ⟨rolls, -, -⟩ := roll_rotates created reached.served
    (Session.dispatches_of_dispatching? dispatching) operands hsteps hcount
  obtain ⟨⟨t, ends, -⟩, -⟩ := rolls 3 (by decide) (Nat.le_refl 3)
  exact ⟨m₀, s, t, x, y, z, created, reached.served, dispatching, words,
    by rw [operands]; rfl, ends⟩

end StackScript
