import StackScript.Proofs.Machine.Dispatching
import StackScript.Proofs.Operator.Matching

/-!
# Arithmetic is exact or refused

An arithmetic builtin replaces its operands by the result integers have, if there is one and a word can
stand for it, and otherwise fails with its operands in place (`arithmetic_is_exact`).

There is one exception (`Builtin.Slips`): the remainder of the least integer by `-1` is zero, but it is
refused, since the quotient does not fit (`mod_refuses_zero`).
-/

namespace StackScript

/-! ### Words -/

namespace Word

variable {n : ℤ} {a b : Word}

/-- A word can stand for the integer. -/
def Fits (n : ℤ) : Prop := -2 ^ 63 ≤ n ∧ n ≤ 2 ^ 63 - 1

instance (n : ℤ) : Decidable (Fits n) := inferInstanceAs (Decidable (_ ∧ _))

theorem ofInt?_of_fits (h : Fits n) : ofInt? n = some (ofInt n) :=
  if_pos (by unfold Fits at h; omega)

theorem ofInt?_of_not_fits (h : ¬ Fits n) : ofInt? n = none :=
  if_neg (by unfold Fits at h; omega)

theorem toInt_ofInt_of_fits (h : Fits n) : (ofInt n).toInt = n :=
  toInt_ofInt (by unfold Fits at h; omega) (by unfold Fits at h; omega)

/-- Only one quotient is out of range. -/
theorem fits_tdiv_iff (hb : b.toInt ≠ 0) :
    Fits (a.toInt.tdiv b.toInt) ↔ ¬ (a.toInt = -2 ^ 63 ∧ b.toInt = -1) := by
  have range := a.toInt_range
  unfold Fits
  by_cases unit : b.toInt.natAbs = 1
  · rcases (show b.toInt = 1 ∨ b.toInt = -1 by omega) with hb | hb
    · rw [hb, Int.tdiv_one]
      omega
    · rw [hb, Int.tdiv_neg, Int.tdiv_one]
      omega
  · have halved : a.toInt.natAbs / b.toInt.natAbs ≤ a.toInt.natAbs / 2 :=
      Nat.div_le_div_left (by omega) (by decide)
    have quotient : (a.toInt.tdiv b.toInt).natAbs = a.toInt.natAbs / b.toInt.natAbs :=
      Int.natAbs_tdiv _ _
    omega

/-- Remainders are smaller than the divisor. -/
theorem fits_tmod (a : Word) (hb : b.toInt ≠ 0) : Fits (a.toInt.tmod b.toInt) := by
  have range := b.toInt_range
  have smaller : a.toInt.natAbs % b.toInt.natAbs < b.toInt.natAbs :=
    Nat.mod_lt _ (Int.natAbs_pos.2 hb)
  rw [← Int.natAbs_tmod] at smaller
  unfold Fits
  omega

end Word

/-! ### Results -/

namespace Builtin

/-- The builtins that compute with integers. -/
def IsArithmetic (b : Builtin) : Prop := b ∈ [add, sub, mul, div, mod, neg, abs]

/-- The result integers have, the deeper operand first; nothing is divided by zero. -/
def result? : Builtin → List ℤ → Option ℤ
  | .add, [x, y] => some (x + y)
  | .sub, [x, y] => some (x - y)
  | .mul, [x, y] => some (x * y)
  | .div, [x, y] => if y = 0 then none else some (x.tdiv y)
  | .mod, [x, y] => if y = 0 then none else some (x.tmod y)
  | .neg, [x] => some (-x)
  | .abs, [x] => some x.natAbs
  | _, _ => none

/-- The remainder that is refused although it is a word. -/
def Slips (b : Builtin) (xs : List ℤ) : Prop := b = .mod ∧ xs = [-2 ^ 63, -1]

instance (b : Builtin) (xs : List ℤ) : Decidable (b.Slips xs) := inferInstanceAs (Decidable (_ ∧ _))

/-- What an arithmetic builtin makes of words, the deeper first. -/
def answer (b : Builtin) (ws : List Word) : Except Cause Word :=
  match b.result? (ws.map Word.toInt) with
  | none => .error .divisionByZero
  | some r =>
    if Word.Fits r ∧ ¬ b.Slips (ws.map Word.toInt) then .ok (.ofInt r) else .error (.wordOverflow b.name)

theorem condition_of_answer {b : Builtin} {ws : List Word} {c : Cause} (h : b.answer ws = .error c) :
    c.condition = .undefinedResult := by
  unfold answer at h
  split at h
  · cases h
    rfl
  · split at h
    · cases h
    · cases h
      rfl

end Builtin

namespace Operation

variable {own : Option ℕ} {m : Machine} {name : String} {left right v : Value} {a b : Word}

/-- What becomes of operands that have a result. -/
def settles (count : ℕ) : Except Cause Word → Action Machine Unit
  | .ok w => Machine.exchangeOperands count [.integer w]
  | .error c => Action.fail c

theorem combine_runOn (f : Word → Word → Option Word) (hleft : left.toWord? = some a)
    (hright : right.toWord? = some b) : (combine name f [right, left]).runOn own m =
      settles 2 ((f a b).elim (.error (.wordOverflow name)) .ok) m := by
  rw [combine, matchedWord_runOn rfl hright, matchedWord_runOn rfl hleft]
  cases f a b with
  | none => rfl
  | some w => exact congrFun (Machine.runOn_exchange own 2 [.integer w]) m

theorem divide_runOn (f : Word → Word → Option Word) (hleft : left.toWord? = some a)
    (hright : right.toWord? = some b) : (divide name f [right, left]).runOn own m =
      settles 2 (if b.toInt = 0 then .error .divisionByZero
        else (f a b).elim (.error (.wordOverflow name)) .ok) m := by
  rw [divide, matchedWord_runOn rfl hright]
  split
  · rfl
  · exact combine_runOn f hleft hright

theorem transform_runOn (f : Word → Option Word) (hv : v.toWord? = some a) :
    (transform name f [v]).runOn own m =
      settles 1 ((f a).elim (.error (.wordOverflow name)) .ok) m := by
  rw [transform, matchedWord_runOn rfl hv]
  cases f a with
  | none => rfl
  | some w => exact congrFun (Machine.runOn_exchange own 1 [.integer w]) m

end Operation

namespace Builtin

variable {b : Builtin} {params : List Value} {ws : List Word} {own : Option ℕ} {m : Machine}

theorem elim_ofInt? (name : String) (n : ℤ) :
    ((Word.ofInt? n).elim (.error (.wordOverflow name)) .ok : Except Cause Word) =
      if Word.Fits n then .ok (.ofInt n) else .error (.wordOverflow name) := by
  by_cases h : Word.Fits n
  · rw [Word.ofInt?_of_fits h, if_pos h]
    rfl
  · rw [Word.ofInt?_of_not_fits h, if_neg h]
    rfl

/-- A remainder is refused with its quotient. -/
theorem elim_mod? {x y : Word} (hy : y.toInt ≠ 0) (name : String) :
    ((Word.mod? x y).elim (.error (.wordOverflow name)) .ok : Except Cause Word) =
      if ¬ (x.toInt = -2 ^ 63 ∧ y.toInt = -1) then .ok (.ofInt (x.toInt.tmod y.toInt))
      else .error (.wordOverflow name) := by
  rw [Word.mod?, Word.div?, if_neg hy]
  split
  · rename_i apart
    rw [Word.ofInt?_of_fits ((Word.fits_tdiv_iff hy).2 apart), Option.bind_some,
      Word.ofInt?_of_fits (Word.fits_tmod x hy)]
    rfl
  · rename_i least
    rw [Word.ofInt?_of_not_fits fun fits => least ((Word.fits_tdiv_iff hy).1 fits)]
    rfl

/-- **What an arithmetic builtin does** is settled by its words. -/
theorem operation_settles (hb : b.IsArithmetic)
    (hparams : params.map Value.toWord? = ws.reverse.map some)
    (hlength : ws.length = b.signature.length) :
    (b.operation params).runOn own m = Operation.settles ws.length (b.answer ws) m := by
  -- the right operand is on top, the words come in the order of writing
  have binary (h : ws.length = 2) : ∃ x y left right, ws = [x, y] ∧ params = [right, left] ∧
      left.toWord? = some x ∧ right.toWord? = some y := by
    obtain ⟨x, y, rfl⟩ := List.length_eq_two.1 h
    obtain ⟨right, _, rfl, hright, h⟩ := List.map_eq_cons_iff.1 hparams
    obtain ⟨left, _, rfl, hleft, h⟩ := List.map_eq_cons_iff.1 h
    obtain rfl := List.map_eq_nil_iff.1 h
    exact ⟨x, y, left, right, rfl, rfl, hleft, hright⟩
  have unary (h : ws.length = 1) : ∃ x v, ws = [x] ∧ params = [v] ∧ v.toWord? = some x := by
    obtain ⟨x, rfl⟩ := List.length_eq_one_iff.1 h
    obtain ⟨v, _, rfl, hv, h⟩ := List.map_eq_cons_iff.1 hparams
    obtain rfl := List.map_eq_nil_iff.1 h
    exact ⟨x, v, rfl, rfl, hv⟩
  simp only [IsArithmetic, List.mem_cons, List.not_mem_nil, or_false] at hb
  rcases hb with rfl | rfl | rfl | rfl | rfl | rfl | rfl
  case inl | inr.inl | inr.inr.inl =>
    obtain ⟨x, y, left, right, rfl, rfl, hleft, hright⟩ := binary hlength
    refine (Operation.combine_runOn _ hleft hright).trans ?_
    simp [answer, result?, Slips, Word.add?, Word.sub?, Word.mul?, elim_ofInt?, name]
  case inr.inr.inr.inl =>
    obtain ⟨x, y, left, right, rfl, rfl, hleft, hright⟩ := binary hlength
    refine (Operation.divide_runOn _ hleft hright).trans ?_
    by_cases hy : y.toInt = 0 <;>
      simp [answer, result?, Slips, Word.div?, elim_ofInt?, name, hy]
  case inr.inr.inr.inr.inl =>
    obtain ⟨x, y, left, right, rfl, rfl, hleft, hright⟩ := binary hlength
    refine (Operation.divide_runOn _ hleft hright).trans ?_
    by_cases hy : y.toInt = 0
    · simp [answer, result?, hy]
    · simp [answer, result?, Slips, elim_mod? hy, name, hy, Word.fits_tmod x hy]
  case inr.inr.inr.inr.inr.inl | inr.inr.inr.inr.inr.inr =>
    obtain ⟨x, v, rfl, rfl, hv⟩ := unary hlength
    refine (Operation.transform_runOn _ hv).trans ?_
    simp [answer, result?, Slips, Word.neg?, Word.abs?, elim_ofInt?, name]

end Builtin

/-! ### The guarantee -/

section

variable {χ : Type} {natives : Natives χ} {options : Options} {m₀ : Machine} {owned : List Value}
  {s : Session χ} {rest : List Frame} {b : Builtin} {params operands : List Value} {ws : List Word}

/-- Integers are what an arithmetic builtin asks for. -/
theorem Builtin.IsArithmetic.accepts (hb : b.IsArithmetic)
    (hparams : params.map Value.toWord? = ws.reverse.map some)
    (hlength : ws.length = b.signature.length) :
    List.Forall₂ (fun p v => Param.accepts p v = true) b.signature params := by
  have length : b.signature.length = params.length := by
    rw [← hlength, ← List.length_reverse, ← List.length_map (f := some), ← hparams, List.length_map]
  refine List.forall₂_iff_zip.2 ⟨length, fun {p v} hpv => ?_⟩
  obtain ⟨hp, hv⟩ := List.of_mem_zip hpv
  obtain rfl : p = .integer := by
    simp only [IsArithmetic, List.mem_cons, List.not_mem_nil, or_false] at hb
    rcases hb with rfl | rfl | rfl | rfl | rfl | rfl | rfl <;> simpa [signature] using hp
  obtain ⟨w, -, hw⟩ := List.mem_map.1 (hparams ▸ List.mem_map_of_mem hv)
  exact Param.accepts_of_toWord? hw.symm

/-- Integers hold nothing. -/
theorem Builtin.inert_of_words (hparams : params.map Value.toWord? = ws.reverse.map some) :
    params.filterMap Value.handle? = [] ∧ params.filterMap Value.string? = [] := by
  simp only [List.filterMap_eq_nil_iff, ← forall_and]
  intro v hv
  obtain ⟨w, -, hw⟩ := List.mem_map.1 (hparams ▸ List.mem_map_of_mem hv)
  exact ⟨Value.handle?_of_toWord? hw.symm, Value.string?_of_toWord? hw.symm⟩

/-- Quotient and remainder belong together. -/
theorem Builtin.result?_div_mod {x y q r : ℤ} (hq : Builtin.div.result? [x, y] = some q)
    (hr : Builtin.mod.result? [x, y] = some r) :
    x = q * y + r ∧ r.natAbs < y.natAbs ∧ (0 ≤ x → 0 ≤ r) ∧ (x ≤ 0 → r ≤ 0) := by
  simp only [result?, Option.ite_none_left_eq_some, Option.some.injEq] at hq hr
  obtain ⟨hy, rfl⟩ := hq
  obtain ⟨-, rfl⟩ := hr
  refine ⟨(Int.tdiv_mul_add_tmod x y).symm, ?_, Int.tmod_nonneg y, fun hx => ?_⟩
  · rw [Int.natAbs_tmod]
    exact Nat.mod_lt _ (Int.natAbs_pos.2 hy)
  · have opposite := Int.tmod_nonneg y (Int.neg_nonneg_of_nonpos hx)
    rw [Int.neg_tmod] at opposite
    exact Int.nonpos_of_neg_nonneg opposite

/-- **Arithmetic is exact or refused.** -/
theorem arithmetic_is_exact (hm₀ : m₀.Created options) (h : Served natives m₀ owned s)
    (hb : b.IsArithmetic) (d : s.Dispatches b rest)
    (hoperands : s.machine.operands.items = params ++ operands)
    (hparams : params.map Value.toWord? = ws.reverse.map some)
    (hlength : ws.length = b.signature.length) :
    (∀ r, b.result? (ws.map Word.toInt) = some r → Word.Fits r → ¬ b.Slips (ws.map Word.toInt) →
      ∃ w t, w.toInt = r ∧ Session.EndsIn natives owned rest
        { s.machine.scene with operands := .integer w :: operands, frames := rest } s t ∧
          s.machine.memory.SameHoldings t.machine.memory) ∧
    ((∀ r, b.result? (ws.map Word.toInt) = some r →
        ¬ Word.Fits r ∨ b.Slips (ws.map Word.toInt)) →
      ∃ (c : Cause) (t : Session χ), c.condition = .undefinedResult ∧
        Session.Declines natives owned rest c.exception s t) ∧
    ∀ x y q r, Builtin.div.result? [x, y] = some q → Builtin.mod.result? [x, y] = some r →
      x = q * y + r ∧ r.natAbs < y.natAbs ∧ (0 ≤ x → 0 ≤ r) ∧ (x ≤ 0 → r ≤ 0) := by
  have constant : b.constant? = none := by
    simp only [Builtin.IsArithmetic, List.mem_cons, List.not_mem_nil, or_false] at hb
    rcases hb with rfl | rfl | rfl | rfl | rfl | rfl | rfl <;> rfl
  have accepts := hb.accepts hparams hlength
  refine ⟨fun r hr fits slips => ?_, fun refused => ?_, fun x y q r => Builtin.result?_div_mod⟩
  · have answer : b.answer ws = .ok (.ofInt r) := by
      rw [Builtin.answer, hr]
      exact if_pos ⟨fits, slips⟩
    obtain ⟨handles, texts⟩ := Builtin.inert_of_words hparams
    have length : params.length = ws.length := by
      rw [← List.length_map (f := Value.toWord?), hparams, List.length_map, List.length_reverse]
    have taken : s.machine.operands.items.take ws.length = params := by
      rw [hoperands, ← length, List.take_left]
    have left : s.machine.operands.items.drop ws.length = operands := by
      rw [hoperands, ← length, List.drop_left]
    have enough : ws.length ≤ s.machine.operands.length := by
      rw [Sequence.length, hoperands, List.length_append, length]
      exact Nat.le_add_right ..
    have some : 1 ≤ ws.length := by
      cases ws with
      | nil => cases b <;> cases hr
      | cons => exact Nat.succ_pos _
    obtain ⟨t, ends, same⟩ := h.rearranges hm₀ d constant hoperands accepts ws.length
      [.integer (.ofInt r)] enough some (by rw [taken, handles]; exact .refl _)
      (by rw [taken, texts]; exact .refl _) fun own m _ => by
        rw [Builtin.operation_settles hb hparams hlength, answer]
        rfl
    rw [left] at ends
    exact ⟨.ofInt r, t, Word.toInt_ofInt_of_fits fits, ends, same⟩
  · obtain ⟨c, hc⟩ : ∃ c, b.answer ws = .error c := by
      rw [Builtin.answer]
      split
      · exact ⟨_, rfl⟩
      · rename_i r hr
        rw [if_neg fun ⟨fits, slips⟩ => (refused r hr).elim (· fits) slips]
        exact ⟨_, rfl⟩
    have undefined := Builtin.condition_of_answer hc
    obtain ⟨t, declines⟩ := h.declines_at_once (e := c.exception) hm₀ d constant hoperands accepts
      (by simp [Cause.exception, undefined]) fun own m _ => by
        rw [Builtin.operation_settles hb hparams hlength, hc]
        rfl
    exact ⟨c, t, undefined, declines⟩

end

/-- The quotient of `-7` by `2` is `-3`. -/
theorem div_truncates : ∃ (m₀ : Machine) (s t : Session Unit), m₀.Created {} ∧
    Served Natives.none m₀ [] s ∧ s.dispatching? = some .div ∧
      s.machine.operands.items.map Value.toWord? = [some (.ofInt 2), some (.ofInt (-7))] ∧
        Session.EndsIn Natives.none [] s.machine.calls.frames.tail { s.machine.scene with
          operands := [.integer (.ofInt (-3))], frames := s.machine.calls.frames.tail } s t := by
  have facts : (Session.trial {} "-7 2 div" 4).map (fun s =>
      (s.dispatching?, s.machine.operands.items.map Value.toWord?)) =
      some (some .div, [some (.ofInt 2), some (.ofInt (-7))]) := by decide +kernel
  obtain ⟨s, hs, facts⟩ := Option.map_eq_some_iff.1 facts
  obtain ⟨dispatching, words⟩ := Prod.mk.inj facts
  obtain ⟨m₀, created, reached⟩ := Reached.of_trial (by rintro t ⟨⟩) hs
  obtain ⟨exact, -, -⟩ := arithmetic_is_exact created reached.served
    (by simp [Builtin.IsArithmetic]) (Session.dispatches_of_dispatching? dispatching)
    (List.append_nil _).symm
    (show _ = List.map some (List.reverse [.ofInt (-7), .ofInt 2]) from words) rfl
  obtain ⟨w, t, hw, ends, -⟩ := exact (-3) (by decide) (by decide) (by decide)
  obtain rfl : w = .ofInt (-3) := Word.ext_toInt (hw.trans (by decide))
  exact ⟨m₀, s, t, created, reached.served, dispatching, words, ends⟩

/-- The remainder of the least integer by `-1` is zero, which is a word, and it is refused. -/
theorem mod_refuses_zero : ∃ (m₀ : Machine) (s t : Session Unit), m₀.Created {} ∧ Reached m₀ [] s ∧
    s.dispatching? = some .mod ∧
      s.machine.operands.items.map Value.toWord? = [some (.ofInt (-1)), some (.ofInt (-2 ^ 63))] ∧
        Builtin.mod.result? [-2 ^ 63, -1] = some 0 ∧ Word.Fits 0 ∧
          (Session.cycle Natives.none s).state? = some t ∧
            t.machine.condition = some .undefinedResult ∧
              t.machine.operands = s.machine.operands := by
  have facts : (Session.trial {} "-9223372036854775808 -1 mod" 4).bind (fun s =>
      (Session.cycle Natives.none s).state?.map fun t =>
        (s.dispatching?, s.machine.operands.items.map Value.toWord?, t.machine.condition,
          decide (t.machine.operands = s.machine.operands))) =
      some (some .mod, [some (.ofInt (-1)), some (.ofInt (-2 ^ 63))], some .undefinedResult, true) := by
    decide +kernel
  obtain ⟨s, hs, facts⟩ := Option.bind_eq_some_iff.1 facts
  obtain ⟨t, ht, facts⟩ := Option.map_eq_some_iff.1 facts
  simp only [Prod.mk.injEq, decide_eq_true_eq] at facts
  obtain ⟨dispatching, words, condition, same⟩ := facts
  obtain ⟨m₀, created, reached⟩ := Reached.of_trial (by rintro t ⟨⟩) hs
  exact ⟨m₀, s, t, created, reached, dispatching, words, by decide, by decide, ht, condition, same⟩

end StackScript
