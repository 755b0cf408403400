import StackScript.Operator.Registry
import StackScript.Proofs.Comparison.Machine

/-!
# Comparing operators

Two operations are *alike* if from machines that are alike they end alike, each for an operator in a
frame of its own at the same place, or are lost (`Setting.Alike`).  Every request is, and so is every
builtin with operands that are alike (`Builtin.operation_alike`).
-/

namespace StackScript

open Likeness

/-- Two operations that are parallel, each in its own frame. -/
def Setting.Alike {α β : Type} (S : Setting) (A : α → β → Prop) (p : Operation α)
    (q : Operation β) : Prop :=
  ∀ own own', Option.Rel S.Places own own' → S.Beside A (p.runOn own) (q.runOn own')

variable {S : Setting} {α β γ δ : Type} {A : α → β → Prop} {B : γ → δ → Prop} {p : Operation α}
  {q : Operation β} {f : α → Operation γ} {g : β → Operation δ}

/-! ### Putting operations together -/

theorem Setting.Alike.bind (hp : S.Alike A p q) (hf : ∀ a b, A a b → S.Alike B (f a) (g b)) :
    S.Alike B (p >>= f) (q >>= g) := by
  intro own own' hown
  unfold Operation.runOn
  rw [Program.run_bind, Program.run_bind]
  exact Parallel.bind (f := fun a => (f a).runOn own) (g := fun b => (g b).runOn own')
    (hp own own' hown) fun a b hab => hf a b hab own own' hown

namespace Operation

open Setting

theorem alike_pure {a : α} {b : β} (h : A a b) : S.Alike A (pure a) (pure b) :=
  fun _ _ _ => parallel_pure h

theorem alike_raise {e e' : Exception} (h : S.Exceptions e e') :
    S.Alike A (Program.raise e) (Program.raise e') := fun _ _ _ => parallel_raise h

theorem alike_fail (c : Cause) : S.Alike A (Program.fail c) (Program.fail c) :=
  alike_raise (.refl _ _)

/-- After a failure nothing is left to compare. -/
theorem alike_fail_bind (c : Cause) (f : α → Operation γ) (g : β → Operation δ) :
    S.Alike B (Program.fail c >>= f) (Program.fail c >>= g) :=
  (alike_fail (A := fun _ _ => False) c).bind nofun

theorem alike_ofExcept {r : Except Cause α} {r' : Except Cause β} (h : Results Eq A r r') :
    S.Alike A (Program.ofExcept r) (Program.ofExcept r') := by
  cases h with
  | ok h => exact alike_pure h
  | error h => exact h ▸ alike_fail _

theorem alike_ofOption (c : Cause) {o : Option α} {o' : Option β} (h : Option.Rel A o o') :
    S.Alike A (Program.ofOption c o) (Program.ofOption c o') := by
  cases h with
  | some h => exact alike_pure h
  | none => exact alike_fail c

/-- The same option. -/
theorem alike_ofOption_eq (c : Cause) {o o' : Option α} (h : o = o') :
    S.Alike Eq (Program.ofOption c o) (Program.ofOption c o') := by
  cases h
  cases o with
  | some a => exact alike_pure rfl
  | none => exact alike_fail c

theorem alike_ofSound {r : Except Breach α} {r' : Except Breach β}
    (h : Results (fun _ _ => True) A r r') :
    S.Alike A (Program.ofSound r) (Program.ofSound r') := by
  cases h with
  | ok h => exact alike_pure h
  | error h => exact fun _ _ _ => parallel_breach _ _

/-- A choice made alike. -/
theorem alike_ite {b b' : Prop} [Decidable b] [Decidable b'] (h : b ↔ b') {p' : Operation α}
    {q' : Operation β} (hp : S.Alike A p q) (hp' : S.Alike A p' q') :
    S.Alike A (if b then p else p') (if b' then q else q') := by
  by_cases hb : b
  · rw [if_pos hb, if_pos (h.1 hb)]
    exact hp
  · rw [if_neg hb, if_neg fun hb' => hb (h.2 hb')]
    exact hp'

theorem runOn_release_bind (own : Option ℕ) (v : Value) (p : Operation α) :
    runOn own (release v >>= fun _ => p) = Machine.release v >>= fun _ => runOn own p := by
  unfold runOn
  rw [Program.run_bind]
  exact congrArg (· >>= fun _ => Program.run (Request.perform own) p) (Program.run_request _ _)

/-- Cleaning up after a failure. -/
theorem alike_rescue_release {v w : Value} (hp : S.Alike A p q) (hv : S.Values v w) :
    S.Alike A (p.rescue fun e => release v >>= fun _ => Program.raise e)
      (q.rescue fun e => release w >>= fun _ => Program.raise e) := by
  have unfolded {α : Type} (p : Operation α) (v : Value) (own : Option ℕ) :
      runOn own (p.rescue fun e => release v >>= fun _ => Program.raise e) =
        (runOn own p).onRaise (Machine.release v) := by
    funext m
    unfold runOn Action.onRaise
    induction p generalizing m with
    | done a => rfl
    | broken b => rfl
    | raise e => exact congrFun (runOn_release_bind own v (.raise e)) m
    | ask r next failed ihn ihf =>
      simp only [Program.rescue, Program.run]
      cases r.perform own m with
      | done a t => exact ihn a t
      | raised e t => exact ihf e t
      | broken b => rfl
  intro own own' hown
  rw [unfolded, unfolded]
  exact (hp own own' hown).onRaise (releaseValue hv) (Machine.raises_release _)
    (Machine.raises_release _)

/-- Cleaning up in any case. -/
theorem alike_attempt_release {v w : Value} (hp : S.Alike A p q) (hv : S.Values v w) :
    S.Alike A (p.attempt >>= fun r => release v >>= fun _ => Program.ofResult r)
      (q.attempt >>= fun r => release w >>= fun _ => Program.ofResult r) := by
  have unfolded {α : Type} (p : Operation α) (v : Value) (own : Option ℕ) :
      runOn own (p.attempt >>= fun r => release v >>= fun _ => Program.ofResult r) =
        (runOn own p).ensuring (Machine.release v) := by
    funext m
    unfold runOn Action.ensuring
    rw [Program.run_bind, Action.bind_apply]
    induction p generalizing m with
    | done a => exact congrFun (runOn_release_bind own v (.done a)) m
    | broken b => rfl
    | raise e => exact congrFun (runOn_release_bind own v (.raise e)) m
    | ask r next failed ihn ihf =>
      simp only [Program.attempt, Program.run]
      cases r.perform own m with
      | done a t => exact ihn a t
      | raised e t => exact ihf e t
      | broken b => rfl
  intro own own' hown
  rw [unfolded, unfolded]
  exact (hp own own' hown).ensuring (releaseValue hv) (Machine.raises_release _)
    (Machine.raises_release _)

/-! ### Requests -/

section requests

variable {v w a b : Value} {vs ws : List Value}

theorem alike_ask (r r' : Request) {A : r.Answer → r'.Answer → Prop}
    (h : ∀ own own', Option.Rel S.Places own own' → S.Beside A (r.perform own) (r'.perform own')) :
    S.Alike A (ask r) (ask r') := by
  intro own own' hown
  unfold runOn ask
  rw [Program.run_request, Program.run_request]
  exact h own own' hown

/-- Something done to the operator's frame. -/
theorem parallel_onOwn {own own' : Option ℕ} (hown : Option.Rel S.Places own own')
    {f g : ℕ → Action Machine Unit}
    (h : ∀ i j, S.Places i j → S.Beside (fun _ _ => True) (f i) (g j)) :
    S.Beside (fun _ _ => True) (Request.onOwn own f) (Request.onOwn own' g) := by
  cases hown with
  | none => exact parallel_fail _
  | some hij => exact h _ _ hij

theorem alike_exchange (drop : ℕ) (h : List.Forall₂ S.Values vs ws) :
    S.Alike (fun _ _ => True) (exchange drop vs) (exchange drop ws) :=
  alike_ask (.exchange drop vs) (.exchange drop ws) fun _ _ _ => exchangeOperands drop h

theorem alike_push (h : S.Values v w) : S.Alike (fun _ _ => True) (push v) (push w) :=
  alike_exchange 0 (.cons h .nil)

theorem alike_pop (count : ℕ) : S.Alike (fun _ _ => True) (pop count) (pop count) :=
  alike_exchange count .nil

theorem alike_adopt (drop : ℕ) (h : S.Values v w) :
    S.Alike (fun _ _ => True) (adopt drop v) (adopt drop w) :=
  alike_ask (.adopt drop v) (.adopt drop w) fun _ _ _ => Setting.adopt drop h

theorem alike_clearOperands :
    S.Alike (fun _ _ => True) Operation.clearOperands Operation.clearOperands :=
  alike_ask .clearOperands .clearOperands fun _ _ _ => Setting.clearOperands

theorem alike_createArray (access : Access) (h : List.Forall₂ S.Values vs ws) :
    S.Alike S.Values (createArray access vs) (createArray access ws) :=
  alike_ask (.createArray access vs) (.createArray access ws) fun _ _ _ => Setting.createArray access h

theorem alike_createFilledArray (access : Access) (length : ℕ) (h : S.Values v w) :
    S.Alike S.Values (createFilledArray access length v) (createFilledArray access length w) :=
  alike_ask (.createFilledArray access length v) (.createFilledArray access length w) fun _ _ _ => Setting.createFilledArray access length h

theorem alike_createDictionary :
    S.Alike S.Values Operation.createDictionary Operation.createDictionary :=
  alike_ask .createDictionary .createDictionary fun _ _ _ => Setting.createDictionary

theorem alike_setItem (h : S.Values a b) (index : ℕ) (hv : S.Values v w) :
    S.Alike (fun _ _ => True) (setItem a index v) (setItem b index w) :=
  alike_ask (.setItem a index v) (.setItem b index w) fun _ _ _ => Setting.setItem h index hv

theorem alike_define (h : S.Values a b) (name : String) (hv : S.Values v w) :
    S.Alike (fun _ _ => True) (define a name v) (define b name w) :=
  alike_ask (.define a name v) (.define b name w) fun _ _ _ => Setting.define h name hv

theorem alike_openScope (h : S.Values v w) :
    S.Alike (fun _ _ => True) (openScope v) (openScope w) :=
  alike_ask (.openScope v) (.openScope w) fun _ _ _ => Setting.openScope h

theorem alike_closeScope : S.Alike (fun _ _ => True) Operation.closeScope Operation.closeScope :=
  alike_ask .closeScope .closeScope fun _ _ _ => Setting.closeScope

theorem alike_call (h : S.Values v w) : S.Alike (fun _ _ => True) (call v) (call w) :=
  alike_ask (.call v) (.call w) fun _ _ _ => Setting.call h

theorem alike_setState (next : Continuation) :
    S.Alike (fun _ _ => True) (setState next) (setState next) :=
  alike_ask (.setState next) (.setState next) fun _ _ hown => parallel_onOwn hown fun _ _ hij => Setting.setState hij next

theorem alike_setLocal (name : String) (h : S.Values v w) :
    S.Alike (fun _ _ => True) (setLocal name v) (setLocal name w) :=
  alike_ask (.setLocal name v) (.setLocal name w) fun _ _ hown => parallel_onOwn hown fun _ _ hij => Setting.setLocal hij name h

theorem alike_openBlock : S.Alike (fun _ _ => True) Operation.openBlock Operation.openBlock :=
  alike_ask .openBlock .openBlock fun _ _ _ => Setting.openBlock

theorem alike_closeBlock : S.Alike (fun _ _ => True) Operation.closeBlock Operation.closeBlock :=
  alike_ask .closeBlock .closeBlock fun _ _ _ => Setting.closeBlock

theorem alike_intercept : S.Alike (fun _ _ => True) Operation.intercept Operation.intercept :=
  alike_ask .intercept .intercept fun _ _ _ => Setting.intercept.mono fun _ _ _ => trivial

theorem alike_stash : S.Alike (fun _ _ => True) Operation.stash Operation.stash :=
  alike_ask .stash .stash fun _ _ hown => parallel_onOwn hown fun _ _ hij => Setting.stash hij

theorem alike_restore : S.Alike (fun _ _ => True) Operation.restore Operation.restore :=
  alike_ask .restore .restore fun _ _ hown => parallel_onOwn hown fun _ _ hij => Setting.restore hij

end requests

/-! ### Looking at the machine -/

section reading

variable {v w : Value} {m n : Machine}

theorem alike_site :
    S.Alike (fun s t : Site => S.Machines s.machine t.machine ∧ Option.Rel S.Places s.own t.own)
      site site :=
  alike_ask .observe .observe fun _ _ hown _ _ hmn => .done ⟨hmn, hown⟩ hmn

theorem alike_machine : S.Alike S.Machines machine machine :=
  alike_site.bind fun _ _ h => alike_pure h.1

theorem alike_read {f g : Machine → Reading α} {A : α → α → Prop}
    (h : ∀ m n, S.Machines m n → Results (fun _ _ => True) (Results Eq A) (f m).run (g n).run) :
    S.Alike A (read f) (read g) :=
  alike_machine.bind fun _ _ hmn => (alike_ofSound (h _ _ hmn)).bind fun _ _ h => alike_ofExcept h

theorem alike_ownIndex : S.Alike S.Places ownIndex ownIndex :=
  alike_site.bind fun _ _ h => alike_ofOption _ h.2

theorem alike_ownFrame : S.Alike S.Frames ownFrame ownFrame :=
  alike_ownIndex.bind fun _ _ hij => alike_machine.bind fun _ _ hmn =>
    alike_ofSound (Setting.frame hmn hij)

theorem alike_currentOperator : S.Alike S.Values currentOperator currentOperator := by
  refine alike_ownIndex.bind fun i j hij => alike_machine.bind fun m n hmn => ?_
  have found := hmn.calls.frame? hij
  generalize m.calls.frame? i = o at found
  generalize n.calls.frame? j = o' at found
  cases found with
  | some h => exact alike_pure h.value
  | none => exact alike_fail _

theorem alike_state : S.Alike Eq state state :=
  alike_ownFrame.bind fun _ _ h => alike_pure h.state

theorem alike_condition : S.Alike Eq condition condition :=
  alike_machine.bind fun _ _ h => alike_pure h.condition

theorem alike_operandCount : S.Alike Eq operandCount operandCount :=
  alike_machine.bind fun _ _ h => alike_pure h.operands.items.length_eq

/-- The mark found is the same. -/
theorem markDepth_eq (h : S.Machines m n) : m.markDepth = n.markDepth := by
  unfold Machine.markDepth
  rw [rel_findIdx? h.operands.items fun _ _ h => h.isMark]

theorem alike_markDepth : S.Alike Eq markDepth markDepth :=
  alike_machine.bind fun m n h => alike_ofExcept <| by
    rw [markDepth_eq h]
    cases n.markDepth <;> constructor <;> rfl

theorem alike_aboveMark : S.Alike (List.Forall₂ S.Values) aboveMark aboveMark :=
  alike_markDepth.bind fun _ _ hd => alike_machine.bind fun _ _ h =>
    alike_pure (hd ▸ List.rel_reverse (List.forall₂_take _ h.operands.items))

theorem alike_currentScope : S.Alike S.Values currentScope currentScope := by
  refine alike_machine.bind fun m n h => alike_ofExcept ?_
  have hscope := rel_head? h.scopes.items
  unfold Machine.currentScope
  generalize m.scopes.items.head? = o at hscope
  generalize n.scopes.items.head? = o' at hscope
  cases hscope with
  | some h => exact .ok h
  | none => exact .error rfl

theorem alike_operand (c : Cause) (depth : ℕ) (h : S.Machines m n) :
    S.Alike S.Values (Program.ofOption c (m.operand? depth)) (Program.ofOption c (n.operand? depth)) :=
  alike_ofOption c (rel_getElem? h.operands.items depth)

/-- Items that are read. -/
theorem results_items (hv : S.Values v w) (h : S.Machines m n) :
    Results (fun _ _ => True) (Results Eq (List.Forall₂ S.Values)) (m.items v).run (n.items w).run := by
  have hd := hv.datum
  unfold Machine.items
  rw [hv.kind]
  generalize v.datum = d at hd
  generalize w.datum = e at hd
  cases hd with
  | @array i j hij access =>
    have read := Comparison.array hij h.memory
    dsimp only
    generalize m.memory.array i = r at read
    generalize n.memory.array j = r' at read
    cases read with
    | ok h => exact .ok (.ok (List.rel_reverse h.items))
    | error h => exact .error trivial
  | _ => exact .ok (.error rfl)

theorem alike_items (hv : S.Values v w) :
    S.Alike (List.Forall₂ S.Values) (items v) (items w) := alike_read fun _ _ h => results_items hv h

theorem alike_entry (hv : S.Values v w) (name : String) :
    S.Alike (Option.Rel S.Values) ( entry? v name) ( entry? w name) := by
  refine alike_read fun m n h => ?_
  have hd := hv.datum
  unfold Machine.entry?
  rw [hv.kind]
  generalize v.datum = d at hd
  generalize w.datum = e at hd
  cases hd with
  | @dictionary i j hij writable =>
    have read := Comparison.dictionary hij h.memory
    dsimp only
    generalize m.memory.dictionary i = r at read
    generalize n.memory.dictionary j = r' at read
    cases read with
    | ok h => exact .ok (.ok (Comparison.lookUp h name))
    | error h => exact .error trivial
  | _ => exact .ok (.error rfl)

theorem alike_names (hv : S.Values v w) : S.Alike Eq (names v) (names w) := by
  refine alike_read fun m n h => ?_
  have hd := hv.datum
  unfold Machine.names
  rw [hv.kind]
  generalize v.datum = d at hd
  generalize w.datum = e at hd
  cases hd with
  | @dictionary i j hij writable =>
    have read := Comparison.dictionary hij h.memory
    dsimp only
    generalize m.memory.dictionary i = r at read
    generalize n.memory.dictionary j = r' at read
    cases read with
    | ok h => exact .ok (.ok (Comparison.names h))
    | error h => exact .error trivial
  | _ => exact .ok (.error rfl)

/-- Scopes and values found. -/
abbrev Found (S : Setting) : Option (Value × Value) → Option (Value × Value) → Prop :=
  Option.Rel fun a b => S.Values a.1 b.1 ∧ S.Values a.2 b.2

theorem results_locateIn (h : S.Machines m n) (name : String) {vs ws : List Value}
    (hs : List.Forall₂ S.Values vs ws) :
    Results (fun _ _ => True) (Found S) (m.locateIn name vs) (n.locateIn name ws) := by
  induction hs with
  | nil => exact .ok .none
  | @cons v w vs ws hv _ ih =>
    have hhandle := hv.handle?
    unfold Machine.locateIn
    generalize v.handle? = o at hhandle
    generalize w.handle? = o' at hhandle
    cases hhandle with
    | none => exact ih
    | @some i j hij =>
      have read := Comparison.dictionary hij h.memory
      dsimp only
      generalize m.memory.dictionary i = r at read
      generalize n.memory.dictionary j = r' at read
      cases read with
      | error h => exact .error trivial
      | @ok d e hde =>
        have bound := Comparison.lookUp hde name
        dsimp only [bind, Except.bind]
        generalize d.get? name = o at bound
        generalize e.get? name = o' at bound
        cases bound with
        | some h => exact .ok (.some ⟨hv, h⟩)
        | none => exact ih

theorem results_locate (h : S.Machines m n) (name : String) :
    Results (fun _ _ => True) (Found S) (m.locate name) (n.locate name) :=
  results_locateIn h name h.scopes.items

theorem alike_locate (name : String) : S.Alike (Found S) (locate name) (locate name) :=
  alike_machine.bind fun _ _ h => alike_ofSound (results_locate h name)

theorem results_lookup (h : S.Machines m n) (name : String) :
    Results (fun _ _ => True) (Results Eq S.Values) (m.lookup name).run (n.lookup name).run := by
  have found := results_locate h name
  unfold Machine.lookup
  generalize m.locate name = r at found
  generalize n.locate name = r' at found
  cases found with
  | error h => exact .error trivial
  | ok h =>
    cases h with
    | none => exact .ok (.error rfl)
    | some h => exact .ok (.ok h.2)

theorem alike_lookup (name : String) : S.Alike S.Values (lookup name) (lookup name) :=
  alike_read fun _ _ h => results_lookup h name

theorem alike_local (name : String) :
    S.Alike (Option.Rel S.Values) (local? name) (local? name) := by
  refine alike_ownFrame.bind fun f g hfg => alike_machine.bind fun m n hmn => alike_ofSound ?_
  have hlocals := hfg.locals
  unfold Machine.localOf
  generalize f.locals = o at hlocals
  generalize g.locals = o' at hlocals
  cases hlocals with
  | none => exact .ok .none
  | @some i j hij =>
    have read := Comparison.dictionary hij hmn.memory
    dsimp only
    generalize m.memory.dictionary i = r at read
    generalize n.memory.dictionary j = r' at read
    cases read with
    | ok h => exact .ok (Comparison.lookUp h name)
    | error h => exact .error trivial

theorem alike_expectLocal (name : String) : S.Alike S.Values (expectLocal name) (expectLocal name) :=
  (alike_local name).bind fun _ _ h => alike_ofOption _ h

/-- The frames at the bottom are not at work in a loop. -/
theorem hasLoop_eq (h : S.Machines m n) {own own' : Option ℕ} (hown : Option.Rel S.Places own own') :
    m.hasLoop (own.getD m.calls.length) = n.hasLoop (own'.getD n.calls.length) := by
  obtain ⟨l, k, hl, hk, hlk⟩ := h.calls.frames
  have counted {m : Machine} {l b : List Frame} (hm : m.calls.frames = l ++ b)
      (hb : ∀ f ∈ b, f.value.toOperator? = none) (p : ℕ) : m.hasLoop (p + b.length) =
        (l.drop (l.length - p)).any fun f =>
          f.state != .pop && f.value.toOperator?.any Operator.isLoop := by
    have idle : (b.any fun f => f.state != .pop && f.value.toOperator?.any Operator.isLoop) = false :=
      List.any_eq_false.2 fun f hf => by rw [hb f hf]; simp
    unfold Machine.hasLoop CallStack.length
    rw [hm, List.length_append, show l.length + b.length - (p + b.length) = l.length - p by omega,
      List.drop_append_of_le_length (Nat.sub_le _ _), List.any_append, idle, Bool.or_false]
  have any_eq (p : ℕ) : m.hasLoop (p + S.below.length) = n.hasLoop (p + S.below'.length) := by
    rw [counted hl S.idle, counted hk S.idle', hlk.length_eq]
    have hrest := List.forall₂_drop (k.length - p) hlk
    generalize l.drop (k.length - p) = l at hrest
    generalize k.drop (k.length - p) = k at hrest
    induction hrest with
    | nil => rfl
    | cons h _ ih => rw [List.any_cons, List.any_cons, ih, h.state, h.value.toOperator?]
  cases hown with
  | none =>
    rw [Option.getD_none, Option.getD_none, CallStack.length, CallStack.length, hl, hk,
      List.length_append, List.length_append, hlk.length_eq]
    exact any_eq _
  | some hij =>
    obtain ⟨p, rfl, rfl⟩ := hij.place
    exact any_eq p

theorem alike_inLoop : S.Alike Eq inLoop inLoop :=
  alike_site.bind fun _ _ h => alike_pure (hasLoop_eq h.1 h.2)

end reading

end Operation

end StackScript
