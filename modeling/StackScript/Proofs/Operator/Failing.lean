import StackScript.Proofs.Machine.Withdrawal
import StackScript.Proofs.Operator.Looking
import StackScript.Proofs.Operator.Resume

/-!
# What a failing operator leaves

Most operators look at the machine and then make a single request that may be refused, so they leave
nothing behind when they fail (`Operation.Withdraws`).  Others make a request that cannot be refused
any more, mostly to remove their operands, once another one has been granted.

Two kinds of operators have done something by the time they fail.  Those that create a container
dispose of it.  Those that keep a value among the locals of their frame leave the locals there.
-/

namespace StackScript

open Machine (Unscathed Lodged)
open Cells

namespace Operation

variable {α β : Type} {own : Option ℕ} {m : Machine} {σ : Cells} {p : Operation α}
  {f : α → Operation β} {F : Machine → Prop}

/-- If the operation fails, what it leaves is in `F`. -/
abbrev Fails (own : Option ℕ) (m : Machine) (p : Operation α) (F : Machine → Prop) : Prop :=
  (p.runOn own m).Meets True (fun _ _ => True) F

/-- If the operation fails, nothing has happened. -/
class Withdraws (p : Operation α) : Prop where
  withdraws : ∀ (own : Option ℕ) (σ : Cells) (m : Machine), σ.Counted → m.memory.Has σ →
    p.Fails own m (m.Unscathed σ)

theorem fails_of_withdraws [Withdraws p] (hσ : σ.Counted) (h : m.memory.Has σ) :
    p.Fails own m (m.Unscathed σ) := Withdraws.withdraws own σ m hσ h

/-- Looking at the machine before. -/
theorem fails_bind [Looks p] (h : F m) (hf : ∀ a, (f a).Fails own m F) :
    (p >>= f).Fails own m F := by
  refine meets_bind (M := fun _ m' => m' = m) (Looks.runOn.mono (fun _ _ => id) ?_) ?_
  · rintro _ rfl
    exact h
  · rintro a _ rfl
    exact hf a

instance (priority := low) [Looks p] : Withdraws p where
  withdraws own σ m _ h := by
    refine Looks.runOn.mono (fun _ _ _ => trivial) ?_
    rintro _ rfl
    exact Machine.unscathed_self h

instance [Looks p] [∀ a, Withdraws (f a)] : Withdraws (p >>= f) where
  withdraws _ _ _ hσ h := fails_bind (Machine.unscathed_self h) fun _ => fails_of_withdraws hσ h

instance {c : Prop} [Decidable c] {q : Operation α} [Withdraws p] [Withdraws q] :
    Withdraws (if c then p else q) := by
  split <;> infer_instance

/-! ### Single requests -/

theorem withdraws_ask {r : Request} (hr : r.Single) : Withdraws (ask r) :=
  ⟨fun own _ _ hσ h => meets_ask (r.perform_refused own hσ h hr)⟩

instance (drop : ℕ) (values : List Value) : Withdraws (exchange drop values) :=
  withdraws_ask trivial

instance (v : Value) : Withdraws (push v) := inferInstanceAs (Withdraws (exchange 0 [v]))

instance (count : ℕ) : Withdraws (pop count) := inferInstanceAs (Withdraws (exchange count []))

instance : Withdraws clearOperands := withdraws_ask trivial

instance (access : Access) (items : List Value) : Withdraws (createArray access items) :=
  withdraws_ask trivial

instance (access : Access) (length : ℕ) (v : Value) :
    Withdraws (createFilledArray access length v) := withdraws_ask trivial

instance : Withdraws createDictionary := withdraws_ask trivial

instance (container : Value) (index : ℕ) (v : Value) : Withdraws (setItem container index v) :=
  withdraws_ask trivial

instance (container : Value) (name : String) (v : Value) : Withdraws (define container name v) :=
  withdraws_ask trivial

instance (v : Value) : Withdraws (openScope v) := withdraws_ask trivial

instance : Withdraws closeScope := withdraws_ask trivial

instance (v : Value) : Withdraws (call v) := withdraws_ask trivial

instance (container key v : Value) : Withdraws (storeAt container key v) := by
  unfold storeAt
  cases container.datum <;> infer_instance

/-! ### One request and nothing else -/

instance (params : List Value) : Withdraws (dropTop params) := by unfold dropTop; infer_instance

instance (params : List Value) : Withdraws (duplicateTop params) := by
  unfold duplicateTop
  infer_instance

instance (params : List Value) : Withdraws (exchangeTop params) := by
  unfold exchangeTop
  infer_instance

instance (params : List Value) : Withdraws (pushCount params) := by
  unfold pushCount
  infer_instance

instance (params : List Value) : Withdraws (copyOperand params) := by
  unfold copyOperand
  infer_instance

instance (params : List Value) : Withdraws (rollOperands params) := by
  unfold rollOperands
  infer_instance

instance (params : List Value) : Withdraws (clearToMark params) := by
  unfold clearToMark
  infer_instance

instance (params : List Value) : Withdraws (countToMark params) := by
  unfold countToMark
  infer_instance

instance (name : String) (g : Word → Word → Option Word) (params : List Value) :
    Withdraws (combine name g params) := by
  unfold combine
  infer_instance

instance (name : String) (g : Word → Word → Option Word) (params : List Value) :
    Withdraws (divide name g params) := by
  unfold divide
  infer_instance

instance (name : String) (g : Word → Option Word) (params : List Value) :
    Withdraws (transform name g params) := by
  unfold transform
  infer_instance

instance (expected : Bool) (params : List Value) : Withdraws (compareEqual expected params) := by
  unfold compareEqual
  infer_instance

instance (related : Word → Word → Bool) (params : List Value) :
    Withdraws (compareWords related params) := by
  unfold compareWords
  infer_instance

instance (booleans : Bool → Bool → Bool) (words : Word → Word → Word) (params : List Value) :
    Withdraws (combineLogic booleans words params) := by
  have combined (left right : Value) : Withdraws (match left.datum, right.datum with
      | .boolean a, .boolean b => exchange 2 [.boolean (booleans a b)]
      | .integer a, .integer b => exchange 2 [.integer (words a b)]
      | _, _ => Program.fail (.logicKinds left.kind right.kind)) := by
    split <;> infer_instance
  unfold combineLogic
  infer_instance

instance (params : List Value) : Withdraws (negateLogic params) := by
  have negated (v : Value) : Withdraws (match v.datum with
      | .boolean b => exchange 1 [.boolean (!b)]
      | .integer n => exchange 1 [.integer n.complement]
      | _ => Program.fail (.negationKind v.kind)) := by
    cases v.datum <;> infer_instance
  unfold negateLogic
  infer_instance

instance (params : List Value) : Withdraws (unpackArray params) := by
  unfold unpackArray
  infer_instance

instance (params : List Value) : Withdraws (replaceByLength params) := by
  unfold replaceByLength
  infer_instance

instance (params : List Value) : Withdraws (getItem params) := by unfold getItem; infer_instance

instance (params : List Value) : Withdraws (endScope params) := by unfold endScope; infer_instance

instance (params : List Value) : Withdraws (loadName params) := by unfold loadName; infer_instance

instance (params : List Value) : Withdraws (locateName params) := by
  have located (r : Option (Value × Value)) : Withdraws (match r with
      | some (scope, _) => exchange 1 [scope, .boolean true]
      | none => exchange 1 [.boolean false]) := by
    cases r <;> infer_instance
  unfold locateName
  infer_instance

instance (params : List Value) : Withdraws (isKnown params) := by unfold isKnown; infer_instance

instance (params : List Value) : Withdraws (pushScope params) := by unfold pushScope; infer_instance

instance (params : List Value) : Withdraws (leaveLoop params) := by unfold leaveLoop; infer_instance

instance (params : List Value) : Withdraws (stop params) := by unfold stop; infer_instance

end Operation

/-! ### Removing the operands last -/

/-- The request leaves the operands alone, and the state of the operator. -/
def Request.Aside : Request → Prop
  | .exchange .. | .adopt .. | .clearOperands | .setState _ => False
  | _ => True

namespace Machine

variable {m m' : Machine} {i k : ℕ}

/-- An operator at its first invocation has `k` operands to remove. -/
structure Ready (i k : ℕ) (m : Machine) : Prop where
  sized : m.operands.Sized
  enough : k ≤ m.operands.length
  state : m.StateIs i .firstCall

theorem spares_operands {r : Request} (hr : r.Aside) (own : Option ℕ) :
    Spares Machine.operands (r.perform own) := by
  cases r with
  | exchange | adopt | clearOperands | setState => exact hr.elim
  | observe | openBlock | closeBlock => exact fun _ => rfl
  | release v => exact spares_onMemory (fun _ _ => rfl) _
  | createArray access items => exact spares_createArray (fun _ _ => rfl) access items
  | createFilledArray access length v =>
    exact spares_createFilledArray (fun _ _ => rfl) access length v
  | createDictionary => exact spares_createDictionary fun _ _ => rfl
  | setItem container index v => exact spares_setItem (fun _ _ => rfl) container index v
  | define container name v => exact spares_define (fun _ _ => rfl) container name v
  | openScope v => exact spares_openScope (fun _ _ _ => rfl) v
  | closeScope => exact spares_closeScope fun _ _ _ => rfl
  | call v => exact spares_onCalls (fun _ _ _ => rfl) fun c => c.push { value := v }
  | setLocal name v =>
    exact spares_onOwn fun _ => spares_setLocal (fun _ _ => rfl) (fun _ _ => rfl) name v
  | intercept => exact spares_intercept fun _ _ _ => rfl
  | stash => exact spares_onOwn fun _ => spares_stash (fun _ _ _ => rfl) fun _ _ => rfl
  | restore => exact spares_onOwn fun _ => spares_restore (fun _ _ _ => rfl) fun _ _ => rfl

/-- A request that leaves the operands alone leaves an operator ready. -/
theorem Ready.perform (h : m.Ready i k) {r : Request} (hr : r.Aside) (own : Option ℕ) :
    (r.perform own m).Meets True (fun _ m' => m'.Ready i k) fun m' => m'.Ready i k := by
  have moved : ∀ next, r ≠ .setState next := by rintro next rfl; exact hr
  have ready (m' : Machine) (h' : m'.operands = m.operands ∧ m'.StateIs i .firstCall) :
      m'.Ready i k := ⟨h'.1 ▸ h.sized, h'.1 ▸ h.enough, h'.2⟩
  exact ((spares_operands hr own m).and (r.perform_stateIs moved own h.state)).mono
    (fun _ m' => ready m') fun m' => ready m'

end Machine

namespace Operation

variable {α β : Type} {m : Machine} {σ : Cells} {p : Operation α} {f : α → Operation β}
  {F : Machine → Prop} {i k : ℕ} {v : Value} {params : List Value}

theorem runOn_ready (hp : p.Asks Request.Aside) (own : Option ℕ) (h : m.Ready i k) :
    (p.runOn own m).Meets True (fun _ m' => m'.Ready i k) fun m' => m'.Ready i k := by
  induction p generalizing m with
  | done a => exact h
  | raise e => exact h
  | broken b => trivial
  | ask r next failed ihn ihf =>
    exact Program.meets_ask (h.perform hp.1 own) (fun a m' => ihn a (hp.2.1 a))
      fun e m' => ihf e (hp.2.2 e)

theorem Looks.aside [hp : Looks p] : p.Asks Request.Aside :=
  hp.looks.mono fun r hr => by subst hr; trivial

/-- Nothing fails after the first step. -/
theorem fails_bind_sure (hp : p.Fails (some i) m F) (aside : p.Asks Request.Aside)
    (h : m.Ready i k) (hf : ∀ a m', m'.Ready i k → (f a).Fails (some i) m' fun _ => False) :
    (p >>= f).Fails (some i) m F := by
  refine meets_bind (M := fun a m' => m'.Ready i k) ((hp.and (runOn_ready aside _ h)).mono
    (fun _ _ h => h.2) fun _ h => h.1) fun a m' h => ?_
  exact (hf a m' h).mono (fun _ _ => id) fun _ h => h.elim

/-- **Operands that are there** can be removed. -/
theorem pop_sure (h : m.Ready i k) (own : Option ℕ) :
    ((pop k).runOn own m).Meets True (fun _ m' => m'.StateIs i .firstCall) fun _ => False := by
  have sure : (Machine.exchangeOperands k [] m).Meets True (fun _ _ => True) fun _ => False :=
    Machine.exchangeOperands_sure h.sized h.enough (Nat.zero_le k) nofun
  have same : Machine.Spares Machine.states (Machine.exchangeOperands k []) :=
    Machine.spares_exchangeOperands (fun _ _ _ => rfl) k []
  exact meets_ask ((sure.and (same m)).mono (fun _ _ h' => h.state.of_states h'.2) fun _ h => h.1)

theorem setState_sure {next : Continuation} (h : m.StateIs i .firstCall)
    (hnext : Continuation.firstCall.canBecome next = true) :
    (setState next).Fails (some i) m fun _ => False := by
  obtain ⟨g, hg, hstate⟩ := h
  refine meets_ask ?_
  change (Machine.setState i next m).Meets True _ _
  rw [Machine.setState_eq hg (hstate ▸ hnext)]
  trivial

/-- The operands are removed in the end. -/
theorem fails_pop (hp : p.Fails (some i) m F) (aside : p.Asks Request.Aside) (h : m.Ready i k) :
    (p >>= fun _ => pop k).Fails (some i) m F :=
  fails_bind_sure hp aside h fun _ _ h => (pop_sure h _).mono (fun _ _ _ => trivial) fun _ => id

section last

variable (hσ : σ.Counted) (h : m.memory.Has σ)
include hσ h

omit hσ h in
theorem storeAt_aside (container key v : Value) :
    (storeAt container key v).Asks Request.Aside := by
  unfold storeAt
  cases container.datum with
  | array =>
    exact Looks.aside.bind fun _ => Looks.aside.bind fun _ => Looks.aside.bind fun _ =>
      Program.asks_request.2 trivial
  | dictionary => exact Looks.aside.bind fun _ => Program.asks_request.2 trivial
  | _ => exact Looks.aside

theorem putItem_fails (ready : m.Ready i 3) :
    (putItem params).Fails (some i) m (m.Unscathed σ) := by
  have look := Machine.unscathed_self h
  refine fails_bind look fun v => fails_bind look fun key => fails_bind look fun container => ?_
  exact fails_pop (fails_of_withdraws hσ h) (storeAt_aside container key v) ready

theorem bindName_fails (ready : m.Ready i 2) :
    (bindName params).Fails (some i) m (m.Unscathed σ) := by
  have look := Machine.unscathed_self h
  refine fails_bind look fun v => fails_bind look fun name => fails_bind look fun scope => ?_
  exact fails_pop (fails_of_withdraws hσ h) (Program.asks_request.2 trivial) ready

theorem beginScope_fails (ready : m.Ready i 1) :
    (beginScope params).Fails (some i) m (m.Unscathed σ) :=
  fails_bind (Machine.unscathed_self h) fun _ =>
    fails_pop (fails_of_withdraws hσ h) (Program.asks_request.2 trivial) ready

theorem executeTop_fails (ready : m.Ready i 1) :
    (executeTop params).Fails (some i) m (m.Unscathed σ) := by
  refine fails_bind (Machine.unscathed_self h) fun v => ?_
  split
  · exact fails_pop (fails_of_withdraws hσ h) (Program.asks_request.2 trivial) ready
  · trivial

theorem executeIf_fails (ready : m.Ready i 2) :
    (executeIf params).Fails (some i) m (m.Unscathed σ) := by
  have look := Machine.unscathed_self h
  refine fails_bind look fun block => fails_bind look fun holds => ?_
  split
  · exact fails_pop (fails_of_withdraws hσ h) (Program.asks_request.2 trivial) ready
  · exact fails_of_withdraws hσ h

theorem executeEither_fails (ready : m.Ready i 3) :
    (executeEither params).Fails (some i) m (m.Unscathed σ) := by
  have look := Machine.unscathed_self h
  refine fails_bind look fun otherwise => fails_bind look fun whenTrue =>
    fails_bind look fun holds => ?_
  exact fails_pop (fails_of_withdraws hσ h) (Program.asks_request.2 trivial) ready

theorem beginBlock_fails (params : List Value) :
    (beginBlock params).Fails (some i) m (m.Unscathed σ) :=
  meets_bind (fails_of_withdraws (p := push .mark) hσ h) fun _ _ _ => trivial

/-- The operator asks to be invoked again once its block has been queued. -/
theorem stoppedBlock_fails (ready : m.Ready i 1) :
    (stoppedBlock params).Fails (some i) m (m.Unscathed σ) := by
  rw [Fails, stoppedBlock, runOn_bind (state_runOn ready.state)]
  refine fails_bind (Machine.unscathed_self h) fun block => ?_
  refine fails_bind_sure (fails_of_withdraws hσ h) (Program.asks_request.2 trivial) ready ?_
  intro _ m' ready'
  exact meets_bind (pop_sure ready' _) fun _ _ state => setState_sure state rfl

end last

end Operation

end StackScript
