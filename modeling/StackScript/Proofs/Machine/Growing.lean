import StackScript.Proofs.Guarantees.Retries
import StackScript.Proofs.Machine.Granting
import StackScript.Proofs.Machine.Standing

/-!
# Stacks that grow

The operands and the call frames of a machine are kept in slots that grow by whole blocks, so there is
always room for one more if the ledger grants it (`Machine.Growing`).  Nothing that happens to a
machine changes anything about the slots of its stacks but how many there are (`Machine.SameShape`),
hence every machine a host reaches is growing (`Reached.growing`).
-/

namespace StackScript

open StackScript.Action

/-- Slots, whatever their number. -/
def Reserve.shape (r : Reserve) : Reserve := r.withCapacity 0

/-- What is needed for as many items is as many slots. -/
theorem Reserve.Fits.unique {r r' : Reserve} {n : ℕ} (h : r.Fits n) (h' : r'.Fits n)
    (shape : r'.shape = r.shape) : r' = r := by
  obtain ⟨slot, account, initial, increment, capacity⟩ := r
  obtain ⟨slot', account', initial', increment', capacity'⟩ := r'
  simp only [Reserve.shape, Reserve.withCapacity, Reserve.mk.injEq, and_true] at shape
  obtain ⟨rfl, rfl, rfl, rfl⟩ := shape
  exact congrArg _ (Except.ok.inj (h'.symm.trans h))

namespace Machine

/-- The slots of the stacks, whatever their number. -/
def shape (m : Machine) : Reserve × Reserve × Reserve :=
  (m.operands.reserve.shape, m.calls.reserve.shape, m.scopes.reserve.shape)

/-- By how many slots the operands and the call frames grow. -/
def growth (m : Machine) : ℕ × ℕ := (m.operands.reserve.increment, m.calls.reserve.increment)

/-- The operands and the call frames can grow. -/
structure Growing (m : Machine) : Prop where
  operands : m.operands.reserve.increment ≠ 0
  calls : m.calls.reserve.increment ≠ 0

theorem Growing.of_growth {m m' : Machine} (h : m.Growing) (hg : m'.growth = m.growth) :
    m'.Growing := by
  obtain ⟨operands, calls⟩ := Prod.mk.inj hg
  exact ⟨operands ▸ h.operands, calls ▸ h.calls⟩

theorem growth_of_shape {m m' : Machine} (h : m'.shape = m.shape) : m'.growth = m.growth :=
  congrArg (fun s => (s.1.increment, s.2.1.increment)) h

end Machine

/-! ### Slots -/

theorem Reserve.resize_shape (r : Reserve) (capacity : ℕ) (m : Memory) :
    (r.resize capacity m).Meets True (fun r' _ => r'.shape = r.shape) fun _ => True := by
  have shrunk (m : Memory) : ((if capacity < r.capacity then do
      Memory.onLedger (Ledger.release (r.slot.times (r.capacity - capacity)) r.account)
      pure (r.withCapacity capacity)
    else pure (r.withCapacity capacity) : Action Memory Reserve) m).Meets True
      (fun r' _ => r'.shape = r.shape) fun _ => True := by
    split
    · exact meets_bind (Outcome.meets_any _) fun _ _ _ => rfl
    · rfl
  unfold resize
  split
  · exact meets_bind (Outcome.meets_any _) fun _ m₁ _ => shrunk m₁
  · exact shrunk m

theorem Reserve.exchange_shape (r : Reserve) (length : ℕ) (removed added : List Value)
    (m : Memory) : (r.exchange length removed added m).Meets True
      (fun r' _ => r'.shape = r.shape) fun _ => True := by
  unfold exchange
  refine meets_bind (Outcome.meets_any _) fun capacity _ _ => ?_
  refine meets_bind (Outcome.meets_any _) fun _ m₁ _ => ?_
  refine meets_bind (meets_onRaise (r.resize_shape capacity m₁) fun _ _ => Outcome.meets_any _)
    fun r' _ hr' => ?_
  exact meets_bind (Outcome.meets_any _) fun _ _ _ => hr'

theorem Sequence.exchange_shape (s : Sequence) (drop : ℕ) (values : List Value) (m : Memory) :
    (s.exchange drop values m).Meets True
      (fun s' _ => s'.reserve.shape = s.reserve.shape) fun _ => True := by
  unfold exchange
  split
  · trivial
  · exact meets_bind (s.reserve.exchange_shape _ _ _ _) fun _ _ hr => hr

namespace CallStack

variable (c : CallStack) (m : Memory)

theorem push_shape (f : Frame) : (c.push f m).Meets True
    (fun c' _ => c'.reserve.shape = c.reserve.shape) fun _ => True :=
  meets_bind (c.reserve.exchange_shape _ _ _ _) fun _ _ hr => hr

theorem pop_shape : (c.pop m).Meets True
    (fun c' _ => c'.reserve.shape = c.reserve.shape) fun _ => True := by
  unfold pop
  cases c.frames with
  | nil => trivial
  | cons f rest =>
    refine meets_bind (c.reserve.exchange_shape _ _ _ _) fun _ _ hr => ?_
    exact meets_bind (Outcome.meets_any _) fun _ _ _ => hr

theorem replaceTop_shape (v : Value) : (c.replaceTop v m).Meets True
    (fun c' _ => c'.reserve.shape = c.reserve.shape) fun _ => True := by
  unfold replaceTop
  cases c.frames with
  | nil => trivial
  | cons f rest =>
    refine meets_bind (c.reserve.exchange_shape _ _ _ _) fun _ _ hr => ?_
    exact meets_bind (Outcome.meets_any _) fun _ _ _ => hr

end CallStack

/-! ### Machines -/

namespace Machine

/-- The stacks of two machines are kept in slots of one shape. -/
def SameShape (m m' : Machine) : Prop := m'.shape = m.shape

instance : IsPreorder Machine SameShape where
  refl _ := rfl
  trans _ _ _ h h' := h'.trans h

/-- Two machines grow by the same. -/
def SameGrowth (m m' : Machine) : Prop := m'.growth = m.growth

instance : IsPreorder Machine SameGrowth where
  refl _ := rfl
  trans _ _ _ h h' := h'.trans h

theorem sameShape_of_spares {α : Type} {x : Action Machine α} (hx : Spares shape x) :
    Respects SameShape x := ⟨hx⟩

theorem spares_shape_onOperands {f : Sequence → Action Memory Sequence}
    (hf : ∀ s μ, (f s μ).Meets True (fun s' _ => s'.reserve.shape = s.reserve.shape)
      fun _ => True) : Spares shape (onOperands f) := fun m =>
  meets_onOperands ((hf m.operands m.memory).mono
    (fun _ _ h => Prod.ext h rfl) fun _ _ => rfl)

theorem spares_shape_onCalls {f : CallStack → Action Memory CallStack}
    (hf : ∀ c μ, (f c μ).Meets True (fun c' _ => c'.reserve.shape = c.reserve.shape)
      fun _ => True) : Spares shape (onCalls f) := fun m =>
  meets_onCalls ((hf m.calls m.memory).mono
    (fun _ _ h => Prod.ext rfl (Prod.ext h rfl)) fun _ _ => rfl)

theorem spares_shape_onScopes {f : Sequence → Action Memory Sequence}
    (hf : ∀ s μ, (f s μ).Meets True (fun s' _ => s'.reserve.shape = s.reserve.shape)
      fun _ => True) : Spares shape (onScopes f) := fun m =>
  meets_onScopes ((hf m.scopes m.memory).mono
    (fun _ _ h => Prod.ext rfl (Prod.ext rfl h)) fun _ _ => rfl)

theorem shape_update (m : Machine) (index : ℕ) (g : Frame → Frame) :
    shape { m with calls := m.calls.update index g } = m.shape :=
  Prod.ext rfl (Prod.ext (by rw [shape, shape, CallStack.reserve_update]) rfl)

theorem growth_update (m : Machine) (index : ℕ) (g : Frame → Frame) :
    growth { m with calls := m.calls.update index g } = m.growth :=
  growth_of_shape (shape_update m index g)

theorem spares_shape_perform (own : Option ℕ) (r : Request) : Spares shape (r.perform own) := by
  have exchanged (drop : ℕ) (values : List Value) : Spares shape (exchangeOperands drop values) :=
    spares_shape_onOperands fun s => s.exchange_shape drop values
  cases r with
  | observe => exact fun _ => rfl
  | exchange drop values => exact exchanged drop values
  | adopt drop v => exact (exchanged drop [v]).ensuring (spares_onMemory (fun _ _ => rfl) _)
  | release v => exact spares_onMemory (fun _ _ => rfl) _
  | clearOperands =>
    refine spares_shape_onOperands fun s μ => ?_
    have cleared := s.exchange_shape s.length [] μ
    unfold Sequence.clear unfailing
    cases hs : s.exchange s.length [] μ with
    | done s' μ' => rw [hs] at cleared; exact cleared
    | raised e μ' => trivial
    | broken b => trivial
  | createArray access items => exact spares_createArray (fun _ _ => rfl) access items
  | createFilledArray access length v =>
    exact spares_createFilledArray (fun _ _ => rfl) access length v
  | createDictionary => exact spares_createDictionary fun _ _ => rfl
  | setItem container index v => exact spares_setItem (fun _ _ => rfl) container index v
  | define container name v => exact spares_define (fun _ _ => rfl) container name v
  | openScope v =>
    change Spares shape (openScope v)
    unfold openScope
    split
    · exact spares_shape_onScopes fun s => s.exchange_shape 0 [v]
    · exact spares_fail _
  | closeScope =>
    refine spares_get.bind fun m => ?_
    have closed : Spares shape (onScopes fun s => s.pop 1) :=
      spares_shape_onScopes fun s => s.exchange_shape 1 []
    split
    · exact (spares_fail _).bind fun _ => closed
    · exact closed
  | call v => exact spares_shape_onCalls fun c μ => c.push_shape μ { value := v }
  | openBlock | closeBlock => exact fun _ => rfl
  | setState next => exact spares_onOwn fun i => spares_setState next fun m => shape_update m i _
  | setLocal name v =>
    exact spares_onOwn fun i => spares_setLocal (fun _ _ => rfl) (fun m _ => shape_update m i _)
      name v
  | intercept => exact spares_intercept fun _ _ _ => rfl
  | stash => exact spares_onOwn fun i => spares_stash (fun _ _ _ => rfl) fun m _ => shape_update m i _
  | restore =>
    exact spares_onOwn fun i => spares_restore (fun _ _ _ => rfl) fun m _ => shape_update m i _

instance : Stands SameShape where
  memory x := sameShape_of_spares (spares_onMemory (fun _ _ => rfl) x)
  request own r := sameShape_of_spares (spares_shape_perform own r)
  pushFrame f := sameShape_of_spares (spares_shape_onCalls fun c μ => c.push_shape μ f)
  popFrame := sameShape_of_spares (spares_shape_onCalls CallStack.pop_shape)
  replaceFrame v :=
    sameShape_of_spares (spares_shape_onCalls fun c μ => c.replaceTop_shape μ v)
  updateFrame i g := sameShape_of_spares (spares_updateFrame fun m => shape_update m i g)
  raise e := sameShape_of_spares (spares_raise (fun _ _ _ _ => rfl) e)

theorem sameGrowth_of_sameShape {α : Type} {x : Action Machine α} (hx : Respects SameShape x) :
    Respects SameGrowth x := hx.mono fun _ _ => growth_of_shape

instance : Stands SameGrowth where
  memory x := sameGrowth_of_sameShape (Stands.memory x)
  request own r := sameGrowth_of_sameShape (Stands.request own r)
  pushFrame f := sameGrowth_of_sameShape (Stands.pushFrame f)
  popFrame := sameGrowth_of_sameShape Stands.popFrame
  replaceFrame v := sameGrowth_of_sameShape (Stands.replaceFrame v)
  updateFrame i g := sameGrowth_of_sameShape (Stands.updateFrame i g)
  raise e := sameGrowth_of_sameShape (Stands.raise e)

/-- Whatever happens to a machine that is growing leaves it so. -/
theorem Growing.of_respects {α : Type} {m : Machine} (h : m.Growing) (x : Action Machine α)
    [Respects SameGrowth x] : (x m).Meets True (fun _ m' => m'.Growing) fun m' => m'.Growing :=
  (Respects.respects (R := SameGrowth) m).mono (fun _ _ => h.of_growth) fun _ => h.of_growth

/-! ### From the creation of a machine on -/

/-- A machine is created growing. -/
theorem growing_of_create {α : Type} {options : Options} {setup : Setup α} {m : Machine} {a : α}
    {μ : Memory} (hm : create options setup = .done (m, a) μ) : m.Growing := by
  have acquired (initial increment : ℕ) (slot : Size) (μ : Memory) :
      (Reserve.acquire slot .system initial increment μ).Meets True
        (fun r _ => r.increment = increment) fun _ => True :=
    (Reserve.acquire_acquires slot .system initial increment μ).mono (fun _ _ hr => by rw [hr])
      fun _ => id
  have created : (create options setup).Meets True (fun r _ => r.1.Growing) fun _ => True := by
    refine meets_bind (P := fun (operands : Sequence) _ => operands.reserve.increment = 64)
      (meets_bind (acquired 64 64 _ _) fun _ _ hr => hr) fun operands μ hoperands => ?_
    refine meets_bind (P := fun (calls : CallStack) _ => calls.reserve.increment = 32)
      (meets_bind (acquired 32 32 _ _) fun _ _ hr => hr) fun calls μ hcalls => ?_
    refine meets_bind (Outcome.meets_any _) fun scopes μ _ => ?_
    refine meets_bind (Outcome.meets_any _) fun host μ _ => ?_
    refine meets_bind (Outcome.meets_any _) fun provided μ _ => ?_
    refine meets_bind (Outcome.meets_any _) fun system μ _ => ?_
    refine meets_bind (Outcome.meets_any _) fun _ μ _ => ?_
    refine meets_bind (Outcome.meets_any _) fun common μ _ => ?_
    refine meets_bind (Outcome.meets_any _) fun user μ _ => ?_
    refine meets_bind (Outcome.meets_any _) fun scopes μ _ => ?_
    exact ⟨by rw [hoperands]; decide, by rw [hcalls]; decide⟩
  rw [hm] at created
  exact created

end Machine

/-- **Stacks can always grow**, whatever a host and its operators have done. -/
theorem Reached.growing {χ : Type} {options : Options} {m₀ : Machine} {owned : List Value}
    {s : Session χ} (hm₀ : m₀.Created options) (h : Reached m₀ owned s) : s.machine.Growing := by
  obtain ⟨-, α, setup, a, μ, -, created⟩ := hm₀
  obtain ⟨host, course⟩ := h.goes
  exact (Machine.growing_of_create created).of_growth
    (Session.stands_of_goes (R := Machine.SameGrowth) course)

end StackScript
