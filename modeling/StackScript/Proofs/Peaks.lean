import Mathlib.Order.Lattice
import Mathlib.Data.Nat.Notation
import StackScript.Machine.Bootstrap
import StackScript.Machine.Run
import StackScript.Proofs.Outcome

/-!
# The peak only rises

Whatever is done to a memory, the peak of its ledger is at least what it was before.  The instances of
`Action.Rising` say so of every action, so that it need not be mentioned where actions are put
together.
-/

namespace StackScript

/-- A state with a ledger in it. -/
class Metered (σ : Type) where
  /-- The most that has been in use. -/
  peak : σ → ℕ

open Metered (peak)

instance : Metered Ledger := ⟨Ledger.peak⟩

instance : Metered Memory := ⟨fun μ => peak μ.ledger⟩

instance : Metered Construction := ⟨fun c => peak c.memory⟩

instance : Metered Machine := ⟨fun m => peak m.memory⟩

instance {χ : Type} : Metered (Session χ) := ⟨fun s => peak s.machine⟩

namespace Action

variable {σ τ α β : Type}

/-- The peak is not lowered. -/
class Rising [Metered σ] (x : Action σ α) : Prop where
  rises : ∀ s, (x s).Meets True (fun _ t => peak s ≤ peak t) fun t => peak s ≤ peak t

section

variable [Metered σ] [Metered τ] {x : Action σ α} {f : α → Action σ β} {clean : Action σ Unit}

instance (a : α) : Rising (pure a : Action σ α) := ⟨fun _ => le_rfl⟩

instance (e : Exception) : Rising (raise e : Action σ α) := ⟨fun _ => le_rfl⟩

instance (c : Cause) : Rising (fail c : Action σ α) := ⟨fun _ => le_rfl⟩

instance (b : Breach) : Rising (breach b : Action σ α) := ⟨fun _ => trivial⟩

instance (r : Except Cause α) : Rising (ofExcept r : Action σ α) :=
  ⟨fun _ => by cases r <;> exact le_rfl⟩

instance (r : Except Breach α) : Rising (ofSound r : Action σ α) :=
  ⟨fun _ => by cases r <;> first | exact le_rfl | trivial⟩

instance (r : Except Breach α) : Rising (liftM r : Action σ α) :=
  inferInstanceAs (Rising (ofSound r))

instance : Rising (get : Action σ σ) := ⟨fun _ => le_rfl⟩

instance [Rising x] [∀ a, Rising (f a)] : Rising (x >>= f) where
  rises s := meets_bind (Rising.rises s) fun a t ht =>
    (Rising.rises (x := f a) t).mono (fun _ _ => ht.trans) fun _ => ht.trans

theorem Rising.bind (hx : Rising x) (hf : ∀ a, Rising (f a)) : Rising (x >>= f) := inferInstance

instance {c : Prop} [Decidable c] {y : Action σ α} [Rising x] [Rising y] :
    Rising (if c then x else y) := by
  split <;> infer_instance

instance [Rising x] : Rising x.attempt where
  rises s := meets_attempt ((Rising.rises s).mono (fun _ _ => id) fun _ h _ => h)

instance [Rising x] [Rising clean] : Rising (x.onRaise clean) where
  rises s := meets_onRaise (Rising.rises s) fun t ht =>
    (Rising.rises (x := clean) t).mono (fun _ _ => ht.trans) fun _ => ht.trans

instance [Rising x] [Rising clean] : Rising (x.ensuring clean) where
  rises s :=
    have cleaned (t : σ) (ht : peak s ≤ peak t) : (clean t).Meets True
        (fun _ u => peak s ≤ peak u) fun u => peak s ≤ peak u :=
      (Rising.rises (x := clean) t).mono (fun _ _ => ht.trans) fun _ => ht.trans
    meets_ensuring (Rising.rises s) (fun _ => cleaned) cleaned

instance (breach : Exception → Breach) [Rising x] : Rising (x.unfailing breach) where
  rises s := by
    have h := Rising.rises (x := x) s
    unfold unfailing
    cases hs : x s with
    | done a t => rw [hs] at h; exact h
    | raised e t => trivial
    | broken b => trivial

theorem Rising.zoom [Rising x] {get : τ → σ} {put : σ → τ → τ}
    (hget : ∀ t, peak (get t) = peak t) (hput : ∀ s t, peak (put s t) = peak s) :
    Rising (x.zoom get put) where
  rises t := meets_zoom ((Rising.rises (get t)).mono
    (fun _ s h => (hget t ▸ h).trans_eq (hput s t).symm)
    fun s h => (hget t ▸ h).trans_eq (hput s t).symm)

theorem rising_modify {g : σ → σ} (hg : ∀ s, peak (g s) = peak s) :
    Rising (modify g : Action σ PUnit) := ⟨fun s => (hg s).ge⟩

end

end Action

open StackScript.Action

/-! ### The ledger and the heap -/

namespace Ledger

instance (size : Size) (a : Account) : Rising (allocate size a) where
  rises l := by
    unfold allocate
    split
    · exact le_rfl
    · cases a <;> exact le_max_left _ _

instance (size : Size) (a : Account) : Rising (release size a) where
  rises l := by
    unfold release
    split
    · cases a <;> exact le_rfl
    · trivial

instance (f : Ledger → TextMap ℕ) :
    Rising (modify fun l => { l with strings := f l } : Action Ledger PUnit) :=
  rising_modify fun _ => rfl

instance (text : String) : Rising (addReference text) :=
  Rising.bind inferInstance fun l => by split <;> infer_instance

instance (text : String) : Rising (dropReference text) :=
  Rising.bind inferInstance fun l => by split <;> infer_instance

end Ledger

namespace Memory

variable {α : Type}

instance {x : Action Ledger α} [Rising x] : Rising (onLedger x) :=
  Rising.zoom (fun _ => rfl) fun _ _ => rfl

/-- The heap has nothing to do with the ledger. -/
instance (x : Action Heap α) : Rising (onHeap x) where
  rises μ := by
    unfold onHeap Action.zoom
    cases x μ.heap <;> first | exact le_rfl | trivial

instance (v : Value) : Rising (retain v) := by
  unfold retain
  split <;> infer_instance

instance (f : String × Value → Action Ledger PUnit) [∀ e, Rising (f e)]
    (entries : List (String × Value)) : Rising (entries.forM f) := by
  induction entries with
  | nil => exact inferInstanceAs (Rising (pure PUnit.unit : Action Ledger PUnit))
  | cons e rest ih => exact Rising.bind inferInstance fun _ => ih

instance (object : Object) : Rising (giveBack object) := by
  cases object with
  | array s => exact inferInstanceAs (Rising (Ledger.release _ _))
  | dictionary d => exact Rising.bind (inferInstanceAs (Rising (List.forM _ _))) fun _ => inferInstance

instance (t : Trail) : Rising (recordTrail t) := rising_modify fun _ => rfl

instance (handle : Handle) : Rising (forgetTrail handle) := rising_modify fun _ => rfl

instance (handle : Handle) (o : Option Object) : Rising (discard handle o) := by
  unfold discard
  cases o <;> infer_instance

instance (v : Value) : Rising (giveUp v) := by
  unfold giveUp
  split <;> infer_instance

/-- Giving up one reference, then the others and those that were held. -/
theorem giveUpAll_succ (fuel : ℕ) (v : Value) (rest : List Value) :
    (giveUpAll (fuel + 1) (v :: rest) : Action Memory Unit) =
      giveUp v >>= fun freed => giveUpAll fuel (freed ++ rest) := by
  funext μ
  change giveUpAll (fuel + 1) (v :: rest) μ = Action.bind _ _ μ
  unfold Action.bind
  rw [giveUpAll]
  cases giveUp v μ <;> rfl

theorem rising_giveUpAll (fuel : ℕ) (values : List Value) :
    Rising (giveUpAll fuel values : Action Memory Unit) := by
  induction fuel generalizing values with
  | zero => exact ⟨fun _ => le_rfl⟩
  | succ fuel ih =>
    cases values with
    | nil => exact ⟨fun _ => le_rfl⟩
    | cons v rest =>
      rw [giveUpAll_succ]
      exact Rising.bind inferInstance fun freed => ih _

/-- Give up what an object held. -/
def giveUpFreed (freed : List Value) : Action Memory Unit := fun μ =>
  match freed with
  | [] => .done () μ
  | w :: rest => giveUpAll (μ.heap.weight + rest.length + 1) (w :: rest) μ

theorem release_eq (v : Value) : (release v : Action Memory Unit) = giveUp v >>= giveUpFreed := by
  funext μ
  rw [Action.bind_apply]
  unfold release
  cases giveUp v μ with
  | done freed μ' => cases freed <;> rfl
  | raised e μ' => rfl
  | broken b => rfl

instance (freed : List Value) : Rising (giveUpFreed freed) where
  rises μ := by
    cases freed with
    | nil => exact le_rfl
    | cons w rest => exact (rising_giveUpAll _ (w :: rest)).rises μ

instance (v : Value) : Rising (release v) := by
  rw [release_eq]
  infer_instance

instance (values : List Value) : Rising (releaseAll values) := by
  induction values with
  | nil => exact inferInstanceAs (Rising (pure ()))
  | cons v rest ih => exact Rising.bind inferInstance fun _ => ih

instance (values : List Value) : Rising (retainAll values) := by
  induction values with
  | nil => exact inferInstanceAs (Rising (pure ()))
  | cons v rest ih => exact Rising.bind inferInstance fun _ => inferInstance

theorem retainTimes_succ (v : Value) (count : ℕ) :
    (retainTimes v (count + 1) : Action Memory Unit) =
      retain v >>= fun _ => (retainTimes v count : Action Memory Unit) := by
  funext μ
  change retainTimes v (count + 1) μ = Action.bind _ _ μ
  unfold Action.bind
  rw [retainTimes]
  cases retain v μ <;> rfl

theorem rising_retainTimes (v : Value) (count : ℕ) :
    Rising (retainTimes v count : Action Memory Unit) := by
  induction count with
  | zero => exact ⟨fun _ => le_rfl⟩
  | succ count ih =>
    rw [retainTimes_succ]
    exact Rising.bind inferInstance fun _ => ih

end Memory

/-! ### Containers -/

open Memory

namespace Reserve

instance (slot : Size) (account : Account) (initial increment : ℕ) :
    Rising (acquire slot account initial increment) := by
  unfold acquire
  infer_instance

instance (r : Reserve) (capacity : ℕ) : Rising (r.resize capacity) := by
  unfold resize
  infer_instance

instance (r : Reserve) (length : ℕ) (removed added : List Value) :
    Rising (r.exchange length removed added) := by
  unfold exchange
  infer_instance

instance (r : Reserve) : Rising r.surrender := by
  unfold surrender
  infer_instance

end Reserve

namespace Sequence

instance (slot : Size) (account : Account) (initial increment : ℕ) :
    Rising (acquire slot account initial increment) := by
  unfold acquire
  infer_instance

instance (s : Sequence) (drop : ℕ) (values : List Value) : Rising (s.exchange drop values) := by
  unfold exchange
  infer_instance

instance (s : Sequence) (v : Value) : Rising (s.push v) := inferInstanceAs (Rising (s.exchange _ _))

instance (s : Sequence) (count : ℕ) : Rising (s.pop count) :=
  inferInstanceAs (Rising (s.exchange _ _))

instance (s : Sequence) : Rising s.clear := by
  unfold clear
  infer_instance

instance (s : Sequence) (index : ℕ) (v : Value) : Rising (s.set index v) := by
  unfold set
  split <;> infer_instance

instance (s : Sequence) (v : Value) (count : ℕ) : Rising (s.fill v count) := by
  unfold fill
  extract_lets filled
  have rest (u : Unit) : Rising (filled u) := (rising_retainTimes v count).bind fun _ => inferInstance
  split
  · exact Rising.bind inferInstance rest
  · exact rest ()

instance (s : Sequence) : Rising s.dispose := by
  unfold dispose
  infer_instance

end Sequence

instance (d : Dictionary) (name : String) (v : Value) : Rising (d.define name v) := by
  unfold Dictionary.define
  split <;> infer_instance

namespace Memory

instance (object : Object) (account : Account) (trail : List String) :
    Rising (store object account trail) := by
  unfold store
  infer_instance

instance (account : Account) (items : List Value) (trail : List String) :
    Rising (newArray account items trail) := by
  unfold newArray
  infer_instance

instance (account : Account) (length : ℕ) (v : Value) (trail : List String) :
    Rising (newFilledArray account length v trail) := by
  unfold newFilledArray
  infer_instance

instance (account : Account) (trail : List String) : Rising (newDictionary account trail) := by
  unfold newDictionary
  infer_instance

theorem rising_modifyObject (handle : Handle) {f : Object → Action Memory Object}
    (hf : ∀ o, Rising (f o)) : Rising (modifyObject handle f) := by
  unfold modifyObject
  infer_instance

instance (handle : Handle) (index : ℕ) (v : Value) : Rising (setItem handle index v) :=
  rising_modifyObject handle fun o => by cases o <;> infer_instance

instance (handle : Handle) (name : String) (v : Value) : Rising (define handle name v) :=
  rising_modifyObject handle fun o => by cases o <;> infer_instance

end Memory

/-! ### Call frames -/

instance (e : Exception) : Rising (PendingException.record e) :=
  Rising.bind inferInstance fun r => by cases r <;> infer_instance

instance (p : PendingException) : Rising p.discharge :=
  inferInstanceAs (Rising (onLedger _))

instance (f : Frame) : Rising f.dispose := by
  unfold Frame.dispose
  cases f.locals <;> cases f.stash <;> infer_instance

namespace CallStack

instance : Rising acquire := by
  unfold acquire
  infer_instance

instance (c : CallStack) (f : Frame) : Rising (c.push f) := by
  unfold push
  infer_instance

instance (c : CallStack) : Rising c.pop := by
  unfold pop
  split <;> infer_instance

instance (c : CallStack) (v : Value) : Rising (c.replaceTop v) := by
  unfold replaceTop
  split <;> infer_instance

end CallStack

/-! ### The machine -/

namespace Machine

variable {α : Type}

instance {x : Action Memory α} [Rising x] : Rising (onMemory x) :=
  Rising.zoom (fun _ => rfl) fun _ _ => rfl

/-- The ledger is in the memory. -/
instance (f : Machine → Machine) : Rising (modify fun m => { f m with memory := m.memory }) :=
  rising_modify fun _ => rfl

theorem rising_onOperands {f : Sequence → Action Memory Sequence} (hf : ∀ s, Rising (f s)) :
    Rising (onOperands f) :=
  Rising.bind inferInstance fun _ => Rising.bind inferInstance fun _ => rising_modify fun _ => rfl

theorem rising_onScopes {f : Sequence → Action Memory Sequence} (hf : ∀ s, Rising (f s)) :
    Rising (onScopes f) :=
  Rising.bind inferInstance fun _ => Rising.bind inferInstance fun _ => rising_modify fun _ => rfl

theorem rising_onCalls {f : CallStack → Action Memory CallStack} (hf : ∀ c, Rising (f c)) :
    Rising (onCalls f) :=
  Rising.bind inferInstance fun _ => Rising.bind inferInstance fun _ => rising_modify fun _ => rfl

instance (drop : ℕ) (values : List Value) : Rising (exchangeOperands drop values) :=
  rising_onOperands fun _ => inferInstance

instance (v : Value) : Rising (release v) := inferInstanceAs (Rising (onMemory _))

instance (drop : ℕ) (created : Value) : Rising (adopt drop created) :=
  inferInstanceAs (Rising (ensuring _ _))

instance : Rising clearOperands := rising_onOperands fun _ => inferInstance

instance (access : Access) (items : List Value) : Rising (createArray access items) := by
  unfold createArray
  infer_instance

instance (access : Access) (length : ℕ) (v : Value) :
    Rising (createFilledArray access length v) := by
  unfold createFilledArray
  infer_instance

instance : Rising createDictionary := by
  unfold createDictionary
  infer_instance

instance (container : Value) (index : ℕ) (v : Value) : Rising (setItem container index v) := by
  unfold setItem
  split <;> infer_instance

instance (container : Value) (name : String) (v : Value) : Rising (define container name v) := by
  unfold define
  split <;> infer_instance

instance (v : Value) : Rising (openScope v) := by
  have := rising_onScopes (f := fun s => s.push v) fun _ => inferInstance
  unfold openScope
  infer_instance

instance : Rising closeScope := by
  have := rising_onScopes (f := fun s => s.pop 1) fun _ => inferInstance
  unfold closeScope
  infer_instance

instance (f : Frame) : Rising (onCalls fun c => c.push f) := rising_onCalls fun _ => inferInstance

instance (v : Value) : Rising (call v) := inferInstanceAs (Rising (onCalls fun c => c.push _))

instance : Rising popFrame := rising_onCalls fun _ => inferInstance

instance (v : Value) : Rising (replaceFrame v) := rising_onCalls fun _ => inferInstance

instance (index : ℕ) (f : Frame → Frame) : Rising (updateFrame index f) :=
  Rising.bind inferInstance fun _ => Rising.bind inferInstance fun _ => rising_modify fun _ => rfl

instance (index : ℕ) (next : Continuation) : Rising (setState index next) := by
  unfold setState
  infer_instance

instance (index : ℕ) : Rising (ensureLocals index) :=
  Rising.bind inferInstance fun _ => Rising.bind inferInstance fun f => by
    split <;> infer_instance

instance (index : ℕ) (name : String) (v : Value) : Rising (setLocal index name v) := by
  unfold setLocal
  infer_instance

instance : Rising openBlock := rising_modify fun _ => rfl

instance : Rising closeBlock := rising_modify fun _ => rfl

instance (p : Option PendingException) : Rising (discharge p) := by
  cases p with
  | none => exact inferInstanceAs (Rising (pure ()))
  | some p => exact inferInstanceAs (Rising (onMemory _))

theorem rising_withPending (p : Option PendingException) :
    Rising (modify fun m => { m with pending := p } : Action Machine PUnit) :=
  rising_modify fun _ => rfl

instance : Rising intercept := by
  have := rising_withPending none
  unfold intercept
  infer_instance

instance (index : ℕ) : Rising (stash index) := by
  have := rising_withPending none
  refine Rising.bind inferInstance fun m => ?_
  split
  · infer_instance
  · split <;> infer_instance

instance (index : ℕ) : Rising (restore index) := by
  have := rising_withPending
  refine Rising.bind inferInstance fun m => Rising.bind inferInstance fun f => ?_
  split <;> infer_instance

instance (e : Exception) : Rising (raise e) := by
  refine Rising.bind inferInstance fun m => ?_
  have (p : PendingException) : Rising (modify fun m => { m with pending := some p, blockDepth := 0 }
    : Action Machine PUnit) := rising_modify fun _ => rfl
  infer_instance

instance (work : Work) : Rising (execute work) := by
  cases work <;> unfold execute <;> infer_instance

end Machine

instance (own : Option ℕ) (f : ℕ → Action Machine Unit) [∀ i, Rising (f i)] :
    Rising (Request.onOwn own f) := by
  cases own <;> unfold Request.onOwn <;> infer_instance

/-- **No request lowers the peak.** -/
instance (own : Option ℕ) (r : Request) : Rising (r.perform own) := by
  cases r with
  | observe => exact ⟨fun _ => le_rfl⟩
  | exchange drop values => exact inferInstanceAs (Rising (Machine.exchangeOperands drop values))
  | adopt drop created => exact inferInstanceAs (Rising (Machine.adopt drop created))
  | release created => exact inferInstanceAs (Rising (Machine.release created))
  | clearOperands => exact inferInstanceAs (Rising Machine.clearOperands)
  | createArray access items => exact inferInstanceAs (Rising (Machine.createArray access items))
  | createFilledArray access length v =>
    exact inferInstanceAs (Rising (Machine.createFilledArray access length v))
  | createDictionary => exact inferInstanceAs (Rising Machine.createDictionary)
  | setItem container index v =>
    exact inferInstanceAs (Rising (Machine.setItem container index v))
  | define container name v => exact inferInstanceAs (Rising (Machine.define container name v))
  | openScope v => exact inferInstanceAs (Rising (Machine.openScope v))
  | closeScope => exact inferInstanceAs (Rising Machine.closeScope)
  | call v => exact inferInstanceAs (Rising (Machine.call v))
  | setState next =>
    exact inferInstanceAs (Rising (Request.onOwn own fun index => Machine.setState index next))
  | setLocal name v =>
    exact inferInstanceAs (Rising (Request.onOwn own fun index => Machine.setLocal index name v))
  | openBlock => exact inferInstanceAs (Rising Machine.openBlock)
  | closeBlock => exact inferInstanceAs (Rising Machine.closeBlock)
  | intercept => exact inferInstanceAs (Rising Machine.intercept)
  | stash => exact inferInstanceAs (Rising (Request.onOwn own Machine.stash))
  | restore => exact inferInstanceAs (Rising (Request.onOwn own Machine.restore))

namespace Program

variable {R : Type} {Answer : R → Type} {σ α : Type} [Metered σ]
  {perform : (r : R) → Action σ (Answer r)}

/-- A program whose requests do not lower the peak does not either. -/
instance [∀ r, Rising (perform r)] (p : Program Answer α) : Rising (p.run perform) := by
  induction p with
  | done a => exact ⟨fun _ => le_rfl⟩
  | raise e => exact ⟨fun _ => le_rfl⟩
  | broken b => exact ⟨fun _ => trivial⟩
  | ask r next failed ihn ihf =>
    refine ⟨fun s => ?_⟩
    have step := Rising.rises (x := perform r) s
    unfold run
    cases h : perform r s with
    | done a t =>
      rw [h] at step
      exact ((ihn a).rises t).mono (fun _ _ => step.trans) fun _ => step.trans
    | raised e t =>
      rw [h] at step
      exact ((ihf e).rises t).mono (fun _ _ => step.trans) fun _ => step.trans
    | broken b => trivial

end Program

instance {α : Type} (own : Option ℕ) (p : Operation α) : Rising (p.runOn own) :=
  inferInstanceAs (Rising (Program.run (Request.perform own) p))

/-! ### Setups -/

instance {α : Type} {x : Action Memory α} [Rising x] : Rising (Provision.onMemory x) :=
  Rising.zoom (fun _ => rfl) fun _ _ => rfl

instance (v : Value) : Rising (modify fun c => { c with created := v :: c.created } :
    Action Construction PUnit) := rising_modify fun _ => rfl

instance (r : Provision) : Rising r.perform := by
  cases r with
  | define name v =>
    exact inferInstanceAs (Rising (get >>= fun c => Provision.onMemory
      (Memory.define c.scope name v) : Action Construction Unit))
  | array access items =>
    exact inferInstanceAs (Rising (Provision.onMemory (Memory.newArray .system items ["host scope"]) >>=
      fun i => modify (fun c => { c with created := .array i access :: c.created }) >>= fun _ =>
        pure (.array i access) : Action Construction Value))

theorem rising_defineBuiltins (scope : Handle) (builtins : List Builtin) :
    Rising (Machine.defineBuiltins scope builtins) := by
  induction builtins with
  | nil => exact inferInstanceAs (Rising (pure ()))
  | cons b rest ih => exact Rising.bind inferInstance fun _ => ih

/-! ### Sessions -/

namespace Session

variable {χ α : Type}

instance {x : Action Machine α} [Rising x] : Rising (onMachine x : Action (Session χ) α) :=
  Rising.zoom (fun _ => rfl) fun _ _ => rfl

instance : Rising (theMachine : Action (Session χ) Machine) := ⟨fun _ => le_rfl⟩

instance (own : Option ℕ) (p : χ → Operation (χ × Except Exception Unit)) :
    Rising (runKeeping own p) where
  rises s := by
    have step := Rising.rises (x := (p s.host).runOn own) s.machine
    unfold runKeeping
    cases h : (p s.host).runOn own s.machine with
    | done r m =>
      rw [h] at step
      obtain ⟨host, r⟩ := r
      cases r <;> exact step
    | raised e m => rw [h] at step; exact step
    | broken b => trivial

instance (v : Value) : Rising (pushOperand v : Action (Session χ) Unit) :=
  inferInstanceAs (Rising (onMachine _))

instance : Rising (popFrame : Action (Session χ) Unit) := inferInstanceAs (Rising (onMachine _))

instance (v : Value) : Rising (yieldItem v : Action (Session χ) Unit) := by
  unfold yieldItem
  infer_instance

instance (index : ℕ) (c : Continuation) : Rising (settle index c : Action (Session χ) Unit) := by
  unfold settle
  infer_instance

instance (index : ℕ) : Rising (abandon index : Action (Session χ) Unit) :=
  inferInstanceAs (Rising (onMachine _))

variable {invoke : List Value → Action (Session χ) Unit}

instance (index : ℕ) (signature : List Param) [∀ params, Rising (invoke params)] :
    Rising (dispatch index signature invoke) := by
  unfold dispatch
  infer_instance

instance (index : ℕ) (c : Continuation) [∀ params, Rising (invoke params)] :
    Rising (resume index c invoke) := by
  unfold resume
  infer_instance

/-- Nor does an invocation of an operator, whatever it is. -/
theorem rising_invoke {natives : Natives χ} {o : Operator} {signature : List Param}
    {invoke : ℕ → List Value → Action (Session χ) Unit}
    (ho : Behaviour.ofOperator natives o = .function signature invoke) (index : ℕ)
    (params : List Value) : Rising (invoke index params) := by
  rcases Behaviour.function_cases ho with ⟨b, -, -, -, rfl⟩ | ⟨name, looping, operation, -, -, rfl⟩
  · infer_instance
  · infer_instance

instance (natives : Natives χ) (index : ℕ) (o : Operator) : Rising (stepOperator natives index o) := by
  unfold stepOperator
  split
  · infer_instance
  · rename_i signature invoke ho
    have := rising_invoke ho
    refine Rising.bind inferInstance fun m => Rising.bind inferInstance fun f => ?_
    split <;> infer_instance

instance (token : Value) (name : String) : Rising (stepName token name : Action (Session χ) Unit) := by
  unfold stepName
  infer_instance

instance (index : ℕ) (f : Frame) (text : String) :
    Rising (stepSource index f text : Action (Session χ) Unit) := by
  unfold stepSource
  refine Rising.bind inferInstance fun t => ?_
  cases t <;> infer_instance

instance (index : ℕ) (supply : Supply) :
    Rising (stepSupply index supply : Action (Session χ) Unit) := by
  unfold stepSupply
  split <;> infer_instance

instance (index : ℕ) (f : Frame) (handle : Handle) :
    Rising (stepBlock index f handle : Action (Session χ) Unit) := by
  unfold stepBlock
  refine Rising.bind inferInstance fun m => Rising.bind inferInstance fun s => ?_
  split <;> infer_instance

instance (natives : Natives χ) (index : ℕ) (f : Frame) : Rising (step natives index f) := by
  have unwound : Rising (unwind natives index f) := by
    unfold unwind
    split <;> infer_instance
  have advanced : Rising (advance natives index f) := by
    unfold advance
    split
    · infer_instance
    · split <;> infer_instance
  unfold step
  infer_instance

instance (natives : Natives χ) : Rising (cycle natives) := by
  unfold cycle
  refine Rising.bind inferInstance fun m => ?_
  split
  · infer_instance
  · refine Rising.bind inferInstance fun r => ?_
    cases r <;> infer_instance

theorem rising_runFrom (natives : Natives χ) (count budget : ℕ) :
    Rising (runFrom natives count budget : Action (Session χ) ℕ) where
  rises s := by
    induction budget generalizing count s with
    | zero => exact le_rfl
    | succ budget ih =>
      rw [runFrom]
      split
      · exact le_rfl
      · have step := Rising.rises (x := cycle natives) s
        cases hcycle : cycle natives s with
        | done b t =>
          rw [hcycle] at step
          exact (ih (count + 1) t).mono (fun _ _ => step.trans) fun _ => step.trans
        | raised e t => rw [hcycle] at step; exact step
        | broken b => trivial

/-- What a run reports. -/
theorem rising_reported (count : ℕ) : Rising (theMachine >>= fun m : Machine =>
    match m.exception with
    | some e => if m.options.throwOnException then raise e else pure count
    | none => pure count : Action (Session χ) ℕ) :=
  Rising.bind inferInstance fun m => by split <;> infer_instance

instance (natives : Natives χ) (budget : ℕ) : Rising (run natives budget) :=
  Rising.bind (rising_runFrom natives 0 budget) rising_reported

instance (natives : Natives χ) : Rising (runToCompletion natives : Action (Session χ) ℕ) := by
  unfold runToCompletion
  infer_instance

end Session

end StackScript
