import StackScript.Machine.Cycle
import StackScript.Proofs.Machine.Courses
import StackScript.Proofs.Memory.Contents

/-!
# What stands whatever happens

A relation between a machine and what becomes of it *stands* if every request respects it, and so does
each of the few operations by which cycles work on a machine without an operator
(`Machine.Stands`).  Then everything a host and its operators do respects it
(`Session.stands_of_goes`).

* `Machine.Rooted` (in `Machine.Scopes`): the scopes at the bottom stay there;
* `Machine.Stretches`: stacks have other slots perhaps, but grow as they did, so the operands and the
  call frames of a machine can always grow (`Reached.growing`).
-/

namespace StackScript

open StackScript.Action

/-- Everything that can happen to a machine respects the relation. -/
class Machine.Stands (R : Machine → Machine → Prop) : Prop extends IsPreorder Machine R where
  memory : ∀ {α : Type} (x : Action Memory α), Respects R (Machine.onMemory x)
  request : ∀ (own : Option ℕ) (r : Request), Respects R (r.perform own)
  pushFrame : ∀ f : Frame, Respects R (Machine.onCalls fun c => c.push f)
  popFrame : Respects R Machine.popFrame
  replaceFrame : ∀ v : Value, Respects R (Machine.replaceFrame v)
  updateFrame : ∀ (index : ℕ) (g : Frame → Frame), Respects R (Machine.updateFrame index g)
  raise : ∀ e : Exception, Respects R (Machine.raise e)

namespace Machine

variable {R : Machine → Machine → Prop} [Stands R]

instance {α : Type} (x : Action Memory α) : Respects R (onMemory x) := Stands.memory x

instance (drop : ℕ) (values : List Value) : Respects R (exchangeOperands drop values) :=
  Stands.request none (.exchange drop values)

instance (access : Access) (items : List Value) : Respects R (createArray access items) :=
  Stands.request none (.createArray access items)

instance (f : Frame) : Respects R (onCalls fun c => c.push f) := Stands.pushFrame f

instance (v : Value) : Respects R (call v) := Stands.pushFrame { value := v }

instance : Respects R popFrame := Stands.popFrame

instance (v : Value) : Respects R (replaceFrame v) := Stands.replaceFrame v

instance (index : ℕ) (g : Frame → Frame) : Respects R (updateFrame index g) :=
  Stands.updateFrame index g

instance (index : ℕ) (next : Continuation) : Respects R (setState index next) :=
  Stands.request (some index) (.setState next)

instance (v : Value) : Respects R (release v) := inferInstanceAs (Respects R (onMemory _))

instance (e : Exception) : Respects R (raise e) := Stands.raise e

end Machine

open Machine

variable {R : Machine → Machine → Prop} [Stands R]

/-- Whatever an operator does respects the relation. -/
instance Operation.respects_runOn {α : Type} (own : Option ℕ) (p : Operation α) :
    Respects R (p.runOn own) where
  respects m := p.run_keeps (I := R m) (fun r m' h => (((Stands.request own r).respects m').mono
    (fun _ _ h' => trans_of R h h') fun _ h' => trans_of R h h')) (refl_of R m)

/-- So does queueing work. -/
instance Machine.respects_execute (work : Work) : Respects R (execute work) := by
  cases work with
  | source text origin => exact inferInstanceAs (Respects R (call _))
  | values vs =>
    exact inferInstanceAs (Respects R (createArray .block vs >>= fun block =>
      (call block).ensuring (release block)))
  | supply p =>
    exact inferInstanceAs (Respects R (onCalls fun c => c.push { value := .null, supply := some p }))

/-! ### Sessions -/

namespace Session

variable {χ : Type} {natives : Natives χ} {s t : Session χ}

/-- The relation between the machines of two sessions. -/
def Between (R : Machine → Machine → Prop) (s t : Session χ) : Prop := R s.machine t.machine

instance : IsPreorder (Session χ) (Between R) where
  refl s := refl_of R s.machine
  trans _ _ _ h h' := trans_of R h h'

instance {α : Type} (x : Action Machine α) [Respects R x] :
    Respects (Between (χ := χ) R) (onMachine x) where
  respects s := meets_onMachine (Respects.respects (R := R) s.machine)

instance : Respects (Between R) (theMachine : Action (Session χ) Machine) :=
  ⟨refl_of (Between R)⟩

instance (v : Value) : Respects (Between R) (pushOperand v : Action (Session χ) Unit) :=
  inferInstanceAs (Respects (Between R) (onMachine _))

instance : Respects (Between R) (popFrame : Action (Session χ) Unit) :=
  inferInstanceAs (Respects (Between R) (onMachine _))

instance (v : Value) : Respects (Between R) (yieldItem v : Action (Session χ) Unit) := by
  unfold yieldItem
  infer_instance

instance (own : Option ℕ) (p : χ → Operation (χ × Except Exception Unit)) :
    Respects (Between R) (runKeeping own p) where
  respects s := by
    have ran := (Operation.respects_runOn (R := R) own (p s.host)).respects s.machine
    unfold runKeeping
    cases hp : (p s.host).runOn own s.machine with
    | done r m =>
      rw [hp] at ran
      obtain ⟨host, r⟩ := r
      cases r <;> exact ran
    | raised e m => rw [hp] at ran; exact ran
    | broken b => trivial

/-- Invoking an operator. -/
theorem respects_invoke {o : Operator} {signature : List Param}
    {invoke : ℕ → List Value → Action (Session χ) Unit}
    (ho : Behaviour.ofOperator natives o = .function signature invoke) (index : ℕ)
    (params : List Value) : Respects (Between R) (invoke index params) := by
  rcases Behaviour.function_cases ho with ⟨b, -, -, -, rfl⟩ | ⟨name, looping, operation, -, -, rfl⟩
  · exact inferInstanceAs (Respects (Between R) (onMachine _))
  · exact inferInstanceAs (Respects (Between R) (runKeeping _ _))

instance (index : ℕ) (state : Continuation) :
    Respects (Between R) (settle index state : Action (Session χ) Unit) := by
  unfold settle
  infer_instance

instance (index : ℕ) : Respects (Between R) (abandon index : Action (Session χ) Unit) :=
  inferInstanceAs (Respects (Between R) (onMachine (updateFrame index _)))

instance (index : ℕ) (o : Operator) : Respects (Between R) (stepOperator natives index o) := by
  unfold stepOperator
  cases hb : Behaviour.ofOperator natives o with
  | constant v => infer_instance
  | function signature invoke =>
    have := respects_invoke (R := R) hb
    dsimp only
    refine Respects.bind inferInstance fun m => Respects.bind inferInstance fun f => ?_
    have dispatched : Respects (Between R) (dispatch index signature (invoke index)) := by
      unfold dispatch
      refine Respects.bind inferInstance fun m => Respects.bind inferInstance fun params => ?_
      refine Respects.bind inferInstance fun _ => ?_
      infer_instance
    have resumed (state : Continuation) :
        Respects (Between R) (resume index state (invoke index)) := by
      unfold resume
      infer_instance
    cases f.state <;> infer_instance

instance (token : Value) (name : String) :
    Respects (Between R) (stepName token name : Action (Session χ) Unit) := by
  unfold stepName
  infer_instance

instance (index : ℕ) (f : Frame) (text : String) :
    Respects (Between R) (stepSource index f text : Action (Session χ) Unit) := by
  unfold stepSource
  refine Respects.bind inferInstance fun next => ?_
  cases next <;> infer_instance

instance (index : ℕ) (p : Supply) :
    Respects (Between R) (stepSupply index p : Action (Session χ) Unit) := by
  unfold stepSupply
  cases p.next? <;> infer_instance

instance (index : ℕ) (f : Frame) (i : Handle) :
    Respects (Between R) (stepBlock index f i : Action (Session χ) Unit) := by
  unfold stepBlock
  refine Respects.bind inferInstance fun m => Respects.bind inferInstance fun block => ?_
  cases block.get? f.cursor <;> infer_instance

instance respects_step (index : ℕ) (f : Frame) : Respects (Between R) (step natives index f) := by
  have unwound : Respects (Between R) (unwind natives index f) := by
    unfold unwind
    cases f.value.toOperator? <;> infer_instance
  have advanced : Respects (Between R) (advance natives index f) := by
    unfold advance
    split
    · infer_instance
    · split <;> infer_instance
  unfold step
  infer_instance

/-- **Every cycle** respects the relation. -/
instance respects_cycle : Respects (Between R) (cycle natives) := by
  unfold cycle
  refine Respects.bind inferInstance fun m => ?_
  cases m.calls.frames with
  | nil => infer_instance
  | cons f rest =>
    refine Respects.bind inferInstance fun r => ?_
    cases r <;> infer_instance

/-- **Whatever a host and its operators do** respects the relation. -/
theorem stands_of_goes (h : Relation.ReflTransGen (Goes natives) s t) : R s.machine t.machine := by
  have kept {α : Type} {x : Action (Session χ) α} [Respects (Between R) x] {s t : Session χ}
      (ht : (x s).state? = some t) : R s.machine t.machine :=
    (Respects.respects (R := Between R) (x := x) s).of_state? ht
  induction h with
  | refl => exact refl_of R s.machine
  | tail _ step ih =>
    refine trans_of R ih ?_
    cases step with
    | request r ht =>
      have := Stands.request (R := R) none r
      exact kept ht
    | execute work ht => exact kept ht
    | cycle ht => exact kept ht

end Session

end StackScript
