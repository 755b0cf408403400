import StackScript.Proofs.Comparison.Lockstep
import StackScript.Proofs.Machine.Providing

/-!
# Sessions with one frame left

An unhindered session with one frame on its call stack gives the values that frame provides, one in each
cycle (`Session.Unhindered.gives`).  It completes when there are none left, or an exception is pending
(`Session.Unhindered.closes`): the frame goes, after it has made an exception pending if it fails.

Whatever a cycle does, the stacks grow by as many slots as before and the options are the same
(`Machine.SameMake`); and what the host keeps is left alone as long as no operator is executed.
-/

namespace StackScript

open StackScript.Action

namespace Machine

variable {m m' : Machine}

/-- The options stay. -/
def SameOptions (m m' : Machine) : Prop := m'.options = m.options

instance : IsPreorder Machine SameOptions where
  refl _ := rfl
  trans _ _ _ h h' := h'.trans h

theorem spares_options_perform (own : Option ℕ) (r : Request) : Spares options (r.perform own) := by
  have exchanged (drop : ℕ) (values : List Value) : Spares options (exchangeOperands drop values) :=
    spares_exchangeOperands (fun _ _ _ => rfl) drop values
  cases r with
  | observe => exact fun _ => rfl
  | exchange drop values => exact exchanged drop values
  | adopt drop v => exact (exchanged drop [v]).ensuring (spares_onMemory (fun _ _ => rfl) _)
  | release v => exact spares_onMemory (fun _ _ => rfl) _
  | clearOperands => exact spares_onOperands (fun _ _ _ => rfl) _
  | createArray access items => exact spares_createArray (fun _ _ => rfl) access items
  | createFilledArray access length v =>
    exact spares_createFilledArray (fun _ _ => rfl) access length v
  | createDictionary => exact spares_createDictionary fun _ _ => rfl
  | setItem container index v => exact spares_setItem (fun _ _ => rfl) container index v
  | define container name v => exact spares_define (fun _ _ => rfl) container name v
  | openScope v => exact spares_openScope (fun _ _ _ => rfl) v
  | closeScope => exact spares_closeScope fun _ _ _ => rfl
  | call v =>
    change Spares options (onCalls fun c => c.push { value := v })
    exact spares_onCalls (fun _ _ _ => rfl) _
  | openBlock | closeBlock => exact fun _ => rfl
  | setState next => exact spares_onOwn fun i => spares_setState next fun _ => rfl
  | setLocal name v =>
    exact spares_onOwn fun i => spares_setLocal (fun _ _ => rfl) (fun _ _ => rfl) name v
  | intercept => exact spares_intercept fun _ _ _ => rfl
  | stash => exact spares_onOwn fun i => spares_stash (fun _ _ _ => rfl) fun _ _ => rfl
  | restore => exact spares_onOwn fun i => spares_restore (fun _ _ _ => rfl) fun _ _ => rfl

instance : Stands SameOptions where
  memory x := ⟨spares_onMemory (fun _ _ => rfl) x⟩
  request own r := ⟨spares_options_perform own r⟩
  pushFrame _ := ⟨spares_onCalls (fun _ _ _ => rfl) _⟩
  popFrame := ⟨spares_onCalls (fun _ _ _ => rfl) _⟩
  replaceFrame _ := ⟨spares_onCalls (fun _ _ _ => rfl) _⟩
  updateFrame _ _ := ⟨spares_updateFrame fun _ => rfl⟩
  raise e := ⟨spares_raise (fun _ _ _ _ => rfl) e⟩

end Machine

namespace Session

variable {χ : Type} {natives : Natives χ} {s t : Session χ} {f : Frame} {rest : List Frame}

/-! ### What the host keeps -/

/-- What the host keeps stays. -/
def SameHost (s t : Session χ) : Prop := t.host = s.host

instance : IsPreorder (Session χ) SameHost where
  refl _ := rfl
  trans _ _ _ h h' := h'.trans h

instance {α : Type} (x : Action Machine α) : Respects SameHost (onMachine x : Action (Session χ) α) where
  respects _ := meets_onMachine (Outcome.meets_of_forall (fun _ _ => rfl) fun _ => rfl)

instance : Respects SameHost (theMachine : Action (Session χ) Machine) := ⟨fun _ => rfl⟩

instance : Respects SameHost (popFrame : Action (Session χ) Unit) :=
  inferInstanceAs (Respects SameHost (onMachine _))

instance (v : Value) : Respects SameHost (pushOperand v : Action (Session χ) Unit) :=
  inferInstanceAs (Respects SameHost (onMachine _))

instance (v : Value) : Respects SameHost (yieldItem v : Action (Session χ) Unit) := by
  unfold yieldItem
  infer_instance

/-- A frame that executes no operator has nothing to do with what the host keeps. -/
theorem sameHost_step (hf : f.value.toOperator? = none) (index : ℕ) :
    Respects SameHost (step natives index f) := by
  have unwound : Respects SameHost (unwind natives index f) := by
    unfold unwind
    rw [hf]
    infer_instance
  have named (token : Value) (name : String) :
      Respects SameHost (stepName token name : Action (Session χ) Unit) := by
    unfold stepName
    infer_instance
  have read (text : String) : Respects SameHost (stepSource index f text : Action (Session χ) Unit) := by
    unfold stepSource
    refine Respects.bind inferInstance fun next => ?_
    cases next <;> infer_instance
  have supplied (p : Supply) : Respects SameHost (stepSupply index p : Action (Session χ) Unit) := by
    unfold stepSupply
    cases p.next? <;> infer_instance
  have blocked (i : Handle) : Respects SameHost (stepBlock index f i : Action (Session χ) Unit) := by
    unfold stepBlock
    refine Respects.bind inferInstance fun m => Respects.bind inferInstance fun block => ?_
    cases block.get? f.cursor <;> infer_instance
  have advanced : Respects SameHost (advance natives index f) := by
    unfold advance
    split
    · infer_instance
    · split
      · rename_i o hd
        rw [toOperator?_eq_some hd] at hf
        cases hf
      all_goals infer_instance
  unfold step
  infer_instance

/-- Nor has its cycle. -/
theorem sameHost_of_next (hframes : s.machine.calls.frames = f :: rest)
    (hf : f.value.toOperator? = none) (ht : Next s t) : t.host = s.host := by
  have alike : Respects SameHost (step (Natives.none : Natives χ) rest.length f) :=
    sameHost_step hf rest.length
  have kept := alike.respects s
  rcases state?_cycle hframes ht with done | ⟨e, u, failed, ht⟩
  · rw [done] at kept
    exact kept
  · rw [failed] at kept
    have raised : Respects SameHost (onMachine (Machine.raise e) : Action (Session χ) Unit) :=
      inferInstance
    exact ((raised.respects u).of_state? ht).trans kept

end Session

/-! ### One session -/

namespace Machine

variable {m m' : Machine} {e : Exception}

/-- The stacks grow as they did, and the options are the same. -/
structure SameMake (m m' : Machine) : Prop where
  shape : m'.shape = m.shape
  options : m'.options = m.options

theorem SameMake.refl (m : Machine) : m.SameMake m := ⟨rfl, rfl⟩

theorem SameMake.trans {m'' : Machine} (h : m.SameMake m') (h' : m'.SameMake m'') : m.SameMake m'' :=
  ⟨h'.shape.trans h.shape, h'.options.trans h.options⟩

/-- **An exception is made pending** where none was, and its record is granted. -/
theorem raise_of_granted (hp : m.pending = none) (granted : (chargeRecord e m).overflows = false)
    (hm' : raise e m = .done () m') : ∃ p : PendingException, p.exception.condition = e.condition ∧
      m'.scene = { m.scene with pending := some p, blockDepth := 0 } ∧
        m'.memory.heap = m.memory.heap := by
  have sane : m.isDoomed = false := by
    rw [isDoomed, condition, exception, hp]
    rfl
  cases told : m.trail with
  | error b =>
    rw [raise_of_untold sane told] at hm'
    cases hm'
  | ok trail =>
    have discharged : discharge m.pending m = .done () m := by
      rw [hp]
      rfl
    rw [raise_bind sane told, Action.bind_done discharged] at hm'
    -- a record that is granted is charged, unless an invariant is broken
    rcases Renaming.charged_of_granted (Renaming.granted_at_record sane told discharged granted) with
      ⟨μ, charged, same⟩ | ⟨b, broken⟩
    · have recorded : onMemory (PendingException.record { e with trail := trail }) m = .done
          { exception := { e with trail := trail }
            charge := ({ e with trail := trail } : Exception).size } { m with memory := μ } := by
        unfold onMemory Action.zoom
        rw [record_apply, charged]
      rw [Action.bind_done recorded] at hm'
      obtain ⟨-, rfl⟩ := Outcome.done.inj hm'
      exact ⟨_, rfl, rfl, same⟩
    · have recorded : onMemory (PendingException.record { e with trail := trail }) m = .broken b := by
        unfold onMemory Action.zoom
        rw [record_apply, broken]
      rw [Action.bind_apply, recorded] at hm'
      cases hm'

end Machine

namespace Session

variable {χ : Type} {s t u : Session χ} {f : Frame} {d : Datum} {ds : List Datum}
  {k : Option Condition} {c : Condition}

theorem sameMake_of_next (ht : Next s t) : s.machine.SameMake t.machine where
  shape := ((respects_cycle (R := Machine.SameShape)).respects s).of_state? ht
  options := ((respects_cycle (R := Machine.SameOptions)).respects s).of_state? ht

section

variable (hs : s.Unhindered) (hframes : s.machine.calls.frames = [f]) (bare : f.Bare)
include hs hframes

/-- What the step of a frame without an operator is granted takes place. -/
theorem Unhindered.takes_place {P : Session χ → Prop} (hf : f.value.toOperator? = none)
    (granted : s.machine.Growing → Cells.Counted s.machine.memory.heap.cell? →
      s.machine.memory.Has s.machine.memory.heap.cell? →
        (step Natives.none 0 f s).Grants fun _ => P) :
    ∃ t, Next s t ∧ t.Unhindered ∧ t.host = s.host ∧ P t := by
  obtain ⟨Γ, x, hΓ, ample⟩ := hs
  obtain ⟨-, σ, hb, -⟩ := ample.sound.memory
  obtain ⟨t, ht, ample', taken⟩ :=
    ample.next hframes (List.cons_ne_nil _ _) (ample.fed hΓ)
      (granted ample.growing hb.positive hb.has)
  exact ⟨t, ht, ⟨Γ, x, hΓ, ample'⟩, sameHost_of_next hframes hf ht, taken⟩

include bare

theorem Unhindered.gives (hp : s.machine.pending = none)
    (hf : f.Provides s.machine.memory.heap.cell? (d :: ds) k) :
    ∃ t, Next s t ∧ t.Unhindered ∧ t.host = s.host ∧ Gives s.machine.memory.heap.cell? f d ds k s t :=
  hs.takes_place hframes hf.toOperator?_eq_none fun growing counted has =>
    provides_gives growing counted has hframes hp bare hf

/-- The call stack is empty, and nothing else has changed, except that a block may have gone. -/
structure Empties (s t : Session χ) : Prop where
  scene : t.machine.scene = { s.machine.scene with frames := [] }
  thins : Cells.Thins s.machine.memory.heap.cell? t.machine.memory.heap.cell?

theorem Unhindered.ends (hp : s.machine.pending = none)
    (hf : f.Provides s.machine.memory.heap.cell? [] none) :
    ∃ t, Next s t ∧ t.Unhindered ∧ t.host = s.host ∧ s.Empties t :=
  hs.takes_place hframes hf.toOperator?_eq_none fun growing counted has =>
    (provides_ends growing counted has hframes hp bare hf).mono
      fun _ _ ⟨_, gone, has', thins⟩ => ⟨gone.scene, has'.cells ▸ thins⟩

theorem Unhindered.unwinds (hp : s.machine.pending.isSome)
    (hf : f.Provides s.machine.memory.heap.cell? ds k) :
    ∃ t, Next s t ∧ t.Unhindered ∧ t.host = s.host ∧ s.Empties t :=
  hs.takes_place hframes hf.toOperator?_eq_none fun growing counted has =>
    (provides_unwinds growing counted has hframes hp bare hf).mono
      fun _ _ ⟨_, gone, has', thins⟩ => ⟨gone.scene, has'.cells ▸ thins⟩

end

/-- A cycle is one after which one has been done. -/
theorem Unhindered.after_one (hs : s.Unhindered) (work : s.machine.calls.frames ≠ []) (ht : Next s t) :
    After 1 s t := by
  obtain ⟨more, u, hu, -⟩ := hs.next work
  rw [Next, hu] at ht
  obtain rfl := Option.some.inj ht
  exact ⟨work, more, u, hu, rfl⟩

/-- The text cannot be read on. -/
theorem Unhindered.fails (hs : s.Unhindered) (hframes : s.machine.calls.frames = [f])
    (hp : s.machine.pending = none) (hf : f.Provides s.machine.memory.heap.cell? [] (some c)) :
    ∃ t p, Next s t ∧ t.Unhindered ∧ t.host = s.host ∧ p.exception.condition = c ∧
      t.machine.scene = { s.machine.scene with pending := some p, blockDepth := 0 } ∧
        t.machine.memory.heap = s.machine.memory.heap := by
  obtain ⟨e, rfl, failed⟩ := provides_fails hp hf
  have failed : step Natives.none ([] : List Frame).length f s = .raised e s := failed
  have granted := hs.not_starving
  rw [starves_apply hframes, failed] at granted
  obtain ⟨more, t, ht, unhindered⟩ := hs.next (by simp [hframes])
  have leads : Next s t := by
    rw [Next, ht]
    rfl
  -- the cycle is done, hence the exception has been made pending
  have raised : Machine.raise e s.machine = .done () t.machine := by
    rw [cycle_apply hframes, failed] at ht
    dsimp only at ht
    rw [Action.bind_apply] at ht
    unfold onMachine Action.zoom at ht
    cases hx : Machine.raise e s.machine with
    | done _ m =>
      rw [hx] at ht
      obtain ⟨-, rfl⟩ := Outcome.done.inj ht
      rfl
    | raised e' m | broken b =>
      rw [hx] at ht
      cases ht
  obtain ⟨p, same, scene, heap⟩ :=
    Machine.raise_of_granted hp (Bool.or_eq_false_iff.1 granted).2 raised
  exact ⟨t, p, leads, unhindered, sameHost_of_next hframes hf.toOperator?_eq_none leads, same, scene,
    heap⟩

/-! ### The end of a run -/

/-- A run completes whose last frame fails for the condition `k` if for any. -/
structure Closes (k : Option Condition) (s t : Session χ) : Prop where
  completes : s.Completes t
  unhindered : t.Unhindered
  make : s.machine.SameMake t.machine
  host : t.host = s.host
  operands : t.machine.operands.items = s.machine.operands.items
  scopes : t.machine.scopes.items = s.machine.scopes.items
  thins : Cells.Thins s.machine.memory.heap.cell? t.machine.memory.heap.cell?
  condition : t.machine.condition = (s.machine.condition <|> k)
  blockDepth : t.machine.blockDepth =
    if s.machine.condition = none ∧ k.isSome then 0 else s.machine.blockDepth

/-- No work is left at all. -/
theorem Unhindered.closes_of_idle (hs : s.Unhindered) (hframes : s.machine.calls.frames = []) :
    s.Closes none s where
  completes := ⟨hframes, 0, 0, rfl⟩
  unhindered := hs
  make := .refl _
  host := rfl
  operands := rfl
  scopes := rfl
  thins := .refl _
  condition := by cases s.machine.condition <;> rfl
  blockDepth := by rw [if_neg (by simp)]

/-- The frame goes in one cycle. -/
theorem Empties.closes (h : s.Empties t) (hs : s.Unhindered) (work : s.machine.calls.frames ≠ [])
    (ht : Next s t) (unhindered : t.Unhindered) (host : t.host = s.host)
    (hk : s.machine.condition = none → k = none) : s.Closes k t := by
  have condition : t.machine.condition = s.machine.condition :=
    congrArg (fun c => (c.pending.map PendingException.exception).map Exception.condition) h.scene
  have blockDepth : t.machine.blockDepth = s.machine.blockDepth := congrArg Scene.blockDepth h.scene
  refine ⟨(hs.after_one work ht).completes (congrArg Scene.frames h.scene), unhindered,
    sameMake_of_next ht, host, congrArg Scene.operands h.scene, congrArg Scene.scopes h.scene, h.thins,
    ?_, ?_⟩
  · rw [condition]
    cases hc : s.machine.condition with
    | none => rw [hk hc]; rfl
    | some c => rfl
  · rw [blockDepth, if_neg]
    rintro ⟨hc, some⟩
    rw [hk hc] at some
    cases some

theorem Closes.of_next (h : t.Closes none u) (hs : s.Unhindered) (work : s.machine.calls.frames ≠ [])
    (ht : Next s t) (host : t.host = s.host) (hp : s.machine.condition = none)
    (condition : t.machine.condition = some c)
    (scene : t.machine.scene = { s.machine.scene with pending := t.machine.pending, blockDepth := 0 })
    (heap : t.machine.memory.heap = s.machine.memory.heap) : s.Closes (some c) u where
  completes := (hs.after_one work ht).completes_of h.completes
  unhindered := h.unhindered
  make := (sameMake_of_next ht).trans h.make
  host := h.host.trans host
  operands := h.operands.trans (congrArg Scene.operands scene)
  scopes := h.scopes.trans (congrArg Scene.scopes scene)
  thins := heap ▸ h.thins
  condition := by rw [h.condition, condition, hp]; rfl
  blockDepth := by
    rw [h.blockDepth, if_neg (by simp), if_pos ⟨hp, rfl⟩]
    exact congrArg Scene.blockDepth scene

/-- **A run completes** with its last frame when an exception is pending or there is nothing left to give. -/
theorem Unhindered.closes (hs : s.Unhindered) (hframes : s.machine.calls.frames = [f]) (bare : f.Bare)
    (hf : f.Provides s.machine.memory.heap.cell? ds k) (rests : s.machine.pending.isSome ∨ ds = []) :
    ∃ u, s.Closes k u := by
  have work : s.machine.calls.frames ≠ [] := by simp [hframes]
  -- one cycle removes the frame; if the text cannot be read on, it takes another one to get there
  by_cases hp : s.machine.pending.isSome
  · obtain ⟨t, ht, unhindered, host, empties⟩ := hs.unwinds hframes bare hp hf
    refine ⟨t, empties.closes hs work ht unhindered host fun none => ?_⟩
    rw [Machine.condition, Machine.exception, Option.map_eq_none_iff, Option.map_eq_none_iff] at none
    rw [none] at hp
    cases hp
  · have calm : s.machine.pending = none := Option.not_isSome_iff_eq_none.1 hp
    obtain rfl := rests.resolve_left hp
    cases k with
    | none =>
      obtain ⟨t, ht, unhindered, host, empties⟩ := hs.ends hframes bare calm hf
      exact ⟨t, empties.closes hs work ht unhindered host fun _ => rfl⟩
    | some c =>
      obtain ⟨t, p, ht, unhindered, host, same, scene, heap⟩ := hs.fails hframes calm hf
      have raised : t.machine.pending = some p := congrArg Scene.pending scene
      obtain ⟨u, hu, unhindered', host', empties⟩ := unhindered.unwinds
        ((congrArg Scene.frames scene).trans hframes) bare (by rw [raised]; rfl) (heap ▸ hf)
      have condition : t.machine.condition = some c := by
        rw [Machine.condition, Machine.exception, raised, Option.map_some, Option.map_some, same]
      refine ⟨u, (empties.closes unhindered ?_ hu unhindered' host' fun _ => rfl).of_next hs work ht host
        ?_ condition (raised ▸ scene) heap⟩
      · rw [show t.machine.calls.frames = [f] from (congrArg Scene.frames scene).trans hframes]
        exact List.cons_ne_nil _ _
      · rw [Machine.condition, Machine.exception, calm]
        rfl

end Session

end StackScript
