import StackScript.Proofs.Guarantees.Resolution
import StackScript.Proofs.Machine.Scene
import StackScript.Proofs.Machine.Unwinding
import StackScript.Proofs.Memory.Reaching
import StackScript.Proofs.Operator.Resume

/-!
# Cycles to which nothing is refused

A session is *ample* if its machine is sound, its stacks can grow, and no allocation will be refused
before the frames are those at which some work ends, its goal (`Session.Ample`).  Until then what
the step of a cycle is granted takes place, and the session is ample after it
(`Session.Ample.next`).  With no frames for a goal, nothing will be refused in any cycle that follows.

So the cycles of an ample session are determined by what it shows: the lemmas below say what each kind
of cycle leaves.
-/

namespace StackScript

open StackScript.Action Memory
open Relation (ReflTransGen)

namespace Session

variable {χ : Type} {Γ : Charter} {x : Stake} {s t : Session χ} {f : Frame}
  {above rest goal : List Frame} {v : Value} {natives : Natives χ}

/-- One cycle leads from the one session to the other. -/
def Next (s t : Session χ) : Prop := (cycle Natives.none s).state? = some t

/-- An allocation is refused in one of the cycles before the frames are `goal`. -/
inductive StarvesBefore (goal : List Frame) : Session χ → Prop
  | now {s : Session χ} (hs : s.machine.calls.frames ≠ goal) (starves : s.starves = true) :
    StarvesBefore goal s
  | later {s t : Session χ} {more : Bool} (hs : s.machine.calls.frames ≠ goal)
    (hc : cycle Natives.none s = .done more t) (ht : StarvesBefore goal t) : StarvesBefore goal s

theorem StarvesBefore.ne (h : s.StarvesBefore goal) : s.machine.calls.frames ≠ goal := by
  cases h <;> assumption

/-- The machine is sound, its stacks can grow, and no allocation will be refused before the frames
are `goal`. -/
structure Ample (Γ : Charter) (x : Stake) (goal : List Frame) (s : Session χ) : Prop where
  sound : s.machine.Sound Γ 0 x
  growing : s.machine.Growing
  granted : ¬ s.StarvesBefore goal

/-- The frames are not `goal` yet, nor fewer. -/
structure ToCome (goal frames : List Frame) : Prop where
  ne : frames ≠ goal
  le : goal.length ≤ frames.length

theorem toCome_cons (h : goal.length ≤ rest.length) (f : Frame) : ToCome goal (f :: rest) := by
  refine ⟨?_, h.trans (Nat.le_succ _)⟩
  rintro rfl
  exact absurd h (Nat.not_succ_le_self _)

theorem toCome_nil : ToCome [] (f :: rest) := toCome_cons (Nat.zero_le _) f

/-- Nor are they when another frame is above them, whatever the top frame has become. -/
theorem ToCome.push (h : ToCome goal (f :: rest)) (g f' : Frame) :
    ToCome goal (g :: f' :: rest) := by
  have le : goal.length ≤ (f' :: rest).length := h.le
  exact toCome_cons le g

/-- No work is left after so many cycles, and no allocation has been refused in them. -/
def concludes : ℕ → Session χ → Bool
  | 0, s => s.machine.calls.isEmpty
  | budget + 1, s => s.machine.calls.isEmpty || (!s.starves && match cycle Natives.none s with
      | .done _ t => concludes budget t
      | _ => false)

/-- Then none will be refused later, there being no work. -/
theorem granted_of_concludes {budget : ℕ} (h : s.concludes budget = true) (k : ℕ) :
    s.starvesWithin k = false := by
  induction k generalizing s budget with
  | zero => rfl
  | succ k ih =>
    rw [starvesWithin]
    split
    · rfl
    · rename_i work
      cases budget with
      | zero => exact absurd h work
      | succ budget =>
        rw [concludes, Bool.or_eq_true, Bool.and_eq_true] at h
        obtain ⟨granted, later⟩ := h.resolve_left work
        rw [show s.starves = false by simpa using granted, Bool.false_or]
        cases hc : cycle Natives.none s with
        | done a t => rw [hc] at later; exact ih later
        | raised e t | broken b => rfl

/-- Without work a cycle does nothing. -/
theorem eq_of_idle (hs : s.machine.calls.frames = []) (ht : Next s t) : t = s := by
  have nothing : cycle Natives.none s = .done false s := by
    rw [cycle, theMachine_bind, hs]
    rfl
  rw [Next, nothing] at ht
  exact (Option.some.inj ht).symm

/-- What is never refused is not refused before the frames are these. -/
theorem not_starvesBefore (h : ∀ k, s.starvesWithin k = false) : ¬ s.StarvesBefore goal := by
  have busy {s : Session χ} (work : s.machine.calls.frames ≠ []) :
      ¬ s.machine.calls.isEmpty = true := by
    simpa [CallStack.isEmpty] using work
  intro refused
  induction refused with
  | @now s _ starves =>
    by_cases work : s.machine.calls.frames = []
    · rw [Session.starves, work] at starves
      cases starves
    · have one := h 1
      rw [starvesWithin, if_neg (busy work), starves] at one
      cases one
  | @later s t more _ hc _ ih =>
    refine ih fun k => ?_
    by_cases work : s.machine.calls.frames = []
    · obtain rfl := eq_of_idle (t := t) work (by rw [Next, hc]; rfl)
      exact h k
    · have next := h (k + 1)
      rw [starvesWithin, if_neg (busy work), hc] at next
      exact (Bool.or_eq_false_iff.1 next).2

/-- Nothing is taken from the host in the next cycle. -/
theorem fed_of_no_supply (hframes : s.machine.calls.frames = f :: rest) (hf : f.supply = none) :
    s.machine.Fed x := by
  intro v hv
  unfold Machine.offered? at hv
  split at hv
  · cases hv
  · rw [hframes, List.head?_cons, Option.bind_some, hf] at hv
    cases hv

/-- Every cycle before the goal leaves the session ample, and the locals of the frames below as they
were. -/
theorem Ample.of_next (h : s.Ample Γ x goal) (hframes : s.machine.calls.frames = f :: rest)
    (hgoal : f :: rest ≠ goal) (hfed : s.machine.Fed x) (ht : Next s t) :
    t.Ample Γ x goal ∧ s.machine.Steady rest.length t.machine := by
  have advanced := step_advances (Behaviour.works_none Γ) h.sound hfed hframes
  have moved : (step Natives.none rest.length f s).Meets True _ _ := step_handles hframes
  obtain ⟨sound, steady⟩ : t.machine.Sound Γ 0 x ∧ s.machine.Steady rest.length t.machine := by
    rcases state?_cycle hframes ht with done | ⟨e, u, failed, ht⟩
    · unfold Advances at advanced
      rw [done] at advanced
      exact advanced
    · unfold Advances at advanced
      rw [failed] at advanced moved
      obtain ⟨sound, steady⟩ := advanced
      have depth : rest.length ≤ u.machine.calls.length := Frame.Handled.length_le moved
      have raised : (onMachine (Machine.raise e) u).Meets True
          (fun _ t => t.machine.Sound Γ rest.length x ∧ u.machine.Steady rest.length t.machine)
          fun t => t.machine.Sound Γ rest.length x ∧ u.machine.Steady rest.length t.machine :=
        meets_onMachine (Machine.raise_meets { sound with depth := depth } e)
      obtain ⟨sound, later⟩ := raised.of_state? ht
      exact ⟨{ sound with depth := Nat.zero_le _ }, steady.trans later⟩
  have growing : s.machine.SameGrowth t.machine :=
    ((respects_cycle (R := Machine.SameGrowth)).respects s).of_state? ht
  refine ⟨⟨sound, h.growing.of_growth growing, fun later => ?_⟩, steady⟩
  have ends := cycle_meets (Behaviour.works_none Γ) h.sound hfed
  unfold Next at ht
  cases hc : cycle Natives.none s with
  | done a u =>
    rw [hc] at ht
    obtain rfl := Option.some.inj ht
    exact h.granted (.later (hframes ▸ hgoal) hc later)
  | raised e u => rw [hc] at ends; exact ends.elim
  | broken b => rw [hc] at ends; exact ends.elim

/-- Nothing is refused in the next cycle. -/
theorem Ample.hungerless (h : s.Ample Γ x goal) (hgoal : s.machine.calls.frames ≠ goal) :
    s.starves = false :=
  Bool.eq_false_iff.2 fun starves => h.granted (.now hgoal starves)

/-- What is granted takes place. -/
theorem Ample.done {P : Session χ → Prop} (h : s.Ample Γ x goal)
    (hframes : s.machine.calls.frames = f :: rest) (hgoal : f :: rest ≠ goal)
    (hfed : s.machine.Fed x) (ha : (step Natives.none rest.length f s).Grants fun _ => P) :
    ∃ t, step Natives.none rest.length f s = .done () t ∧ P t := by
  have hungry := h.hungerless (hframes ▸ hgoal)
  have granted : (step Natives.none rest.length f s).overflows = false := by
    rw [starves, hframes] at hungry
    dsimp only at hungry
    cases hstep : step Natives.none rest.length f s with
    | raised e u => rw [hstep] at hungry; exact (Bool.or_eq_false_iff.1 hungry).1
    | done a u | broken b => rfl
  obtain ⟨⟨⟩, t, done, ht, -⟩ :=
    ha.done (step_advances (Behaviour.works_none Γ) h.sound hfed hframes) granted
  exact ⟨t, done, ht⟩

/-- A step that is done makes a cycle. -/
theorem next_of_step (hframes : s.machine.calls.frames = f :: rest)
    (hstep : step Natives.none rest.length f s = .done () t) : Next s t := by
  unfold Next cycle
  rw [theMachine_bind, hframes]
  dsimp only
  rw [Action.bind_apply, Action.attempt, hstep]
  rfl

theorem Ample.next {P : Session χ → Prop} (h : s.Ample Γ x goal)
    (hframes : s.machine.calls.frames = f :: rest) (hgoal : f :: rest ≠ goal)
    (hfed : s.machine.Fed x) (ha : (step Natives.none rest.length f s).Grants fun _ => P) :
    ∃ t, Next s t ∧ t.Ample Γ x goal ∧ P t := by
  obtain ⟨t, done, ht⟩ := h.done hframes hgoal hfed ha
  have leads := next_of_step hframes done
  exact ⟨t, leads, (h.of_next hframes hgoal hfed leads).1, ht⟩

/-! ### Texts -/

/-- A token's value, with the place it comes from. -/
def tokenValue (code : Value) (text : String) (token : Token) : Value :=
  token.value.withSource (some (tokenSource code text token))

variable {text : String} {token : Token}

theorem stepSource_eq (htoken : Token.next text f.cursor = .ok (some token)) (index : ℕ) :
    stepSource index f text s =
      (if (tokenValue f.value text token).isExecutable then
        onMachine (Machine.call (tokenValue f.value text token)) >>= fun _ =>
          onMachine (Machine.updateFrame index fun f => { f with cursor := token.stop })
      else pushOperand (tokenValue f.value text token) >>= fun _ =>
        onMachine (Machine.updateFrame index fun f => { f with cursor := token.stop })) s := by
  rw [stepSource, htoken]
  rfl

/-- A frame is changed, below what has been queued. -/
theorem updateFrame_grants (above : List Frame) (hframes : s.machine.calls.frames = above ++ f :: rest)
    (g : Frame → Frame) :
    (onMachine (Machine.updateFrame rest.length g) s).Grants fun _ t => s.machine.Becomes
      { s.machine.scene with frames := above ++ g f :: rest } t.machine ∧
        s.machine.memory = t.machine.memory := by
  refine grants_onMachine ?_
  obtain ⟨m, moved, memory, becomes⟩ := Machine.updateFrame_above hframes g
  rw [moved]
  exact ⟨becomes, memory⟩

/-- A token that is executable is queued. -/
theorem stepSource_queues (hm : s.machine.Growing) (hframes : s.machine.calls.frames = f :: rest)
    (htoken : Token.next text f.cursor = .ok (some token))
    (hexec : (tokenValue f.value text token).isExecutable = true) :
    (stepSource rest.length f text s).Grants fun _ t => s.machine.Becomes
      { s.machine.scene with
        frames := { value := tokenValue f.value text token } ::
          { f with cursor := token.stop } :: rest } t.machine ∧
        s.machine.memory.Recounts t.machine.memory := by
  rw [stepSource_eq htoken, if_pos hexec]
  refine grants_onMachine_bind ((Machine.pushFrame_grants hm _).mono fun _ m ⟨h₁, recounts⟩ => ?_)
  rw [hframes] at h₁
  refine (updateFrame_grants [_] h₁.frames _).mono fun _ t ⟨h₂, same⟩ =>
    ⟨⟨h₂.scene.trans ?_, h₂.growth.trans h₁.growth⟩, same ▸ recounts⟩
  rw [h₁.scene]
  rfl

/-- Any other token is pushed. -/
theorem stepSource_pushes (hm : s.machine.Growing) (hframes : s.machine.calls.frames = f :: rest)
    (htoken : Token.next text f.cursor = .ok (some token))
    (hinert : (tokenValue f.value text token).isExecutable = false) :
    (stepSource rest.length f text s).Grants fun _ t => s.machine.Becomes
      { s.machine.scene with
        operands := tokenValue f.value text token :: s.machine.operands.items
        frames := { f with cursor := token.stop } :: rest } t.machine ∧
        s.machine.memory.Recounts t.machine.memory := by
  rw [stepSource_eq htoken, if_neg (by simp [hinert])]
  refine grants_onMachine_bind ((Machine.pushOperands_grants hm _).mono fun _ m ⟨h₁, recounts⟩ => ?_)
  refine (updateFrame_grants [] (h₁.frames.trans hframes) _).mono
    fun _ t ⟨h₂, same⟩ => ⟨⟨h₂.scene.trans ?_, h₂.growth.trans h₁.growth⟩, same ▸ recounts⟩
  rw [h₁.scene]
  rfl

/-! ### Frames, by what they execute -/

theorem step_of_name {name : String} (hp : s.machine.pending = none) (hf : f.supply = none)
    (hv : f.value.datum = .name name true) (index : ℕ) :
    step Natives.none index f s = stepName f.value name s := by
  rw [step_of_not_pending (by simp [hp]), advance, hf]
  dsimp only
  rw [hv]

theorem step_of_builtin {b : Builtin} (hp : s.machine.pending = none) (hf : f.supply = none)
    (hv : f.value.datum = .operator (.builtin b)) (index : ℕ) :
    step Natives.none index f s = stepOperator Natives.none index (.builtin b) s := by
  rw [step_of_not_pending (by simp [hp]), advance, hf]
  dsimp only
  rw [hv]

/-! ### Names -/

/-- A value goes to the operands, and the top frame goes. -/
theorem pushOperand_popFrame_grants (hm : s.machine.Growing)
    (hframes : s.machine.calls.frames = f :: rest) (v : Value) :
    ((pushOperand v >>= fun _ => popFrame) s).Grants fun _ t => s.machine.Becomes
      { s.machine.scene with operands := v :: s.machine.operands.items, frames := rest } t.machine ∧
        s.machine.memory.Sheds t.machine.memory := by
  refine grants_onMachine_bind ((Machine.pushOperands_grants hm _).mono fun _ m ⟨h₁, recounts⟩ => ?_)
  refine grants_onMachine ((Machine.popFrame_grants (h₁.growing hm) (h₁.frames.trans hframes)).mono
    fun _ m' ⟨h₂, sheds⟩ => ⟨⟨h₂.scene.trans ?_, h₂.growth.trans h₁.growth⟩,
      recounts.sheds.trans sheds⟩)
  rw [h₁.scene]
  rfl

/-- While a block is being defined, names are collected. -/
theorem stepName_collects {name : String} (hm : s.machine.Growing)
    (hframes : s.machine.calls.frames = f :: rest) (hdepth : 0 < s.machine.blockDepth)
    (hname : isBrace name = false) (token : Value) :
    (stepName token name s).Grants fun _ t => s.machine.Becomes
      { s.machine.scene with operands := token :: s.machine.operands.items, frames := rest }
      t.machine ∧ s.machine.memory.Sheds t.machine.memory := by
  rw [stepName, theMachine_bind, if_pos (by simp [hdepth, hname])]
  exact pushOperand_popFrame_grants hm hframes token

/-- Otherwise the name gives way to what it is bound to. -/
theorem stepName_resolves {name : String} {scope w : Value} (h : s.machine.Sound Γ 0 x)
    (hm : s.machine.Growing) (hframes : s.machine.calls.frames = f :: rest)
    (hname : s.machine.blockDepth = 0 ∨ isBrace name)
    (hfound : s.machine.resolution? name = some (scope, w)) (token : Value) :
    (stepName token name s).Grants fun _ t => s.machine.Becomes
      { s.machine.scene with
        frames := { value := w.withSource (w.source <|> token.source) } :: rest } t.machine ∧
        s.machine.memory.Sheds t.machine.memory := by
  rw [stepName_eq h token hname, hfound]
  exact grants_onMachine (Machine.replaceFrame_grants hm hframes _)

/-! ### Operators -/

/-- An operator that is done is removed. -/
theorem settle_grants {c : Continuation} (hm : s.machine.Growing)
    (hframes : s.machine.calls.frames = f :: rest)
    (hdone : f.state = c ∧ c.Rests ∨ f.state = .pop) :
    (settle rest.length c s).Grants fun _ t =>
      s.machine.Becomes { s.machine.scene with frames := rest } t.machine ∧
        s.machine.memory.Sheds t.machine.memory := by
  -- the frame goes, whatever its state is by now
  have last (p : Prop) [Decidable p] (hp : p) (m : Machine) (hm : m.Growing) (g : Frame)
      (hframes : m.calls.frames = g :: rest) :
      (((get : Action Machine Machine) >>= fun m => if p ∧ m.calls.length = rest.length + 1 then
        Machine.popFrame else pure ()) m).Grants fun _ m' =>
          m.Becomes { m.scene with frames := rest } m' ∧ m.memory.Sheds m'.memory := by
    rw [Action.get_bind, if_pos ⟨hp, CallStack.length_of_cons hframes⟩]
    exact Machine.popFrame_grants hm hframes
  refine grants_onMachine ?_
  rw [Action.get_bind, Machine.frame_bind (CallStack.frame?_head hframes)]
  dsimp only
  split
  · rename_i idle
    obtain ⟨m₁, moved, memory, h₁⟩ := Machine.setState_above [] .pop hframes
      (Continuation.Rests.canBecome_pop idle.2)
    rw [Action.bind_done moved]
    refine (last _ (.inl idle) m₁ (h₁.growing hm) _ h₁.frames).mono fun _ m₂ ⟨h₂, sheds⟩ =>
      ⟨⟨h₂.scene.trans ?_, h₂.growth.trans h₁.growth⟩, memory ▸ sheds⟩
    rw [h₁.scene]
  · rename_i idle
    refine last _ (.inr (hdone.resolve_left ?_)) s.machine hm f hframes
    rintro ⟨rfl, hc⟩
    exact idle ⟨rfl, hc⟩

/-- An operator that has moved on stays. -/
theorem settle_stays {c : Continuation} (hframes : s.machine.calls.frames = above ++ f :: rest)
    (hmoved : f.state = c → ¬ c.Rests) (hpop : f.state ≠ .pop) :
    settle rest.length c s = .done () s := by
  have busy : ¬ (f.state = c ∧ (f.state = .firstCall ∨ f.state = .callBeforePop)) := by
    rintro ⟨rfl, rests⟩
    exact hmoved rfl rests
  unfold settle onMachine Action.zoom
  rw [Action.get_bind, Machine.frame_bind (CallStack.frame?_above hframes)]
  simp [busy, hpop, Action.get_bind]

/-- An operator is invoked for the first time, in its first call and with its operands pinned; they
are given up again before its frame is settled. -/
theorem dispatch_grants {signature : List Param} {params : List Value}
    {invoke : List Value → Action (Session χ) Unit} {E : Scene → Memory → Prop} {P : Session χ → Prop}
    (h : s.machine.Sound Γ 0 x) (hframes : s.machine.calls.frames = f :: rest)
    (hstate : f.state = .unknown) (hparams : s.machine.matchOperands signature = .ok params)
    (hinvoke : ∀ m, s.machine.Becomes
      { s.machine.scene with frames := { f with state := .firstCall } :: rest } m →
        s.machine.memory.Recounts m.memory → m.Sound Γ (rest.length + 1) (x + .refs params) →
          (invoke params { s with machine := m }).Grants fun _ t =>
            ∃ c, s.machine.Becomes c t.machine ∧ E c t.machine.memory)
    (hsheds : ∀ c μ ν, E c μ → μ.Sheds ν → E c ν)
    (hsettle : ∀ t c, s.machine.Becomes c t.machine → E c t.machine.memory →
      (settle rest.length .firstCall t).Grants fun _ => P) :
    (dispatch rest.length signature invoke s).Grants fun _ => P := by
  have h : s.machine.Sound Γ (rest.length + 1) x :=
    { h with depth := (CallStack.length_of_cons hframes).ge }
  rw [dispatch, theMachine_bind, hparams]
  change Outcome.Grants ((onMachine (Machine.setState rest.length .firstCall) >>= fun _ =>
    onMachine (Machine.onMemory (Memory.retainAll params)) >>= fun _ => (invoke params).ensuring
      (onMachine (Machine.onMemory (Memory.releaseAll params))) >>= fun _ =>
        settle rest.length .firstCall) s) _
  obtain ⟨m₁, moved, memory, h₁⟩ := Machine.setState_above [] .firstCall
    hframes (by rw [hstate]; rfl)
  have moves : (Machine.setState rest.length .firstCall s.machine).Meets True _ _ :=
    Machine.setState_meets h (Nat.lt_succ_self _)
  rw [moved] at moves
  obtain ⟨sound₁, -, operands⟩ := moves
  have called : onMachine (Machine.setState rest.length .firstCall) s =
      .done () { s with machine := m₁ } := by
    unfold onMachine Action.zoom
    rw [moved]
  rw [Action.bind_done called]
  -- the operands stay where they are until they are pinned
  have known (v : Value) (hv : v ∈ params) : m₁.Knows x v :=
    Machine.knows_of_operand (operands ▸ Machine.mem_of_matchOperands hparams hv)
  refine grants_onMachine_bind (((Machine.retainAll_grants m₁ params).also (L := True)
    (Machine.retainAll_meets sound₁ known)).mono fun _ m₂ ⟨⟨h₂, recounts⟩, sound₂, _⟩ => ?_)
  refine grants_bind (grants_ensuring (hinvoke m₂ ⟨?_, h₂.growth.trans h₁.growth⟩
    (memory ▸ recounts) sound₂) (Machine.raises_onMemory (Memory.raises_releaseAll params)).zoom
    (P := fun _ t => ∃ c, s.machine.Becomes c t.machine ∧ E c t.machine.memory)
    fun _ t ⟨c, hc, he⟩ => ?_) fun _ t ⟨c, hc, he⟩ => hsettle t c hc he
  · exact h₂.scene.trans h₁.scene
  · refine yields_zoom ((Machine.releaseAll_yields t.machine params).mono
      (fun _ m' ⟨h₃, sheds⟩ => ⟨c, ⟨h₃.scene.trans hc.scene, h₃.growth.trans hc.growth⟩,
        hsheds c _ _ he sheds⟩) fun _ _ => id)

/-- An operator is invoked again. -/
theorem resume_grants {c : Continuation} {invoke : List Value → Action (Session χ) Unit}
    {M P : Session χ → Prop} (hinvoke : (invoke [] s).Grants fun _ => M)
    (hsettle : ∀ t, M t → (settle rest.length c t).Grants fun _ => P) :
    (resume rest.length c invoke s).Grants fun _ => P := by
  refine grants_bind (grants_onRaise hinvoke ?_) fun _ t ht => hsettle t ht
  split
  · exact raises_updateFrame _ _
  · exact raises_pure ()

variable {b : Builtin} {params : List Value}

/-- A builtin that is waiting for another invocation. -/
theorem stepOperator_resumes (hb : b.constant? = none)
    (hframes : s.machine.calls.frames = f :: rest) (hunknown : f.state ≠ .unknown)
    (hpop : f.state ≠ .pop) :
    stepOperator natives rest.length (.builtin b) s = resume rest.length f.state
      (fun params => onMachine ((b.operation params).runOn (some rest.length))) s := by
  rw [stepOperator, Behaviour.ofOperator, Behaviour.ofBuiltin, hb]
  dsimp only
  rw [theMachine_bind, Machine.frame_of_frame? (CallStack.frame?_head hframes), read_bind]
  cases hstate : f.state with
  | unknown => exact absurd hstate hunknown
  | pop => exact absurd hstate hpop
  | firstCall | running _ | callBeforePop | popping _ => rfl

/-- The frame of a builtin that is done in its first call is removed. -/
theorem dispatch_completes {E : Scene → Memory → Prop} (h : s.machine.Sound Γ 0 x)
    (hm : s.machine.Growing) (hb : b.constant? = none)
    (hframes : s.machine.calls.frames = f :: rest) (hstate : f.state = .unknown)
    (hparams : s.machine.matchOperands b.signature = .ok params)
    (hoperation : ∀ m, s.machine.Becomes
      { s.machine.scene with frames := { f with state := .firstCall } :: rest } m →
        s.machine.memory.Recounts m.memory → m.Sound Γ (rest.length + 1) (x + .refs params) →
          ((b.operation params).runOn (some rest.length) m).Grants fun _ m' =>
            ∃ c, s.machine.Becomes c m' ∧ (∃ g, c.frames = g :: rest ∧ g.state = .firstCall) ∧
              E c m'.memory)
    (hsheds : ∀ c μ ν, E c μ → μ.Sheds ν → E c ν) :
    (stepOperator natives rest.length (.builtin b) s).Grants fun _ t =>
      ∃ c, s.machine.Becomes { c with frames := rest } t.machine ∧ E c t.machine.memory := by
  rw [stepOperator_dispatches hb hframes hstate]
  refine dispatch_grants (E := fun c μ => (∃ g, c.frames = g :: rest ∧ g.state = .firstCall) ∧ E c μ)
    h hframes hstate hparams (fun m hc hμ hs => grants_onMachine (hoperation m hc hμ hs))
    (fun c μ ν he hν => ⟨he.1, hsheds c μ ν he.2 hν⟩) fun t c hc he => ?_
  obtain ⟨⟨g, top, hg⟩, he⟩ := he
  refine (settle_grants (hc.growing hm) (hc.frames.trans top) (.inl ⟨hg, .inl rfl⟩)).mono
    fun _ u ⟨hu, sheds⟩ => ⟨c, ⟨hu.scene.trans ?_, hu.growth.trans hc.growth⟩, hsheds c _ _ he sheds⟩
  rw [hc.scene]

/-- A builtin that keeps nothing in its frame. -/
theorem dispatch_ends {E : Scene → Memory → Prop} (h : s.machine.Sound Γ 0 x)
    (hm : s.machine.Growing) (hb : b.constant? = none)
    (hframes : s.machine.calls.frames = f :: rest) (hstate : f.state = .unknown)
    (hparams : s.machine.matchOperands b.signature = .ok params)
    (hoperation : ∀ m, s.machine.Becomes
      { s.machine.scene with frames := { f with state := .firstCall } :: rest } m →
        s.machine.memory.Recounts m.memory → m.Sound Γ (rest.length + 1) (x + .refs params) →
          ((b.operation params).runOn (some rest.length) m).Grants fun _ m' =>
            ∃ c, s.machine.Becomes c m' ∧ c.frames = { f with state := .firstCall } :: rest ∧
              E c m'.memory)
    (hsheds : ∀ c μ ν, E c μ → μ.Sheds ν → E c ν) :
    (stepOperator natives rest.length (.builtin b) s).Grants fun _ t =>
      ∃ c, s.machine.Becomes { c with frames := rest } t.machine ∧ E c t.machine.memory :=
  dispatch_completes h hm hb hframes hstate hparams (fun m hc hμ hs => (hoperation m hc hμ hs).mono
    fun _ _ ⟨c, becomes, frames, he⟩ => ⟨c, becomes, ⟨_, frames, rfl⟩, he⟩) hsheds

end Session

end StackScript
