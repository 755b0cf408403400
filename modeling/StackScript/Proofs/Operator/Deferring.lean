import StackScript.Proofs.Machine.Enclosed
import StackScript.Proofs.Machine.Arriving
import StackScript.Proofs.Operator.Building

/-!
# Operators that execute a body

`stopped`, `finally` and the loops queue a body above their frame, and ask to be invoked again when it
is over (`Session.step_defers`).  `stopped` remembers nothing meanwhile, and `finally` its finalizer.
-/

namespace StackScript

open StackScript.Action

/-! ### Operands -/

/-- The operands at the top are those a signature asks for. -/
theorem Machine.matchOperands_of_accepts {m : Machine} {signature : List Param}
    {params below : List Value} (hitems : m.operands.items = params ++ below)
    (haccepts : List.Forall₂ (fun p v => Param.accepts p v = true) signature params) :
    m.matchOperands signature = .ok params := by
  have go (depth : ℕ) : matchOperands.go depth signature (params ++ below) = .ok params := by
    clear hitems
    induction haccepts generalizing depth with
    | nil => cases below <;> rfl
    | cons hv _ ih =>
      rw [List.cons_append, matchOperands.go, if_pos hv, ih]
      rfl
  have enough : ¬ m.operands.length < signature.length := by
    rw [Sequence.length, hitems, List.length_append, haccepts.length_eq]
    omega
  rw [matchOperands, if_neg enough, hitems, go]

/-! ### Locals -/

/-- What a dictionary shows, the locals of the frame it belongs to are. -/
theorem Machine.Sound.exists_localObject {Γ : Charter} {n : ℕ} {x : Stake} {m : Machine} {f : Frame}
    {above rest : List Frame} {d : Handle} {P : Object → Prop} (h : m.Sound Γ n x)
    (hframes : m.calls.frames = above ++ f :: rest) (hlocals : f.locals = some d)
    (hd : m.memory.heap.Shows d P) : ∃ o, m.localObject? rest.length = some o ∧ P o := by
  have live : m.memory.heap.Live d :=
    h.live (.inl (.inr (.inl ⟨f, by simp [scene, hframes], .inr hlocals⟩)))
  obtain ⟨c, hc⟩ := Option.ne_none_iff_exists'.1 live
  obtain ⟨o, ho⟩ := h.memory.present.exists_object hc
  refine ⟨o, ?_, hd o ho⟩
  rw [localObject?, CallStack.frame?_above hframes, Option.bind_some, hlocals]
  exact ho

/-! ### Invocations after which the frame stays -/

namespace Session

variable {χ : Type} {Γ : Charter} {x : Stake} {s t : Session χ} {f : Frame} {rest : List Frame}
  {b : Builtin} {params : List Value}

/-- **The first invocation of an operator that is to be invoked again** before its frame goes. -/
theorem step_defers {E : Scene → Memory → Prop} (sound : s.machine.Sound Γ 0 x)
    (hframes : s.machine.calls.frames = f :: rest) (hp : s.machine.pending = none)
    (hf : f.value.toOperator? = some (.builtin b)) (hsupply : f.supply = none)
    (hstate : f.state = .unknown) (hb : b.constant? = none)
    (hparams : s.machine.matchOperands b.signature = .ok params)
    (hoperation : ∀ m, s.machine.Becomes
      { s.machine.scene with frames := { f with state := .firstCall } :: rest } m →
        s.machine.memory.Recounts m.memory → m.Sound Γ (rest.length + 1) (x + .refs params) →
          ((b.operation params).runOn (some rest.length) m).Grants fun _ m' => ∃ c,
            s.machine.Becomes c m' ∧ (∃ above g, c.frames = above ++ g :: rest ∧
              g.state = .callBeforePop) ∧ E c m'.memory)
    (hsheds : ∀ c μ ν, E c μ → μ.Sheds ν → E c ν) :
    (step Natives.none rest.length f s).Grants fun _ t =>
      ∃ c, s.machine.Becomes c t.machine ∧ E c t.machine.memory := by
  have invoked : s.machine.invoked? f = some (.builtin b) := by
    rw [Machine.invoked?, hp, hsupply, hf]
    rfl
  rw [step_of_invoked invoked, stepOperator_dispatches hb hframes hstate]
  refine dispatch_grants (E := fun c μ => (∃ above g, c.frames = above ++ g :: rest ∧
    g.state = .callBeforePop) ∧ E c μ) sound hframes hstate hparams
    (fun m hm hμ hsound => grants_onMachine (hoperation m hm hμ hsound))
    (fun c μ ν he hν => ⟨he.1, hsheds c μ ν he.2 hν⟩) ?_
  rintro t c hc ⟨⟨above, g, hg, hstate⟩, he⟩
  rw [settle_stays (hc.frames.trans hg) (fun h => by rw [hstate] at h; cases h)
    (by simp [hstate])]
  exact ⟨c, hc, he⟩

end Session

/-- It takes place, if no allocation is refused. -/
theorem Served.defers {χ : Type} {natives : Natives χ} {options : Options} {m₀ : Machine}
    {owned : List Value} {s : Session χ} {rest : List Frame} {b : Builtin} {v : Value}
    {params operands : List Value} {E : Scene → Memory → Prop} (hm₀ : m₀.Created options)
    (h : Served natives m₀ owned s) (hpending : s.machine.pending = none)
    (hframes : s.machine.calls.frames = { value := v } :: rest)
    (hv : v.toOperator? = some (.builtin b)) (hb : b.constant? = none)
    (hoperands : s.machine.operands.items = params ++ operands)
    (hparams : List.Forall₂ (fun p v => Param.accepts p v = true) b.signature params)
    (hroom : (Session.step natives rest.length { value := v } s).overflows = false)
    (hoperation : ∀ m, s.machine.Becomes { s.machine.scene with
      frames := { value := v, state := .firstCall } :: rest } m →
        s.machine.memory.Recounts m.memory → m.memory.heap.WellFormed →
        ((b.operation params).runOn (some rest.length) m).Grants fun _ m' => ∃ c,
          s.machine.Becomes c m' ∧ (∃ above g, c.frames = above ++ g :: rest ∧
            g.state = .callBeforePop) ∧ E c m'.memory)
    (hsheds : ∀ c μ ν, E c μ → μ.Sheds ν → E c ν) :
    ∃ t c, Session.EndsIn natives owned rest c s t ∧ E c t.machine.memory := by
  obtain ⟨Γ, -, sound⟩ := h.sound hm₀
  have granted := Session.step_defers sound hframes hpending hv rfl rfl hb
    (Machine.matchOperands_of_accepts hoperands hparams)
    (fun m hm hμ hsound => hoperation m hm hμ hsound.wellFormed) hsheds
  obtain ⟨t, conducts, c, hc, he⟩ := h.leads hm₀ (Session.alone_of_builtin hframes hv)
    (Session.fed_of_no_supply hframes rfl) hframes granted hroom
  exact ⟨t, c, h.endsIn hm₀ hframes conducts hc.scene, he⟩

/-! ### Operations -/

namespace Operation

variable {Γ : Charter} {n : ℕ} {x : Stake} {m : Machine} {f : Frame} {rest : List Frame}
  {body finalizer : Value} {operands : List Value}

/-- A body is queued, the operands go, and the operator asks to be invoked again. -/
theorem defers_grants (hm : m.Growing) (hframes : m.calls.frames = f :: rest)
    (hs : f.state = .firstCall) (count : ℕ) (hcount : count ≤ m.operands.length) :
    ((call body >>= fun _ => pop count >>= fun _ => setState .callBeforePop).runOn
      (some rest.length) m).Grants fun _ m' => m.Becomes { m.scene with
        operands := m.operands.items.drop count
        frames := { value := body } :: { f with state := .callBeforePop } :: rest } m' ∧
          m.memory.Sheds m'.memory := by
  refine grants_runOn_bind (grants_ask (r := .call body) (Machine.pushFrame_grants hm _))
    fun _ m₁ ⟨h₁, recounts⟩ => ?_
  have operands₁ : m₁.operands.items = m.operands.items := h₁.operands
  refine grants_runOn_bind (grants_ask (r := .exchange count [])
    (Machine.exchangeOperands_grants (h₁.growing hm) ?_)) fun _ m₂ ⟨h₂, sheds⟩ => ?_
  · unfold Sequence.length at hcount ⊢
    rwa [operands₁]
  have frames₂ : m₂.calls.frames = [{ value := body }] ++ f :: rest := by
    rw [h₂.frames]
    exact h₁.frames.trans (by rw [hframes]; rfl)
  obtain ⟨m₃, moved, memory, h₃⟩ :=
    Machine.setState_above [_] .callBeforePop frames₂ (by rw [hs]; rfl)
  rw [runOn_setState, moved]
  refine ⟨⟨h₃.scene.trans ?_, h₃.growth.trans (h₂.growth.trans h₁.growth)⟩, ?_⟩
  · rw [h₂.scene, h₁.scene, operands₁]
    rfl
  · exact recounts.sheds.trans (memory ▸ sheds)

/-- `stopped` begins by queueing its body. -/
theorem stopped_begins (hm : m.Growing) (hframes : m.calls.frames = f :: rest)
    (hs : f.state = .firstCall) (hoperands : m.operands.items = body :: operands) :
    ((Builtin.stopped.operation [body]).runOn (some rest.length) m).Grants fun _ m' =>
      m.Becomes { m.scene with
        operands := operands
        frames := { value := body } :: { f with state := .callBeforePop } :: rest } m' := by
  have state : m.StateIs rest.length .firstCall := ⟨f, CallStack.frame?_head hframes, hs⟩
  change Outcome.Grants (runOn _ (Operation.state >>= _) m) _
  rw [runOn_bind (state_runOn state)]
  refine (defers_grants hm hframes hs 1 ?_).mono fun _ m' h => ?_
  · simp [Sequence.length, hoperands]
  · rw [hoperands] at h
    exact h.1

/-- `finally` begins by queueing its body, and remembers its finalizer. -/
theorem ensure_begins (hm : m.Growing) (hw : m.memory.heap.WellFormed)
    (hframes : m.calls.frames = f :: rest) (hs : f.state = .firstCall) (hlocals : f.locals = none)
    (hoperands : m.operands.items = finalizer :: body :: operands) :
    ((Builtin.ensure.operation [finalizer, body]).runOn (some rest.length) m).Grants fun _ m' =>
      ∃ d, m.Becomes { m.scene with
        operands := operands
        frames := { value := body } ::
          { f with state := .callBeforePop, locals := some d } :: rest } m' ∧
        m'.memory.heap.Shows d
          (· = .dictionary { account := .system, entries := [("finalizer", finalizer)] }) := by
  have state : m.StateIs rest.length .firstCall := ⟨f, CallStack.frame?_head hframes, hs⟩
  change Outcome.Grants (runOn _ (Operation.state >>= _) m) _
  rw [runOn_bind (state_runOn state), if_pos rfl]
  change Outcome.Grants (runOn _ (setLocal "finalizer" finalizer >>= fun _ => call body >>= fun _ =>
    pop 2 >>= fun _ => setState .callBeforePop) m) _
  have bound : ((Request.setLocal "finalizer" finalizer).perform (some rest.length) m).Grants _ :=
    Machine.setLocal_grants_of_none hw (show m.calls.frames = [] ++ f :: rest from hframes) hlocals
      "finalizer" finalizer
  refine grants_runOn_bind (grants_ask bound) ?_
  rintro _ m₁ ⟨d, h, h₁, -, replaces⟩
  have operands₁ : m₁.operands.items = finalizer :: body :: operands := h₁.operands.trans hoperands
  refine (defers_grants (h₁.growing hm) h₁.frames hs 2 ?_).mono fun _ m' ⟨h₂, sheds⟩ =>
    ⟨d, ⟨h₂.scene.trans ?_, h₂.growth.trans h₁.growth⟩, replaces.shows.sheds sheds⟩
  · simp [Sequence.length, operands₁]
  · rw [h₁.scene, operands₁]
    rfl

end Operation

end StackScript
