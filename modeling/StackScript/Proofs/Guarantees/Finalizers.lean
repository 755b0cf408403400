import StackScript.Proofs.Operator.Deferring

/-!
# Finalizers run exactly once

`finally` queues a body above its frame and remembers a finalizer.  When the body is over it sets aside
the exception that has ended it, if any, and queues the finalizer; when this is over, the frame goes,
and the exception is pending again, unless another one is by then.  If a fatal exception has ended the
body, the finalizer is queued and removed without being executed (`finalizer_runs_exactly_once`).
-/

namespace StackScript

open StackScript.Action

variable {χ : Type} {natives : Natives χ} {options : Options} {m₀ m m' m₁ : Machine} {Γ : Charter}
  {n i : ℕ} {x : Stake} {owned owned' : List Value} {s t u w : Session χ} {f g : Frame}
  {above rest : List Frame} {p : PendingException} {v finalizer body : Value}
  {operands : List Value} {c : Scene}

/-! ### When the body is over -/

namespace Operation

/-- Once it has set an exception aside, or none, `finally` queues its finalizer. -/
theorem ensure_queues (hm : m.Growing) (sound : m.Sound Γ n x)
    (hframes : m.calls.frames = f :: rest) (hs : f.state = .callBeforePop) (hn : rest.length < n)
    (hlocal : m.LocalIs rest.length "finalizer" finalizer)
    (hstash : Machine.stash rest.length m = .done () m₁) (h₁ : m.Becomes c m₁)
    (hc : c.frames = g :: rest) (hg : g.state = .callBeforePop) :
    ((Builtin.ensure.operation []).runOn (some rest.length) m).Grants fun _ m' =>
      m.Becomes { c with frames :=
        { value := finalizer } :: { g with state := finalizing } :: rest } m' := by
  have state : m.StateIs rest.length .callBeforePop := ⟨f, CallStack.frame?_head hframes, hs⟩
  have stashed : (Machine.stash rest.length m).Meets True _ _ := Machine.stash_meets sound hn
  rw [hstash] at stashed
  obtain ⟨sound₁, steady⟩ := stashed
  have found := expectLocal_runOn sound₁ (hlocal.of_steady steady hn)
  have frames₁ : m₁.calls.frames = g :: rest := h₁.frames.trans hc
  have set : stash.runOn (some rest.length) m = .done () m₁ := by
    rw [show stash.runOn (some rest.length) = Machine.stash rest.length from
      Program.run_request (r := Request.stash) _]
    exact hstash
  change Outcome.Grants (runOn _ (Operation.state >>= _) m) _
  rw [runOn_bind (state_runOn state), if_neg (by decide), if_pos rfl, runOn_bind set,
    runOn_bind found]
  -- the finalizer is queued first, and then the state moves below it
  refine grants_runOn_bind (grants_ask (r := .call finalizer)
    (Machine.pushFrame_grants (h₁.growing hm) _)) fun _ m₂ ⟨h₂, _⟩ => ?_
  have frames₂ : m₂.calls.frames = [{ value := finalizer }] ++ g :: rest := by
    rw [h₂.frames]
    exact congrArg (_ :: ·) frames₁
  obtain ⟨m₃, moved, -, h₃⟩ := Machine.setState_above [_] finalizing frames₂ (by rw [hg]; rfl)
  rw [runOn_setState, moved]
  refine ⟨h₃.scene.trans ?_, h₃.growth.trans (h₂.growth.trans h₁.growth)⟩
  rw [h₂.scene, h₁.scene]
  rfl

end Operation

/-- The frame of a `finally` goes, and `e`, which it had set aside, is pending again, unless another
exception is.  In that case the charge of its record has been given back, before the frame has gone. -/
structure Session.BringsBack (natives : Natives χ) (owned : List Value) (rest : List Frame)
    (e : Option PendingException) (s t : Session χ) : Prop where
  endsIn : Session.EndsIn natives owned rest
    { s.machine.scene with frames := rest, pending := s.machine.pending.or e } s t
  restored : ∃ m, m.memory = (s.machine.restored rest e).memory ∧
    Machine.popFrame m = .done () t.machine

namespace Served

/-- `finally` begins: its body is to be executed above its frame. -/
theorem begins_ensure (hm₀ : m₀.Created options) (h : Served natives m₀ owned s)
    (hpending : s.machine.pending = none) (hframes : s.machine.calls.frames = { value := v } :: rest)
    (hv : v.toOperator? = some (.builtin .ensure))
    (hoperands : s.machine.operands.items = finalizer :: body :: operands)
    (hfinalizer : Param.block.accepts finalizer = true) (hbody : Param.block.accepts body = true)
    (hroom : (Session.step natives rest.length { value := v } s).overflows = false) :
    ∃ d t, Session.EndsIn natives owned rest { s.machine.scene with
      operands := operands
      frames := { value := body } ::
        { value := v, state := .callBeforePop, locals := some d } :: rest } s t ∧
      t.machine.LocalIs rest.length "finalizer" finalizer := by
  let c (d : Handle) : Scene := { s.machine.scene with
    operands := operands
    frames := { value := body } ::
      { value := v, state := .callBeforePop, locals := some d } :: rest }
  let E (c' : Scene) (μ : Memory) : Prop := ∃ d, c' = c d ∧ μ.heap.Shows d
    (· = .dictionary { account := .system, entries := [("finalizer", finalizer)] })
  have begun (m : Machine) (hm : s.machine.Becomes { s.machine.scene with
      frames := { value := v, state := .firstCall } :: rest } m)
      (_ : s.machine.memory.Recounts m.memory) (hw : m.memory.heap.WellFormed) :
      ((Builtin.ensure.operation [finalizer, body]).runOn (some rest.length) m).Grants fun _ m' =>
        ∃ c', s.machine.Becomes c' m' ∧ (∃ above g, c'.frames = above ++ g :: rest ∧
          g.state = .callBeforePop) ∧ E c' m'.memory := by
    refine (Operation.ensure_begins (hm.growing (h.growing hm₀)) hw hm.frames rfl rfl
      (hm.operands.trans hoperands)).mono fun _ m' ⟨d, h', shows⟩ => ⟨c d, ⟨h'.scene.trans ?_,
        h'.growth.trans hm.growth⟩, ⟨[_], _, rfl, rfl⟩, d, rfl, shows⟩
    rw [hm.scene]
  -- what is left of the dispatch is to let go of the two operands
  have deferred (c' : Scene) (μ ν : Memory) (hμ : E c' μ) (hν : μ.Sheds ν) : E c' ν :=
    hμ.imp fun _ ⟨hc, hd⟩ => ⟨hc, hd.sheds hν⟩
  obtain ⟨t, _, endsIn, d, rfl, shows⟩ := h.defers hm₀ hpending hframes hv rfl
    (show _ = [finalizer, body] ++ operands from hoperands) (.cons hfinalizer (.cons hbody .nil))
    hroom begun deferred
  obtain ⟨Γ, -, sound⟩ := (h.cycle endsIn.conducts).sound hm₀
  have queued : t.machine.calls.frames = [{ value := body }] ++
      { value := v, state := .callBeforePop, locals := some d } :: rest :=
    congrArg Scene.frames endsIn.scene
  obtain ⟨o, ho, rfl⟩ := sound.exists_localObject queued rfl shows
  exact ⟨d, t, endsIn, _, ho, rfl⟩

/-- When its body is over, `finally` queues its finalizer. -/
theorem queues_finalizer (hm₀ : m₀.Created options) (h : Served natives m₀ owned s)
    (hframes : s.machine.calls.frames = f :: rest)
    (hf : f.value.toOperator? = some (.builtin .ensure)) (hsupply : f.supply = none)
    (hstate : f.state = .callBeforePop)
    (hlocal : s.machine.LocalIs rest.length "finalizer" finalizer)
    (hstash : Machine.stash rest.length s.machine = .done () m₁) (h₁ : s.machine.Becomes c m₁)
    (hc : c.frames = g :: rest) (hg : g.state = .callBeforePop)
    (hroom : (Session.step natives rest.length f s).overflows = false) :
    ∃ t, Session.EndsIn natives owned rest { c with frames :=
      { value := finalizer } :: { g with state := Operation.finalizing } :: rest } s t := by
  obtain ⟨Γ, -, sound⟩ := h.sound hm₀
  have framed : s.machine.Sound Γ (rest.length + 1) (.refs owned) :=
    { sound with depth := (CallStack.length_of_cons hframes).ge }
  have invoked : s.machine.invoked? f = some (.builtin .ensure) := by
    rw [Machine.invoked?, hstate, hsupply, hf]
    simp [Continuation.isPopping]
  have granted : (Session.step Natives.none rest.length f s).Grants fun _ t =>
      s.machine.Becomes { c with frames :=
        { value := finalizer } :: { g with state := Operation.finalizing } :: rest } t.machine := by
    rw [Session.step_of_invoked invoked, Session.stepOperator_resumes rfl hframes
      (by simp [hstate]) (by simp [hstate])]
    refine Session.resume_grants (M := fun t => s.machine.Becomes { c with frames :=
      { value := finalizer } :: { g with state := Operation.finalizing } :: rest } t.machine)
      (Session.grants_onMachine (Operation.ensure_queues (h.growing hm₀) framed hframes hstate
        (Nat.lt_succ_self _) hlocal hstash h₁ hc hg)) fun t ht => ?_
    have below := CallStack.frame?_above (List.singleton_append ▸ ht.frames)
    rw [Session.settle_of_popping below rfl]
    exact ht
  obtain ⟨t, conducts, ht⟩ := h.leads hm₀ (Session.alone_of_builtin hframes hf)
    (Session.fed_of_no_supply hframes hsupply) hframes granted hroom
  exact ⟨t, h.endsIn hm₀ hframes conducts ht.scene⟩

/-- An exception that was set aside is pending again once the finalizer is over, unless another one is by
then: the charge of its record is given back in that case. -/
theorem brings_back (hm₀ : m₀.Created options) (h : Served natives m₀ owned s)
    (hframes : s.machine.calls.frames = f :: rest)
    (hf : f.value.toOperator? = some (.builtin .ensure)) (hsupply : f.supply = none)
    (hstate : f.state = Operation.finalizing) :
    ∃ t, Session.BringsBack natives owned rest f.stash s t := by
  obtain ⟨Γ, -, sound⟩ := h.sound hm₀
  obtain ⟨m, hrun, memory, restored⟩ := Operation.ensure_restores sound hframes hstate
  obtain ⟨t, done, popped, -, -, becomes⟩ :=
    Session.step_done_popping sound (h.growing hm₀) hframes hf hsupply
      (by rw [hstate]; rfl) rfl hrun restored.frames (.inr rfl)
  exact ⟨t, h.endsIn_of_done hm₀ (Session.alone_of_builtin hframes hf)
    (Session.fed_of_no_supply hframes hsupply) hframes done
    (becomes.scene.trans (by rw [restored.scene])), m, memory, popped⟩

end Served

/-! ### The guarantee -/

/-- The body of `f`, the frame of a `finally` above `rest`, is over, and the finalizer is queued above
it, with no exception pending: that which has ended the body is set aside in the frame, and neither the
frame nor those below change while the finalizer is executed.  An exception that ends this gets to the
frame; when the frame is the top one, it goes, and the exception that was set aside is brought back. -/
def Session.Finalizes (natives : Natives χ) (owned : List Value) (finalizer : Value) (f : Frame)
    (rest : List Frame) (s : Session χ) : Prop :=
  let g := { f with stash := s.machine.pending, state := Operation.finalizing }
  ∃ t, Session.EndsIn natives owned rest { s.machine.scene with
    frames := { value := finalizer } :: g :: rest, pending := none } s t ∧
      ∀ k owned' u, Session.Spans natives (g :: rest) k owned t owned' u →
        ∃ above, u.machine.calls.frames = above ++ g :: rest ∧
          t.machine.Steady (rest.length + 1) u.machine ∧
            u.Descends natives owned' above (g :: rest) ∧
              (above = [] → ∃ w, Session.BringsBack natives owned' rest s.machine.pending u w)

/-- The body of `f`, the frame of a `finally` above `rest`, has been ended by a fatal exception: the
finalizer is queued, and goes without being executed, and so does the frame. -/
def Session.Forgoes (natives : Natives χ) (owned : List Value) (finalizer : Value) (f : Frame)
    (rest : List Frame) (s : Session χ) : Prop :=
  let g := { f with state := Operation.finalizing }
  ∃ t u w, Session.EndsIn natives owned rest
      { s.machine.scene with frames := { value := finalizer } :: g :: rest } s t ∧
    Session.EndsIn natives owned (g :: rest) { s.machine.scene with frames := g :: rest } t u ∧
      Session.EndsIn natives owned rest { s.machine.scene with frames := rest } u w

namespace Served

theorem finalizes (hm₀ : m₀.Created options) (h : Served natives m₀ owned s)
    (hframes : s.machine.calls.frames = f :: rest)
    (hf : f.value.toOperator? = some (.builtin .ensure)) (hsupply : f.supply = none)
    (hstash : s.machine.pending = none → f.stash = none) (hstate : f.state = .callBeforePop)
    (hlocal : s.machine.LocalIs rest.length "finalizer" finalizer)
    (hcalm : s.machine.condition ≠ some .internal)
    (hroom : (Session.step natives rest.length f s).overflows = false) :
    s.Finalizes natives owned finalizer f rest := by
  have calm : s.machine.isDoomed = false := Bool.eq_false_iff.2 (hcalm ∘ Machine.isDoomed_iff.1)
  obtain ⟨Γ, -, sound⟩ := h.sound hm₀
  obtain ⟨m, stashed, becomes⟩ := Machine.stash_becomes sound hframes hstash calm
  obtain ⟨t, queued⟩ := h.queues_finalizer hm₀ hframes hf hsupply hstate hlocal stashed becomes rfl
    hstate hroom
  refine ⟨t, queued, fun k owned' u spans => ?_⟩
  have ht := h.cycle queued.conducts
  have hu := ht.spans spans
  obtain ⟨Γ, -, sound⟩ := ht.sound hm₀
  obtain ⟨above, habove⟩ :=
    spans.exists_above ⟨[{ value := finalizer }], congrArg Scene.frames queued.scene⟩
  refine ⟨above, habove, (spans.steady sound).2, hu.descends hm₀ habove, ?_⟩
  rintro rfl
  exact hu.brings_back hm₀ habove hf hsupply rfl

theorem forgoes (hm₀ : m₀.Created options) (h : Served natives m₀ owned s)
    (hframes : s.machine.calls.frames = f :: rest)
    (hf : f.value.toOperator? = some (.builtin .ensure)) (hsupply : f.supply = none)
    (hstate : f.state = .callBeforePop)
    (hlocal : s.machine.LocalIs rest.length "finalizer" finalizer)
    (hfatal : s.machine.condition = some .internal)
    (hroom : (Session.step natives rest.length f s).overflows = false) :
    s.Forgoes natives owned finalizer f rest := by
  obtain ⟨p, hp, -⟩ := Machine.condition_eq_some.1 hfatal
  obtain ⟨t, queued⟩ := h.queues_finalizer hm₀ hframes hf hsupply hstate hlocal
    (Machine.stash_doomed _ (Machine.isDoomed_iff.2 hfatal)) ⟨rfl, rfl⟩ hframes hstate hroom
  have ht := h.cycle queued.conducts
  have pending : t.machine.pending = some p := (congrArg Scene.pending queued.scene).trans hp
  obtain ⟨u, dropped⟩ :=
    ht.lets_pass hm₀ (congrArg Scene.frames queued.scene) pending (.idle rfl)
  have hu := ht.cycle dropped.conducts
  obtain ⟨w, gone⟩ := hu.lets_pass hm₀ (congrArg Scene.frames dropped.scene)
    ((congrArg Scene.pending dropped.scene).trans pending) (.finalized hf rfl)
  refine ⟨t, u, w, queued, ⟨dropped.conducts, ?_, dropped.steady⟩, gone.conducts, ?_, gone.steady⟩
  · rw [dropped.scene, queued.scene]
  · rw [gone.scene, dropped.scene, queued.scene]

end Served

/-- **`finally` executes its finalizer exactly once.**  It queues its body above its frame, and the
frame, the frames below and their locals stay as they are however long the body is executed.  An
exception that ends the body gets to the frame.

When the frame is the top one, the body is over.  If the queuing of the finalizer is not refused, the
finalizer is executed, with no exception pending, before anything below the frame, and then the
exception that has ended the body, if any, is pending again, unless the finalizer has raised another
one.  If the body has been ended by a fatal exception, the finalizer is not executed. -/
theorem finalizer_runs_exactly_once (hm₀ : m₀.Created options) (h : Served natives m₀ owned s)
    (hpending : s.machine.pending = none) (hframes : s.machine.calls.frames = { value := v } :: rest)
    (hv : v.toOperator? = some (.builtin .ensure))
    (hoperands : s.machine.operands.items = finalizer :: body :: operands)
    (hfinalizer : Param.block.accepts finalizer = true) (hbody : Param.block.accepts body = true)
    (hroom : (Session.step natives rest.length { value := v } s).overflows = false) :
    ∃ d f t, f = { value := v, state := .callBeforePop, locals := some d } ∧
      Session.EndsIn natives owned rest { s.machine.scene with
        operands := operands, frames := { value := body } :: f :: rest } s t ∧
      ∀ k owned' u, Session.Spans natives (f :: rest) k owned t owned' u →
        ∃ above, u.machine.calls.frames = above ++ f :: rest ∧
          s.machine.Steady rest.length u.machine ∧ u.Descends natives owned' above (f :: rest) ∧
            (above = [] → (Session.step natives rest.length f u).overflows = false →
              (u.machine.condition ≠ some .internal →
                u.Finalizes natives owned' finalizer f rest) ∧
              (u.machine.condition = some .internal →
                u.Forgoes natives owned' finalizer f rest)) := by
  obtain ⟨d, t, begins, hlocal⟩ :=
    h.begins_ensure hm₀ hpending hframes hv hoperands hfinalizer hbody hroom
  refine ⟨d, _, t, rfl, begins, fun k owned' u spans => ?_⟩
  have ht := h.cycle begins.conducts
  have hu := ht.spans spans
  obtain ⟨Γ, -, sound⟩ := ht.sound hm₀
  obtain ⟨above, habove⟩ := spans.exists_above ⟨[{ value := body }], congrArg Scene.frames begins.scene⟩
  have steady := (spans.steady sound).2
  have kept := hlocal.of_steady steady (Nat.lt_succ_self _)
  refine ⟨above, habove, begins.steady.trans (steady.mono (Nat.le_succ _)), hu.descends hm₀ habove,
    ?_⟩
  rintro rfl room
  exact ⟨fun hcalm => hu.finalizes hm₀ habove hv rfl (fun _ => rfl) rfl kept hcalm room,
    fun hfatal => hu.forgoes hm₀ habove hv rfl rfl kept hfatal room⟩

/-- A body that stops, and a finalizer that pushes something. -/
theorem finalizer_runs_exactly_once_of_stop :
    ∃ (m₀ : Machine) (s t u w y z : Session Unit) (f g : Frame) (rest : List Frame)
      (p : PendingException), m₀.Created {} ∧ Served Natives.none m₀ [] s ∧
        Session.EndsIn Natives.none [] rest { s.machine.scene with
          operands := [], frames := { value := .array 5 .block } :: f :: rest } s t ∧
        Session.Spans Natives.none (f :: rest) 5 [] t [] u ∧ u.machine.pending = some p ∧
        p.exception.condition = .stop ∧ g = { f with stash := some p, state := Operation.finalizing } ∧
        Session.EndsIn Natives.none [] rest { u.machine.scene with
          frames := { value := .array 6 .block } :: g :: rest, pending := none } u w ∧
        Session.Spans Natives.none (g :: rest) 1 [] w [] y ∧
        y.machine.operands.items.map Value.datum = [.integer (.ofInt 2), .integer (.ofInt 1)] ∧
        Session.BringsBack Natives.none [] rest (some p) y z := by
  let text := "\x7b 1 stop \x7d \x7b 2 \x7d finally"
  let v : Value := ⟨.operator (.builtin .ensure), some ⟨"-", text, 17, 7⟩⟩
  let begun := (Session.trial {} text 18).bind fun s => (Session.cycle Natives.none s).state?
  let ended := begun.bind (Session.traverse 2 5)
  have facts : (Session.trial {} text 18).map (fun s => (s.machine.calls.frames, s.machine.pending,
      s.machine.operands.items, (Session.step Natives.none 1 { value := v } s).overflows)) =
        some ([{ value := v }, { value := ⟨.string text true, some (.whole "-" text)⟩, cursor := 24 }],
          none, [.array 6 .block, .array 5 .block], false) := by
    decide +kernel
  have stopped : ended.map (fun u => (u.machine.calls.length, u.machine.condition,
      u.machine.calls.frames.head?.map fun f => (Session.step Natives.none 1 f u).overflows)) =
        some (2, some .stop, some false) := by
    decide +kernel
  have finalized : ((ended.bind fun u => (Session.cycle Natives.none u).state?).bind
      (Session.traverse 2 1)).map (fun y => (y.machine.calls.length,
        y.machine.operands.items.map Value.datum)) =
          some (2, [.integer (.ofInt 2), .integer (.ofInt 1)]) := by
    decide +kernel
  obtain ⟨s, hs, facts⟩ := Option.map_eq_some_iff.1 facts
  simp only [Prod.mk.injEq] at facts
  obtain ⟨frames, pending, operands, room⟩ := facts
  obtain ⟨m₀, created, reached⟩ := Reached.of_trial (by rintro t ⟨⟩) hs
  obtain ⟨u, hu, stopped⟩ := Option.map_eq_some_iff.1 stopped
  obtain ⟨t', ht', traversed⟩ := Option.bind_eq_some_iff.1 hu
  rw [hu] at finalized
  obtain ⟨y, hy, finalized⟩ := Option.map_eq_some_iff.1 finalized
  obtain ⟨w', hw', finalizing⟩ := Option.bind_eq_some_iff.1 hy
  simp only [Prod.mk.injEq] at stopped finalized
  obtain ⟨depth, condition, room'⟩ := stopped
  obtain ⟨p, hp, hstop⟩ := Machine.condition_eq_some.1 condition
  obtain ⟨d, f, t, rfl, begins, runs⟩ := finalizer_runs_exactly_once created reached.served pending
    frames rfl operands rfl rfl room
  obtain rfl : t' = t := by
    rw [show begun = (Session.cycle Natives.none s).state? by simp only [begun, hs]; rfl] at ht'
    exact Option.some.inj (ht'.symm.trans begins.conducts.leads)
  have spans := Session.Spans.of_traverse [] [_, _] traversed
    ⟨[{ value := .array 5 .block }], congrArg Scene.frames begins.scene⟩
  obtain ⟨above, habove, -, -, concludes⟩ := runs 5 [] u spans
  rw [CallStack.length, habove, List.length_append] at depth
  obtain rfl : above = [] := List.length_eq_zero_iff.1 (Nat.add_eq_right.1 depth)
  rw [habove] at room'
  obtain ⟨w, queued, finalizes⟩ :=
    (concludes rfl (Option.some.inj room')).1 (by rw [condition]; decide)
  obtain rfl : w' = w := Option.some.inj (hw'.symm.trans queued.conducts.leads)
  have later := Session.Spans.of_traverse [] [_, _] finalizing
    ⟨[{ value := .array 6 .block }], congrArg Scene.frames queued.scene⟩
  obtain ⟨above, hbetween, -, -, goes⟩ := finalizes 1 [] y later
  have depth := finalized.1
  rw [CallStack.length, hbetween, List.length_append] at depth
  obtain ⟨z, back⟩ := goes (List.length_eq_zero_iff.1 (Nat.add_eq_right.1 depth))
  rw [hp] at queued later back
  exact ⟨m₀, s, t', u, w', y, z, _, _, _, p, created, reached.served, begins, spans, hp, hstop, rfl,
    queued, later, finalized.2, back⟩

end StackScript
