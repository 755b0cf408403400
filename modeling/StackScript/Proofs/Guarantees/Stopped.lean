import StackScript.Proofs.Operator.Deferring

/-!
# `stopped` isolates its block

`stopped` queues a block above its frame.  When the block is over, its frame goes: it has pushed
`false`, or `true` if an exception was pending that is neither a break nor fatal, which it has taken
away.  A break goes on, and a fatal exception, and nothing is pushed.  The frames below are what they
were (`stopped_isolates_its_block`).

An exception of the block is unwound until it gets to the frame, or a frame above, like that of another
`stopped`, takes it away.
-/

namespace StackScript

variable {χ : Type} {natives : Natives χ} {options : Options} {m₀ m m' : Machine} {Γ : Charter}
  {x : Stake} {owned owned' : List Value} {s t u w : Session χ} {f g : Frame} {rest : List Frame}
  {above : List Frame} {p : PendingException} {i : ℕ} {v block : Value} {operands : List Value} {outcome : Bool}

/-! ### What `stopped` does in the end -/

namespace Operation

theorem stopped_completes (hs : m.StateIs i .callBeforePop) (hc : m.condition = none) :
    (Builtin.stopped.operation []).runOn (some i) m =
      Machine.exchangeOperands 0 [.boolean false] m := by
  change runOn (some i) (state >>= _) m = _
  rw [runOn_bind (state_runOn hs)]
  change runOn (some i) (condition >>= _) m = _
  rw [runOn_bind (runOn_condition (some i) m), hc]
  exact congrFun (Machine.runOn_exchange (some i) 0 [.boolean false]) m

theorem stopped_catches (hs : m.StateIs i .callBeforePop) {c : Condition}
    (hc : m.condition = some c) (hcaught : (c.isFatal || c == .loopBreak) = false)
    {e : Option Exception} (hm : Machine.intercept m = .done e m') :
    (Builtin.stopped.operation []).runOn (some i) m =
      Machine.exchangeOperands 0 [.boolean true] m' := by
  change runOn (some i) (state >>= _) m = _
  rw [runOn_bind (state_runOn hs)]
  change runOn (some i) (condition >>= _) m = _
  rw [runOn_bind (runOn_condition (some i) m), hc]
  dsimp only
  rw [hcaught]
  change runOn (some i) (intercept >>= _) m = _
  rw [runOn_bind (runOn_intercept hm)]
  exact congrFun (Machine.runOn_exchange (some i) 0 [.boolean true]) m'

end Operation

/-- The next cycle pushes `outcome` onto the operands of `m`, if there is room for it, and removes the
top frame, above `rest`. -/
structure Session.Reports (natives : Natives χ) (owned : List Value) (rest : List Frame)
    (outcome : Bool) (m : Machine) (s t : Session χ) : Prop where
  endsIn : Session.EndsIn natives owned rest { m.scene with
    operands := .boolean outcome :: m.operands.items, frames := rest } s t
  pushed : ∃ m', Machine.exchangeOperands 0 [.boolean outcome] m = .done () m' ∧
    Machine.popFrame m' = .done () t.machine

namespace Served

/-- `stopped` begins: its block is to be executed above its frame. -/
theorem begins_stopped (hm₀ : m₀.Created options) (h : Served natives m₀ owned s)
    (hpending : s.machine.pending = none) (hframes : s.machine.calls.frames = { value := v } :: rest)
    (hv : v.toOperator? = some (.builtin .stopped))
    (hoperands : s.machine.operands.items = block :: operands)
    (hblock : Param.block.accepts block = true)
    (hroom : (Session.step natives rest.length { value := v } s).overflows = false) :
    ∃ t, Session.EndsIn natives owned rest { s.machine.scene with
      operands := operands
      frames := { value := block } :: { value := v, state := .callBeforePop } :: rest } s t := by
  let c : Scene := { s.machine.scene with
    operands := operands
    frames := { value := block } :: { value := v, state := .callBeforePop } :: rest }
  have begun (m : Machine) (hm : s.machine.Becomes { s.machine.scene with
      frames := { value := v, state := .firstCall } :: rest } m) :
      ((Builtin.stopped.operation [block]).runOn (some rest.length) m).Grants fun _ m' => ∃ c',
        s.machine.Becomes c' m' ∧ (∃ above g, c'.frames = above ++ g :: rest ∧
          g.state = .callBeforePop) ∧ c' = c := by
    refine (Operation.stopped_begins (hm.growing (h.growing hm₀)) hm.frames rfl
      (hm.operands.trans hoperands)).mono fun _ m' h' => ⟨c, ⟨h'.scene.trans ?_,
        h'.growth.trans hm.growth⟩, ⟨[_], _, rfl, rfl⟩, rfl⟩
    rw [hm.scene]
  have deferred (c' : Scene) (μ ν : Memory) (hc : c' = c) (_ : μ.Sheds ν) : c' = c := hc
  obtain ⟨t, _, endsIn, rfl⟩ := h.defers hm₀ hpending hframes hv rfl
    (show _ = [block] ++ operands from hoperands) (.cons hblock .nil) hroom
    (fun m hm _ _ => begun m hm) deferred
  exact ⟨t, endsIn⟩

/-- **In the end** `stopped` pushes whether its block has been ended by an exception. -/
theorem reports (hm₀ : m₀.Created options) (h : Served natives m₀ owned s)
    (hframes : s.machine.calls.frames = f :: rest)
    (hf : f.value.toOperator? = some (.builtin .stopped)) (hstate : f.state = .callBeforePop)
    (hgrowth : m.growth = s.machine.growth) (sound : m.Sound Γ 0 x)
    (hm : m.calls = s.machine.calls)
    (hrun : (Builtin.stopped.operation []).runOn (some rest.length) s.machine =
      Machine.exchangeOperands 0 [.boolean outcome] m)
    (hroom : (Machine.exchangeOperands 0 [.boolean outcome] m).overflows = false) :
    ∃ t, s.Reports natives owned rest outcome m t := by
  obtain ⟨Γ₀, -, sound₀⟩ := h.sound hm₀
  have growing := h.growing hm₀
  have hsupply := Frame.supply_eq_none (h.steered hm₀ f (hframes ▸ .head _)).supplied hf
  have known : ∀ v ∈ [Value.boolean outcome], m.Knows x v := by
    intro v hv
    obtain rfl := List.mem_singleton.1 hv
    exact Machine.knows_of_handle?_none rfl
  obtain ⟨⟨⟩, m₁, pushed, ⟨h₁, -⟩, -, -, hcalls⟩ :=
    (Machine.pushOperands_grants (growing.of_growth hgrowth) [.boolean outcome]).done
      (Machine.exchangeOperands_meets sound known) hroom
  have frames₁ : m₁.calls.frames = f :: rest := by rw [hcalls, hm, hframes]
  obtain ⟨t, done, popped, -, -, becomes⟩ := Session.step_done_popping sound₀ growing hframes hf hsupply
    (by rw [hstate]; rfl) rfl (hrun.trans pushed) frames₁ (.inl ⟨rfl, .inr hstate⟩)
  exact ⟨t, h.endsIn_of_done hm₀ (Session.alone_of_builtin hframes hf)
    (Session.fed_of_no_supply hframes hsupply) hframes done
    (becomes.scene.trans (by rw [h₁.scene]; rfl)), m₁, pushed, popped⟩

/-- Its block has completed. -/
theorem stopped_completed (hm₀ : m₀.Created options) (h : Served natives m₀ owned s)
    (hframes : s.machine.calls.frames = f :: rest)
    (hf : f.value.toOperator? = some (.builtin .stopped)) (hstate : f.state = .callBeforePop)
    (hpending : s.machine.pending = none)
    (hroom : (Machine.exchangeOperands 0 [.boolean false] s.machine).overflows = false) :
    ∃ t, s.Reports natives owned rest false s.machine t := by
  obtain ⟨Γ, -, sound⟩ := h.sound hm₀
  have condition : s.machine.condition = none := by
    rw [Machine.condition, Machine.exception, hpending]
    rfl
  exact h.reports hm₀ hframes hf hstate rfl sound rfl
    (Operation.stopped_completes ⟨f, CallStack.frame?_head hframes, hstate⟩ condition) hroom

/-- An exception has ended its block that is neither a break nor fatal. -/
theorem stopped_caught (hm₀ : m₀.Created options) (h : Served natives m₀ owned s)
    (hframes : s.machine.calls.frames = f :: rest)
    (hf : f.value.toOperator? = some (.builtin .stopped)) (hstate : f.state = .callBeforePop)
    (hp : s.machine.pending = some p) (hbreak : p.exception.condition ≠ .loopBreak)
    (hinternal : p.exception.condition ≠ .internal)
    (hroom : (Machine.exchangeOperands 0 [.boolean true] (s.machine.cleared p)).overflows = false) :
    ∃ t, s.Reports natives owned rest true (s.machine.cleared p) t := by
  obtain ⟨Γ, -, sound⟩ := h.sound hm₀
  have condition := Machine.condition_eq_some.2 ⟨p, hp, rfl⟩
  have fatal : p.exception.condition.isFatal = false := by
    rw [Bool.eq_false_iff, Ne, Condition.isFatal_iff]
    exact hinternal
  have calm : s.machine.isDoomed = false := by
    rw [Machine.isDoomed, condition]
    exact fatal
  have taken := Machine.intercept_eq sound hp calm
  have sound' : (Machine.intercept s.machine).Meets True _ _ :=
    Machine.intercept_meets (F := fun _ => False) sound
  rw [taken] at sound'
  exact h.reports hm₀ hframes hf hstate rfl sound'.1 rfl (Operation.stopped_catches
    ⟨f, CallStack.frame?_head hframes, hstate⟩ condition (by simp [fatal, hbreak]) taken) hroom

end Served

/-- The exception `p` goes from `s` through the frames `above`, and gets to `f`, that of a `stopped`
above `rest`, with all else as it was.  A break or a fatal exception passes, and nothing is pushed; any
other is taken away, its charge is given back, and `true` is pushed, if there is room for it. -/
structure Session.Isolates (natives : Natives χ) (owned : List Value) (above : List Frame) (f : Frame)
    (rest : List Frame) (p : PendingException) (s t : Session χ) : Prop where
  spans : Session.Spans natives (f :: rest) above.length owned s owned t
  scene : t.machine.scene = { s.machine.scene with frames := f :: rest }
  passes : p.exception.condition = .loopBreak ∨ p.exception.condition = .internal →
    ∃ u, Session.EndsIn natives owned rest { s.machine.scene with frames := rest } t u
  caught : p.exception.condition ≠ .loopBreak → p.exception.condition ≠ .internal →
    (Machine.exchangeOperands 0 [.boolean true] (t.machine.cleared p)).overflows = false →
      ∃ u, t.Reports natives owned rest true (t.machine.cleared p) u

theorem Served.isolates (hm₀ : m₀.Created options) (h : Served natives m₀ owned s)
    (hframes : s.machine.calls.frames = above ++ f :: rest)
    (hf : f.value.toOperator? = some (.builtin .stopped)) (hstate : f.state = .callBeforePop)
    (hp : s.machine.pending = some p) (habove : ∀ g ∈ above, g.LetsPass p.exception.condition) :
    ∃ t, s.Isolates natives owned above f rest p t := by
  obtain ⟨t, spans, ht⟩ := h.passes hm₀ hframes hp habove
  have h' := h.spans spans
  have frames : t.machine.calls.frames = f :: rest := congrArg Scene.frames ht
  have pending : t.machine.pending = some p := (congrArg Scene.pending ht).trans hp
  refine ⟨t, spans, ht, fun hpasses => ?_, h'.stopped_caught hm₀ frames hf hstate pending⟩
  have passes : (p.exception.condition.isFatal || p.exception.condition == .loopBreak) = true := by
    rcases hpasses with h | h <;> rw [h] <;> rfl
  obtain ⟨u, endsIn⟩ := h'.lets_pass hm₀ frames pending (.stopped hf hstate passes)
  exact ⟨u, endsIn.conducts, endsIn.scene.trans (by rw [ht]), endsIn.steady⟩

/-! ### The guarantee -/

/-- **`stopped` isolates its block.**  It queues the block above its frame.  The frame, the frames
below and their locals stay as they are however long the block is executed.

When the block has completed, `false` is pushed, if there is room for it, and the frame goes.  While an
exception is pending, it gets to the frame, unless a frame above takes it away or sets it aside, or is
that of an operator of the host: it stays the same if it is fatal.  If all frames above let it pass, it
gets there with the operands the block has left, and passes or is caught; but if one of them is that of
another `stopped`, it gets to that one, and only the innermost one catches. -/
theorem stopped_isolates_its_block (hm₀ : m₀.Created options) (h : Served natives m₀ owned s)
    (hpending : s.machine.pending = none) (hframes : s.machine.calls.frames = { value := v } :: rest)
    (hv : v.toOperator? = some (.builtin .stopped))
    (hoperands : s.machine.operands.items = block :: operands)
    (hblock : Param.block.accepts block = true)
    (hroom : (Session.step natives rest.length { value := v } s).overflows = false) :
    ∃ f t, f = { value := v, state := .callBeforePop } ∧
      Session.EndsIn natives owned rest { s.machine.scene with
        operands := operands, frames := { value := block } :: f :: rest } s t ∧
      ∀ k owned' u, Session.Spans natives (f :: rest) k owned t owned' u →
        ∃ above, u.machine.calls.frames = above ++ f :: rest ∧
          s.machine.Steady rest.length u.machine ∧
          (above = [] → u.machine.pending = none →
            (Machine.exchangeOperands 0 [.boolean false] u.machine).overflows = false →
              ∃ w, u.Reports natives owned' rest false u.machine w) ∧
          ∀ p, u.machine.pending = some p → u.WearsOff natives owned' above (f :: rest) ∧
            ((∀ g ∈ above, g.LetsPass p.exception.condition) →
              ∃ w, u.Isolates natives owned' above f rest p w) ∧
            ∀ inner g between, above = inner ++ g :: between →
              g.value.toOperator? = some (.builtin .stopped) → g.state = .callBeforePop →
                (∀ g ∈ inner, g.LetsPass p.exception.condition) →
                  ∃ w, u.Isolates natives owned' inner g (between ++ f :: rest) p w := by
  obtain ⟨t, begins⟩ := h.begins_stopped hm₀ hpending hframes hv hoperands hblock hroom
  refine ⟨_, t, rfl, begins, fun k owned' u spans => ?_⟩
  have hs := h.cycle begins.conducts
  have hu := hs.spans spans
  obtain ⟨Γ, -, sound⟩ := hs.sound hm₀
  obtain ⟨above, habove⟩ := spans.exists_above ⟨[{ value := block }], congrArg Scene.frames begins.scene⟩
  refine ⟨above, habove, begins.steady.trans ((spans.steady sound).2.mono (Nat.le_succ _)), ?_,
    fun p hp => ⟨hu.wears_off hm₀ habove (hp ▸ rfl), fun hpass => ?_, ?_⟩⟩
  · rintro rfl hnone room
    exact hu.stopped_completed hm₀ habove hv rfl hnone room
  · exact hu.isolates hm₀ habove hv rfl hp hpass
  · rintro inner g between rfl hg hstate hpass
    exact hu.isolates hm₀ (habove.trans (by simp)) hg hstate hp hpass

/-- A block that pushes something before it stops. -/
theorem stopped_isolates_its_block_of_stop :
    ∃ (m₀ : Machine) (s t u w : Session Unit) (f g : Frame) (rest : List Frame)
      (p : PendingException), m₀.Created {} ∧ Served Natives.none m₀ [] s ∧
        Session.EndsIn Natives.none [] rest { s.machine.scene with
          operands := [], frames := { value := .array 5 .block } :: f :: rest } s t ∧
        Session.Spans Natives.none (f :: rest) 4 [] t [] u ∧
        u.machine.calls.frames = g :: f :: rest ∧ u.machine.pending = some p ∧
        p.exception.condition = .stop ∧
        u.machine.operands.items.map Value.datum = [.integer (.ofInt 1)] ∧
        u.Isolates Natives.none [] [g] f rest p w := by
  let text := "\x7b 1 stop \x7d stopped"
  let v : Value := ⟨.operator (.builtin .stopped), some ⟨"-", text, 11, 7⟩⟩
  have facts : (Session.trial {} text 11).map (fun s => (s.machine.calls.frames, s.machine.pending,
      s.machine.operands.items, (Session.step Natives.none 1 { value := v } s).overflows)) =
        some ([{ value := v }, { value := ⟨.string text true, some (.whole "-" text)⟩, cursor := 18 }],
          none, [.array 5 .block], false) := by
    decide +kernel
  have later : (((Session.trial {} text 11).bind fun s => (Session.cycle Natives.none s).state?).bind
      (Session.traverse 2 4)).map (fun u => (u.machine.calls.frames.map Frame.state,
        u.machine.condition, u.machine.operands.items.map Value.datum)) =
          some ([.firstCall, .callBeforePop, .unknown], some .stop, [.integer (.ofInt 1)]) := by
    decide +kernel
  obtain ⟨s, hs, facts⟩ := Option.map_eq_some_iff.1 facts
  simp only [Prod.mk.injEq] at facts
  obtain ⟨frames, pending, operands, room⟩ := facts
  obtain ⟨m₀, created, reached⟩ := Reached.of_trial (by rintro t ⟨⟩) hs
  rw [hs] at later
  obtain ⟨u, hu, later⟩ := Option.map_eq_some_iff.1 later
  obtain ⟨t', ht', hu⟩ := Option.bind_eq_some_iff.1 hu
  simp only [Prod.mk.injEq] at later
  obtain ⟨states, condition, pushed⟩ := later
  obtain ⟨p, hp, hstop⟩ := Machine.condition_eq_some.1 condition
  obtain ⟨f, t, rfl, begins, runs⟩ := stopped_isolates_its_block created reached.served pending
    frames rfl operands rfl room
  obtain rfl : t' = t := Option.some.inj (ht'.symm.trans begins.conducts.leads)
  have spans := Session.Spans.of_traverse [] [_, _] hu
    ⟨[{ value := .array 5 .block }], congrArg Scene.frames begins.scene⟩
  obtain ⟨above, habove, -, -, unwound⟩ := runs 4 [] u spans
  rw [habove, List.map_append] at states
  have above_states : above.map Frame.state = [.firstCall] := List.append_inj_left' states rfl
  obtain ⟨g, rfl, hg⟩ := List.map_eq_singleton_iff.1 above_states
  obtain ⟨-, isolates, -⟩ := unwound p hp
  obtain ⟨w, isolates⟩ := isolates fun g' hg' => .idle (by
    rw [List.mem_singleton.1 hg', hg]
    rfl)
  exact ⟨m₀, s, _, u, w, _, g, _, p, created, reached.served, begins, spans, habove, hp, hstop,
    pushed, isolates⟩

end StackScript
