import StackScript.Proofs.Operator.Repeating

/-!
# `repeat` executes its block a number of times

`repeat` takes its operands away, and executes its block so many times in sequence, each time above its
own frame and with all that the time before has left (`repeat_iterates`).  Of its own it changes nothing
but its frame and its locals, which are gone in the end.  No execution can do anything about how many
more there are, except for ending the loop by an exception.
-/

namespace StackScript

open StackScript.Action

variable {χ : Type} {natives : Natives χ} {options : Options} {m₀ m : Machine} {Γ : Charter}
  {n : ℕ} {x : Stake} {owned : List Value} {s t : Session χ} {f g : Frame} {rest : List Frame}
  {p : PendingException} {v block count : Value} {operands : List Value} {c : Scene} {d : Handle}
  {w : Word}

/-- The next cycle shows `c`, and changes no container but that of the handle `d`. -/
structure Session.Proceeds (natives : Natives χ) (owned : List Value) (rest : List Frame) (d : Handle)
    (c : Scene) (s t : Session χ) : Prop extends Session.EndsIn natives owned rest c s t where
  others : s.machine.memory.heap.Drifts (· = d) t.machine.memory.heap

/-- The next cycle shows `c`.  It changes no container, and that of the handle `d` is gone. -/
structure Session.Quits (natives : Natives χ) (owned : List Value) (rest : List Frame) (d : Handle)
    (c : Scene) (s t : Session χ) : Prop extends Session.EndsIn natives owned rest c s t where
  sheds : s.machine.memory.Sheds t.machine.memory
  gone : ¬ t.machine.memory.heap.Live d

/-- The block of the loop of the frame `g`, which has its locals at `d`, has been executed, and the
frame is the top one.  Without an exception the loop gets ready for the next round.  A break is taken
away, and its charge is given back; any other exception stays.  In either case the frame goes. -/
structure Session.Concludes (natives : Natives χ) (g : Frame) (d : Handle) (rest : List Frame)
    (next : List Value → Session χ → Prop) (owned : List Value) (s : Session χ) : Prop where
  restarts : s.machine.pending = none → ∃ t, Session.Proceeds natives owned rest d
    { s.machine.scene with frames := { g with state := .firstCall } :: rest } s t ∧ next owned t
  breaks : ∀ p, s.machine.pending = some p → p.exception.condition = .loopBreak →
    ∃ t, Session.Quits natives owned rest d
        { s.machine.scene with frames := rest, pending := none } s t ∧
      Machine.popFrame (s.machine.cleared p) = .done () t.machine
  passes : ∀ p, s.machine.pending = some p → p.exception.condition ≠ .loopBreak →
    ∃ t, Session.Quits natives owned rest d { s.machine.scene with frames := rest } s t

/-- The block of the loop of the frame `g` has been queued.  Neither the frame nor those below change
while it is executed, and neither do their locals.  An exception gets to the frame. -/
def Session.Rounds (natives : Natives χ) (g : Frame) (d : Handle) (rest : List Frame)
    (next : List Value → Session χ → Prop) (owned : List Value) (s : Session χ) : Prop :=
  ∀ k owned' t, Session.Spans natives (g :: rest) k owned s owned' t →
    ∃ above, t.machine.calls.frames = above ++ g :: rest ∧
      s.machine.Steady (rest.length + 1) t.machine ∧ t.Descends natives owned' above (g :: rest) ∧
        (above = [] → t.Concludes natives g d rest next owned')

/-- The block of a `repeat` has been queued above its frame `g`, and is to be executed `n` more times
after that: in the round after the last one the frame goes, and in any other one the block is queued
again, if there is room for it. -/
def Session.Repeats (natives : Natives χ) (block : Value) (g : Frame) (d : Handle)
    (rest : List Frame) : ℕ → List Value → Session χ → Prop
  | 0 => Rounds natives g d rest fun owned s =>
    ∃ t, Quits natives owned rest d { s.machine.scene with frames := rest } s t
  | n + 1 => Rounds natives g d rest fun owned s =>
    (step natives rest.length { g with state := .firstCall } s).overflows = false →
      ∃ t, Proceeds natives owned rest d
          { s.machine.scene with frames := { value := block } :: g :: rest } s t ∧
        Repeats natives block g d rest n owned t

namespace Served

/-! ### The end of a round -/

/-- Without an exception pending, a loop gets ready for another round. -/
theorem ends_round (hm₀ : m₀.Created options) (h : Served natives m₀ owned s)
    (hframes : s.machine.calls.frames = g :: rest)
    (hg : g.value.toOperator? = some (.builtin .repeatBlock)) (hsupply : g.supply = none)
    (hstate : g.state = .callBeforePop) (hpending : s.machine.pending = none) :
    ∃ t, Session.EndsIn natives owned rest
      { s.machine.scene with frames := { g with state := .firstCall } :: rest } s t ∧
        t.machine.memory = s.machine.memory := by
  have invoked : s.machine.invoked? g = some (.builtin .repeatBlock) := by
    rw [Machine.invoked?, hpending, hsupply, hg]
    rfl
  have condition : s.machine.condition = none := by
    rw [Machine.condition, Machine.exception, hpending]
    rfl
  obtain ⟨m, moved, memory, becomes⟩ :=
    Machine.setState_above [] .firstCall hframes (by rw [hstate]; rfl)
  have run : (Builtin.repeatBlock.operation []).runOn (some rest.length) s.machine = .done () m :=
    (Operation.loop_restarts rfl ⟨g, CallStack.frame?_head hframes, hstate⟩ condition).trans moved
  have hinvoke : Session.onMachine
      ((Builtin.repeatBlock.operation []).runOn (some rest.length)) s =
        .done () { s with machine := m } := by
    unfold Session.onMachine Action.zoom
    rw [run]
  have done : Session.step Natives.none rest.length g s = .done () { s with machine := m } := by
    rw [Session.step_of_invoked invoked, Session.stepOperator_resumes rfl hframes
      (by simp [hstate]) (by simp [hstate]), Session.resume_of_done hinvoke]
    have framed : m.calls.frames = [] ++ { g with state := .firstCall } :: rest := becomes.frames
    exact Session.settle_stays (s := { s with machine := m }) framed (by simp [hstate]) (by simp)
  exact ⟨_, h.endsIn_of_done hm₀ (Session.alone_of_builtin hframes hg)
    (Session.fed_of_no_supply hframes hsupply) hframes done becomes.scene, memory.symm⟩

/-- The frame goes when `repeat` is done. -/
theorem quits (hm₀ : m₀.Created options) (h : Served natives m₀ owned s)
    (hframes : s.machine.calls.frames = g :: rest)
    (hg : g.value.toOperator? = some (.builtin .repeatBlock)) (hsupply : g.supply = none)
    (hlocals : g.locals = some d) (hinvoked : s.machine.invoked? g = some (.builtin .repeatBlock))
    (hrests : g.state.Rests)
    (hrun : (Builtin.repeatBlock.operation []).runOn (some rest.length) s.machine = .done () m)
    (hcalls : m.calls = s.machine.calls) (hmemory : m.memory.heap = s.machine.memory.heap) :
    ∃ t, Session.Quits natives owned rest d { m.scene with frames := rest } s t ∧
      Machine.popFrame m = .done () t.machine := by
  obtain ⟨Γ, -, sound⟩ := h.sound hm₀
  have frames : m.calls.frames = g :: rest := hcalls ▸ hframes
  obtain ⟨t, done, popped, sound', growing', becomes⟩ := Session.step_done sound (h.growing hm₀)
    hframes hinvoked (by rcases hrests with h | h <;> simp [h])
    (by rcases hrests with h | h <;> simp [h]) rfl hrun frames (.inl ⟨rfl, hrests⟩)
  obtain ⟨sheds, gone⟩ := Machine.popFrame_releases sound' growing' frames popped
  refine ⟨t, ⟨h.endsIn_of_done hm₀ (Session.alone_of_builtin hframes hg)
    (Session.fed_of_no_supply hframes hsupply) hframes done becomes.scene, ?_, gone d hlocals⟩,
    popped⟩
  unfold Memory.Sheds at sheds ⊢
  rwa [hmemory] at sheds

/-- **When its block has been executed**, `repeat` goes on to the next round or is left. -/
theorem concludes {next : List Value → Session χ → Prop} (hm₀ : m₀.Created options)
    (h : Served natives m₀ owned s) (hframes : s.machine.calls.frames = g :: rest)
    (hg : g.value.toOperator? = some (.builtin .repeatBlock)) (hsupply : g.supply = none)
    (hlocals : g.locals = some d) (hstate : g.state = .callBeforePop)
    (hnext : s.machine.pending = none → ∀ t, Session.EndsIn natives owned rest
      { s.machine.scene with frames := { g with state := .firstCall } :: rest } s t →
        t.machine.memory = s.machine.memory → next owned t) :
    s.Concludes natives g d rest next owned := by
  obtain ⟨Γ, -, sound⟩ := h.sound hm₀
  have state : s.machine.StateIs rest.length .callBeforePop :=
    ⟨g, CallStack.frame?_head hframes, hstate⟩
  have invoked : s.machine.invoked? g = some (.builtin .repeatBlock) := by
    rw [Machine.invoked?, hstate, hsupply, hg]
    simp [Continuation.isPopping]
  have quits {m : Machine} (hrun : (Builtin.repeatBlock.operation []).runOn (some rest.length)
      s.machine = .done () m) := h.quits hm₀ hframes hg hsupply hlocals invoked
        (hstate ▸ .inr rfl) hrun
  refine ⟨fun hpending => ?_, fun p hp hbreak => ?_, fun p hp hne => ?_⟩
  · obtain ⟨t, endsIn, memory⟩ := h.ends_round hm₀ hframes hg hsupply hstate hpending
    exact ⟨t, ⟨endsIn, memory ▸ .refl _ _⟩, hnext hpending t endsIn memory⟩
  · exact quits (Operation.loop_breaks sound rfl state hp hbreak) rfl rfl
  · have condition := Machine.condition_eq_some.2 ⟨p, hp, rfl⟩
    exact (quits (Operation.loop_passes rfl state condition hne) rfl rfl).imp fun _ => And.left

/-! ### Rounds -/

/-- At the beginning of a round the block is queued, if there is room for it. -/
theorem counts_down (hm₀ : m₀.Created options) (h : Served natives m₀ owned s)
    (hframes : s.machine.calls.frames = f :: rest)
    (hf : f.value.toOperator? = some (.builtin .repeatBlock)) (hsupply : f.supply = none)
    (hlocals : f.locals = some d) (hstate : f.state = .firstCall)
    (hpending : s.machine.pending = none) (hcounts : s.machine.Counts rest.length block (n + 1))
    (hn : n < 9223372036854775807)
    (hroom : (Session.step natives rest.length f s).overflows = false) :
    ∃ t, Session.Proceeds natives owned rest d { s.machine.scene with
        frames := { value := block } :: { f with state := .callBeforePop } :: rest } s t ∧
      t.machine.Counts rest.length block n := by
  have invoked : s.machine.invoked? f = some (.builtin .repeatBlock) := by
    rw [Machine.invoked?, hpending, hsupply, hf]
    rfl
  have framed : s.machine.calls.frames = [] ++ f :: rest := hframes
  let P (m : Machine) : Prop := s.machine.Becomes { s.machine.scene with
      frames := { value := block } :: { f with state := .callBeforePop } :: rest } m ∧
    s.machine.memory.heap.Drifts (· = d) m.memory.heap ∧ m.memory.heap.Counts d block n
  have granted : (Session.step Natives.none rest.length f s).Grants fun _ t => P t.machine := by
    rw [Session.step_of_invoked invoked, Session.stepOperator_resumes rfl hframes
      (by simp [hstate]) (by simp [hstate])]
    refine Session.resume_grants (M := fun t => P t.machine) (Session.grants_onMachine
      (Operation.repeat_counts_down (h.growing hm₀) hframes hstate hlocals
        (hcounts.heap framed hlocals) hn)) fun t ht => ?_
    have framed' : t.machine.calls.frames =
        [{ value := block }] ++ { f with state := .callBeforePop } :: rest := ht.1.frames
    rw [Session.settle_stays framed' (by simp [hstate]) (by simp)]
    exact ht
  obtain ⟨t, conducts, becomes, drifts, counts⟩ := h.leads hm₀ (Session.alone_of_builtin hframes hf)
    (Session.fed_of_no_supply hframes hsupply) hframes granted hroom
  obtain ⟨Γ, -, sound⟩ := (h.cycle conducts).sound hm₀
  have framed' : t.machine.calls.frames =
      [{ value := block }] ++ { f with state := .callBeforePop } :: rest := becomes.frames
  exact ⟨t, ⟨h.endsIn hm₀ hframes conducts becomes.scene, drifts⟩,
    sound.counts framed' hlocals counts⟩

/-- **Once its block has been queued**, `repeat` executes it that time, and then as many times as it
has counted. -/
theorem repeats (hm₀ : m₀.Created options) (h : Served natives m₀ owned s)
    (hframes : s.machine.calls.frames = { value := block } :: g :: rest)
    (hg : g.value.toOperator? = some (.builtin .repeatBlock)) (hsupply : g.supply = none)
    (hlocals : g.locals = some d) (hstate : g.state = .callBeforePop)
    (hcounts : s.machine.Counts rest.length block n) (hn : n ≤ 9223372036854775807) :
    s.Repeats natives block g d rest n owned := by
  -- what is counted is still there when the next round is due
  have round {owned : List Value} {s : Session χ} {n : ℕ} {next : List Value → Session χ → Prop}
      (h : Served natives m₀ owned s)
      (hframes : s.machine.calls.frames = { value := block } :: g :: rest)
      (hcounts : s.machine.Counts rest.length block n)
      (hnext : ∀ owned t, Served natives m₀ owned t →
        t.machine.calls.frames = { g with state := .firstCall } :: rest →
          t.machine.pending = none → t.machine.Counts rest.length block n → next owned t) :
      s.Rounds natives g d rest next owned := by
    intro k owned' t spans
    obtain ⟨Γ, -, sound⟩ := h.sound hm₀
    obtain ⟨above, habove⟩ := spans.exists_above ⟨[{ value := block }], hframes⟩
    have steady := (spans.steady sound).2
    have ht := h.spans spans
    refine ⟨above, habove, steady, ht.descends hm₀ habove, ?_⟩
    rintro rfl
    refine ht.concludes hm₀ habove hg hsupply hlocals hstate fun hpending u endsIn memory => ?_
    have hu := ht.cycle endsIn.conducts
    obtain ⟨Γ, -, sound'⟩ := hu.sound hm₀
    have framed : t.machine.calls.frames = [] ++ g :: rest := habove
    have framed' : u.machine.calls.frames = [] ++ { g with state := .firstCall } :: rest :=
      congrArg Scene.frames endsIn.scene
    have counts := (hcounts.of_steady steady).heap framed hlocals
    exact hnext owned' u hu framed' ((congrArg Scene.pending endsIn.scene).trans hpending)
      (sound'.counts framed' hlocals (memory ▸ counts))
  induction n generalizing owned s with
  | zero =>
    refine round h hframes hcounts fun owned t ht frames pending counts => ?_
    have invoked : t.machine.invoked? { g with state := .firstCall } =
        some (.builtin .repeatBlock) := by
      rw [Machine.invoked?, pending, hsupply, hg]
      rfl
    obtain ⟨Γ, -, sound⟩ := ht.sound hm₀
    have run := Operation.repeat_ends sound ⟨_, CallStack.frame?_head frames, rfl⟩ counts
    exact (ht.quits hm₀ frames hg hsupply hlocals invoked (.inl rfl) run rfl rfl).imp
      fun _ => And.left
  | succ n ih =>
    refine round h hframes hcounts fun owned t ht frames pending counts hroom => ?_
    obtain ⟨u, proceeds, counts'⟩ := ht.counts_down hm₀ frames hg hsupply hlocals rfl pending counts
      (by omega) hroom
    have back : { { g with state := .firstCall } with state := .callBeforePop } = g := by
      rw [← hstate]
    rw [back] at proceeds
    exact ⟨u, proceeds, ih (ht.cycle proceeds.conducts) (congrArg Scene.frames proceeds.scene)
      counts' (by omega)⟩

/-! ### The beginning -/

theorem accepts_operands (hblock : Param.block.accepts block = true)
    (hcount : count.datum = .integer w) :
    List.Forall₂ (fun p v => Param.accepts p v = true) Builtin.repeatBlock.signature
      [block, count] :=
  .cons hblock (.cons (by simp [Param.accepts, Value.kind, Datum.kind, hcount]) .nil)

theorem unused {m : Machine} (hμ : s.machine.memory.Recounts m.memory)
    (hd : ¬ m.memory.heap.Live d) : ¬ s.machine.memory.heap.Live d := by
  rw [Heap.live_iff_content?] at hd ⊢
  rwa [← hμ.content]

/-- `repeat` begins: its operands become locals, and its block is queued for the first time. -/
theorem begins_repeating (hm₀ : m₀.Created options) (h : Served natives m₀ owned s)
    (hpending : s.machine.pending = none) (hframes : s.machine.calls.frames = { value := v } :: rest)
    (hv : v.toOperator? = some (.builtin .repeatBlock))
    (hoperands : s.machine.operands.items = block :: count :: operands)
    (hblock : Param.block.accepts block = true) (hcount : count.datum = .integer w)
    (hn : w.toInt = (n + 1 : ℕ))
    (hroom : (Session.step natives rest.length { value := v } s).overflows = false) :
    ∃ d t, ¬ s.machine.memory.heap.Live d ∧ Session.Proceeds natives owned rest d
      { s.machine.scene with
        operands := operands
        frames := { value := block } ::
          { value := v, state := .callBeforePop, locals := some d } :: rest } s t ∧
        t.machine.Counts rest.length block n := by
  let c (d : Handle) : Scene := { s.machine.scene with
    operands := operands
    frames := { value := block } ::
      { value := v, state := .callBeforePop, locals := some d } :: rest }
  let E (c' : Scene) (μ : Memory) : Prop := ∃ d, c' = c d ∧ ¬ s.machine.memory.heap.Live d ∧
    s.machine.memory.heap.Drifts (· = d) μ.heap ∧ μ.heap.Counts d block n
  have begun (m : Machine) (hm : s.machine.Becomes { s.machine.scene with
      frames := { value := v, state := .firstCall } :: rest } m)
      (hμ : s.machine.memory.Recounts m.memory) (hw : m.memory.heap.WellFormed) :
      ((Builtin.repeatBlock.operation [block, count]).runOn (some rest.length) m).Grants fun _ m' =>
        ∃ c', s.machine.Becomes c' m' ∧ (∃ above g, c'.frames = above ++ g :: rest ∧
          g.state = .callBeforePop) ∧ E c' m'.memory := by
    refine Operation.repeat_binds (hm.growing (h.growing hm₀)) hw hm.frames rfl
      (hm.operands.trans hoperands) (by rw [Value.toWord?, hcount]) hn fun m₁ d h₁ hd drifts counts => ?_
    refine (Operation.repeat_counts_down (h₁.growing (hm.growing (h.growing hm₀))) h₁.frames rfl rfl
      counts (by have := w.toInt_range; omega)).mono ?_
    rintro _ m₂ ⟨h₂, drifts', counts'⟩
    refine ⟨c d, ⟨h₂.scene.trans ?_, (h₂.growth.trans h₁.growth).trans hm.growth⟩,
      ⟨[_], _, rfl, rfl⟩, d, rfl, unused hμ hd, (hμ.sheds.drifts _).trans (drifts.trans drifts'),
      counts'⟩
    rw [h₁.scene, hm.scene]
  have deferred (c' : Scene) (μ ν : Memory) (hμ : E c' μ) (hν : μ.Sheds ν) : E c' ν := by
    obtain ⟨d, hc, hd, drifts, counts⟩ := hμ
    exact ⟨d, hc, hd, drifts.trans (Heap.Sheds.drifts hν _), counts.sheds hν⟩
  obtain ⟨t, _, endsIn, d, rfl, hd, drifts, counts⟩ := h.defers hm₀ hpending hframes hv rfl
    (show _ = [block, count] ++ operands from hoperands) (accepts_operands hblock hcount) hroom begun
    deferred
  obtain ⟨Γ, -, sound⟩ := (h.cycle endsIn.conducts).sound hm₀
  have queued : t.machine.calls.frames = [{ value := block }] ++
      { value := v, state := .callBeforePop, locals := some d } :: rest :=
    congrArg Scene.frames endsIn.scene
  exact ⟨d, t, hd, ⟨endsIn, drifts⟩, sound.counts queued rfl counts⟩

/-- If its block is not to be executed at all, `repeat` is done at once. -/
theorem repeats_nothing (hm₀ : m₀.Created options) (h : Served natives m₀ owned s)
    (hpending : s.machine.pending = none) (hframes : s.machine.calls.frames = { value := v } :: rest)
    (hv : v.toOperator? = some (.builtin .repeatBlock))
    (hoperands : s.machine.operands.items = block :: count :: operands)
    (hblock : Param.block.accepts block = true) (hcount : count.datum = .integer w)
    (hn : w.toInt = (0 : ℕ))
    (hroom : (Session.step natives rest.length { value := v } s).overflows = false) :
    ∃ d t, ¬ s.machine.memory.heap.Live d ∧ Session.Quits natives owned rest d
      { s.machine.scene with operands := operands, frames := rest } s t := by
  obtain ⟨Γ, -, sound⟩ := h.sound hm₀
  have growing := h.growing hm₀
  have invoked : s.machine.invoked? { value := v } = some (.builtin .repeatBlock) := by
    rw [Machine.invoked?, hpending, hv]
    rfl
  let E (c : Scene) (μ : Memory) : Prop := ∃ d, c = { s.machine.scene with
      operands := operands
      frames := { value := v, state := .firstCall, locals := some d } :: rest } ∧
    ¬ s.machine.memory.heap.Live d ∧ s.machine.memory.heap.Drifts (· = d) μ.heap ∧
      μ.heap.Counts d block 0
  have granted : (Session.step Natives.none rest.length { value := v } s).Grants fun _ t =>
      ∃ c, s.machine.Becomes { c with frames := rest } t.machine ∧ E c t.machine.memory := by
    rw [Session.step_of_invoked invoked]
    refine Session.dispatch_completes sound growing rfl hframes rfl
      (Machine.matchOperands_of_accepts hoperands (accepts_operands hblock hcount))
      (fun m hm hμ hs => ?_) fun c μ ν hμ hν => ?_
    · refine Operation.repeat_binds (hm.growing growing) hs.wellFormed hm.frames rfl
        (hm.operands.trans hoperands) (by rw [Value.toWord?, hcount]) hn
        fun m₁ d h₁ hd drifts counts => ?_
      refine (Operation.repeat_completes h₁.frames rfl rfl counts).mono ?_
      rintro _ _ rfl
      refine ⟨_, ⟨h₁.scene, h₁.growth.trans hm.growth⟩, ⟨_, rfl, rfl⟩, d, ?_, unused hμ hd,
        (hμ.sheds.drifts _).trans drifts, counts⟩
      rw [hm.scene]
    · obtain ⟨d, hc, hd, drifts, counts⟩ := hμ
      exact ⟨d, hc, hd, drifts.trans (Heap.Sheds.drifts hν _), counts.sheds hν⟩
  obtain ⟨t, conducts, _, becomes, d, rfl, hd, drifts, counts⟩ := h.leads hm₀
    (Session.alone_of_builtin hframes hv) (Session.fed_of_no_supply hframes rfl) hframes granted hroom
  have endsIn := h.endsIn hm₀ hframes conducts becomes.scene
  obtain ⟨Γ', -, sound'⟩ := (h.cycle conducts).sound hm₀
  have shown : s.machine.scene.operands = block :: count :: operands := hoperands
  have stacked : s.machine.scene.frames = { value := v } :: rest := hframes
  have gone : ¬ t.machine.memory.heap.Live d := by
    refine sound.gone_of_counts sound' (fun i hi => ?_) (fun i hi => ?_) hd drifts counts
    · rw [endsIn.scene] at hi
      refine hi.mono ?_ (fun f hf => .inr ⟨f, stacked ▸ .tail _ hf, rfl, rfl⟩) rfl
      exact fun u hu => shown ▸ .tail _ (.tail _ hu)
    · exact sound.live (.inl (.inl ⟨block, shown ▸ .head _, hi⟩))
  refine ⟨d, t, hd, endsIn, fun i => ?_, gone⟩
  by_cases live : t.machine.memory.heap.Live i
  · exact .inr (drifts i live (by rintro rfl; exact gone live)).2
  · exact .inl (not_not.1 (Heap.live_iff_content?.not.1 live))

end Served

/-! ### The guarantee -/

/-- **`repeat` executes its block so many times in sequence.**  It takes its operands away, and its frame
goes at once if that is not at all.  Otherwise it queues its block above its frame.  Each time this has
been executed it is queued again, with all that the execution has left, until it has been executed so
many times; then the frame goes.  If an exception ends an execution, no other one begins: a break is
taken away, and the frame goes either way.  Whatever is executed, neither the frame nor what it counts
changes meanwhile; and the cycles of `repeat` change no container but its locals, which have not been
there before and are gone in the end. -/
theorem repeat_iterates (hm₀ : m₀.Created options) (h : Served natives m₀ owned s)
    (hpending : s.machine.pending = none) (hframes : s.machine.calls.frames = { value := v } :: rest)
    (hv : v.toOperator? = some (.builtin .repeatBlock))
    (hoperands : s.machine.operands.items = block :: count :: operands)
    (hblock : Param.block.accepts block = true) (hcount : count.datum = .integer w)
    (hn : w.toInt = n) (hroom : (Session.step natives rest.length { value := v } s).overflows = false) :
    ∃ d, ¬ s.machine.memory.heap.Live d ∧
      (n = 0 → ∃ t, Session.Quits natives owned rest d
        { s.machine.scene with operands := operands, frames := rest } s t) ∧
      ∀ k, n = k + 1 → ∃ g t, g = { value := v, state := .callBeforePop, locals := some d } ∧
        Session.Proceeds natives owned rest d { s.machine.scene with
          operands := operands, frames := { value := block } :: g :: rest } s t ∧
        t.Repeats natives block g d rest k owned := by
  cases n with
  | zero =>
    obtain ⟨d, t, hd, quits⟩ :=
      h.repeats_nothing hm₀ hpending hframes hv hoperands hblock hcount hn hroom
    exact ⟨d, hd, fun _ => ⟨t, quits⟩, nofun⟩
  | succ n =>
    obtain ⟨d, t, hd, proceeds, counts⟩ :=
      h.begins_repeating hm₀ hpending hframes hv hoperands hblock hcount hn hroom
    refine ⟨d, hd, nofun, fun k hk => ⟨_, t, rfl, proceeds, ?_⟩⟩
    obtain rfl := Nat.succ.inj hk
    exact (h.cycle proceeds.conducts).repeats hm₀ (congrArg Scene.frames proceeds.scene) hv rfl rfl rfl
      counts (by have := w.toInt_range; omega)

/-- A block that pushes something is executed twice. -/
theorem repeat_iterates_twice :
    ∃ (m₀ : Machine) (s t₁ u₁ w t₂ u₂ z r : Session Unit) (g : Frame) (d : Handle)
      (rest : List Frame), m₀.Created {} ∧ Served Natives.none m₀ [] s ∧
        Session.Proceeds Natives.none [] rest d { s.machine.scene with
          operands := [], frames := { value := .array 5 .block } :: g :: rest } s t₁ ∧
        Session.Spans Natives.none (g :: rest) 1 [] t₁ [] u₁ ∧
        Session.Proceeds Natives.none [] rest d { u₁.machine.scene with
          frames := { g with state := .firstCall } :: rest } u₁ w ∧
        Session.Proceeds Natives.none [] rest d { w.machine.scene with
          frames := { value := .array 5 .block } :: g :: rest } w t₂ ∧
        Session.Spans Natives.none (g :: rest) 1 [] t₂ [] u₂ ∧
        Session.Proceeds Natives.none [] rest d { u₂.machine.scene with
          frames := { g with state := .firstCall } :: rest } u₂ z ∧
        Session.Quits Natives.none [] rest d { z.machine.scene with frames := rest } z r ∧
        u₂.machine.operands.items.map Value.datum = [.integer (.ofInt 1), .integer (.ofInt 1)] := by
  let text := "2 \x7b 1 \x7d repeat"
  let v : Value := ⟨.operator (.builtin .repeatBlock), some ⟨"-", text, 8, 6⟩⟩
  let two : Value := ⟨.integer (.ofInt 2), some ⟨"-", text, 0, 1⟩⟩
  let next (s : Session Unit) := (Session.cycle Natives.none s).state?
  let executed (s : Session Unit) := (next s).bind (Session.traverse 2 1)
  have facts : (Session.trial {} text 10).map (fun s => (s.machine.calls.frames, s.machine.pending,
      s.machine.operands.items, (Session.step Natives.none 1 { value := v } s).overflows)) =
        some ([{ value := v }, { value := ⟨.string text true, some (.whole "-" text)⟩, cursor := 14 }],
          none, [.array 5 .block, two], false) := by
    decide +kernel
  have once : ((Session.trial {} text 10).bind executed).map (fun u => (u.machine.calls.length,
      u.machine.pending)) = some (2, none) := by
    decide +kernel
  have ready : (((Session.trial {} text 10).bind executed).bind next).map (fun w =>
      w.machine.calls.frames.head?.map fun f => (Session.step Natives.none 1 f w).overflows) =
        some (some false) := by
    decide +kernel
  have twice : ((((Session.trial {} text 10).bind executed).bind next).bind executed).map (fun u =>
      (u.machine.calls.length, u.machine.pending, u.machine.operands.items.map Value.datum)) =
        some (2, none, [.integer (.ofInt 1), .integer (.ofInt 1)]) := by
    decide +kernel
  obtain ⟨s, hs, facts⟩ := Option.map_eq_some_iff.1 facts
  simp only [Prod.mk.injEq] at facts
  obtain ⟨frames, pending, operands, room⟩ := facts
  obtain ⟨m₀, created, reached⟩ := Reached.of_trial (by rintro t ⟨⟩) hs
  rw [hs] at once ready twice
  obtain ⟨u₁, hu₁, once⟩ := Option.map_eq_some_iff.1 once
  obtain ⟨t₁', ht₁, traversed₁⟩ :=
    Option.bind_eq_some_iff.1 (show (next s).bind (Session.traverse 2 1) = some u₁ from hu₁)
  rw [hu₁] at ready twice
  obtain ⟨w', hw, ready⟩ := Option.map_eq_some_iff.1 ready
  rw [hw] at twice
  obtain ⟨u₂, hu₂, twice⟩ := Option.map_eq_some_iff.1 twice
  obtain ⟨t₂', ht₂, traversed₂⟩ :=
    Option.bind_eq_some_iff.1 (show (next w').bind (Session.traverse 2 1) = some u₂ from hu₂)
  simp only [Prod.mk.injEq] at once twice
  obtain ⟨d, -, -, runs⟩ := repeat_iterates (n := 2) created reached.served pending frames rfl operands
    rfl rfl rfl room
  obtain ⟨g, t₁, rfl, begins, repeats⟩ := runs 1 rfl
  obtain rfl : t₁' = t₁ := Option.some.inj (ht₁.symm.trans begins.conducts.leads)
  have spans₁ := Session.Spans.of_traverse [] [_, _] traversed₁
    ⟨[{ value := .array 5 .block }], congrArg Scene.frames begins.scene⟩
  obtain ⟨above, habove, -, -, concludes⟩ := repeats 1 [] u₁ spans₁
  have depth := once.1
  rw [CallStack.length, habove, List.length_append] at depth
  obtain ⟨w, restarts, goes⟩ :=
    (concludes (List.length_eq_zero_iff.1 (Nat.add_eq_right.1 depth))).restarts once.2
  obtain rfl : w' = w := Option.some.inj (hw.symm.trans restarts.conducts.leads)
  rw [show w'.machine.calls.frames = _ from congrArg Scene.frames restarts.scene] at ready
  obtain ⟨t₂, begins₂, repeats₂⟩ := goes (Option.some.inj ready)
  obtain rfl : t₂' = t₂ := Option.some.inj (ht₂.symm.trans begins₂.conducts.leads)
  have spans₂ := Session.Spans.of_traverse [] [_, _] traversed₂
    ⟨[{ value := .array 5 .block }], congrArg Scene.frames begins₂.scene⟩
  obtain ⟨above₂, habove₂, -, -, concludes₂⟩ := repeats₂ 1 [] u₂ spans₂
  have depth₂ := twice.1
  rw [CallStack.length, habove₂, List.length_append] at depth₂
  obtain ⟨z, restarts₂, r, quits⟩ :=
    (concludes₂ (List.length_eq_zero_iff.1 (Nat.add_eq_right.1 depth₂))).restarts twice.2.1
  exact ⟨m₀, s, t₁', u₁, w', t₂', u₂, z, r, _, d, _, created, reached.served, begins, spans₁, restarts,
    begins₂, spans₂, restarts₂, quits, twice.2.2⟩

end StackScript
