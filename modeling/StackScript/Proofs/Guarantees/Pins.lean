import StackScript.Proofs.Guarantees.Cascades
import StackScript.Proofs.Machine.Restoration
import StackScript.Proofs.Operator.Pinning

/-!
# Operands stay while an operator is invoked for the first time

The operands an operator of a host has asked for are matched, pinned, and given to its operation.  The
operation may then do whatever it likes, as long as it keeps to what it holds: until it returns, its
operands are where they were, whatever has become of the places they were found in.  Then each pin is
dropped, once, and a container goes if the pin was all that kept it (`operands_stay_pinned`).
-/

namespace StackScript

open Memory (retainAll releaseAll)

variable {χ : Type} {Γ : Charter} {natives : Natives χ} {s : Session χ} {f : Frame}
  {rest : List Frame} {name : String} {looping : Bool} {signature : List Param}
  {operation : List Value → χ → Operation (χ × Except Exception Unit)} {params owned : List Value}

/-- While values are pinned in a machine, their containers and texts are there, with a reference for
each pin. -/
structure Machine.Pins (vs : List Value) (m : Machine) : Prop where
  contains : m.Contains vs
  counts : ∀ i, vs.countP (fun v => v.handle? = some i) ≤ m.memory.heap.countAt i
  texts : ∀ t, vs.countP (fun v => v.string? = some t) ≤ m.memory.ledger.references t
  /-- A request that creates a container gets another handle for it. -/
  unused : ∀ own r a m', Request.perform own r m = .done a m' →
    ∀ w ∈ r.handedOut a, ∀ v ∈ vs, ∀ i, w.handle? = some i → v.handle? ≠ some i

theorem Machine.Sound.pins {n : ℕ} {x : Stake} {m : Machine} {vs : List Value}
    (h : m.Sound Γ n (.refs vs + x)) : m.Pins vs := by
  have contains : m.Contains vs := h.contains fun v hv => by simp [hv]
  obtain ⟨-, σ, hb, -⟩ := h.memory
  refine ⟨contains, h.countP_le, h.countP_le_references, fun own r a m' done w hw v hv i hwi hvi => ?_⟩
  have moved : (r.perform own m).Meets True
      (fun a m' => m.Moves (r.surrendered ++ r.passed) (r.handedOut a) m')
      (m.Moves (r.surrendered ++ r.passed) []) :=
    r.perform_moves own hb.heap (by simp) fun v hv => m.carries_of_held (List.mem_append_right _ hv)
  rw [done] at moved
  obtain ⟨o, ho, -⟩ := contains.live v hv i hvi
  obtain ⟨c, hc, -⟩ := Heap.exists_cell_of_object? ho
  rw [moved.unused w hw i hwi] at hc
  cases hc

variable {n : ℕ} {m : Machine} {vs : List Value}

/-- The pins can be dropped, and what goes with them is what nothing else refers to. -/
theorem Machine.Sound.exists_unpinned (h : m.Sound Γ n (.refs vs + .refs owned)) :
    ∃ m', Machine.onMemory (releaseAll vs) m = .done () m' ∧
      Memory.Cascaded (m.stake + .refs owned) vs m.memory m'.memory := by
  obtain ⟨present, σ, hb, -⟩ := h.memory
  have sum : m.stake + (.refs vs + .refs owned) = m.stake + .refs owned + .refs vs := by
    abel
  have hout := present.outSupported (m.stake + .refs owned)
  obtain ⟨k, μ, released, cascade⟩ := Memory.releaseAll_cascades (sum ▸ hb) hout
  exact ⟨{ m with memory := μ }, Action.zoom_done released, cascade.cascaded (sum ▸ hb) hout⟩

/-! ### The operation of a host -/

namespace Session

/-- The machine an operation leaves is that of the session. -/
theorem state?_of_runKeeping {own : Option ℕ} {p : χ → Operation (χ × Except Exception Unit)}
    {t : Session χ} (h : (runKeeping own p s).state? = some t) :
    ((p s.host).runOn own s.machine).state? = some t.machine := by
  have kept : (runKeeping own p s).Meets True _ _ :=
    meets_runKeeping (P := fun m => ((p s.host).runOn own s.machine).state? = some m)
      (by cases (p s.host).runOn own s.machine <;> first | rfl | trivial)
  cases hrun : runKeeping own p s with
  | done _ u =>
    rw [hrun] at h kept
    exact Option.some.inj h ▸ kept
  | raised _ u =>
    rw [hrun] at h kept
    exact Option.some.inj h ▸ kept
  | broken b => rw [hrun] at h; cases h

/-- A cycle that invokes an operator of the host for the first time lets its operation work, and
drops the pins however that ends. -/
theorem step_of_native {m m' : Machine} (hframes : s.machine.calls.frames = f :: rest)
    (ho : s.machine.invoked? f = some (.native name looping)) (hfirst : f.state = .unknown)
    (hn : natives name = .function signature operation)
    (hparams : s.machine.matchOperands signature = .ok params)
    (hstate : Machine.setState rest.length .firstCall s.machine = .done () m)
    (hpinned : Machine.onMemory (retainAll params) m = .done () m') :
    step natives rest.length f s =
      ((runKeeping (some rest.length) (operation params)).ensuring
        (onMachine (Machine.onMemory (releaseAll params))) >>= fun _ =>
          settle rest.length .firstCall) { s with machine := m' } := by
  rw [step_of_invoked ho, stepOperator, Behaviour.ofOperator, hn, Behaviour.ofNative]
  dsimp only
  rw [theMachine_bind, Machine.frame_of_frame? (CallStack.frame?_head hframes), read_bind, hfirst]
  exact dispatch_eq hparams hstate hpinned

end Session

/-- **Operands stay pinned** from the moment they are matched to the moment the operation of the host
returns, in any machine whose references are counted right.  Pinning cannot fail and costs nothing.
At every point of the operation the operands are there.  When it returns or fails, each pin is
dropped, once: what goes with it is exactly what nothing else refers to. -/
theorem operands_stay_pinned (h : s.machine.Sound Γ 0 (.refs owned))
    (hframes : s.machine.calls.frames = f :: rest)
    (ho : s.machine.invoked? f = some (.native name looping)) (hfirst : f.state = .unknown)
    (hn : natives name = .function signature operation)
    (hparams : s.machine.matchOperands signature = .ok params)
    (honest : ∀ t, Session.Entered rest.length signature s .unknown params t →
      (operation params t.host).Honest rest.length (.refs params) owned t.machine) :
    s.machine.Contains params ∧
    ∃ m₁ m₂, Machine.setState rest.length .firstCall s.machine = .done () m₁ ∧
      m₁.memory = s.machine.memory ∧
      Machine.onMemory (retainAll params) m₁ = .done () m₂ ∧
      Memory.Pinned params m₁.memory m₂.memory ∧
      (∀ q m, Program.Comes (Request.perform (some rest.length)) (operation params s.host) m₂ q m →
        m.Pins params) ∧
      ∀ t, (Session.runKeeping (some rest.length) (operation params)
          { s with machine := m₂ }).state? = some t →
        ∃ owned' m₃, t.machine.Sound Γ (rest.length + 1) (.refs params + .refs owned') ∧
          Machine.onMemory (releaseAll params) t.machine = .done () m₃ ∧
          Memory.Cascaded (t.machine.stake + .refs owned') params t.machine.memory m₃.memory ∧
          (Session.runKeeping (some rest.length) (operation params) { s with machine := m₂ } =
              .done () t →
            Session.step natives rest.length f s =
              Session.settle rest.length .firstCall { t with machine := m₃ }) ∧
          ∀ e, Session.runKeeping (some rest.length) (operation params) { s with machine := m₂ } =
              .raised e t →
            Session.step natives rest.length f s = .raised e { t with machine := m₃ } := by
  have hf : s.machine.calls.frame? rest.length = some f := CallStack.frame?_head hframes
  have h₀ : s.machine.Sound Γ (rest.length + 1) (.refs owned) :=
    { h with depth := by simp [CallStack.length, hframes] }
  have operand (v : Value) (hv : v ∈ params) : v ∈ s.machine.operands.items :=
    Machine.mem_of_matchOperands hparams hv
  refine ⟨h.contains fun v hv => by simp [Machine.stake, Sequence.stake, operand v hv], ?_⟩
  obtain ⟨m₁, moved, memory, operands, -, h₁⟩ := h₀.exists_begun hf hfirst
  obtain ⟨μ, pinned, pins, h₂⟩ := h₁.exists_pinned (operands.symm ▸ operand)
  have honest := honest _ (.first hparams moved pinned)
  refine ⟨m₁, _, moved, memory, pinned, pins, fun q m hm => ?_, fun t ht => ?_⟩
  · obtain ⟨owned', -, sound⟩ := honest.comes hm h₂
    exact sound.pins
  · obtain ⟨q, comes⟩ := Program.comes_of_run (Session.state?_of_runKeeping ht)
    obtain ⟨owned', -, sound⟩ := honest.comes comes h₂
    obtain ⟨m₃, unpinned, cascaded⟩ := sound.exists_unpinned
    have stepped := Session.step_of_native hframes ho hfirst hn hparams moved pinned
    have dropped := Session.onMachine_done unpinned
    refine ⟨owned', m₃, sound, unpinned, cascaded, fun done => ?_, fun e raised => ?_⟩
    · rw [stepped, Action.ensuring_bind_done done, Action.bind_done dropped]
    · rw [stepped, Action.bind_raised (Action.ensuring_raised raised dropped)]

/-- An operation that clears the stack its operands came from, creates a dictionary and gives it up,
and fails. -/
def Operation.drain : Operation (Unit × Except Exception Unit) := do
  clearOperands
  let v ← createDictionary
  release v
  return ((), .error (Cause.exception .noOperator))

/-- It gives up nothing but the reference to what it has created. -/
theorem Operation.honest_drain (i : ℕ) (x : Stake) (owned : List Value) (m : Machine) :
    Operation.drain.Honest i x owned m := by
  refine ⟨owned, .rfl, fun v hv => (by cases hv), fun _ m₁ _ => ?_, fun _ _ _ => trivial⟩
  refine ⟨owned, .rfl, fun v hv => (by cases hv), fun v m₂ _ => ?_, fun _ _ _ => trivial⟩
  exact ⟨owned, .rfl, fun v hv => (by cases hv), fun _ _ _ => trivial, fun _ _ _ => trivial⟩

/-- The operators of a host that all ask for an array and do this. -/
def Natives.draining : Natives Unit := fun _ => .function [.array] fun _ _ => .drain

/-- A host that runs a text and queues such an operator. -/
def Session.draining : Option (Session Unit) :=
  (Session.trial {} "[ \"c\" ]" 12).bind fun s =>
    match (Request.call (.operator (.native "drain" false))).perform none s.machine with
    | .done _ m => some { s with machine := m }
    | _ => none

/-- The array is on the stack, which the operator clears: the pin keeps the array, with the text in it,
until the operator fails, and they go with the pin. -/
theorem operands_stay_pinned_when_cleared :
    ∃ (m₀ : Machine) (s t : Session Unit) (f : Frame) (v : Value) (m₂ m₃ : Machine) (e : Exception)
      (owned' : List Value), m₀.Created {} ∧ Reached m₀ [] s ∧ s.machine.calls.frames = [f] ∧
      s.machine.matchOperands [.array] = .ok [v] ∧ v.handle? = some 5 ∧
      Session.runKeeping (some 0) (fun _ => .drain) { s with machine := m₂ } = .raised e t ∧
      t.machine.Pins [v] ∧ t.machine.operands.items = [] ∧ t.machine.memory.heap.countAt 5 = 1 ∧
      t.machine.memory.ledger.references "c" = 1 ∧
      Memory.Cascaded (t.machine.stake + .refs owned') [v] t.machine.memory m₃.memory ∧
      m₃.memory.heap.countAt 5 = 0 ∧ m₃.memory.ledger.references "c" = 0 ∧
      Session.step Natives.draining 0 f s = .raised e { t with machine := m₃ } := by
  have facts : Session.draining.bind (fun s => s.machine.calls.frames.head?.bind fun f =>
      (s.machine.matchOperands [.array]).toOption.bind fun params =>
      (Machine.setState 0 .firstCall s.machine).state?.bind fun m₁ =>
      (Machine.onMemory (retainAll params) m₁).state?.bind fun m₂ =>
      (Session.runKeeping (some 0) (fun _ => .drain) ⟨m₂, ()⟩).failure?.bind fun r =>
      (Machine.onMemory (releaseAll params) r.2.machine).state?.map fun m₃ =>
        (f, params.map Value.handle?, s.machine.pending.isSome,
          [s.machine.calls.frames.length, r.2.machine.operands.items.length,
            r.2.machine.memory.heap.countAt 5, r.2.machine.memory.ledger.references "c",
            m₃.memory.heap.countAt 5, m₃.memory.ledger.references "c"])) =
    some ({ value := .operator (.native "drain" false) }, [some 5], false, [1, 0, 1, 1, 0, 0]) := by
    decide +kernel
  obtain ⟨s, hs, facts⟩ := Option.bind_eq_some_iff.1 facts
  obtain ⟨f, hf, facts⟩ := Option.bind_eq_some_iff.1 facts
  -- the host has got there with the builtins
  obtain ⟨m₀, created, reached⟩ : ∃ m₀ : Machine, m₀.Created {} ∧ Reached m₀ [] s := by
    obtain ⟨s₀, hs₀, hcall⟩ := Option.bind_eq_some_iff.1 hs
    obtain ⟨m₀, created, reached⟩ := Reached.of_trial (by rintro t ⟨⟩) hs₀
    refine ⟨m₀, created, ?_⟩
    split at hcall
    · rename_i u m hm
      obtain rfl := Option.some.inj hcall
      refine reached.answered (r := .call _) .rfl (fun v hv => ?_) hm
      rw [List.mem_singleton.1 hv]
      exact Machine.knows_of_handle?_none rfl
    · cases hcall
  obtain ⟨Γ, -, kept⟩ := reached.sound created
  obtain ⟨rest, hframes⟩ : ∃ rest, s.machine.calls.frames = f :: rest := by
    cases hframes : s.machine.calls.frames with
    | nil => rw [hframes] at hf; cases hf
    | cons f' rest => rw [hframes] at hf; exact ⟨rest, by rw [Option.some.inj hf]⟩
  obtain ⟨params, hoption, facts⟩ := Option.bind_eq_some_iff.1 facts
  have hparams : s.machine.matchOperands [.array] = .ok params := by
    cases h : s.machine.matchOperands [.array] with
    | ok vs => rw [h] at hoption; rw [Option.some.inj hoption]
    | error c => rw [h] at hoption; cases hoption
  obtain ⟨m₁, hstate, facts⟩ := Option.bind_eq_some_iff.1 facts
  obtain ⟨m₂, hpinned, facts⟩ := Option.bind_eq_some_iff.1 facts
  obtain ⟨⟨e, t⟩, hfailed, facts⟩ := Option.bind_eq_some_iff.1 facts
  obtain ⟨m₃, hdropped, facts⟩ := Option.map_eq_some_iff.1 facts
  simp only [Prod.mk.injEq, List.cons.injEq, and_true] at facts
  obtain ⟨rfl, hhandles, hpending, hlength, hempty, hcount, htext, hgone, hlost⟩ := facts
  obtain rfl : rest = [] := by simpa [hframes] using hlength
  obtain ⟨v, rfl⟩ : ∃ v, params = [v] := by
    have length := congrArg List.length hhandles
    rw [List.length_map] at length
    exact List.length_eq_one_iff.1 length
  have invoked : s.machine.invoked? { value := .operator (.native "drain" false) } =
      some (.native "drain" false) := by
    rw [Machine.invoked?, hpending]
    rfl
  have known : Natives.draining "drain" = .function [.array] fun _ _ => .drain := rfl
  obtain ⟨-, m₁', m₂', hstate', -, hpinned', -, pins, ends⟩ := operands_stay_pinned kept.sound hframes
    invoked rfl known hparams fun _ _ => Operation.honest_drain ..
  obtain rfl : m₁ = m₁' := Option.some.inj (hstate.symm.trans (congrArg Outcome.state? hstate'))
  obtain rfl : m₂ = m₂' := Option.some.inj (hpinned.symm.trans (congrArg Outcome.state? hpinned'))
  have returned : (Session.runKeeping (some 0) (fun _ => .drain) { s with machine := m₂ }) =
      .raised e t := Outcome.eq_raised hfailed
  obtain ⟨owned', m₃', sound, hdropped', cascaded, -, failed⟩ := ends t (congrArg Outcome.state? returned)
  obtain rfl : m₃ = m₃' := Option.some.inj (hdropped.symm.trans (congrArg Outcome.state? hdropped'))
  exact ⟨m₀, s, t, _, v, m₂, m₃, e, owned', created, reached, hframes, hparams, by simpa using hhandles,
    returned, sound.pins, List.length_eq_zero_iff.1 hempty, hcount, htext, cascaded, hgone, hlost,
    failed e returned⟩

end StackScript
