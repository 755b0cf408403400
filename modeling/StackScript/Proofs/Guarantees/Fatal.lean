import StackScript.Proofs.Guarantees.Protocol
import StackScript.Proofs.Machine.Doomed
import StackScript.Proofs.Machine.Unwinding

/-!
# Fatal exceptions are final

Once an internal exception is pending, nothing a host or an operator does takes it away, replaces it
or sets it aside: clearing, intercepting, stashing and restoring exceptions, failing with others,
queueing work and running it all leave the record as it is.  Meanwhile blocks, texts, supplies and
names get nowhere; they are only removed (`fatal_exceptions_final`).
-/

namespace StackScript

variable {χ : Type}

/-- A frame that executes a block, a text, a supply, a name or some other value, but no operator. -/
def Frame.IsPassive (f : Frame) : Prop := f.supply.isSome ∨ f.value.toOperator? = none

theorem Frame.IsPassive.toOperator? {f : Frame} (h : f.IsPassive) (ho : f.Orderly) :
    f.value.toOperator? = none := h.elim ho.supplied id

/-- Among the moments of a machine, the last one first, an internal exception is final. -/
structure KeepsFatal (moments : List Machine) : Prop where
  /-- Once it is pending, it is pending for ever, the same record. -/
  pending : ∀ later m earlier, moments = later ++ m :: earlier → m.condition = some .internal →
    ∀ m' ∈ later, m'.pending = m.pending
  /-- It is never set aside. -/
  stashed : ∀ m ∈ moments, ∀ f ∈ m.calls.frames, ∀ p, f.stash = some p →
    p.exception.condition ≠ .internal
  /-- From each moment to the next, what executes no operator stays as it is or is removed. -/
  stalled : ∀ later m' m earlier, moments = later ++ m' :: m :: earlier →
    m.condition = some .internal → ∀ k f, m.calls.frame? k = some f → f.IsPassive →
      m'.calls.frame? k = some f ∨ m'.calls.frame? k = none

namespace Watched

variable {w : Watched χ}

theorem Solemn.keepsFatal (h : w.Solemn) : KeepsFatal w.moments where
  pending later m earlier hmoments hm := by
    have chain := h.chain
    rw [hmoments] at chain
    clear hmoments
    induction later with
    | nil => simp
    | cons m' later ih =>
      have rest := ih chain.tail
      intro m'' hm''
      rcases List.mem_cons.1 hm'' with rfl | hm''
      · -- the moment before the last one has the same exception pending, so it is doomed too
        obtain ⟨before, hbefore, hpending⟩ : ∃ before, (later ++ m :: earlier).head? = some before ∧
            before.pending = m.pending := by
          cases later with
          | nil => exact ⟨m, rfl, rfl⟩
          | cons before later => exact ⟨before, rfl, rest before (.head later)⟩
        have doomed : before.isDoomed = true := by
          rw [Machine.isDoomed_iff, ← hm, Machine.condition, Machine.exception, hpending]
          rfl
        exact (((List.isChain_cons.1 chain).1 before hbefore doomed).pending).trans hpending
      · exact rest m'' hm''
  stashed := h.discreet
  stalled later m' m earlier hmoments hm k f hf hpassive := by
    have chain := h.chain
    rw [hmoments] at chain
    have endures := (List.isChain_append.1 chain).2.1
    have orderly : m.calls.Orderly := h.ordered m (by simp [hmoments])
    exact ((List.isChain_cons_cons.1 endures).1 (Machine.isDoomed_iff.2 hm)).stalled k f hf
      (hpassive.toOperator? (orderly f (CallStack.mem_frames_of_frame? hf)))

end Watched

theorem Followed.solemn {natives : Natives χ} {m₀ : Machine} {w : Watched χ}
    (hm₀ : m₀.calls.frames = []) (h : Followed natives m₀ w) : w.Solemn := by
  induction h with
  | start host =>
    have none (f : Frame) (hf : f ∈ m₀.calls.frames) : False := by
      rw [hm₀] at hf
      cases hf
    refine ⟨rfl, List.isChain_singleton m₀, fun m hm f hf => ?_, fun m hm f hf => ?_⟩
    · obtain rfl := List.mem_singleton.1 hm
      exact (none f hf).elim
    · obtain rfl := List.mem_singleton.1 hm
      exact (none f hf).elim
  | act c _ hc ih => exact (c.watch_solemn natives _ ih).of_state? hc

/-- What removing a frame does not touch. -/
def Machine.aside (m : Machine) : Options × Sequence × Sequence × Option PendingException × ℕ :=
  (m.options, m.operands, m.scopes, m.pending, m.blockDepth)

/-- A cycle that meets such a frame while a fatal exception is pending removes it, or cannot; it does
nothing else. -/
structure Session.Discards (rest : List Frame) (s t : Session χ) : Prop where
  host : t.host = s.host
  aside : t.machine.aside = s.machine.aside
  frames : t.machine.calls.frames = rest ∨ t.machine.calls = s.machine.calls

theorem Session.cycle_discards {natives : Natives χ} {s t : Session χ} {f : Frame}
    {rest : List Frame} (hs : s.machine.condition = some .internal)
    (hframes : s.machine.calls.frames = f :: rest) (hf : f.value.toOperator? = none)
    (ht : (Session.cycle natives s).state? = some t) : s.Discards rest t := by
  have doomed := Machine.isDoomed_iff.2 hs
  have idle : s.machine.invoked? f = none := by
    unfold Machine.invoked?
    rw [if_pos (Machine.isSome_pending_of_isDoomed doomed), hf, ite_self]
  have stepped : Session.step natives rest.length f s = Session.popFrame s :=
    step_of_unwound (Machine.isSome_pending_of_isDoomed doomed) idle rest.length
  -- removing a frame does not touch the exception
  have aside : Machine.Spares Machine.aside Machine.popFrame :=
    Machine.spares_onCalls (fun _ _ _ => rfl) _
  have popped : (Session.popFrame s).Meets True (fun _ u => s.Discards rest u)
      fun u => s.Discards rest u := by
    refine meets_onMachine (((Machine.popFrame_frames s.machine).and (aside s.machine)).mono
      (fun _ m hm => ⟨rfl, hm.2, .inl ?_⟩) fun m hm => ⟨rfl, hm.2, .inr hm.1⟩)
    obtain ⟨g, hg⟩ := hm.1
    rw [hframes] at hg
    exact (List.cons.inj hg).2.symm
  rcases state?_cycle hframes ht with hdone | ⟨e, u, hraised, ht⟩
  · rw [← stepped, hdone] at popped
    exact popped
  · -- the failure is dropped
    rw [← stepped, hraised] at popped
    have discards : s.Discards rest u := popped
    have condition : u.machine.isDoomed = true := by
      injection discards.aside with _ h
      injection h with _ h
      injection h with _ h
      injection h with hpending _
      rwa [Machine.isDoomed, Machine.condition, Machine.exception, hpending]
    have dropped : Session.onMachine (Machine.raise e) u = .done () u := by
      unfold Session.onMachine Action.zoom
      rw [Machine.raise_doomed e condition]
    rw [dropped] at ht
    exact Option.some.inj ht ▸ discards

/-- **Fatal exceptions are final**, for every machine a host can create, all operators a host can
have, and all a host can do: the record stays pending, none is ever set aside, and what executes no
operator is only removed, by cycles that do nothing else. -/
theorem fatal_exceptions_final {α : Type} {options : Options} {setup : Setup α} {m₀ : Machine}
    {a : α} {μ : Memory} (hm₀ : Machine.create options setup = .done (m₀, a) μ)
    {natives : Natives χ} {w : Watched χ} (h : Followed natives m₀ w) :
    w.moments.head? = some w.machine ∧ KeepsFatal w.moments ∧
      ∀ f rest, w.machine.condition = some .internal → w.machine.calls.frames = f :: rest →
        f.IsPassive → ∀ t, (Session.cycle natives w.session).state? = some t →
          w.session.Discards rest t := by
  have solemn := h.solemn (Machine.frames_of_create hm₀)
  refine ⟨solemn.present, solemn.keepsFatal, fun f rest hw hframes hf t ht => ?_⟩
  have orderly : f.Orderly := solemn.orderly f (hframes ▸ .head rest)
  exact Session.cycle_discards hw hframes (hf.toOperator? orderly) ht

/-- An operator that tries a move it may not make. -/
def Native.trespasser : Native Unit := .stateless [] fun _ => Operation.setState Operation.finalizing

/-- What a host sees that queues a block with the trespasser between two numbers, does some cycles,
tries to clear the exception, and queues more. -/
def Watched.trespassing : Option (Watched Unit) :=
  match Machine.create {} Setup.table with
  | .done (m, _) _ =>
    let block : List Value :=
      [.integer (.ofInt 1), .operator (.native "trespass" false), .integer (.ofInt 2)]
    let acts : List HostAct := [.execute (.values block), .run 3, .request .intercept,
      .execute (.values [.integer (.ofInt 3), .integer (.ofInt 4)])]
    acts.foldlM (fun w c => (c.watch (fun _ => Native.trespasser) w).state?)
      { session := { machine := m, host := () }, moments := [m] }
  | _ => none

theorem Followed.of_acts {natives : Natives χ} {m₀ : Machine} {w w' : Watched χ}
    (h : Followed natives m₀ w) (acts : List HostAct)
    (hw' : acts.foldlM (fun w c => (c.watch natives w).state?) w = some w') :
    Followed natives m₀ w' := by
  induction acts generalizing w with
  | nil => exact Option.some.inj hw' ▸ h
  | cons c acts ih =>
    obtain ⟨v, hv, hw'⟩ := Option.bind_eq_some_iff.1 hw'
    exact ih (h.act c hv) hw'

/-- The exception of the trespasser outlasts an attempt to clear it, and what is queued after it is
removed without a value of it getting to the operands. -/
theorem fatal_exceptions_final_of_trespasser :
    ∃ (w : Watched Unit) (f : Frame) (rest : List Frame), KeepsFatal w.moments ∧
      w.machine.condition = some .internal ∧ w.machine.operands.length = 1 ∧
      w.machine.calls.frames = f :: rest ∧ rest.length = 2 ∧ f.IsPassive ∧
      ∀ t, (Session.cycle (fun _ => Native.trespasser) w.session).state? = some t →
        w.session.Discards rest t := by
  have facts : Watched.trespassing.map (fun w => (w.machine.condition, w.machine.operands.length,
      w.machine.calls.frames.map fun f => f.value.toOperator?.isSome)) =
      some (some .internal, 1, [false, true, false]) := by decide +kernel
  obtain ⟨w, hw, hfacts⟩ := Option.map_eq_some_iff.1 facts
  obtain ⟨hcondition, hfacts⟩ := Prod.mk.inj hfacts
  obtain ⟨hoperands, hframes⟩ := Prod.mk.inj hfacts
  obtain ⟨f, rest, hcons, hf, hrest⟩ := List.map_eq_cons_iff.1 hframes
  have passive : f.IsPassive :=
    .inr (Option.isNone_iff_eq_none.1 (Option.isSome_eq_false_iff.1 hf))
  have length : rest.length = 2 := by
    rw [← List.length_map (f := fun f : Frame => f.value.toOperator?.isSome), hrest]
    rfl
  unfold Watched.trespassing at hw
  split at hw
  · rename_i m a μ hm
    have final := fatal_exceptions_final hm (Followed.of_acts (.start ()) _ hw)
    exact ⟨w, f, rest, final.2.1, hcondition, hoperands, hcons, length, passive,
      final.2.2 f rest hcondition hcons passive⟩
  · cases hw

end StackScript
