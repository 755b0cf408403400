import StackScript.Proofs.Comparison.Capacity
import StackScript.Proofs.Comparison.Cycles
import StackScript.Proofs.Machine.Refusals

/-!
# Running within a capacity

A machine without a capacity that is never refused an allocation, and one with a capacity, go together
until the other one is refused an allocation, by which time more has been in use than its capacity
allows (`Kept`).  It is so for cycles and runs (`cycle_kept`, `runFrom_kept`), for the errands of a host
(`Errand.perform_kept`), and while the machine is created (`Machine.create_kept`).
-/

namespace StackScript

open Likeness Capacity

open Metered (peak)

variable {limit : ℕ} {σ α β γ δ χ : Type}

/-- The outcomes of the same action without a capacity and with one.  If `lax` allows it, an invariant
may be violated. -/
inductive Kept [Metered σ] (limit : ℕ) (lax : Prop) (A : α → β → Prop) (R : σ → σ → Prop)
    (refused : Prop) : Outcome σ α → Outcome σ β → Prop
  | done {a : α} {b : β} {s t : σ} (ha : A a b) (h : R s t) :
    Kept limit lax A R refused (.done a s) (.done b t)
  | raised (e : Exception) {s t : σ} (h : R s t) :
    Kept limit lax A R refused (.raised e s) (.raised e t)
  | refused {o : Outcome σ α} {p : Outcome σ β} (ho : o.fate.Exceeds limit) (hr : refused) :
    Kept limit lax A R refused o p
  | broken {o : Outcome σ α} {p : Outcome σ β} (hl : lax) (h : o.fate = .broken ∨ p.fate = .broken) :
    Kept limit lax A R refused o p

theorem overflows_zoom {τ : Type} (x : Action σ α) (get : τ → σ) (put : σ → τ → τ) (t : τ) :
    (x.zoom get put t).overflows = (x (get t)).overflows := by
  unfold Action.zoom
  cases x (get t) <;> rfl

/-- What raises nothing is refused nothing. -/
theorem overflows_of_raises {x : Action σ α} (h : x.Raises fun _ => False) (s : σ) :
    (x s).overflows = false := by
  cases hs : x s with
  | raised e t => exact (h s e t hs).elim
  | _ => rfl

section

variable [Metered σ] {A : α → β → Prop} {B : γ → δ → Prop} {R : σ → σ → Prop} {lax P Q : Prop}
  {o : Outcome σ α} {p : Outcome σ β} {s t : σ}

/-- What has failed has been refused an allocation, or broken an invariant. -/
theorem overflows_of_failed (h : o.fate.Failed) : o.overflows = true ∨ o.fate = .broken := by
  cases o with
  | done a s => cases h
  | raised e s =>
    have : e.condition = .memoryOverflow := by
      change Fate.Failed (.raised e.condition (peak s)) at h
      generalize e.condition = c at h
      cases h
      rfl
    exact .inl (by rw [Outcome.overflows, this]; rfl)
  | broken b => exact .inr rfl

theorem kept_of_agree (h : (likeness limit).Agree A R o p) (ho : o.overflows = false) :
    Kept limit True A R (p.overflows = true) o p := by
  cases h with
  | done ha h => exact .done ha h
  | @raised e e' s t he h => exact he.whole trivial ▸ .raised e h
  | lost h =>
    rcases h with hf | ⟨hg, hf⟩
    · rcases overflows_of_failed hf with h | h
      · rw [ho] at h
        cases h
      · exact .broken trivial (.inl h)
    · rcases overflows_of_failed hg with h | h
      · exact .refused hf h
      · exact .broken trivial (.inr h)

theorem Kept.mono (h : Kept limit lax A R P o p) (hPQ : P → Q) : Kept limit lax A R Q o p := by
  cases h with
  | done ha h => exact .done ha h
  | raised e h => exact .raised e h
  | refused ho hr => exact .refused ho (hPQ hr)
  | broken hl h => exact .broken hl h

theorem Kept.bind {x : Action σ α} {y : Action σ β} {f : α → Action σ γ} {g : β → Action σ δ}
    [∀ a, Action.Rising (f a)] (hx : Kept limit lax A R P (x s) (y t))
    (hf : ∀ a b u v, x s = .done a u → y t = .done b v → A a b → R u v →
      Kept limit lax B R P (f a u) (g b v)) :
    Kept limit lax B R P ((x >>= f) s) ((y >>= g) t) := by
  have leads := Action.leads_bind x f s
  have broken (h : (y t).fate = .broken) : ((y >>= g) t).fate = .broken := by
    obtain ⟨b, hb⟩ := Outcome.fate_eq_broken h
    rw [Action.bind_apply, hb]
    rfl
  have broken' (h : (x s).fate = .broken) : ((x >>= f) s).fate = .broken := by
    obtain ⟨b, hb⟩ := Outcome.fate_eq_broken h
    rw [Action.bind_apply, hb]
    rfl
  generalize hs : x s = o at hx leads broken'
  generalize ht : y t = p at hx broken
  cases hx with
  | done ha h =>
    rw [Action.bind_done hs, Action.bind_done ht]
    exact hf _ _ _ _ hs ht ha h
  | raised e h =>
    rw [Action.bind_raised hs, Action.bind_raised ht]
    exact .raised e h
  | refused ho hr => exact .refused (ho.leads leads) hr
  | broken hl h => exact .broken hl (h.imp broken' broken)

/-- An exception turned into a value. -/
theorem Kept.attempt {x : Action σ α} {y : Action σ α} (h : Kept limit lax Eq R P (x s) (y t)) :
    Kept limit lax Eq R P (x.attempt s) (y.attempt t) := by
  have broken {x : Action σ α} {s : σ} (h : (x s).fate = .broken) : (x.attempt s).fate = .broken := by
    obtain ⟨b, hb⟩ := Outcome.fate_eq_broken h
    rw [Action.attempt, hb]
    rfl
  have exceeds (h : (x s).fate.Exceeds limit) : (x.attempt s).fate.Exceeds limit := by
    unfold Action.attempt
    cases hs : x s <;> rw [hs] at h <;> exact h
  generalize hs : x s = o at h exceeds
  generalize ht : y t = p at h
  cases h with
  | done ha h =>
    unfold Action.attempt
    rw [hs, ht, ha]
    exact .done rfl h
  | raised e h =>
    unfold Action.attempt
    rw [hs, ht]
    exact .done rfl h
  | refused ho hr => exact .refused (exceeds ho) hr
  | broken hl h => exact .broken hl (h.imp (fun h => broken (hs ▸ h)) fun h => broken (ht ▸ h))

theorem Kept.zoom {τ : Type} [Metered τ] {x : Action σ α} {y : Action σ β} {S : τ → τ → Prop}
    {get : τ → σ} {put : σ → τ → τ} {s t : τ} (h : Kept limit lax A R P (x (get s)) (y (get t)))
    (hpeak : ∀ s t, peak (put s t) = peak s) (hput : ∀ u v, R u v → S (put u s) (put v t)) :
    Kept limit lax A S P (x.zoom get put s) (y.zoom get put t) := by
  unfold Action.zoom
  generalize x (get s) = o at h
  generalize y (get t) = p at h
  cases h with
  | done ha h => exact .done ha (hput _ _ h)
  | raised e h => exact .raised e (hput _ _ h)
  | refused ho hr =>
    refine .refused ?_ hr
    cases o with
    | done a u => exact lt_of_lt_of_eq ho (hpeak u s).symm
    | raised e u => exact lt_of_lt_of_eq ho (hpeak u s).symm
    | broken b => trivial
  | broken hl h =>
    refine .broken hl (h.imp (fun h => ?_) fun h => ?_)
    · obtain ⟨b, rfl⟩ := Outcome.fate_eq_broken h
      rfl
    · obtain ⟨b, rfl⟩ := Outcome.fate_eq_broken h
      rfl

end

/-! ### Raising -/

section raising

variable {m n : Machine} {μ ν : Memory} {e : Exception}

theorem record_kept (h : (books limit).Memories μ ν)
    (hμ : (Memory.onLedger (Ledger.allocate e.size .system) μ).overflows = false) :
    Kept limit True Eq ((books limit).Memories)
      ((Memory.onLedger (Ledger.allocate e.size .system) ν).overflows = true)
      (PendingException.record e μ) (PendingException.record e ν) := by
  have kept := kept_of_agree (Bookkeeping.works_onLedger (tallies_allocate e.size .system) h) hμ
  rw [record_apply, record_apply]
  generalize Memory.onLedger (Ledger.allocate e.size .system) μ = o at kept hμ
  generalize Memory.onLedger (Ledger.allocate e.size .system) ν = p at kept
  cases kept with
  | done ha h => exact .done rfl h
  | raised e' h => exact .done rfl h
  | refused ho hr =>
    refine .refused ?_ hr
    cases o <;> exact ho
  | broken hl h =>
    refine .broken hl (h.imp (fun h => ?_) fun h => ?_)
    · obtain ⟨b, rfl⟩ := Outcome.fate_eq_broken h
      rfl
    · obtain ⟨b, rfl⟩ := Outcome.fate_eq_broken h
      rfl

/-- What is asked for when an exception is raised. -/
theorem chargeRecord_bind (hdoomed : m.isDoomed = false) {trail : List String}
    (htrail : m.trail = .ok trail) : Machine.chargeRecord e m =
      (Machine.discharge m.pending >>= fun _ => Machine.onMemory (Memory.onLedger
        (Ledger.allocate ({ e with trail := trail } : Exception).size .system))) m := by
  unfold Machine.chargeRecord
  change (if m.isDoomed then _ else _ : Action Machine Unit) m = _
  rw [hdoomed, htrail]
  rfl

theorem raise_kept (h : (setting limit).Machines m n) (hm : (Machine.chargeRecord e m).overflows = false) :
    Kept limit True (fun _ _ => True) (setting limit).Machines ((Machine.chargeRecord e n).overflows = true)
      (Machine.raise e m) (Machine.raise e n) := by
  by_cases hdoomed : m.isDoomed
  · have doomed : n.isDoomed = true := h.isDoomed ▸ hdoomed
    rw [Machine.raise_of_isDoomed hdoomed, Machine.raise_of_isDoomed doomed]
    exact .done trivial h
  · have sane : m.isDoomed = false := Bool.eq_false_iff.2 hdoomed
    have sane' : n.isDoomed = false := h.isDoomed ▸ sane
    have trails := h.trail trivial
    cases htrail : m.trail with
    | error b =>
      exact .broken trivial (.inl (by rw [Machine.raise_of_untold sane htrail]; rfl))
    | ok trail =>
      rw [chargeRecord_bind sane htrail] at hm
      rw [chargeRecord_bind sane' (trails ▸ htrail), Machine.raise_bind sane htrail,
        Machine.raise_bind sane' (trails ▸ htrail)]
      have discharged := kept_of_agree (Setting.dischargePending h.pending h)
        (overflows_of_raises (Machine.raises_discharge m.pending) m)
      rw [overflows_of_raises (Machine.raises_discharge n.pending) n] at discharged
      have rising (p : PendingException) : Action.Rising (modify fun m =>
        { m with pending := some p, blockDepth := 0 } : Action Machine PUnit) :=
          Action.rising_modify fun _ => rfl
      -- nothing but the record of the new exception may be refused
      refine Kept.bind (discharged.mono nofun) fun _ _ u v hu hv _ huv => ?_
      rw [Action.bind_done hu] at hm
      rw [Action.bind_done hv, Machine.onMemory, overflows_zoom]
      rw [Machine.onMemory, overflows_zoom] at hm
      refine Kept.bind (Kept.zoom (record_kept huv.memory hm) (fun _ _ => rfl)
        fun _ _ hm => { huv with memory := hm }) ?_
      rintro p _ u v - - rfl huv
      exact .done trivial
        { huv with pending := .some ⟨.refl _ _, fun _ => rfl⟩, blockDepth := rfl }

end raising

/-! ### Cycles and runs -/

section running

variable {s t : Session χ}

theorem starves_apply {f : Frame} {rest : List Frame} (hframes : s.machine.calls.frames = f :: rest) :
    s.starves = match Session.step Natives.none rest.length f s with
      | .raised e t =>
        e.condition == .memoryOverflow || (Machine.chargeRecord e t.machine).overflows
      | _ => false := by
  unfold Session.starves
  generalize s.machine.calls.frames = frames at hframes
  cases hframes
  rfl

/-- More has been in use by the end of a cycle than by the end of its step. -/
theorem cycle_leads {f : Frame} {rest : List Frame} (hframes : s.machine.calls.frames = f :: rest)
    (h : (Session.step Natives.none rest.length f s).fate.Exceeds limit) :
    (Session.cycle Natives.none s).fate.Exceeds limit := by
  rw [Session.cycle_apply hframes]
  cases hstep : Session.step Natives.none rest.length f s with
  | done a u => rw [hstep] at h; exact h
  | raised e u =>
    rw [hstep] at h
    have rises := Action.Rising.leads (Session.onMachine (Machine.raise e) >>= fun _ =>
      Session.theMachine >>= fun m => pure (!m.calls.isEmpty) : Action (Session χ) Bool) u
    exact Fate.Exceeds.leads (f := .done (peak u)) h rises
  | broken b => trivial

theorem isEmpty_eq (h : (setting limit).Sessions s t) :
    s.machine.calls.isEmpty = t.machine.calls.isEmpty := by
  rw [CallStack.isEmpty, CallStack.isEmpty, h.machine.calls.frames_eq trivial]

/-- **A cycle within a capacity.** -/
theorem cycle_kept (h : (setting limit).Sessions s t) (hs : s.starves = false) :
    Kept limit True Eq (setting limit).Sessions (t.starves = true) (Session.cycle Natives.none s)
      (Session.cycle Natives.none t) := by
  have frames := h.machine.calls.frames_eq trivial
  cases hframes : s.machine.calls.frames with
  | nil =>
    rw [Session.cycle_idle hframes, Session.cycle_idle (frames ▸ hframes)]
    exact .done rfl h
  | cons f rest =>
    have hframes' : t.machine.calls.frames = f :: rest := frames ▸ hframes
    have top : (setting limit).Topped rest.length rest.length s.machine t.machine :=
      ⟨h.machine, ⟨rest.length, rfl, rfl⟩, by rw [CallStack.length, hframes, List.length_cons]⟩
    obtain ⟨f', g', l, k, hl, hk, hfg, -⟩ := top.uncons
    obtain ⟨rfl, -⟩ := List.cons.inj (hframes.symm.trans hl)
    obtain ⟨rfl, -⟩ := List.cons.inj (hframes'.symm.trans hk)
    have stepped := Setting.step_agree h top hfg
    have exceeds (h : (Session.step Natives.none rest.length f s).fate.Exceeds limit) :=
      cycle_leads hframes h
    rw [starves_apply hframes] at hs
    rw [Session.cycle_apply hframes] at exceeds ⊢
    rw [starves_apply hframes', Session.cycle_apply hframes']
    generalize Session.step Natives.none rest.length f s = o at stepped hs exceeds
    generalize Session.step Natives.none rest.length f t = p at stepped
    -- the step goes alike in both, or one of the two fails for a lack of memory
    cases stepped with
    | done ha h => exact .done (congrArg _ (isEmpty_eq h)) h
    | @raised e e' u v he h =>
      obtain rfl : e = e' := he.whole trivial
      have granted := (Bool.or_eq_false_iff.1 hs).2
      refine Kept.bind (Kept.mono (Kept.zoom (raise_kept h.machine granted) (fun _ _ => rfl)
        fun _ _ hm => ⟨hm, h.host⟩) fun hr => ?_) fun _ _ u v _ _ _ huv => ?_
      · exact Bool.or_eq_true_iff.2 (.inr hr)
      · exact .done (congrArg _ (isEmpty_eq huv)) huv
    | lost h =>
      have failed {o : Outcome (Session χ) Unit} (h : o.fate.Failed) :
          (∃ e u, o = .raised e u ∧ (e.condition == .memoryOverflow) = true) ∨
          ∃ b, o = .broken b := by
        rcases overflows_of_failed h with h | h
        · cases o with
          | raised e u => exact .inl ⟨e, u, rfl, h⟩
          | _ => cases h
        · exact .inr (Outcome.fate_eq_broken h)
      -- the machine without a limit does not starve, so it is the other one that fails
      rcases h with hf | ⟨hg, hf⟩
      · rcases failed hf with ⟨e, u, rfl, he⟩ | ⟨b, rfl⟩
        · exact absurd (Bool.or_eq_false_iff.1 hs).1 (Bool.not_eq_false _ ▸ he)
        · exact .broken trivial (.inl rfl)
      · rcases failed hg with ⟨e, u, rfl, he⟩ | ⟨b, rfl⟩
        · exact .refused (exceeds hf) (Bool.or_eq_true_iff.2 (.inl he))
        · exact .broken trivial (.inr rfl)

/-! ### Soundness -/

/-- What is known to the one machine is known to the other. -/
theorem knows_iff {m n : Machine} (h : (setting limit).Machines m n) (v : Value) :
    m.Knows 0 v ↔ n.Knows 0 v := by
  have same := sameWithin h
  have heap : n.memory.heap = m.memory.heap := by rw [same.memory]
  unfold Machine.Knows Machine.stake
  rw [same.operands, same.calls, same.scopes, same.pending, heap]

theorem fed_iff {m n : Machine} (h : (setting limit).Machines m n) : m.Fed 0 ↔ n.Fed 0 := by
  have same := sameWithin h
  have offered : m.offered? = n.offered? := by
    unfold Machine.offered?
    rw [same.calls, same.pending]
  unfold Machine.Fed
  simp only [offered, knows_iff h]

/-- Both machines are sound, each under its own charter. -/
structure BothSound (Γ Δ : Charter) (s t : Session χ) : Prop where
  left : s.machine.Sound Γ 0 0
  right : t.machine.Sound Δ 0 0

variable {Γ Δ : Charter}

/-- What is sound violates no invariant, and stays sound. -/
theorem Kept.bothSound {A : α → β → Prop} {P : Prop} {o : Outcome (Session χ) α}
    {p : Outcome (Session χ) β} (h : Kept limit True A (setting limit).Sessions P o p)
    (left : o.Meets False (fun _ u => u.machine.Sound Γ 0 0) fun u => u.machine.Sound Γ 0 0)
    (right : p.Meets False (fun _ u => u.machine.Sound Δ 0 0) fun u => u.machine.Sound Δ 0 0) :
    Kept limit False A (fun s t => (setting limit).Sessions s t ∧ BothSound Γ Δ s t) P o p := by
  cases h with
  | done hab huv => exact .done hab ⟨huv, left, right⟩
  | raised e huv => exact .raised e ⟨huv, left, right⟩
  | refused ho hr => exact .refused ho hr
  | broken _ h =>
    rcases h with h | h
    · obtain ⟨b, rfl⟩ := Outcome.fate_eq_broken h
      exact left.elim
    · obtain ⟨b, rfl⟩ := Outcome.fate_eq_broken h
      exact right.elim

/-- A cycle of machines that are sound. -/
theorem cycle_kept_of_sound (h : (setting limit).Sessions s t) (hsound : BothSound Γ Δ s t)
    (hfed : s.machine.Fed 0) (hs : s.starves = false) :
    Kept limit False Eq (fun s t => (setting limit).Sessions s t ∧ BothSound Γ Δ s t)
      (t.starves = true) (Session.cycle Natives.none s) (Session.cycle Natives.none t) :=
  (cycle_kept h hs).bothSound
    ((Session.cycle_meets (Behaviour.works_none Γ) hsound.left hfed).always fun _ _ => id)
    ((Session.cycle_meets (Behaviour.works_none Δ) hsound.right
      ((fed_iff h.machine).1 hfed)).always fun _ _ => id)

/-- **A run within a capacity.** -/
theorem runFrom_kept (h : (setting limit).Sessions s t) (hsound : BothSound Γ Δ s t) (count budget : ℕ)
    (hfed : Session.FedFor Natives.none 0 budget s) (hs : s.starvesWithin budget = false) :
    Kept limit False Eq (fun s t => (setting limit).Sessions s t ∧ BothSound Γ Δ s t)
      (t.starvesWithin budget = true)
      (Session.runFrom Natives.none count budget s) (Session.runFrom Natives.none count budget t) := by
  induction budget generalizing count s t with
  | zero => exact .done rfl ⟨h, hsound⟩
  | succ budget ih =>
    rw [Session.runFrom, Session.runFrom]
    unfold Session.starvesWithin at hs ⊢
    rw [← isEmpty_eq h]
    split
    · exact .done rfl ⟨h, hsound⟩
    · rename_i hwork
      rw [if_neg hwork] at hs
      obtain ⟨hcycle, hrest⟩ := Bool.or_eq_false_iff.1 hs
      have kept := cycle_kept_of_sound h hsound hfed.1 hcycle
      have rising := Session.rising_runFrom (Natives.none : Natives χ)
      have fed := hfed.2
      generalize Session.cycle Natives.none s = o at *
      generalize Session.cycle Natives.none t = p at *
      -- a limit that one cycle exceeds is exceeded by the rest of the run as well: peaks only rise
      cases kept with
      | @done a b u v hab huv =>
        exact (ih huv.1 huv.2 (count + 1) (fed a u rfl) hrest).mono fun hr =>
          Bool.or_eq_true_iff.2 (.inr hr)
      | raised e huv => exact .raised e huv
      | refused ho hr =>
        refine .refused ?_ (Bool.or_eq_true_iff.2 (.inl hr))
        cases o with
        | done a u =>
          exact Fate.Exceeds.leads (f := .done (peak u)) ho
            (Action.Rising.leads (Session.runFrom Natives.none (count + 1) budget) u)
        | raised e u => exact ho
        | broken b => trivial
      | broken hl => exact hl.elim

theorem run_kept (h : (setting limit).Sessions s t) (hsound : BothSound Γ Δ s t) (budget : ℕ)
    (hfed : Session.FedFor Natives.none 0 budget s) (hs : s.starvesWithin budget = false) :
    Kept limit False Eq (fun s t => (setting limit).Sessions s t ∧ BothSound Γ Δ s t)
      (t.starvesWithin budget = true)
      (Session.run Natives.none budget s) (Session.run Natives.none budget t) := by
  have rising (count : ℕ) := Session.rising_reported (χ := χ) count
  refine Kept.bind (runFrom_kept h hsound 0 budget hfed hs) ?_
  rintro count _ u v - - rfl huv
  rw [Session.theMachine_bind, Session.theMachine_bind]
  have exceptions := huv.1.machine.exception
  generalize u.machine.exception = o at exceptions
  generalize v.machine.exception = p at exceptions
  cases exceptions with
  | none => exact .done rfl huv
  | @some e e' he =>
    obtain rfl : e = e' := he.whole trivial
    dsimp only
    rw [huv.1.machine.throws]
    split
    · exact .raised e huv
    · exact .done rfl huv

theorem completionBudget_eq (h : (setting limit).Sessions s t) :
    Session.completionBudget s.machine = Session.completionBudget t.machine :=
  congrArg (·.getD Size.limit) h.machine.budget

theorem runToCompletion_kept (h : (setting limit).Sessions s t) (hsound : BothSound Γ Δ s t)
    (hfed : Session.FedFor Natives.none 0 (Session.completionBudget s.machine) s)
    (hs : s.starvesWithin (Session.completionBudget s.machine) = false) :
    Kept limit False Eq (fun s t => (setting limit).Sessions s t ∧ BothSound Γ Δ s t)
      (t.starvesWithin (Session.completionBudget t.machine) = true)
      (Session.runToCompletion Natives.none s) (Session.runToCompletion Natives.none t) := by
  unfold Session.runToCompletion
  rw [Session.theMachine_bind, Session.theMachine_bind]
  change Kept _ _ _ _ _ ((Session.run Natives.none (Session.completionBudget s.machine) >>= _) s)
    ((Session.run Natives.none (Session.completionBudget t.machine) >>= _) t)
  rw [← completionBudget_eq h]
  refine Kept.bind (run_kept h hsound _ hfed hs) ?_
  rintro count _ u v - - rfl huv
  rw [Session.theMachine_bind, Session.theMachine_bind, isEmpty_eq huv.1]
  split
  · exact .done rfl huv
  · rw [h.machine.budget]
    exact .raised _ huv

/-! ### Errands -/

/-- **An errand within a capacity.** -/
theorem Errand.perform_kept (hΓ : ∀ p, Γ.supplies p) (hΔ : ∀ p, Δ.supplies p)
    (h : (setting limit).Sessions s t) (hsound : BothSound Γ Δ s t) (c : Errand) (hc : c.Fair s)
    (hs : c.refused s = false) :
    Kept limit False Eq (fun s t => (setting limit).Sessions s t ∧ BothSound Γ Δ s t)
      (c.refused t = true) (c.perform s) (c.perform t) := by
  have left := c.perform_meets hsound.left (fun p _ => hΓ p) hc
  cases c with
  | execute work =>
    have queued : Kept limit True Eq (setting limit).Sessions
        ((Machine.execute work t.machine).overflows = true) ((Errand.execute work).perform s)
        ((Errand.execute work).perform t) :=
      Kept.bind (Kept.zoom (kept_of_agree (Bookkeeping.execute_agree h.machine work) hs) (fun _ _ => rfl)
        fun _ _ hm => ⟨hm, h.host⟩) fun _ _ _ _ _ _ _ huv => .done rfl huv
    exact queued.bothSound left ((Errand.execute work).perform_meets hsound.right
      (fun p _ => hΔ p) fun v hv => (knows_iff h.machine v).1 (hc v hv))
  | cycle =>
    exact Kept.bind (cycle_kept_of_sound h hsound hc hs) fun _ _ _ _ _ _ hab huv => .done (hab ▸ rfl) huv
  | run budget =>
    exact Kept.bind (run_kept h hsound budget hc hs) fun _ _ _ _ _ _ hab huv => .done (hab ▸ rfl) huv
  | complete =>
    exact Kept.bind (runToCompletion_kept h hsound hc hs) fun _ _ _ _ _ _ hab huv =>
      .done (hab ▸ rfl) huv
  | clearException =>
    have granted (m : Machine) : (Machine.intercept m).overflows = false :=
      overflows_of_raises Machine.raises_intercept m
    have taken := kept_of_agree (Setting.intercept h.machine) (granted _)
    rw [granted] at taken
    have cleared : Kept limit True Eq (setting limit).Sessions (false = true)
        (Errand.clearException.perform s) (Errand.clearException.perform t) := by
      refine Kept.bind (Kept.zoom taken (fun _ _ => rfl) fun _ _ hm => ⟨hm, h.host⟩) ?_
      intro o p _ _ _ _ hop huv
      refine .done ?_ huv
      cases hop with
      | none => rfl
      | some he => exact congrArg _ (congrArg some (he.whole trivial))
    exact cleared.bothSound left (Errand.clearException.perform_meets hsound.right nofun trivial)

end running

/-! ### Creating the machine -/

section creating

variable {c d : Construction} {μ ν : Memory} {options : Options}

/-- **A setup within a capacity.** -/
theorem setup_kept (setup : Setup α) (h : (books limit).Constructions c d) (hs : Setup.denied setup c = false) :
    Kept limit True Eq ((books limit).Constructions) (Setup.denied setup d = true)
      (setup.run Provision.perform c) (setup.run Provision.perform d) := by
  induction setup generalizing c d with
  | done a => exact .done rfl h
  | raise e => exact .raised e h
  | broken b => exact .broken trivial (.inl rfl)
  | ask r next failed ihn ihf =>
    have agreed := Bookkeeping.provide_agree h r
    unfold Setup.denied at hs ⊢
    unfold Program.run
    generalize hc : r.perform c = o at agreed hs
    generalize hd : r.perform d = p at agreed
    have granted : o.overflows = false := by
      cases o with
      | raised e u => exact (Bool.or_eq_false_iff.1 hs).1
      | _ => rfl
    cases kept_of_agree agreed granted with
    | @done a b u v hab huv =>
      cases hab
      exact ihn a huv hs
    | raised e huv =>
      exact (ihf e huv (Bool.or_eq_false_iff.1 hs).2).mono fun hr => Bool.or_eq_true_iff.2 (.inr hr)
    -- what the setup asks for later does not lower the peak again
    | refused ho hr =>
      refine .refused ?_ ?_
      · cases o with
        | done a u =>
          exact Fate.Exceeds.leads (f := .done (peak u)) ho
            (Action.Rising.leads ((next a).run Provision.perform) u)
        | raised e u =>
          exact Fate.Exceeds.leads (f := .done (peak u)) ho
            (Action.Rising.leads ((failed e).run Provision.perform) u)
        | broken b => trivial
      · cases p with
        | raised e u => exact Bool.or_eq_true_iff.2 (.inl hr)
        | _ => cases hr
    | broken hl hb =>
      refine .broken hl (hb.imp (fun hb => ?_) fun hb => ?_)
      · obtain ⟨b, rfl⟩ := Outcome.fate_eq_broken hb
        rfl
      · obtain ⟨b, rfl⟩ := Outcome.fate_eq_broken hb
        rfl

theorem fill_kept (setup : Setup α) (h : (books limit).Memories μ ν) (host : Handle)
    (hs : Setup.denied setup { memory := μ, scope := host } = false) :
    Kept limit True Eq ((books limit).Memories) (Setup.denied setup { memory := ν, scope := host } = true)
      (setup.fill host μ) (setup.fill host ν) := by
  have filled := setup_kept setup (c := { memory := μ, scope := host })
    (d := { memory := ν, scope := host }) ⟨h, rfl, rfl⟩ hs
  have released {c d : Construction} (h : (books limit).Constructions c d) :
      (likeness limit).Agree Eq ((books limit).Memories) (Memory.releaseAll c.created.reverse c.memory)
        (Memory.releaseAll d.created.reverse d.memory) :=
    h.created ▸ Bookkeeping.works_releaseAll _ h.memory
  have frees (vs : List Value) (μ : Memory) : (Memory.releaseAll vs μ).overflows = false :=
    overflows_of_raises (Memory.raises_releaseAll vs) μ
  unfold Setup.fill
  generalize setup.run Provision.perform { memory := μ, scope := host } = o at filled
  generalize setup.run Provision.perform { memory := ν, scope := host } = p at filled
  cases filled with
  | @done a b u v hab huv =>
    cases hab
    have kept := kept_of_agree (released huv) (frees _ _)
    rw [frees] at kept
    exact Kept.bind (f := fun _ => pure a) (g := fun _ => pure a) (kept.mono nofun)
      fun _ _ _ _ _ _ _ h => .done rfl h
  | @raised e u v huv =>
    have kept := kept_of_agree (released huv) (frees _ _)
    rw [frees] at kept
    exact Kept.bind (f := fun _ => Action.raise e) (g := fun _ => Action.raise e) (kept.mono nofun)
      fun _ _ _ _ _ _ _ h => .raised e h
  | refused ho hr =>
    refine .refused ?_ hr
    cases o with
    | done a u =>
      exact Fate.Exceeds.leads (f := .done (peak u)) ho (Action.Rising.leads
        (Memory.releaseAll u.created.reverse >>= fun _ => pure a) u.memory)
    | raised e u =>
      exact Fate.Exceeds.leads (f := .done (peak u)) ho (Action.Rising.leads
        (Memory.releaseAll u.created.reverse >>= fun _ => (Action.raise e : Action Memory α)) u.memory)
    | broken b => trivial
  | broken hl hb =>
    refine .broken hl (hb.imp (fun hb => ?_) fun hb => ?_)
    · obtain ⟨b, rfl⟩ := Outcome.fate_eq_broken hb
      rfl
    · obtain ⟨b, rfl⟩ := Outcome.fate_eq_broken hb
      rfl

/-- **A machine is created within a capacity.** -/
theorem create_kept {setup : Setup α} (hopen : options.maxMemory = none)
    (hs : Machine.denied options setup = false) :
    Kept limit True (fun r r' => (setting limit).Machines r.1 r'.1 ∧ r.2 = r'.2) ((books limit).Memories)
      (Machine.denied { options with maxMemory := some limit } setup = true)
      (Machine.create options setup) (Machine.create { options with maxMemory := some limit } setup) := by
  have start : (books limit).Memories (Memory.empty options.maxMemory options.debugMemory)
      (Memory.empty (some limit) options.debugMemory) :=
    ⟨⟨rfl, hopen, le_rfl, Nat.zero_le _⟩, rfl, rfl⟩
  have furnishing := rising_furnish (α := α)
  have filling := rising_fill setup
  unfold Machine.create
  rw [Machine.assemble_eq, Machine.assemble_eq]
  have prepared := Bookkeeping.works_prepare start
  unfold Machine.denied at hs ⊢
  dsimp only
  -- the dictionaries are made first, then the host scope is filled, then the stacks are furnished
  refine Kept.bind (A := Eq) (R := (books limit).Memories) ?_ ?_
  · generalize Machine.prepare (Memory.empty options.maxMemory options.debugMemory) = o at *
    generalize Machine.prepare (Memory.empty (some limit) options.debugMemory) = p at *
    refine (kept_of_agree prepared ?_).mono fun hr => ?_
    · cases o with
      | raised e u => exact hs
      | _ => rfl
    · cases p with
      | raised e u => exact hr
      | _ => cases hr
  · rintro parts _ μ ν hμ hν rfl hμν
    rw [hμ] at hs
    rw [hν]
    obtain ⟨hfill, hrest⟩ := Bool.or_eq_false_iff.1 hs
    refine Kept.bind ((fill_kept setup hμν parts.host hfill).mono fun hr =>
      Bool.or_eq_true_iff.2 (.inl hr)) ?_
    rintro a _ u v hu hv rfl huv
    rw [hu] at hrest
    have furnished : (likeness limit).Agree (fun r r' => (setting limit).Machines r.1 r'.1 ∧ r.2 = r'.2)
        ((books limit).Memories) (Machine.furnish options parts a u)
        (Machine.furnish { options with maxMemory := some limit } parts a v) := by
      refine Bookkeeping.furnish_agree parts a ?_ ?_ huv <;> rfl
    exact (kept_of_agree furnished hrest).mono fun hr =>
      Bool.or_eq_true_iff.2 (.inr (by rw [hv]; exact hr))

end creating

end StackScript
