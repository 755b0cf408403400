import StackScript.Proofs.Comparison.Sessions

/-!
# Comparing cycles

A cycle is a step of the top frame, and the exception the step may end with is made pending.  Two
machines go together in a cycle if they do in the step, as long as exceptions that are alike are made
pending alike (`Setting.raise_agree`, `Setting.cycle_agree`).  A comparison that is lost in the step need
not be lost in the cycle, which goes on when the step has failed.
-/

namespace StackScript

open Likeness

variable {χ : Type} {S : Setting} {s t : Session χ} {m n : Machine} {f : Frame} {rest : List Frame}
  {e e' : Exception} {i j : ℕ}

/-! ### Exceptions made pending -/

/-- What is recorded depends on whether the record is granted. -/
theorem record_apply (e : Exception) (μ : Memory) : PendingException.record e μ =
    match Memory.onLedger (Ledger.allocate e.size .system) μ with
    | .done _ ν => .done { exception := e, charge := e.size } ν
    | .raised _ ν => .done { exception := { condition :=
        if e.condition.isFatal then e.condition else .memoryOverflow, message := "" }, charge := {} } ν
    | .broken b => .broken b := by
  unfold PendingException.record
  rw [Action.bind_apply]
  unfold Action.attempt
  cases Memory.onLedger (Ledger.allocate e.size .system) μ <;> rfl

namespace Machine

/-- What is fatal stays. -/
theorem raise_of_isDoomed (hdoomed : m.isDoomed = true) (e : Exception) :
    Machine.raise e m = .done () m := by
  unfold Machine.raise
  change (if m.isDoomed then _ else _ : Action Machine Unit) m = _
  rw [if_pos hdoomed]
  rfl

theorem raise_of_untold (hdoomed : m.isDoomed = false) {b : Breach} (htrail : m.trail = .error b)
    (e : Exception) : Machine.raise e m = .broken b := by
  unfold Machine.raise
  change (if m.isDoomed then _ else _ : Action Machine Unit) m = _
  rw [hdoomed, htrail]
  rfl

theorem raise_bind (hdoomed : m.isDoomed = false) {trail : List String}
    (htrail : m.trail = .ok trail) (e : Exception) : Machine.raise e m =
      (Machine.discharge m.pending >>= fun _ =>
        Machine.onMemory (PendingException.record { e with trail := trail }) >>= fun pending =>
          modify fun m => { m with pending := some pending, blockDepth := 0 }) m := by
  unfold Machine.raise
  change (if m.isDoomed then _ else _ : Action Machine Unit) m = _
  rw [hdoomed, htrail]
  rfl

end Machine

/-- Where the machines stand when the record of an exception is asked for. -/
structure Setting.Recording (S : Setting) (m n : Machine) (trail trail' : List String)
    (u v : Machine) : Prop where
  sane : m.isDoomed = false
  told : m.trail = .ok trail
  told' : n.trail = .ok trail'
  same : S.exact → trail = trail'
  discharged : Machine.discharge m.pending m = .done () u
  discharged' : Machine.discharge n.pending n = .done () v
  machines : S.Machines u v

/-- **Exceptions that are alike are made pending alike**, if they are recorded alike. -/
theorem Setting.raise_agree (h : S.Machines m n)
    (hrecord : ∀ trail trail' u v, S.Recording m n trail trail' u v →
      S.toLikeness.Agree S.Pendings S.memories
        (PendingException.record { e with trail := trail } u.memory)
        (PendingException.record { e' with trail := trail' } v.memory)) :
    S.toLikeness.Agree (fun _ _ => True) S.Machines (Machine.raise e m) (Machine.raise e' n) := by
  by_cases hdoomed : m.isDoomed
  · rw [Machine.raise_of_isDoomed hdoomed, Machine.raise_of_isDoomed (h.isDoomed ▸ hdoomed)]
    exact .done trivial h
  · have sane : m.isDoomed = false := Bool.eq_false_iff.2 hdoomed
    have sane' : n.isDoomed = false := h.isDoomed ▸ sane
    -- the trails are compared if texts are, and whether there are any only if allocations are traced
    have trails (hexact : S.exact) : m.trail = n.trail := h.trail hexact
    have untraced (hexact : ¬ S.exact) : ¬ S.traced := fun ht => hexact (S.traces ht)
    cases told : m.trail with
    | error b =>
      rw [Machine.raise_of_untold sane told]
      by_cases hexact : S.exact
      · rw [Machine.raise_of_untold sane' (trails hexact ▸ told)]
        exact agree_broken b b
      · exact .lost (S.breached (untraced hexact)).1
    | ok trail =>
      cases told' : n.trail with
      | error b =>
        have hexact (hexact : S.exact) : False := by
          have := (trails hexact).symm.trans told
          rw [told'] at this
          cases this
        rw [Machine.raise_of_untold sane' told']
        exact .lost (S.breached (untraced hexact)).2
      | ok trail' =>
        have same (hexact : S.exact) : trail = trail' := by
          have := trails hexact
          rw [told, told'] at this
          exact Except.ok.inj this
        rw [Machine.raise_bind sane told, Machine.raise_bind sane' told']
        have rising (p : PendingException) : Action.Rising (modify fun m =>
          { m with pending := some p, blockDepth := 0 } : Action Machine PUnit) :=
            Action.rising_modify fun _ => rfl
        refine Agree.bind_of_eq (Setting.dischargePending h.pending h)
          fun _ _ u v hu hv _ huv => ?_
        have recorded : S.toLikeness.Agree S.Pendings S.Machines
            (Machine.onMemory (PendingException.record { e with trail := trail }) u)
            (Machine.onMemory (PendingException.record { e' with trail := trail' }) v) :=
          Agree.zoom (hrecord trail trail' u v ⟨sane, told, told', same, hu, hv, huv⟩) (fun _ _ => rfl)
            fun _ _ hm => { huv with memory := hm }
        exact recorded.bind (fun _ _ => id) fun p q _ _ hpq huv =>
          .done trivial { huv with pending := .some hpq, blockDepth := rfl }

/-! ### Cycles -/

namespace Session

/-- How a cycle ends, when it is known how its step does. -/
theorem cycle_apply (hframes : s.machine.calls.frames = f :: rest) :
    cycle Natives.none s = match step Natives.none rest.length f s with
      | .done _ u => .done (!u.machine.calls.isEmpty) u
      | .raised e u => (onMachine (Machine.raise e) >>= fun _ =>
          theMachine >>= fun m => pure (!m.calls.isEmpty)) u
      | .broken b => .broken b := by
  unfold cycle
  rw [theMachine_bind, hframes]
  change (((step Natives.none rest.length f).attempt >>= _ : Action (Session χ) Bool) s) = _
  rw [Action.bind_apply]
  unfold Action.attempt
  cases step Natives.none rest.length f s <;> rfl

/-- Nothing is left to do. -/
theorem cycle_idle (hframes : s.machine.calls.frames = []) : cycle Natives.none s = .done false s := by
  unfold cycle
  rw [theMachine_bind, hframes]
  rfl

/-- A cycle tells whether work is left. -/
theorem more_of_cycle {more : Bool} (h : cycle Natives.none s = .done more t) :
    more = !t.machine.calls.isEmpty := by
  cases hframes : s.machine.calls.frames with
  | nil =>
    obtain ⟨rfl, rfl⟩ := Outcome.done.inj ((cycle_idle hframes).symm.trans h)
    rw [CallStack.isEmpty, hframes]
    rfl
  | cons f rest =>
    rw [cycle_apply hframes] at h
    cases hstep : step Natives.none rest.length f s with
    | done _ u =>
      rw [hstep] at h
      obtain ⟨rfl, rfl⟩ := Outcome.done.inj h
      rfl
    | broken b => rw [hstep] at h; cases h
    | raised e u =>
      rw [hstep] at h
      change ((onMachine (Machine.raise e) >>= fun _ => _ : Action (Session χ) Bool) u) = _ at h
      rw [Action.bind_apply] at h
      cases hraise : onMachine (Machine.raise e) u with
      | done _ v =>
        rw [hraise] at h
        obtain ⟨rfl, rfl⟩ := Outcome.done.inj h
        rfl
      | raised e' v => rw [hraise] at h; cases h
      | broken b => rw [hraise] at h; cases h

end Session

/-- **Machines go together in a cycle**, unless the comparison is lost in the step. -/
theorem Setting.cycle_agree (h : S.Sessions s t) (htop : S.Topped i j s.machine t.machine)
    {g : Frame} {rest' : List Frame} (hframes : s.machine.calls.frames = f :: rest)
    (hframes' : t.machine.calls.frames = g :: rest')
    (hraise : ∀ e e' u v, Session.step Natives.none rest.length f s = .raised e u →
      Session.step Natives.none rest'.length g t = .raised e' v → S.Exceptions e e' → S.Sessions u v →
      S.toLikeness.Agree (fun _ _ => True) S.Machines (Machine.raise e u.machine)
        (Machine.raise e' v.machine)) :
    S.lost (Session.step Natives.none rest.length f s).fate
        (Session.step Natives.none rest'.length g t).fate ∨
      S.toLikeness.Agree (fun _ _ => True) S.Sessions (Session.cycle Natives.none s)
        (Session.cycle Natives.none t) := by
  have stepped : S.toLikeness.Agree (fun _ _ => True) S.Sessions
      (Session.step Natives.none rest.length f s) (Session.step Natives.none rest'.length g t) := by
    obtain ⟨f', g', l, k, hl, hk, hfg, -⟩ := htop.uncons
    obtain ⟨rfl, -⟩ := List.cons.inj (hframes.symm.trans hl)
    obtain ⟨rfl, -⟩ := List.cons.inj (hframes'.symm.trans hk)
    -- the frames that go together are the top ones
    have left : i = rest.length := by
      have := htop.top
      rw [CallStack.length, hframes, List.length_cons] at this
      exact (Nat.succ.inj this).symm
    have right : j = rest'.length := by
      have := (htop.machines.length_iff htop.places).1 htop.top
      rw [CallStack.length, hframes', List.length_cons] at this
      exact (Nat.succ.inj this).symm
    exact left ▸ right ▸ Setting.step_agree h htop hfg
  rw [Session.cycle_apply hframes, Session.cycle_apply hframes']
  generalize Session.step Natives.none rest.length f s = o at stepped hraise
  generalize Session.step Natives.none rest'.length g t = p at stepped hraise
  cases stepped with
  | lost h => exact .inl h
  | done ha h => exact .inr (.done trivial h)
  | @raised e e' u v he h =>
    refine .inr (Agree.bind (Q := S.Sessions) (agree_onMachine h (hraise e e' u v rfl rfl he h))
      (fun _ _ => id) fun _ _ u v _ huv => ?_)
    exact .done trivial huv

end StackScript
