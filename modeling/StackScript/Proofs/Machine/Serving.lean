import StackScript.Proofs.Machine.Growing
import StackScript.Proofs.Machine.Steered
import StackScript.Proofs.Operator.Honest

/-!
# Hosts with operators of their own

A host with operators of its own does what any host does (`Reached`), but its cycles may invoke those
operators.  They keep to what they hold: all they pass on is held by the machine or by a reference the
host owns, and they give no reference up that is not the host's (`Session.Conducts`).

Every machine such a host gets to is sound, its stacks can grow, and the frames of builtins stand where
their operators may (`Served.sound`, `Served.growing`, `Served.steered`).  A host without operators is
one of these hosts (`Reached.served`).
-/

namespace StackScript

open Relation (ReflTransGen)

variable {χ : Type} {natives : Natives χ} {options : Options} {m₀ : Machine}
  {owned owned' : List Value} {s t : Session χ}

/-- A cycle of a host that owns the references `owned` before it, and `owned'` after it. -/
structure Session.Conducts (natives : Natives χ) (owned : List Value) (s : Session χ)
    (owned' : List Value) (t : Session χ) : Prop where
  fed : s.machine.Fed (.refs owned)
  minds : s.Minds natives owned
  leads : (Session.cycle natives s).state? = some t
  owns : ∀ Γ : Charter, s.machine.Sound Γ 0 (.refs owned) → t.machine.Sound Γ 0 (.refs owned')

/-- The host gets from the machine it has created to the session `s` while it owns the creator
references `owned`. -/
inductive Served (natives : Natives χ) (m₀ : Machine) : List Value → Session χ → Prop
  | start (host : χ) : Served natives m₀ [] { machine := m₀, host := host }
  | answered {owned rest : List Value} {s : Session χ} {r : Request} {a : r.Answer} {m : Machine}
      (h : Served natives m₀ owned s) (hgives : owned.Perm (r.surrendered ++ rest))
      (hpasses : ∀ v ∈ r.passed, s.machine.Knows (.refs owned) v)
      (hm : r.perform none s.machine = .done a m) :
      Served natives m₀ (r.handedOut a ++ rest) { s with machine := m }
  | refused {owned rest : List Value} {s : Session χ} {r : Request} {e : Exception} {m : Machine}
      (h : Served natives m₀ owned s) (hgives : owned.Perm (r.surrendered ++ rest))
      (hpasses : ∀ v ∈ r.passed, s.machine.Knows (.refs owned) v)
      (hm : r.perform none s.machine = .raised e m) : Served natives m₀ rest { s with machine := m }
  | execute {owned : List Value} {s : Session χ} {work : Work} {m : Machine}
      (h : Served natives m₀ owned s) (hpasses : ∀ v ∈ work.passed, s.machine.Knows (.refs owned) v)
      (hm : (Machine.execute work s.machine).state? = some m) :
      Served natives m₀ owned { s with machine := m }
  | cycle {owned owned' : List Value} {s t : Session χ} (h : Served natives m₀ owned s)
      (ht : Session.Conducts natives owned s owned' t) : Served natives m₀ owned' t

/-! ### Cycles -/

namespace Session

variable {Γ : Charter} {f : Frame} {rest : List Frame}

/-- What a cycle leaves is sound, and so are the locals of the frames below. -/
theorem Conducts.intact (h : Conducts natives owned s owned' t)
    (sound : s.machine.Sound Γ 0 (.refs owned)) (hframes : s.machine.calls.frames = f :: rest) :
    t.machine.Sound Γ 0 (.refs owned') ∧ s.machine.Steady rest.length t.machine :=
  ⟨h.owns Γ sound, ((cycle_preserves hframes h.minds sound h.fed).of_state? h.leads).2⟩

/-- The next cycle invokes no operator of the host. -/
def Alone (s : Session χ) : Prop := ∀ f rest name looping, s.machine.calls.frames = f :: rest →
  s.machine.invoked? f ≠ some (.native name looping)

/-- It takes and gives no references then. -/
theorem Alone.conducts (alone : s.Alone) (hfed : s.machine.Fed (.refs owned))
    (ht : (cycle natives s).state? = some t) : Conducts natives owned s owned t where
  fed := hfed
  minds f rest name looping hframes ho := absurd ho (alone f rest name looping hframes)
  leads := ht
  owns Γ sound := by
    rw [cycle_of_no_native alone] at ht
    exact ((cycle_meets (Behaviour.works_none Γ) sound hfed).always fun _ _ => id).of_state? ht

/-- Operators that do nothing keep to what they hold. -/
theorem minds_none (s : Session χ) (owned : List Value) : s.Minds Natives.none owned :=
  fun _ _ _ _ _ _ _ _ _ => trivial

theorem conducts_none (hfed : s.machine.Fed (.refs owned))
    (ht : (cycle Natives.none s).state? = some t) : Conducts Natives.none owned s owned t where
  fed := hfed
  minds := minds_none s owned
  leads := ht
  owns Γ sound :=
    ((cycle_meets (Behaviour.works_none Γ) sound hfed).always fun _ _ => id).of_state? ht

/-- While an exception is pending nothing is taken from the host. -/
theorem fed_of_pending {x : Stake} (hpending : s.machine.pending.isSome) : s.machine.Fed x := by
  intro v hv
  rw [Machine.offered?, if_pos hpending] at hv
  cases hv

end Session

/-! ### What a host gets to -/

namespace Served

variable {Γ : Charter}

theorem sound_of_fresh (fresh : m₀.Fresh Γ options) (hΓ : ∀ p, Γ.supplies p)
    (h : Served natives m₀ owned s) : s.machine.Sound Γ 0 (.refs owned) := by
  have performed {owned rest : List Value} {m : Machine} {r : Request}
      (sound : m.Sound Γ 0 (.refs owned)) (hgives : owned.Perm (r.surrendered ++ rest))
      (hpasses : ∀ v ∈ r.passed, m.Knows (.refs owned) v) :
      (r.perform none m).Meets True (fun a m' => m'.Sound Γ 0 (.refs (r.handedOut a ++ rest)))
        fun m' => m'.Sound Γ 0 (.refs rest) := by
    have sum : Stake.refs owned = .refs rest + .refs r.surrendered := by
      rw [Stake.refs_perm hgives, Stake.refs_append, add_comm]
    refine (Request.perform_meets r (sum ▸ sound) (fun v hv => sum ▸ hpasses v hv)
      (.inl trivial)).mono (fun a m' h => ?_) fun _ => id
    rw [Stake.refs_append, add_comm]
    exact h.1
  induction h with
  | start host => exact fresh.sound
  | answered _ hgives hpasses hm ih =>
    have step := performed ih hgives hpasses
    rw [hm] at step
    exact step
  | refused _ hgives hpasses hm ih =>
    have step := performed ih hgives hpasses
    rw [hm] at step
    exact step
  | @execute owned s work m _ hpasses hm ih =>
    have step : (Machine.execute work s.machine).Meets True _ _ := Machine.execute_meets ih
      (fun vs hvs v hv => hpasses v (by rw [hvs]; exact hv)) fun p _ => hΓ p
    exact (step.of_state? hm).1
  | cycle _ ht ih => exact ht.owns Γ ih

/-- What a machine is created with is sound for good. -/
theorem exists_charter (hm₀ : m₀.Created options) : ∃ Γ, m₀.Fresh Γ options ∧
    ∀ {χ : Type} {natives : Natives χ} {owned : List Value} {s : Session χ},
      Served natives m₀ owned s → s.machine.Sound Γ 0 (.refs owned) := by
  obtain ⟨hcapacity, α, setup, a, μ, hs, hm⟩ := hm₀
  have created := Machine.create_meets (fun _ => True) (fun _ _ _ _ _ => trivial) hcapacity hs
  rw [hm] at created
  obtain ⟨Γ, hsupplies, fresh⟩ := created
  exact ⟨Γ, fresh, fun h => h.sound_of_fresh fresh fun p => hsupplies ▸ trivial⟩

/-- **Every machine such a host gets to is sound.** -/
theorem sound (hm₀ : m₀.Created options) (h : Served natives m₀ owned s) :
    ∃ Γ, m₀.Fresh Γ options ∧ s.machine.Sound Γ 0 (.refs owned) := by
  obtain ⟨Γ, fresh, sound⟩ := exists_charter hm₀
  exact ⟨Γ, fresh, sound h⟩

/-- What such a host does can be watched. -/
theorem followed (h : Served natives m₀ owned s) : ∃ w, Followed natives m₀ w ∧ w.session = s := by
  induction h with
  | start host => exact ⟨_, .start host, rfl⟩
  | answered _ _ _ hm ih | refused _ _ _ hm ih =>
    obtain ⟨w, hw, rfl⟩ := ih
    exact hw.exists_request (by rw [hm]; rfl)
  | execute _ _ hm ih =>
    obtain ⟨w, hw, rfl⟩ := ih
    exact hw.exists_execute hm
  | cycle _ ht ih =>
    obtain ⟨w, hw, rfl⟩ := ih
    exact hw.exists_act .cycle ((Session.state?_bind_pure _).trans ht.leads)

/-- It is a course of single steps. -/
theorem goes (h : Served natives m₀ owned s) :
    ∃ host, ReflTransGen (Session.Goes natives) { machine := m₀, host := host } s := by
  have requested {s : Session χ} {r : Request} {m : Machine}
      (hm : (r.perform none s.machine).state? = some m) :
      Session.Goes natives s { s with machine := m } :=
    .request r (by rw [Session.state?_onMachine, hm]; rfl)
  induction h with
  | start host => exact ⟨host, .refl⟩
  | answered _ _ _ hm ih => exact ih.imp fun _ ih => ih.tail (requested (by rw [hm]; rfl))
  | refused _ _ _ hm ih => exact ih.imp fun _ ih => ih.tail (requested (by rw [hm]; rfl))
  | @execute _ _ work _ _ _ hm ih =>
    exact ih.imp fun _ ih => ih.tail (.execute work (by rw [Session.state?_onMachine, hm]; rfl))
  | cycle _ ht ih => exact ih.imp fun _ ih => ih.tail (.cycle ht.leads)

theorem growing (hm₀ : m₀.Created options) (h : Served natives m₀ owned s) :
    s.machine.Growing := by
  obtain ⟨-, α, setup, a, μ, -, created⟩ := hm₀
  obtain ⟨host, course⟩ := h.goes
  exact (Machine.growing_of_create created).of_growth
    (Session.stands_of_goes (R := Machine.SameGrowth) course)

/-- Its stacks are kept in the slots the machine has been created with, but for their number. -/
theorem shape_eq (h : Served natives m₀ owned s) : s.machine.shape = m₀.shape := by
  obtain ⟨host, course⟩ := h.goes
  exact Session.stands_of_goes (R := Machine.SameShape) course

/-- The frames of builtins stand where their operators may. -/
theorem steered (hm₀ : m₀.Created options) (h : Served natives m₀ owned s) :
    s.machine.SteeredBy Operator.Defers := by
  obtain ⟨-, α, setup, a, μ, -, created⟩ := hm₀
  obtain ⟨w, hw, rfl⟩ := h.followed
  exact hw.steeredBy (Machine.idle_of_create created).1

/-! ### Runs -/

theorem of_runFrom {count budget : ℕ} (h : Served Natives.none m₀ owned s)
    (hfed : Session.FedFor Natives.none (.refs owned) budget s)
    (ht : (Session.runFrom Natives.none count budget s).state? = some t) :
    Served Natives.none m₀ owned t := by
  induction budget generalizing count s with
  | zero => exact Option.some.inj ht ▸ h
  | succ budget ih =>
    rw [Session.runFrom] at ht
    split at ht
    · exact Option.some.inj ht ▸ h
    · cases hcycle : Session.cycle Natives.none s with
      | done b u =>
        rw [hcycle] at ht
        exact ih (h.cycle (Session.conducts_none hfed.1 (by rw [hcycle]; rfl)))
          (hfed.2 b u hcycle) ht
      | raised e u =>
        rw [hcycle] at ht
        exact h.cycle (Session.conducts_none hfed.1 (by rw [hcycle]; exact ht))
      | broken b => rw [hcycle] at ht; cases ht

end Served

/-- **A host without operators** is one whose operators keep to what they hold. -/
theorem Reached.served (h : Reached m₀ owned s) : Served Natives.none m₀ owned s := by
  have ran {owned : List Value} {s t : Session χ} {budget : ℕ} (h : Served Natives.none m₀ owned s)
      (hfed : Session.FedFor Natives.none (.refs owned) budget s)
      (ht : (Session.run Natives.none budget s).state? = some t) : Served Natives.none m₀ owned t := by
    refine h.of_runFrom hfed (Session.state?_bind_of_kept (fun n u => ?_) ht)
    rw [Session.theMachine_bind]
    cases u.machine.exception with
    | none => rfl
    | some e =>
      dsimp only
      split <;> rfl
  induction h with
  | start host => exact .start host
  | answered _ hgives hpasses hm ih => exact ih.answered hgives hpasses hm
  | refused _ hgives hpasses hm ih => exact ih.refused hgives hpasses hm
  | execute _ hpasses hm ih => exact ih.execute hpasses hm
  | cycle _ hfed ht ih => exact ih.cycle (Session.conducts_none hfed ht)
  | run _ hfed ht ih => exact ran ih hfed ht
  | complete _ hfed ht ih =>
    unfold Session.runToCompletion at ht
    rw [Session.theMachine_bind] at ht
    refine ran ih hfed (Session.state?_bind_of_kept (fun n u => ?_) ht)
    rw [Session.theMachine_bind]
    split <;> rfl

end StackScript
