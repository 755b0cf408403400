import StackScript.Machine.Run
import StackScript.Proofs.Machine.Bootstrap

/-!
# What a host can reach

A host creates a machine and works with it by requests, by queueing work, and by cycles and runs of
the builtin operators (`Reached`).  Whatever it passes on is held by the machine or by a creator
reference the host still owns, and it gives each creator reference up at most once.  Requests and
runs may fail.

Every machine a host can reach is sound, under the creator references the host owns
(`Reached.sound`).
-/

namespace StackScript

/-- The state an outcome leaves, unless it is a breach. -/
def Outcome.state? {σ α : Type} : Outcome σ α → Option σ
  | .done _ s => some s
  | .raised _ s => some s
  | .broken _ => none

/-- The outcome is a success. -/
def Outcome.isDone {σ α : Type} : Outcome σ α → Bool
  | .done _ _ => true
  | _ => false

theorem Outcome.Meets.of_state? {σ α : Type} {o : Outcome σ α} {lax : Prop} {P : σ → Prop} {s : σ}
    (h : o.Meets lax (fun _ t => P t) P) (hs : o.state? = some s) : P s := by
  cases o with
  | done a t => exact Option.some.inj hs ▸ h
  | raised e t => exact Option.some.inj hs ▸ h
  | broken b => cases hs

/-! ### Requests of a host -/

namespace Request

/-- The values a request passes on. -/
def passed : Request → List Value
  | .exchange _ values => values
  | .createArray _ items => items
  | .createFilledArray _ _ v => [v]
  | .setItem container _ v => [container, v]
  | .define container _ v => [container, v]
  | .openScope v => [v]
  | .call v => [v]
  | .setLocal _ v => [v]
  | _ => []

/-- The containers a request modifies in place. -/
def modified : Request → List Value
  | .setItem container _ _ => [container]
  | .define container _ _ => [container]
  | _ => []

/-- The creator references a request gives up, whether it succeeds or fails. -/
def surrendered : Request → List Value
  | .adopt _ created => [created]
  | .release created => [created]
  | _ => []

/-- The creator references the answer to a request hands out. -/
def handedOut : (r : Request) → r.Answer → List Value
  | .createArray .., v => [v]
  | .createFilledArray .., v => [v]
  | .createDictionary, v => [v]
  | _, _ => []

variable {Γ : Charter} {x : Stake} {m : Machine} {lax : Prop}

/-- What a request leaves if it succeeds: the creator references handed out are to containers. -/
def Leaves (Γ : Charter) (x : Stake) (r : Request) (a : r.Answer) (m : Machine) : Prop :=
  m.Sound Γ 0 (x + .refs (r.handedOut a)) ∧
    ∀ v ∈ r.handedOut a, v.handle?.isSome ∧ v.string? = none

variable {own : Option ℕ} {n : ℕ}

/-- The machine is sound after a request that succeeds, with `n` frames to be relied on, and the
locals of the frames below the operator's own are as they were. -/
def Serves (Γ : Charter) (own : Option ℕ) (n : ℕ) (x : Stake) (m : Machine) (r : Request)
    (a : r.Answer) (m' : Machine) : Prop :=
  (m'.Sound Γ n (x + .refs (r.handedOut a)) ∧
    ∀ v ∈ r.handedOut a, v.handle?.isSome ∧ v.string? = none) ∧ m.Steady (own.getD n) m'

/-- A request that hands out nothing. -/
theorem serves_of_sound {r : Request} {a : r.Answer} {m' : Machine} (h : m'.Sound Γ n x)
    (steady : m.Steady (own.getD n) m') (ha : r.handedOut a = []) :
    r.Serves Γ own n x m a m' := by
  refine ⟨⟨?_, by simp [ha]⟩, steady⟩
  rwa [ha, Stake.refs_nil, add_zero]

section

variable (hown : ∀ i, own = some i → i < n)
include hown

theorem getD_le : own.getD n ≤ n := by
  cases own with
  | none => exact le_rfl
  | some i => exact (hown i rfl).le

/-- A request that leaves the locals alone and hands out nothing. -/
theorem meets_serves {r : Request} {o : Outcome Machine r.Answer}
    (ho : o.Meets lax (fun _ m' => m'.Sound Γ n x ∧ m.Steady n m')
      fun m' => m'.Sound Γ n x ∧ m.Steady n m')
    (ha : ∀ a, r.handedOut a = []) :
    o.Meets lax (r.Serves Γ own n x m) fun m' => m'.Sound Γ n x ∧ m.Steady (own.getD n) m' :=
  ho.mono (fun a _ h => serves_of_sound h.1 (h.2.mono (getD_le hown)) (ha a))
    fun _ h => ⟨h.1, h.2.mono (getD_le hown)⟩

/-- A request that creates a container. -/
theorem meets_serves_of_gained {r : Request} {o : Outcome Machine r.Answer}
    (created : r.Answer → Value)
    (ho : o.Meets lax
      (fun a m' => (r.handedOut a = [created a] ∧ (created a).handle?.isSome ∧
        (created a).string? = none) ∧ m.Gained Γ n x (created a) m')
      fun m' => m'.Sound Γ n x ∧ m.Steady n m') :
    o.Meets lax (r.Serves Γ own n x m) fun m' => m'.Sound Γ n x ∧ m.Steady (own.getD n) m' := by
  refine ho.mono ?_ fun _ h => ⟨h.1, h.2.mono (getD_le hown)⟩
  rintro a m' ⟨⟨ha, container⟩, gained⟩
  refine ⟨?_, gained.steady.mono (getD_le hown)⟩
  rw [ha]
  exact ⟨gained.sound, List.forall_mem_singleton.2 container⟩

/-- **A request of a host or of an operator keeps the machine sound**, if what it passes on is known
and the creator references it gives up are there.  It violates no invariant if what it modifies is held
by something else. -/
theorem perform_serves (r : Request) (h : m.Sound Γ n (x + .refs r.surrendered))
    (hv : ∀ v ∈ r.passed, m.Knows (x + .refs r.surrendered) v)
    (ha : lax ∨ ∀ v ∈ r.modified, m.Anchored (x + .refs r.surrendered) v) :
    (r.perform own m).Meets lax (r.Serves Γ own n x m) fun m' =>
      m'.Sound Γ n x ∧ m.Steady (own.getD n) m' := by
  -- most requests give no creator reference up
  have keeps (hr : r.surrendered = []) : m.Sound Γ n x ∧ ∀ v ∈ r.passed, m.Knows x v := by
    rw [hr, Stake.refs_nil, add_zero] at h hv
    exact ⟨h, hv⟩
  have keepsAnchor (hr : r.surrendered = []) (v : Value)
      (hv : m.Anchored (x + .refs r.surrendered) v) : m.Anchored x v := by
    rwa [hr, Stake.refs_nil, add_zero] at hv
  have refused (h : m.Sound Γ n x) {c : Cause} {β : Type} {P : β → Machine → Prop} :
      (Action.fail c m : Outcome Machine β).Meets lax P fun m' =>
        m'.Sound Γ n x ∧ m.Steady (own.getD n) m' := ⟨h, .refl _ m⟩
  cases r with
  | observe =>
    obtain ⟨h, -⟩ := keeps rfl
    exact serves_of_sound h (.refl _ m) rfl
  | exchange drop values =>
    obtain ⟨h, hv⟩ := keeps rfl
    exact meets_serves hown ((Machine.exchangeOperands_meets h hv).mono
      (fun _ _ h => ⟨h.1, h.2.1⟩) fun _ => id) fun _ => rfl
  | adopt drop created => exact meets_serves hown (Machine.adopt_meets h) fun _ => rfl
  | release created =>
    exact meets_serves hown ((Machine.release_meets h).mono (fun _ _ h => ⟨h.1, h.2.1⟩)
      fun _ => id) fun _ => rfl
  | clearOperands =>
    exact meets_serves hown (Machine.clearOperands_meets (keeps rfl).1) fun _ => rfl
  | createArray access items =>
    obtain ⟨h, hv⟩ := keeps rfl
    refine meets_serves_of_gained hown id ((Machine.createArray_meets h hv).mono ?_ fun _ => id)
    rintro _ m' ⟨⟨i, rfl⟩, gained⟩
    exact ⟨⟨rfl, rfl, rfl⟩, gained⟩
  | createFilledArray access length v =>
    obtain ⟨h, hv⟩ := keeps rfl
    refine meets_serves_of_gained hown id
      ((Machine.createFilledArray_meets h (hv v (by simp [passed]))).mono ?_ fun _ => id)
    rintro _ m' ⟨⟨i, rfl⟩, gained⟩
    exact ⟨⟨rfl, rfl, rfl⟩, gained⟩
  | createDictionary =>
    refine meets_serves_of_gained hown id
      ((Machine.createDictionary_meets (keeps rfl).1).mono ?_ fun _ => id)
    rintro _ m' ⟨⟨i, rfl⟩, gained⟩
    exact ⟨⟨rfl, rfl, rfl⟩, gained⟩
  | setItem container index v =>
    obtain ⟨h, hv⟩ := keeps rfl
    have anchored : lax ∨ m.Anchored x container := ha.imp_right fun ha => keepsAnchor rfl container
      (ha container (List.mem_singleton_self _))
    exact meets_serves hown ((Machine.setItem_meets h (hv _ (by simp [passed])) anchored
      (hv _ (by simp [passed]))).mono (fun _ _ h => ⟨h.sound, h.steady⟩) fun _ => id) fun _ => rfl
  | define container name v =>
    obtain ⟨h, hv⟩ := keeps rfl
    have anchored : lax ∨ m.Anchored x container := ha.imp_right fun ha => keepsAnchor rfl container
      (ha container (List.mem_singleton_self _))
    exact meets_serves hown ((Machine.define_meets h (hv _ (by simp [passed])) anchored
      (hv _ (by simp [passed]))).mono (fun _ _ h => ⟨h.sound, h.steady⟩) fun _ => id) fun _ => rfl
  | openScope v =>
    obtain ⟨h, hv⟩ := keeps rfl
    exact meets_serves hown (Machine.openScope_meets h (hv v (by simp [passed]))) fun _ => rfl
  | closeScope => exact meets_serves hown (Machine.closeScope_meets (keeps rfl).1) fun _ => rfl
  | call v =>
    obtain ⟨h, hv⟩ := keeps rfl
    exact meets_serves hown (Machine.call_meets h (hv v (by simp [passed]))) fun _ => rfl
  | openBlock => exact meets_serves hown (Machine.openBlock_meets (keeps rfl).1) fun _ => rfl
  | closeBlock => exact meets_serves hown (Machine.closeBlock_meets (keeps rfl).1) fun _ => rfl
  | intercept => exact meets_serves hown (Machine.intercept_meets (keeps rfl).1) fun _ => rfl
  | setState next =>
    obtain ⟨h, -⟩ := keeps rfl
    cases own with
    | none => exact refused h
    | some i =>
      exact meets_serves hown ((Machine.setState_meets h (hown i rfl)).mono
        (fun _ _ h => ⟨h.1, h.2.1⟩) fun _ => id) fun _ => rfl
  | setLocal name v =>
    obtain ⟨h, hv⟩ := keeps rfl
    cases own with
    | none => exact refused h
    | some i =>
      -- the locals of the operator's own frame change
      exact (Machine.setLocal_meets h (hown i rfl) (hv v (by simp [passed]))).mono
        (fun _ _ h => serves_of_sound h.1.1 h.1.2 rfl) fun _ h => h.1
  | stash =>
    obtain ⟨h, -⟩ := keeps rfl
    cases own with
    | none => exact refused h
    | some i => exact meets_serves hown (Machine.stash_meets h (hown i rfl)) fun _ => rfl
  | restore =>
    obtain ⟨h, -⟩ := keeps rfl
    cases own with
    | none => exact refused h
    | some i => exact meets_serves hown (Machine.restore_meets h (hown i rfl)) fun _ => rfl

end

/-- A request of a host, outside any operator. -/
theorem perform_meets (r : Request) (h : m.Sound Γ 0 (x + .refs r.surrendered))
    (hv : ∀ v ∈ r.passed, m.Knows (x + .refs r.surrendered) v)
    (ha : lax ∨ ∀ v ∈ r.modified, m.Anchored (x + .refs r.surrendered) v) :
    (r.perform none m).Meets lax (r.Leaves Γ x) fun m' => m'.Sound Γ 0 x :=
  (perform_serves (by rintro _ ⟨⟩) r h hv ha).mono (fun _ _ h => h.1) fun _ h => h.1

end Request

/-! ### Runs -/

namespace Session

variable {χ : Type} {Γ : Charter} {x : Stake} {s : Session χ} {natives : Natives χ}

/-- Whatever is supplied in the next cycles is known when the machine takes it. -/
def FedFor (natives : Natives χ) (x : Stake) : ℕ → Session χ → Prop
  | 0, _ => True
  | budget + 1, s => s.machine.Fed x ∧ ∀ b t, cycle natives s = .done b t →
    FedFor natives x budget t

theorem runFrom_meets (hn : ∀ o, (Behaviour.ofOperator natives o).Works Γ) (budget count : ℕ)
    (h : s.machine.Sound Γ 0 x) (hfed : FedFor natives x budget s) :
    (runFrom natives count budget s).Meets False (fun _ t => t.machine.Sound Γ 0 x)
      fun _ => False := by
  induction budget generalizing count s with
  | zero => exact h
  | succ budget ih =>
    rw [runFrom]
    split
    · exact h
    · have step := cycle_meets hn h hfed.1
      cases hcycle : cycle natives s with
      | done b t => rw [hcycle] at step; exact ih (count + 1) step (hfed.2 b t hcycle)
      | raised e t => rw [hcycle] at step; exact step
      | broken b => rw [hcycle] at step; exact step

/-- A run keeps the machine sound, and violates no invariant. -/
theorem run_meets (hn : ∀ o, (Behaviour.ofOperator natives o).Works Γ) (budget : ℕ)
    (h : s.machine.Sound Γ 0 x) (hfed : FedFor natives x budget s) :
    (run natives budget s).Meets False (fun _ t => t.machine.Sound Γ 0 x)
      fun t => t.machine.Sound Γ 0 x := by
  refine Action.meets_bind ((runFrom_meets hn budget 0 h hfed).always fun _ _ => id) ?_
  intro count t ht
  rw [theMachine_bind]
  cases t.machine.exception with
  | none => exact ht
  | some e =>
    dsimp only
    split
    · exact ht
    · exact ht

/-- Where no host may give supplies, nothing is supplied. -/
theorem fedFor_of_no_supplies (hn : ∀ o, (Behaviour.ofOperator natives o).Works Γ)
    (hΓ : ∀ p, ¬ Γ.supplies p) (budget : ℕ) (h : s.machine.Sound Γ 0 x) :
    FedFor natives x budget s := by
  induction budget generalizing s with
  | zero => exact trivial
  | succ budget ih =>
    refine ⟨h.fed hΓ, fun b t hcycle => ih ?_⟩
    have step := cycle_meets hn h (h.fed hΓ)
    rwa [hcycle] at step

/-- The budget of a run to completion. -/
def completionBudget (m : Machine) : ℕ := m.options.defaultMaxCycles.getD Size.limit

theorem runToCompletion_meets (hn : ∀ o, (Behaviour.ofOperator natives o).Works Γ)
    (h : s.machine.Sound Γ 0 x) (hfed : FedFor natives x (completionBudget s.machine) s) :
    (runToCompletion natives s).Meets False (fun _ t => t.machine.Sound Γ 0 x)
      fun t => t.machine.Sound Γ 0 x := by
  unfold runToCompletion
  rw [theMachine_bind]
  refine Action.meets_bind (run_meets hn _ h hfed) ?_
  intro count t ht
  rw [theMachine_bind]
  split
  · exact ht
  · exact ht

end Session

/-! ### What is reached -/

/-- The values work passes on when it is queued.  Those of a supply are passed on one by one, when
the machine takes them. -/
def Work.passed : Work → List Value
  | .values vs => vs
  | _ => []

/-- The machine has been created with these options, by a setup that passes on nothing but what it
has built; a capacity, if there is one, is a number the counters can count. -/
def Machine.Created (options : Options) (m : Machine) : Prop :=
  (∀ t, options.maxMemory = some t → t ≤ Size.limit) ∧
    ∃ (α : Type) (setup : Setup α) (a : α) (μ : Memory), setup.SelfContained [] ∧
      Machine.create options setup = .done (m, a) μ

/-- A host that supplies whatever it likes creates a sound machine. -/
theorem Machine.sound_of_create {α : Type} {options : Options} {setup : Setup α} {m : Machine} {a : α}
    {μ : Memory} (hcapacity : ∀ t, options.maxMemory = some t → t ≤ Size.limit)
    (hs : setup.SelfContained []) (hm : Machine.create options setup = .done (m, a) μ) :
    ∃ Γ : Charter, (∀ p, Γ.supplies p) ∧ Γ.total = options.maxMemory ∧ m.Sound Γ 0 0 := by
  have created := Machine.create_meets (fun _ => True) (fun _ _ _ _ _ => trivial) hcapacity hs
  rw [hm] at created
  obtain ⟨Γ, hsupplies, fresh⟩ := created
  exact ⟨Γ, fun p => hsupplies ▸ trivial, fresh.total, fresh.sound⟩

/-- The host gets from the machine it has created to the session `s` while it owns the creator
references `owned`.  All it passes on is held by the machine or referred to by `owned`. -/
inductive Reached {χ : Type} (m₀ : Machine) : List Value → Session χ → Prop
  | start (host : χ) : Reached m₀ [] { machine := m₀, host := host }
  | answered {owned rest : List Value} {s : Session χ} {r : Request} {a : r.Answer} {m : Machine}
      (h : Reached m₀ owned s) (hgives : owned.Perm (r.surrendered ++ rest))
      (hpasses : ∀ v ∈ r.passed, s.machine.Knows (.refs owned) v)
      (hm : r.perform none s.machine = .done a m) :
      Reached m₀ (r.handedOut a ++ rest) { s with machine := m }
  | refused {owned rest : List Value} {s : Session χ} {r : Request} {e : Exception} {m : Machine}
      (h : Reached m₀ owned s) (hgives : owned.Perm (r.surrendered ++ rest))
      (hpasses : ∀ v ∈ r.passed, s.machine.Knows (.refs owned) v)
      (hm : r.perform none s.machine = .raised e m) : Reached m₀ rest { s with machine := m }
  | execute {owned : List Value} {s : Session χ} {work : Work} {m : Machine}
      (h : Reached m₀ owned s) (hpasses : ∀ v ∈ work.passed, s.machine.Knows (.refs owned) v)
      (hm : (Machine.execute work s.machine).state? = some m) :
      Reached m₀ owned { s with machine := m }
  | cycle {owned : List Value} {s t : Session χ} (h : Reached m₀ owned s)
      (hfed : s.machine.Fed (.refs owned)) (ht : (Session.cycle Natives.none s).state? = some t) :
      Reached m₀ owned t
  | run {owned : List Value} {s t : Session χ} {budget : ℕ} (h : Reached m₀ owned s)
      (hfed : Session.FedFor Natives.none (.refs owned) budget s)
      (ht : (Session.run Natives.none budget s).state? = some t) : Reached m₀ owned t
  | complete {owned : List Value} {s t : Session χ} (h : Reached m₀ owned s)
      (hfed : Session.FedFor Natives.none (.refs owned) (Session.completionBudget s.machine) s)
      (ht : (Session.runToCompletion Natives.none s).state? = some t) : Reached m₀ owned t

namespace Reached

variable {χ : Type} {options : Options} {m₀ : Machine} {owned : List Value} {s : Session χ}
  {Γ : Charter} {lax : Prop}

/-- Under the creator references the host owns, which are all to containers, the machine is
sound. -/
structure Kept (Γ : Charter) (owned : List Value) (m : Machine) : Prop where
  sound : m.Sound Γ 0 (.refs owned)
  containers : ∀ v ∈ owned, v.handle?.isSome ∧ v.string? = none

/-- A request may take over some of the creator references. -/
theorem Kept.perform_meets {m : Machine} {rest : List Value} (h : Kept Γ owned m) {r : Request}
    (hgives : owned.Perm (r.surrendered ++ rest))
    (hpasses : ∀ v ∈ r.passed, m.Knows (.refs owned) v)
    (ha : lax ∨ ∀ v ∈ r.modified, m.Anchored (.refs owned) v) :
    (r.perform none m).Meets lax (fun a m' => Kept Γ (r.handedOut a ++ rest) m')
      fun m' => Kept Γ rest m' := by
  have sum : Stake.refs owned = .refs rest + .refs r.surrendered := by
    rw [Stake.refs_perm hgives, Stake.refs_append, add_comm]
  have containers (v : Value) (hv : v ∈ rest) : v.handle?.isSome ∧ v.string? = none :=
    h.containers v (hgives.mem_iff.2 (List.mem_append_right _ hv))
  refine (Request.perform_meets r (sum ▸ h.sound) (fun v hv => sum ▸ hpasses v hv)
    (sum ▸ ha)).mono ?_ fun m' h' => ⟨h', containers⟩
  rintro a m' ⟨h', hcreated⟩
  refine ⟨?_, fun v hv => ?_⟩
  · rwa [Stake.refs_append, add_comm]
  · exact (List.mem_append.1 hv).elim (hcreated v) (containers v)

theorem kept (fresh : m₀.Fresh Γ options) (hΓ : ∀ p, Γ.supplies p) (h : Reached m₀ owned s) :
    Kept Γ owned s.machine := by
  have works (o : Operator) : (Behaviour.ofOperator (Natives.none : Natives χ) o).Works Γ :=
    Behaviour.works_none Γ o
  induction h with
  | start host => exact ⟨fresh.sound, by simp⟩
  | answered _ hgives hpasses hm ih =>
    have step := ih.perform_meets hgives hpasses (.inl trivial)
    rw [hm] at step
    exact step
  | refused _ hgives hpasses hm ih =>
    have step := ih.perform_meets hgives hpasses (.inl trivial)
    rw [hm] at step
    exact step
  | @execute owned s work m _ hpasses hm ih =>
    have step : (Machine.execute work s.machine).Meets True _ _ := Machine.execute_meets ih.sound
      (fun vs hvs v hv => hpasses v (by rw [hvs]; exact hv)) fun p _ => hΓ p
    exact ⟨(step.of_state? hm).1, ih.containers⟩
  | cycle _ hfed ht ih =>
    exact ⟨((Session.cycle_meets works ih.sound hfed).always fun _ _ => id).of_state? ht,
      ih.containers⟩
  | run _ hfed ht ih =>
    exact ⟨(Session.run_meets works _ ih.sound hfed).of_state? ht, ih.containers⟩
  | complete _ hfed ht ih =>
    exact ⟨(Session.runToCompletion_meets works ih.sound hfed).of_state? ht, ih.containers⟩

/-- **Every machine a host reaches is sound**, under a charter that says what was there when it was
created. -/
theorem sound (hm₀ : m₀.Created options) (h : Reached m₀ owned s) :
    ∃ Γ, m₀.Fresh Γ options ∧ Kept Γ owned s.machine := by
  obtain ⟨hcapacity, α, setup, a, μ, hs, hm⟩ := hm₀
  have created := Machine.create_meets (fun _ => True) (fun _ _ _ _ _ => trivial) hcapacity hs
  rw [hm] at created
  obtain ⟨Γ, hsupplies, fresh⟩ := created
  exact ⟨Γ, fresh, h.kept fresh fun p => hsupplies ▸ trivial⟩

end Reached

/-! ### A first run -/

/-- A host scope with a table in it. -/
def Setup.table : Setup Unit := do
  let v ← Setup.array [.integer (.ofInt 1), .string "b"]
  Setup.define "table" v

theorem Setup.selfContained_table : Setup.table.SelfContained [] := by
  refine .array (fun v hv => ?_) (fun i => ?_) fun e => .raise _ e
  · refine Stake.knows_of_handle?_none ?_
    rcases List.mem_pair.1 hv with rfl | rfl <;> rfl
  · exact .define (Stake.knows_of_mem (by simp)) (.done _ ()) fun e => .raise _ e

/-- What becomes of a host that creates a machine with a table and runs a text on it. -/
def Session.trial (options : Options) (text : String) (budget : ℕ) : Option (Session Unit) :=
  match Machine.create options Setup.table with
  | .done (m, _) _ => (Machine.execute (.source text "-") m).state?.bind fun m =>
      (Session.run Natives.none budget { machine := m, host := () }).state?
  | _ => none

/-- Such a host has reached what it gets. -/
theorem Reached.of_trial {options : Options} {text : String} {budget : ℕ} {t : Session Unit}
    (hcapacity : ∀ t, options.maxMemory = some t → t ≤ Size.limit)
    (h : Session.trial options text budget = some t) :
    ∃ m₀ : Machine, m₀.Created options ∧ Reached m₀ [] t := by
  unfold Session.trial at h
  have setup := Setup.selfContained_table
  cases hm : Machine.create options Setup.table with
  | done r μ =>
    obtain ⟨m₀, a⟩ := r
    rw [hm] at h
    obtain ⟨m, hexecute, hrun⟩ := Option.bind_eq_some_iff.1 h
    have created := Machine.create_meets (fun _ => False) (fun _ _ _ h => h.elim) hcapacity setup
    rw [hm] at created
    obtain ⟨Γ, hsupplies, fresh⟩ := created
    have queued : (Machine.execute (.source text "-") m₀).Meets True _ _ :=
      Machine.execute_meets fresh.sound (fun vs hvs => by cases hvs) fun p hp => by cases hp
    have fed : Session.FedFor Natives.none 0 budget { machine := m, host := () } :=
      Session.fedFor_of_no_supplies (Behaviour.works_none Γ)
        (fun p hp => by rw [hsupplies] at hp; exact hp) budget (queued.of_state? hexecute).1
    exact ⟨m₀, ⟨hcapacity, Unit, _, (), μ, setup, hm⟩,
      .run (.execute (.start ()) (fun v hv => by cases hv) hexecute) fed hrun⟩
  | raised e μ => rw [hm] at h; cases h
  | broken b => rw [hm] at h; cases h

/-- The same host creates a dictionary when the run is over, and keeps its reference. -/
def Session.trialCreating (options : Options) (text : String) (budget : ℕ) :
    Option (Value × Session Unit) :=
  (Session.trial options text budget).bind fun s =>
    match Request.createDictionary.perform none s.machine with
    | .done v m => some (v, { s with machine := m })
    | _ => none

theorem Reached.of_trialCreating {options : Options} {text : String} {budget : ℕ} {v : Value}
    {t : Session Unit} (hcapacity : ∀ t, options.maxMemory = some t → t ≤ Size.limit)
    (h : Session.trialCreating options text budget = some (v, t)) :
    ∃ m₀ : Machine, m₀.Created options ∧ Reached m₀ [v] t := by
  obtain ⟨s, hs, ht⟩ := Option.bind_eq_some_iff.1 h
  obtain ⟨m₀, created, reached⟩ := Reached.of_trial hcapacity hs
  refine ⟨m₀, created, ?_⟩
  cases hm : Request.createDictionary.perform none s.machine with
  | done w m =>
    rw [hm] at ht
    obtain ⟨rfl, rfl⟩ := Prod.mk.inj (Option.some.inj ht)
    exact reached.answered .rfl (fun v hv => by cases hv) hm
  | raised e m => rw [hm] at ht; cases ht
  | broken b => rw [hm] at ht; cases ht

end StackScript
