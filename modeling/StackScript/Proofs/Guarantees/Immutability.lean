import StackScript.Proofs.Guarantees.Safety
import StackScript.Proofs.Machine.Genuine
import StackScript.Proofs.Machine.Overseen

/-!
# What may only be read stays as it is

Permission to write to a container is part of the value that refers to it, not of the container.  So
it is nothing but the uniformity of values (`Machine.Uniform`) that keeps hosted code from writing
to what it was given for reading: all values that refer to a container grant the same permission, at
every moment of every run, and as long as a container is there that does not let itself be modified,
nothing in it changes (`read_only_data_immutable`).
-/

namespace StackScript

variable {χ : Type}

/-! ### Calls of a host, watched -/

/-- The act of a host that a call is. -/
def HostCall.act : HostCall → HostAct
  | .exec text origin => .execute (.source text origin)
  | .cycle => .cycle
  | .run budget => .run budget
  | .complete => .complete
  | .clearException => .request .intercept

theorem HostCall.watches (c : HostCall) :
    Watches (c.act.watch Natives.none) (c.perform : Action (Session χ) Unit) := by
  have same : c.act.perform Natives.none = (c.perform : Action (Session χ) Unit) := by
    cases c with
    | clearException => exact (Session.onMachine_bind Machine.intercept fun _ => pure ()).symm
    | _ => rfl
  exact same ▸ c.act.watches Natives.none

namespace Watched

variable {Γ : Charter} {w : Watched χ}

/-- One call after the other, watched; the host goes on when a call fails. -/
def drive : List HostCall → Action (Watched χ) Unit
  | [] => pure ()
  | c :: rest => do
    let _ ← (c.act.watch Natives.none).attempt
    drive rest

theorem watches_drive (calls : List HostCall) :
    Watches (drive calls) (Session.drive calls : Action (Session χ) Unit) := by
  induction calls with
  | nil => exact .pure ()
  | cons c rest ih => exact .bind c.watches.attempt fun _ => ih

section

variable (hΓ : ∀ p, ¬ Γ.supplies p) (h : w.Supervised Γ)
include hΓ h

theorem watch_supervised (c : HostCall) :
    (c.act.watch Natives.none w).Meets True (fun _ v => v.Supervised Γ)
      fun v => v.Supervised Γ := by
  cases c with
  | exec text origin =>
    obtain ⟨held, h⟩ := h
    have plain : (Value.code text).handle? = none := rfl
    have queued : (Machine.execute (.source text origin) w.machine).Meets True _ _ :=
      Machine.execute_meets h.sound (fun vs hvs => by cases hvs) fun p hp => by cases hp
    have drifts : Session.DriftsFrom held w.session
        (Session.onMachine (Machine.execute (.source text origin))) :=
      Session.driftsFrom_call (v := (Value.code text).withSource _)
        (Machine.carries_of_handle?_none plain)
    exact (note_drifts h drifts (Session.meets_onMachine (queued.mono (fun _ _ hm => hm.1)
      fun _ hm => hm.1))).mono (fun _ _ hv => hv.supervised) fun _ hv => hv.supervised
  | cycle => exact Action.meets_bind (cycle_supervised hΓ h) fun _ _ hv => hv
  | run budget => exact Action.meets_bind (run_supervised hΓ budget h) fun _ _ hv => hv
  | complete => exact Action.meets_bind (runToCompletion_supervised hΓ h) fun _ _ hv => hv
  | clearException =>
    obtain ⟨held, h⟩ := h
    have taken : (Machine.intercept w.machine).Meets True _ fun _ => False :=
      Machine.intercept_meets h.sound
    exact Action.meets_bind ((note_drifts h (Session.driftsFrom_onMachine inferInstance)
      (Session.meets_onMachine (taken.mono (fun _ _ hm => hm.1) fun _ => False.elim))).mono
        (fun _ _ hv => hv.supervised) fun _ hv => hv.supervised) fun _ _ hv => hv

theorem drive_supervised (calls : List HostCall) :
    (drive calls w).Meets True (fun _ v => v.Supervised Γ) fun v => v.Supervised Γ := by
  induction calls generalizing w with
  | nil => exact h
  | cons c rest ih =>
    exact Action.meets_bind (P := fun _ v => v.Supervised Γ)
      (Action.meets_attempt ((watch_supervised hΓ h c).mono (fun _ _ => id) fun _ hv _ => hv))
      fun _ v hv => ih hv

end

theorem forgetsNothing_drive (calls : List HostCall) :
    Action.Respects ForgetsNothing (drive calls : Action (Watched χ) Unit) := by
  induction calls with
  | nil => exact inferInstanceAs (Action.Respects _ (pure ()))
  | cons c rest ih =>
    have := c.act.forgetsNothing_watch (Natives.none : Natives χ)
    exact Action.Respects.bind inferInstance fun _ => ih

end Watched

/-- Whatever a host does to a machine it has created, what the machine passes through is a record. -/
theorem Watched.exists_record {α : Type} {options : Options} {setup : Setup α} {m₀ : Machine} {a : α}
    {μ : Memory} (hcapacity : ∀ t, options.maxMemory = some t → t ≤ Size.limit)
    (hs : setup.Genuine []) (hm₀ : Machine.create options setup = .done (m₀, a) μ) (host : χ)
    (calls : List HostCall) :
    ∃ (Γ : Charter) (w : Watched χ) (history : List Custody), m₀.Fresh Γ options ∧
      drive calls ⟨⟨m₀, host⟩, [m₀]⟩ = .done () w ∧
      Session.drive calls ⟨m₀, host⟩ = .done () w.session ∧
      (m₀ ∈ w.moments ∧ w.moments.head? = some w.session.machine) ∧
      w.moments = history.map Custody.machine ∧ Custody.Record Γ history := by
  have created := Machine.create_meets (fun _ => False) (fun _ _ _ h => h.elim) hcapacity
    hs.selfContained
  rw [hm₀] at created
  obtain ⟨Γ, hsupplies, fresh⟩ := created
  have none (p : Supply) : ¬ Γ.supplies p := by simp [hsupplies]
  have sound : m₀.Sound Γ 0 (.refs []) := fresh.sound
  have start : Watched.Supervised Γ ⟨⟨m₀, host⟩, [m₀]⟩ :=
    ⟨[], sound, [], rfl, ⟨List.forall_mem_singleton.2 ⟨0, sound⟩,
      List.forall_mem_singleton.2 (Machine.uniform_of_create hcapacity hs hm₀), .singleton _⟩⟩
  have driven := Session.drive_meets none (s := ⟨m₀, host⟩) fresh.sound calls
  have watches := Watched.watches_drive calls ⟨⟨m₀, host⟩, [m₀]⟩
  have supervised := Watched.drive_supervised none start calls
  have first := (Watched.forgetsNothing_drive calls).respects (⟨⟨m₀, host⟩, [m₀]⟩ : Watched χ)
  cases hw : Watched.drive calls ⟨⟨m₀, host⟩, [m₀]⟩ with
  | broken b =>
    rw [hw] at watches
    exact (driven.not_broken b watches).elim
  | raised e w =>
    rw [hw] at watches
    rw [watches] at driven
    exact driven.elim
  | done u w =>
    rw [hw] at watches supervised first
    obtain ⟨held, -, earlier, hmoments, record⟩ := supervised
    exact ⟨Γ, w, ⟨w.machine, held⟩ :: earlier, fresh, rfl, watches,
      ⟨first.subset List.mem_cons_self, by rw [hmoments]; rfl⟩, hmoments, record⟩

/-! ### The guarantee -/

/-- The object of a permanent scope that does not let itself be modified is the same all along. -/
theorem Custody.Record.scope {Γ : Charter} {history : List Custody} {c : Custody} {i : Handle}
    (h : Custody.Record Γ history) (hc : c ∈ history) (hi : .dictionary i false ∈ Γ.permanent) :
    ∃ d, ∀ m ∈ history.map Custody.machine, m.memory.heap.object? i = some (.dictionary d) := by
  have place (c : Custody) (hc : c ∈ history) : .dictionary i false ∈ c.machine.places := by
    obtain ⟨n, sound⟩ := h.sound c hc
    exact Machine.mem_places_of_scope (sound.permanent.subset hi)
  have lives (m : Machine) (hm : m ∈ history.map Custody.machine) : m.Lives i := by
    obtain ⟨c, hc, rfl⟩ := List.mem_map.1 hm
    exact (h.sound c hc).lives (Custody.mem_data_of_place (place c hc)) rfl
  have here : c.machine ∈ history.map Custody.machine := List.mem_map_of_mem hc
  obtain ⟨o, ho⟩ := h.read_only (List.infix_refl _) lives here (place c hc) rfl rfl
  obtain ⟨n, sound⟩ := h.sound c hc
  obtain ⟨present, σ, hb, -⟩ := sound.memory
  obtain ⟨d, hd⟩ := hb.dictionary_of_known present
    (Machine.knows_of_scope (sound.permanent.subset hi)) rfl rfl
  obtain rfl : o = .dictionary d := Option.some.inj ((ho _ here).1.symm.trans hd)
  exact ⟨d, fun m hm => (ho m hm).1⟩

/-- **Read-only data is immutable for hosted code.** At every moment of every run, all values that
refer to one container grant the same permission.  Along any stretch of moments at which a container
is there, if some value gives only read access to it then all do, and its object is the same
throughout.  That of the host scope, and that of the system scope, is the same from the creation of
the machine on. -/
theorem read_only_data_immutable {α : Type} {options : Options} {setup : Setup α} {m₀ : Machine}
    {a : α} {μ : Memory} (hcapacity : ∀ t, options.maxMemory = some t → t ≤ Size.limit)
    (hs : setup.Genuine []) (hm₀ : Machine.create options setup = .done (m₀, a) μ) (host : χ)
    (calls : List HostCall) :
    ∃ w, Watched.drive calls ⟨⟨m₀, host⟩, [m₀]⟩ = .done () w ∧
      Session.drive calls ⟨m₀, host⟩ = .done () w.session ∧
      (m₀ ∈ w.moments ∧ w.moments.head? = some w.session.machine) ∧
      (∀ m ∈ w.moments, m.Uniform) ∧
      (∀ stretch i, stretch <:+: w.moments → (∀ m ∈ stretch, m.Lives i) →
        ∀ m ∈ stretch, ∀ v ∈ m.places, v.handle? = some i → v.isReadOnly →
          ∃ o, ∀ m' ∈ stretch, m'.memory.heap.object? i = some o ∧
            ∀ u ∈ m'.places, u.handle? = some i → u.datum = v.datum) ∧
      ∃ system host : Handle,
        m₀.scopes.items.drop 2 = [.dictionary system false, .dictionary host false] ∧
        ∀ i ∈ [system, host], ∃ d, ∀ m ∈ w.moments,
          m.memory.heap.object? i = some (.dictionary d) := by
  obtain ⟨Γ, w, history, fresh, driven, watches, first, moments, record⟩ :=
    Watched.exists_record hcapacity hs hm₀ host calls
  obtain ⟨-, hostScope, system, common, user, scopes⟩ := Machine.layout_of_create hm₀
  obtain ⟨c₀, hc₀, -⟩ := List.mem_map.1 (moments ▸ first.1)
  refine ⟨w, driven, watches, first, ?_⟩
  rw [moments]
  refine ⟨fun m hm => ?_, ?_, system, hostScope, by rw [scopes]; rfl, ?_⟩
  · obtain ⟨c, hc, rfl⟩ := List.mem_map.1 hm
    exact (record.uniform c hc).places
  · exact fun stretch i hstretch lives m hm v hv hi read =>
      record.read_only hstretch lives hm hv hi read
  · intro i hi
    refine record.scope hc₀ ?_
    rw [fresh.permanent, scopes]
    rcases List.mem_pair.1 hi with rfl | rfl <;> simp

theorem Setup.genuine_table : Setup.table.Genuine [] := by
  refine .array (fun v hv => Value.among_of_handle?_none ?_) (fun i => ?_) fun e => .raise _ e
  · rcases List.mem_pair.1 hv with rfl | rfl <;> rfl
  · exact .define (Value.among_of_mem (by simp)) (.done _ ()) fun e => .raise _ e

/-- Nothing that is done to a machine with a table, in little memory, changes what its host scope
has. -/
theorem read_only_data_immutable_with_table :
    ∃ m₀ μ, Machine.create { maxMemory := some 6000 } Setup.table = .done (m₀, ()) μ ∧
      ∃ host : Handle, .dictionary host false ∈ m₀.scopes.items ∧
        ∀ calls, ∃ w, Watched.drive calls ⟨⟨m₀, ()⟩, [m₀]⟩ = .done () w ∧
          ∃ d, ∀ m ∈ w.moments, m.memory.heap.object? host = some (.dictionary d) := by
  have countable (t : ℕ) (ht : Options.maxMemory { maxMemory := some 6000 } = some t) :
      t ≤ Size.limit := Option.some.inj ht ▸ (by decide : 6000 ≤ Size.limit)
  have done : (Machine.create { maxMemory := some 6000 } Setup.table).isDone := by decide +kernel
  cases hm : Machine.create { maxMemory := some 6000 } Setup.table with
  | raised e μ => rw [hm] at done; cases done
  | broken b => rw [hm] at done; cases done
  | done r μ =>
    obtain ⟨m₀, a⟩ := r
    have immutable := read_only_data_immutable countable Setup.genuine_table hm ()
    obtain ⟨-, host, system, common, user, scopes⟩ := Machine.layout_of_create hm
    refine ⟨m₀, μ, rfl, host, by simp [scopes], fun calls => ?_⟩
    obtain ⟨w, hw, -, -, -, -, system', host', hscopes, same⟩ := immutable calls
    obtain rfl : host = host' := by
      rw [scopes] at hscopes
      have second : Value.dictionary host false = .dictionary host' false := by
        simpa using (List.cons.inj hscopes).2
      exact Option.some.inj (congrArg Value.handle? second)
    exact ⟨w, hw, same host (by simp)⟩

end StackScript
