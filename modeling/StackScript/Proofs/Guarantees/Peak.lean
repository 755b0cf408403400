import StackScript.Proofs.Comparison.Bounded

/-!
# The peak is the budget

A host creates a machine without a capacity and runs its errands, and is never refused an allocation.
The peak of the ledger in the end is what it all needs (`peak_is_budget`):

* with a capacity of that many units, or more, the same happens: each errand has the same outcome, and
  leaves the machine in the same state;
* with a capacity of fewer units an allocation is refused, while the machine is created or in one of
  the errands.

Two machines are compared errand by errand (`compared`), until one is refused an allocation.
-/

namespace StackScript

open Capacity

open Metered (peak)

variable {χ α : Type} {limit : ℕ} {Γ Δ : Charter} {s t : Session χ} {options : Options}
  {setup : Setup α} {m : Machine} {a : α} {μ : Memory}

/-- The same options, but for a capacity. -/
def Options.within (options : Options) (limit : ℕ) : Options := { options with maxMemory := some limit }

/-- The host is told the same after an errand, and what it has is the same but for the capacity. -/
structure SameEntry (limit : ℕ) (x y : Except Exception Reply × Session χ) : Prop where
  reply : x.1 = y.1
  machine : x.2.machine.SameWithin limit y.2.machine

/-! ### Errands -/

instance (c : Errand) : Action.Rising (c.perform : Action (Session χ) Reply) := by
  cases c <;> unfold Errand.perform <;> infer_instance

theorem Session.peak_le_after (calls : List Errand) (s : Session χ) :
    peak s ≤ peak (Session.after calls s) := by
  induction calls generalizing s with
  | nil => exact le_rfl
  | cons c rest ih =>
    have rises := Action.Rising.rises (x := (c.perform.attempt : Action (Session χ) _)) s
    unfold Session.after
    generalize c.perform.attempt s = o at rises
    cases o with
    | done r t => exact rises.trans (ih t)
    | _ => exact le_rfl

/-- Errands keep the machine sound, and none of them violates an invariant. -/
theorem Session.sound_after (hΓ : ∀ p, Γ.supplies p) (h : s.machine.Sound Γ 0 0) {calls : List Errand}
    (hfair : Session.Fair calls s) :
    (Session.after calls s).machine.Sound Γ 0 0 ∧ (Session.transcript calls s).length = calls.length := by
  induction calls generalizing s with
  | nil => exact ⟨h, rfl⟩
  | cons c rest ih =>
    obtain ⟨fair, hrest⟩ := hfair
    have next := c.attempt_meets h (fun p _ => hΓ p) fair
    unfold Session.after Session.transcript
    generalize c.perform.attempt s = o at next hrest
    cases o with
    | done r t => exact (ih next (hrest r t rfl)).imp_right (congrArg (· + 1))
    | raised e t => exact next.elim
    | broken b => exact next.elim

/-- What becomes of the same errands without a capacity and with one: all is the same, or more has been
in use than the capacity allows, and an allocation has been refused. -/
inductive Compared (limit : ℕ) (calls : List Errand) (s t : Session χ) : Prop
  | same (h : (setting limit).Sessions (Session.after calls s) (Session.after calls t))
    (entries : List.Forall₂ (SameEntry limit) (Session.transcript calls s) (Session.transcript calls t))
  | exceeded (h : limit < peak (Session.after calls s)) (hr : Session.refused calls t = true)

/-- **Errands within a capacity.** -/
theorem compared (hΓ : ∀ p, Γ.supplies p) (hΔ : ∀ p, Δ.supplies p) (h : (setting limit).Sessions s t)
    (hsound : BothSound Γ Δ s t) {calls : List Errand} (hfair : Session.Fair calls s)
    (hs : Session.refused calls s = false) : Compared limit calls s t := by
  induction calls generalizing s t with
  | nil => exact .same h .nil
  | cons c rest ih =>
    obtain ⟨fair, hrest⟩ := hfair
    obtain ⟨granted, granted'⟩ := Bool.or_eq_false_iff.1 hs
    have kept := (c.perform_kept hΓ hΔ h hsound fair granted).attempt
    have left := c.attempt_meets hsound.left (fun p _ => hΓ p) fair
    -- how the errand ends for the one and for the other
    cases hc : c.perform.attempt s with
    | raised e u => rw [hc] at left; exact left.elim
    | broken b => rw [hc] at left; exact left.elim
    | done r u =>
      have after : Session.after (c :: rest) s = Session.after rest u := by rw [Session.after, hc]
      have told : Session.transcript (c :: rest) s = (r, u) :: Session.transcript rest u := by
        rw [Session.transcript, hc]
      rw [hc] at kept granted'
      generalize hd : c.perform.attempt t = p at kept
      cases kept with
      | @done _ r' _ v ha huv =>
        have after' : Session.after (c :: rest) t = Session.after rest v := by rw [Session.after, hd]
        have told' : Session.transcript (c :: rest) t = (r', v) :: Session.transcript rest v := by
          rw [Session.transcript, hd]
        cases ih huv.1 huv.2 (hrest r u hc) granted' with
        | same hafter entries =>
          refine .same (by rw [after, after']; exact hafter) ?_
          rw [told, told']
          exact .cons ⟨ha, sameWithin huv.1.machine⟩ entries
        | exceeded hp hr =>
          refine .exceeded (by rw [after]; exact hp) ?_
          rw [Session.refused, hd]
          exact Bool.or_eq_true_iff.2 (.inr hr)
      | refused ho hr =>
        refine .exceeded ?_ (Bool.or_eq_true_iff.2 (.inl hr))
        rw [after]
        exact lt_of_lt_of_le ho (Session.peak_le_after rest u)
      | broken hl => exact hl.elim

/-! ### Creation -/

/-- A machine takes over the memory it was put together in. -/
theorem Machine.memory_of_create (hm : Machine.create options setup = .done (m, a) μ) : m.memory = μ := by
  have any {β : Type} (x : Action Memory β) (μ : Memory) :
      (x μ).Meets True (fun _ _ => True) fun _ => True :=
    Outcome.meets_of_forall (fun _ _ => trivial) fun _ => trivial
  have created : (Machine.create options setup).Meets True (fun r ν => r.1.memory = ν) fun _ => True := by
    unfold Machine.create
    rw [Machine.assemble_eq]
    refine Action.meets_bind (any _ _) fun parts μ _ => ?_
    refine Action.meets_bind (any _ _) fun provided μ _ => ?_
    refine Action.meets_bind (any _ _) fun system μ _ => ?_
    refine Action.meets_bind (any _ _) fun _ μ _ => ?_
    refine Action.meets_bind (any _ _) fun common μ _ => ?_
    refine Action.meets_bind (any _ _) fun user μ _ => ?_
    exact Action.meets_bind (any _ _) fun scopes μ _ => rfl
  rw [hm] at created
  exact created

/-- What becomes of the same host without a capacity and with one. -/
theorem created_within {calls : List Errand} {host : χ} (hlimit : limit ≤ Size.limit)
    (hopen : options.maxMemory = none) (hs : setup.SelfContained [])
    (hm : Machine.create options setup = .done (m, a) μ)
    (hgranted : Machine.denied options setup = false) (hfair : Session.Fair calls ⟨m, host⟩)
    (hmet : Session.refused calls ⟨m, host⟩ = false) :
    (limit < peak m ∧ Machine.denied (options.within limit) setup = true) ∨
      ∃ m' μ', Machine.create (options.within limit) setup = .done (m', a) μ' ∧
        m.SameWithin limit m' ∧ Compared limit calls ⟨m, host⟩ ⟨m', host⟩ := by
  have countable (t : ℕ) (ht : (options.within limit).maxMemory = some t) : t ≤ Size.limit :=
    Option.some.inj ht ▸ hlimit
  obtain ⟨Γ, hΓ, -, sound⟩ := Machine.sound_of_create (by rw [hopen]; nofun) hs hm
  have kept : Kept limit _ _ _ _ (Machine.create options setup)
      (Machine.create (options.within limit) setup) := create_kept hopen hgranted
  rw [hm] at kept
  generalize hm' : Machine.create (options.within limit) setup = p at kept
  cases kept with
  | @done _ r _ ν ha h =>
    obtain ⟨m', a'⟩ := r
    obtain ⟨machines, rfl⟩ := ha
    obtain ⟨Δ, hΔ, -, sound'⟩ := Machine.sound_of_create countable hs hm'
    have sessions : (setting limit).Sessions ⟨m, host⟩ ⟨m', host⟩ := ⟨machines, rfl⟩
    exact .inr ⟨m', ν, rfl, sameWithin machines,
      compared hΓ hΔ sessions ⟨sound, sound'⟩ hfair hmet⟩
  | refused ho hr =>
    obtain rfl := Machine.memory_of_create hm
    exact .inl ⟨ho, hr⟩
  | broken _ hb =>
    rcases hb with hb | hb
    · cases hb
    · have created := Machine.create_meets (fun _ => True) (fun _ _ _ _ _ => trivial) countable hs
      obtain ⟨b, rfl⟩ := Outcome.fate_eq_broken hb
      exact absurd hm' (created.not_broken b)

/-! ### The budget -/

/-- **The peak is the budget**: of a host that was never refused an allocation, and all of whose errands
had an outcome, the same becomes with a capacity of as many units as its peak in the end, or more; with
fewer, an allocation is refused. -/
theorem peak_is_budget {calls : List Errand} {host : χ} (hopen : options.maxMemory = none)
    (hs : setup.SelfContained []) (hm : Machine.create options setup = .done (m, a) μ)
    (hgranted : Machine.denied options setup = false) (hfair : Session.Fair calls ⟨m, host⟩)
    (hmet : Session.refused calls ⟨m, host⟩ = false) :
    let needed := (Session.after calls ⟨m, host⟩).machine.memory.ledger.peak
    (Session.transcript calls ⟨m, host⟩).length = calls.length ∧
    (∀ limit, needed ≤ limit → limit ≤ Size.limit →
      ∃ m' μ', Machine.create (options.within limit) setup = .done (m', a) μ' ∧
        m.SameWithin limit m' ∧
        List.Forall₂ (SameEntry limit) (Session.transcript calls ⟨m, host⟩)
          (Session.transcript calls ⟨m', host⟩)) ∧
    ∀ limit < needed,
      Machine.denied (options.within limit) setup = true ∨
      ∃ m' μ', Machine.create (options.within limit) setup = .done (m', a) μ' ∧
        Session.refused calls ⟨m', host⟩ = true := by
  intro needed
  obtain ⟨Γ, hΓ, htotal, sound⟩ := Machine.sound_of_create (by rw [hopen]; nofun) hs hm
  obtain ⟨final, length⟩ := Session.sound_after hΓ (s := ⟨m, host⟩) sound hfair
  have built : peak m ≤ needed := Session.peak_le_after calls ⟨m, host⟩
  refine ⟨length, fun limit hp hlimit => ?_, fun limit hp => ?_⟩
  · rcases created_within hlimit hopen hs hm hgranted hfair hmet with
      ⟨hexceeded, -⟩ | ⟨m', μ', hm', same, hcompared⟩
    · exact absurd (hexceeded.trans_le built) (not_lt.2 hp)
    · refine ⟨m', μ', hm', same, ?_⟩
      cases hcompared with
      | same _ entries => exact entries
      | exceeded hexceeded _ => exact absurd hexceeded (not_lt.2 hp)
  · have bounded : needed ≤ Size.limit := by
      obtain ⟨-, σ, hb, -⟩ := final.memory
      have := hb.exact.peak_le
      rwa [htotal, hopen] at this
    rcases created_within (hp.le.trans bounded) hopen hs hm hgranted hfair hmet with
      ⟨-, hd⟩ | ⟨m', μ', hm', -, hcompared⟩
    · exact .inl hd
    · refine .inr ⟨m', μ', hm', ?_⟩
      cases hcompared with
      | same hafter _ =>
        have memories : (books limit).Memories _ _ := hafter.machine.memory
        have ledgers : Ledgers limit _ _ := memories.ledger
        exact absurd ledgers.within (not_le.2 hp)
      | exceeded _ hr => exact hr

/-- A host that runs a text in pieces, and clears the exception it ends with. -/
def Errand.division : List Errand :=
  [.execute (.source "[ \"ab\" 3 ] 1 0 div" "-"), .run 6, .cycle, .complete, .clearException, .complete]

/-- Whether an errand of the host is refused an allocation, and the peak in the end. -/
def Outcome.tally {ν α : Type} (calls : List Errand) : Outcome ν (Machine × α) → Option (Bool × ℕ)
  | .done (m, _) _ => some (Session.refused calls ⟨m, ()⟩,
      (Session.after calls ⟨m, ()⟩).machine.memory.ledger.peak)
  | _ => none

/-- What it all needs is what the record of the exception brings it to. -/
theorem peak_is_budget_of_division :
    ∃ m μ, Machine.create {} Setup.table = .done (m, ()) μ ∧
      (∃ m' μ', Machine.create (Options.within {} 4932) Setup.table = .done (m', ()) μ' ∧
        m.SameWithin 4932 m' ∧
        List.Forall₂ (SameEntry 4932) (Session.transcript Errand.division ⟨m, ()⟩)
          (Session.transcript Errand.division ⟨m', ()⟩)) ∧
      (Machine.denied (Options.within {} 4931) Setup.table = true ∨
        ∃ m' μ', Machine.create (Options.within {} 4931) Setup.table = .done (m', ()) μ' ∧
          Session.refused Errand.division ⟨m', ()⟩ = true) := by
  have facts : (Machine.create {} Setup.table).tally Errand.division = some (false, 4932) := by
    decide +kernel
  cases hm : Machine.create {} Setup.table with
  | raised e μ => rw [hm] at facts; cases facts
  | broken b => rw [hm] at facts; cases facts
  | done r μ =>
    obtain ⟨m, _⟩ := r
    rw [hm] at facts
    obtain ⟨hmet, hpeak⟩ := Prod.mk.inj (Option.some.inj facts)
    have countable (t : ℕ) (ht : Options.maxMemory {} = some t) : t ≤ Size.limit := by cases ht
    have created := Machine.create_meets (fun _ => False) (fun _ _ _ h => h.elim) countable
      Setup.selfContained_table
    rw [hm] at created
    obtain ⟨Γ, hsupplies, fresh⟩ := created
    have fair : Session.Fair Errand.division (⟨m, ()⟩ : Session Unit) :=
      Session.fair_of_texts (fun p hp => by rw [hsupplies] at hp; exact hp) fresh.sound (by decide)
    obtain ⟨-, same, refused⟩ := peak_is_budget rfl Setup.selfContained_table hm (by decide +kernel)
      fair hmet
    rw [hpeak] at same refused
    exact ⟨m, μ, rfl, same 4932 le_rfl (by decide), refused 4931 (by decide)⟩

end StackScript
