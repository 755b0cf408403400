import StackScript.Proofs.Comparison.Tracing

/-!
# Debugging the memory

A memory that is debugged records where each container was allocated.  Two machines that differ only in
that are told apart by nothing else (`debugging_is_transparent`): they are created alike, and each
command of a host has the same outcome and leaves the same operands, frames, scopes, containers, ledger
and pending exception.

The one that records trails has exactly one for each container there is, charged to the same account,
between any two commands or cycles (`Memory.Traced`): also when the handle of a container that is gone
has been used again.
-/

namespace StackScript

open Likeness

variable {χ : Type} {Γ Δ : Charter} {owned left : List Value} {s t : Session χ} {m n : Machine}

/-! ### What is the same, and what is recorded -/

/-- The two machines are in the same state, but for the trails of allocations. -/
structure Machine.SameButTrails (m n : Machine) : Prop where
  ledger : n.memory.ledger = m.memory.ledger
  heap : n.memory.heap = m.memory.heap
  operands : n.operands = m.operands
  calls : n.calls = m.calls
  scopes : n.scopes = m.scopes
  pending : n.pending = m.pending
  blockDepth : n.blockDepth = m.blockDepth

/-- Trails are recorded for the containers there are, one for each, with what it is charged to. -/
structure Memory.Traced (μ : Memory) : Prop where
  debug : μ.debug = true
  once : (μ.allocations.map Trail.handle).Nodup
  live : ∀ i, i ∈ μ.allocations.map Trail.handle ↔ (μ.heap.object? i).isSome
  charged : ∀ trail ∈ μ.allocations, ∀ o, μ.heap.object? trail.handle = some o →
    trail.account = o.account

/-- A sound memory that is debugged has its containers traced. -/
theorem Memory.Sound.traced {μ : Memory} {y : Stake} (h : μ.Sound Γ y) (hdebug : μ.debug = true) :
    μ.Traced := by
  obtain ⟨present, σ, hb, -⟩ := h
  obtain ⟨l, hl⟩ := Option.isSome_iff_exists.1 hdebug
  have cover := hb.trailed l hl
  have recorded : μ.allocations = l.sorted := by rw [Memory.allocations, hl]; rfl
  have perm : μ.allocations.Perm l := recorded ▸ List.mergeSort_perm ..
  refine ⟨hdebug, ((perm.map _).nodup_iff).2 cover.nodup, fun i => ?_, fun trail ht o ho => ?_⟩
  · rw [(perm.map _).mem_iff, cover.handles]
    constructor
    · intro hi
      obtain ⟨c, hc⟩ := Option.ne_none_iff_exists'.1 hi
      obtain ⟨o, ho⟩ := present.exists_object hc
      rw [ho]
      rfl
    · rintro ho hi
      rw [Heap.object?, hi] at ho
      cases ho
  · rw [cover.accounts trail (perm.mem_iff.1 ht), ← (hb.labelled _ o ho).label, o.account_eq_label]

theorem Tracing.sameButTrails (h : Tracing.setting.Machines m n) : m.SameButTrails n := by
  obtain ⟨operands, calls, scopes, pending, blockDepth⟩ := Bookkeeping.eq_of_machines h
  have memories : Tracing.books.Memories m.memory n.memory := h.memory
  have ledger : m.memory.ledger = n.memory.ledger := memories.ledger
  exact ⟨ledger.symm, memories.heap.symm, operands.symm, calls.symm, scopes.symm, pending.symm,
    blockDepth.symm⟩

namespace Machine.SameButTrails

theorem stake_eq (h : m.SameButTrails n) : n.stake = m.stake := by
  unfold Machine.stake
  rw [h.operands, h.calls, h.scopes, h.pending]

theorem knows (h : m.SameButTrails n) {x : Stake} {v : Value} (hv : m.Knows x v) : n.Knows x v := by
  unfold Machine.Knows
  rw [h.stake_eq, h.heap]
  exact hv

theorem anchored (h : m.SameButTrails n) {x : Stake} {v : Value} (hv : m.Anchored x v) :
    n.Anchored x v := by
  unfold Machine.Anchored
  rw [h.stake_eq, h.heap]
  exact hv

theorem fed (h : m.SameButTrails n) {x : Stake} (hm : m.Fed x) : n.Fed x := by
  intro v hv
  refine h.knows (hm v ?_)
  unfold Machine.offered? at hv ⊢
  rwa [h.calls, h.pending] at hv

end Machine.SameButTrails

/-! ### Commands of a host that keeps to the rules -/

namespace Command

/-- Creator references that are given up. -/
def surrendered : Command → List Value
  | .request r => r.surrendered
  | _ => []

/-- What the host passes on is there, and what it modifies is held by something else than itself. -/
def Fair (owned : List Value) (s : Session χ) : Command → Prop
  | .request r => (∀ v ∈ r.passed, s.machine.Knows (.refs owned) v) ∧
      ∀ v ∈ r.modified, s.machine.Anchored (.refs owned) v
  | .execute work => ∀ v ∈ work.passed, s.machine.Knows (.refs owned) v
  | .cycle => s.machine.Fed (.refs owned)
  | .run budget => Session.FedFor Natives.none (.refs owned) budget s
  | .complete => Session.FedFor Natives.none (.refs owned) (Session.completionBudget s.machine) s

end Command

namespace Session

/-- Creator references that are handed out. -/
def handedOut : Except Exception Response → List Value
  | .ok (.created v) => [v]
  | _ => []

/-- What the host is told after each command, with what it has then.  It goes on when one fails. -/
def answers : List Command → Session χ → List (Except Exception Response × Session χ)
  | [], _ => []
  | c :: rest, s =>
    match c.perform.attempt s with
    | .done r t => (r, t) :: answers rest t
    | _ => []

/-- The host keeps to the rules each time, and gives up only creator references it owns. -/
def Fairly : List Command → List Value → Session χ → Prop
  | [], _, _ => True
  | c :: rest, owned, s => c.Fair owned s ∧ ∃ left, owned.Perm (c.surrendered ++ left) ∧
      ∀ r t, c.perform.attempt s = .done r t → Fairly rest (handedOut r ++ left) t

end Session

theorem Request.handedOut_report (r : Request) (a : r.Answer) :
    Session.handedOut (.ok (r.report a)) = r.handedOut a := by
  cases r <;> rfl

/-- A command of such a host violates no invariant, and leaves the machine sound. -/
theorem Command.attempt_meets (h : Reached.Kept Γ owned s.machine) {c : Command}
    (hsupplies : ∀ p, c = .execute (.supply p) → Γ.supplies p)
    (hgives : owned.Perm (c.surrendered ++ left)) (hc : c.Fair owned s) :
    (c.perform.attempt s).Meets False
      (fun r t => Reached.Kept Γ (Session.handedOut r ++ left) t.machine) fun _ => False := by
  have works (o : Operator) : (Behaviour.ofOperator (Natives.none : Natives χ) o).Works Γ :=
    Behaviour.works_none Γ o
  -- commands that are no requests neither take over nor hand out any references
  have keeps (hnone : c.surrendered = []) {m : Machine} (hm : m.Sound Γ 0 (.refs owned)) :
      Reached.Kept Γ left m := by
    rw [hnone, List.nil_append] at hgives
    exact ⟨Stake.refs_perm hgives ▸ hm, fun v hv => h.containers v (hgives.mem_iff.2 hv)⟩
  have performed : (c.perform s).Meets False
      (fun r t => Reached.Kept Γ (Session.handedOut (.ok r) ++ left) t.machine)
      fun t => Reached.Kept Γ left t.machine := by
    cases c with
    | request r =>
      have answered : (r.perform none s.machine).Meets False _ _ :=
        h.perform_meets hgives hc.1 (.inr hc.2)
      refine Action.meets_bind (P := fun a t => Reached.Kept Γ (r.handedOut a ++ left) t.machine)
        (Session.meets_onMachine answered) fun a t ht => ?_
      change Reached.Kept Γ (Session.handedOut (.ok (r.report a)) ++ left) t.machine
      rwa [Request.handedOut_report]
    | execute work =>
      have queued : (Machine.execute work s.machine).Meets False _ _ :=
        Machine.execute_meets h.sound (fun vs hvs v hv => hc v (by rw [hvs]; exact hv)) fun p hp =>
          hsupplies p (congrArg _ hp)
      exact Action.meets_bind (Session.meets_onMachine (queued.mono (fun _ _ h => keeps rfl h.1)
        fun _ h => keeps rfl h.1)) fun _ _ ht => ht
    | cycle =>
      exact Action.meets_bind ((Session.cycle_meets works h.sound hc).always fun _ _ => keeps rfl)
        fun _ _ ht => ht
    | run budget =>
      exact Action.meets_bind ((Session.run_meets works budget h.sound hc).mono
        (fun _ _ => keeps rfl) fun _ => keeps rfl) fun _ _ ht => ht
    | complete =>
      exact Action.meets_bind ((Session.runToCompletion_meets works h.sound hc).mono
        (fun _ _ => keeps rfl) fun _ => keeps rfl) fun _ _ ht => ht
  exact Action.meets_attempt (performed.mono (fun _ _ => id) fun _ ht _ => ht)

/-- Texts are all that is queued, and nothing else is asked of the machine but its exception. -/
def Command.isTextual : Command → Bool
  | .execute (.source ..) | .cycle | .run _ | .complete | .request .intercept => true
  | _ => false

/-- A host that queues texts only keeps to the rules. -/
theorem Session.fairly_of_texts (hΓ : ∀ p, ¬ Γ.supplies p) (h : Reached.Kept Γ owned s.machine)
    {commands : List Command} (htexts : ∀ c ∈ commands, c.isTextual) :
    Session.Fairly commands owned s := by
  induction commands generalizing owned s with
  | nil => trivial
  | cons c rest ih =>
    obtain ⟨htext, hrest⟩ := List.forall_mem_cons.1 htexts
    have fed (budget : ℕ) : Session.FedFor Natives.none (.refs owned) budget s :=
      Session.fedFor_of_no_supplies (Behaviour.works_none Γ) hΓ budget h.sound
    have supplies (p : Supply) (hp : c = .execute (.supply p)) : Γ.supplies p := by
      subst hp
      cases htext
    have fair : c.Fair owned s ∧ c.surrendered = [] := by
      cases c with
      | request r =>
        cases r with
        | intercept => exact ⟨⟨List.forall_mem_nil _, List.forall_mem_nil _⟩, rfl⟩
        | _ => cases htext
      | execute work =>
        cases work with
        | source text origin => exact ⟨List.forall_mem_nil _, rfl⟩
        | _ => cases htext
      | cycle => exact ⟨h.sound.fed hΓ, rfl⟩
      | run budget => exact ⟨fed budget, rfl⟩
      | complete => exact ⟨fed _, rfl⟩
    obtain ⟨fair, surrendered⟩ := fair
    have hgives : owned.Perm (c.surrendered ++ owned) := surrendered ▸ .refl owned
    have next := c.attempt_meets h supplies hgives fair
    exact ⟨fair, owned, hgives, fun r t ht => ih (by rw [ht] at next; exact next) hrest⟩

/-! ### Two machines -/

namespace Tracing

/-- What is supplied in the next cycles is known to the other machine too. -/
theorem fedFor (h : setting.Sessions s t) {x : Stake} (hs : s.machine.Sound Γ 0 x) {budget : ℕ}
    (hfed : Session.FedFor Natives.none x budget s) : Session.FedFor Natives.none x budget t := by
  induction budget generalizing s t with
  | zero => trivial
  | succ budget ih =>
    refine ⟨(sameButTrails h.machine).fed hfed.1, fun more v hv => ?_⟩
    have cycled := lasting_books.cycle_agree h
    have meets := Session.cycle_meets (Behaviour.works_none Γ) hs hfed.1
    have next := hfed.2
    rw [hv] at cycled
    generalize Session.cycle Natives.none s = o at cycled meets next
    cases cycled with
    | done _ huv => exact ih huv meets (next _ _ rfl)
    | lost hl =>
      rcases hl with hl | hl
      · obtain ⟨b, rfl⟩ := Outcome.fate_eq_broken hl
        exact meets.elim
      · cases hl

theorem fair (h : setting.Sessions s t) (hs : s.machine.Sound Γ 0 (.refs owned)) {c : Command}
    (hc : c.Fair owned s) : c.Fair owned t := by
  have same := sameButTrails h.machine
  cases c with
  | request r => exact ⟨fun v hv => same.knows (hc.1 v hv), fun v hv => same.anchored (hc.2 v hv)⟩
  | execute work => exact fun v hv => same.knows (hc v hv)
  | cycle => exact same.fed hc
  | run budget => exact fedFor h hs hc
  | complete =>
    have budget : Session.completionBudget s.machine = Session.completionBudget t.machine :=
      congrArg (·.getD Size.limit) h.machine.budget
    unfold Command.Fair at hc ⊢
    rw [← budget]
    exact fedFor h hs hc

end Tracing

/-- The host is told the same after a command, and what it has is the same but for the trails. -/
structure SameAnswer (x y : Except Exception Response × Session χ) : Prop where
  reply : y.1 = x.1
  machine : x.2.machine.SameButTrails y.2.machine
  host : y.2.host = x.2.host

/-- **The same commands have the same outcomes**, each of them. -/
theorem Tracing.sameAnswers (hΓ : ∀ p, Γ.supplies p) (hΔ : ∀ p, Δ.supplies p)
    (h : setting.Sessions s t) (hs : Reached.Kept Γ owned s.machine) (ht : Reached.Kept Δ owned t.machine)
    {commands : List Command} (hfair : Session.Fairly commands owned s) :
    (Session.answers commands s).length = commands.length ∧
      List.Forall₂ SameAnswer (Session.answers commands s) (Session.answers commands t) := by
  induction commands generalizing owned s t with
  | nil => exact ⟨rfl, .nil⟩
  | cons c rest ih =>
    obtain ⟨hc, left, hgives, hrest⟩ := hfair
    have first := c.attempt_meets hs (fun p _ => hΓ p) hgives hc
    have second := c.attempt_meets ht (fun p _ => hΔ p) hgives (fair h hs.sound hc)
    have agreed := lasting_books.attempt_agree (lasting_books.command_agree c h)
    unfold Session.answers
    generalize c.perform.attempt s = o at agreed first hrest
    generalize c.perform.attempt t = p at agreed second
    cases agreed with
    | @done r r' u v hr huv =>
      obtain rfl : r = r' := hr
      obtain ⟨length, same⟩ := ih huv first second (hrest r u rfl)
      exact ⟨congrArg (· + 1) length,
        .cons ⟨rfl, sameButTrails huv.machine, huv.host.symm⟩ same⟩
    | raised he huv => exact first.elim
    | lost hl =>
      rcases hl with hl | hl
      · obtain ⟨b, rfl⟩ := Outcome.fate_eq_broken hl
        exact first.elim
      · obtain ⟨b, rfl⟩ := Outcome.fate_eq_broken hl
        exact second.elim

/-! ### The guarantee -/

/-- The same options, with the memory debugged or not. -/
def Options.debugging (options : Options) (debug : Bool) : Options :=
  { options with debugMemory := debug }

/-- **Debugging the memory is transparent and faithful**: with and without it a machine is created
alike, and a host that keeps to the rules gets the same from each of its commands; where trails are
recorded, they are those of the containers there are at any time. -/
theorem debugging_is_transparent {α : Type} {options : Options} {setup : Setup α}
    (hcapacity : ∀ t, options.maxMemory = some t → t ≤ Size.limit) (hs : setup.SelfContained []) :
    (∃ e μ ν, Machine.create (options.debugging false) setup = .raised e μ ∧
      Machine.create (options.debugging true) setup = .raised e ν ∧ ν.ledger = μ.ledger) ∨
    ∃ m n a μ ν, Machine.create (options.debugging false) setup = .done (m, a) μ ∧
      Machine.create (options.debugging true) setup = .done (n, a) ν ∧ m.SameButTrails n ∧
      (∀ (host : χ) (commands : List Command), Session.Fairly commands [] ⟨m, host⟩ →
        (Session.answers commands ⟨m, host⟩).length = commands.length ∧
        List.Forall₂ SameAnswer (Session.answers commands ⟨m, host⟩)
          (Session.answers commands ⟨n, host⟩)) ∧
      ∀ owned (t : Session χ), Reached n owned t → t.machine.memory.Traced := by
  have agreed : Tracing.likeness.Agree (fun r r' => Tracing.setting.Machines r.1 r'.1 ∧ r.2 = r'.2)
      Tracing.books.Memories (Machine.create (options.debugging false) setup)
      (Machine.create (options.debugging true) setup) := by
    refine Tracing.lasting_books.create_agree setup ⟨rfl, rfl, rfl, rfl⟩ ?_ ?_ <;> rfl
  have countable (debug : Bool) (t : ℕ) (ht : (options.debugging debug).maxMemory = some t) :
      t ≤ Size.limit := hcapacity t ht
  have safe (debug : Bool) (b : Breach) : Machine.create (options.debugging debug) setup ≠ .broken b :=
    (Machine.create_meets (fun _ => True) (fun _ _ _ _ _ => trivial) (countable debug) hs).not_broken b
  cases hm : Machine.create (options.debugging false) setup with
  | broken b => exact absurd hm (safe false b)
  | raised e μ =>
    rw [hm] at agreed
    generalize hn : Machine.create (options.debugging true) setup = p at agreed
    cases agreed with
    | raised he h => exact .inl ⟨e, μ, _, rfl, he.whole trivial ▸ rfl, h.ledger.symm⟩
    | lost hl =>
      rcases hl with hl | hl
      · cases hl
      · obtain ⟨b, rfl⟩ := Outcome.fate_eq_broken hl
        exact absurd hn (safe true b)
  | done r μ =>
    rw [hm] at agreed
    generalize hn : Machine.create (options.debugging true) setup = p at agreed
    cases agreed with
    | @done _ r' _ ν hr h =>
      obtain ⟨m, a⟩ := r
      obtain ⟨n, a'⟩ := r'
      obtain ⟨machines, rfl⟩ := hr
      obtain ⟨Γ, hΓ, -, sound⟩ := Machine.sound_of_create (countable false) hs hm
      obtain ⟨Δ, hΔ, -, sound'⟩ := Machine.sound_of_create (countable true) hs hn
      have fresh {Γ : Charter} {m : Machine} (h : m.Sound Γ 0 0) : Reached.Kept Γ [] m :=
        ⟨by rwa [Stake.refs_nil], List.forall_mem_nil _⟩
      refine .inr ⟨m, n, a, μ, ν, rfl, rfl, Tracing.sameButTrails machines,
        fun host commands hfair => ?_, fun owned t ht => ?_⟩
      · have sessions : Tracing.setting.Sessions ⟨m, host⟩ ⟨n, host⟩ := ⟨machines, rfl⟩
        exact Tracing.sameAnswers hΓ hΔ sessions (fresh sound) (fresh sound') hfair
      · obtain ⟨_, -, kept⟩ := ht.sound ⟨countable true, α, setup, a, ν, hs, hn⟩
        have books : Tracing.books.Memories m.memory n.memory := machines.memory
        have trails : m.memory.trails = none ∧ n.memory.trails.isSome := books.trails
        exact kept.sound.memory.traced (ht.debug trails.2)
    | lost hl =>
      rcases hl with hl | hl
      · cases hl
      · obtain ⟨b, rfl⟩ := Outcome.fate_eq_broken hl
        exact absurd hn (safe true b)

/-- A host that runs two texts, the second in the handles of what is left of the first. -/
def Command.recycling : List Command :=
  [.execute (.source "[ 1 2 ] pop { 3 } exec" "-"), .run 6, .cycle, .complete,
    .execute (.source "[ \"ab\" ] 1 0 div" "-"), .complete, .request .intercept, .complete]

/-- The handles of two arrays that are gone are used again, and an exception is taken away. -/
theorem debugging_is_transparent_when_recycling :
    ∃ m n μ ν, Machine.create (Options.debugging { maxMemory := some 6000 } false) Setup.table =
        .done (m, ()) μ ∧
      Machine.create (Options.debugging { maxMemory := some 6000 } true) Setup.table =
        .done (n, ()) ν ∧ m.SameButTrails n ∧
      List.Forall₂ SameAnswer (Session.answers Command.recycling ⟨m, ()⟩)
        (Session.answers Command.recycling ⟨n, ()⟩) ∧
      ∀ owned (t : Session Unit), Reached n owned t → t.machine.memory.Traced := by
  have countable (t : ℕ) (ht : Options.maxMemory { maxMemory := some 6000 } = some t) :
      t ≤ Size.limit := Option.some.inj ht ▸ (by decide : 6000 ≤ Size.limit)
  have transparent := @debugging_is_transparent Unit Unit { maxMemory := some 6000 } Setup.table
    countable Setup.selfContained_table
  have done : (Machine.create (Options.debugging { maxMemory := some 6000 } false)
      Setup.table).isDone := by decide +kernel
  rcases transparent with ⟨e, μ, ν, hm, -⟩ | ⟨m, n, a, μ, ν, hm, hn, same, answers, traced⟩
  · rw [hm] at done
    cases done
  · have created : (Machine.create (Options.debugging { maxMemory := some 6000 } false)
        Setup.table).Meets False _ _ := Machine.create_meets (fun _ => False)
      (fun _ _ _ h => h.elim) countable Setup.selfContained_table
    rw [hm] at created
    obtain ⟨Γ, hsupplies, fresh⟩ := created
    have kept : Reached.Kept Γ [] m := ⟨by rw [Stake.refs_nil]; exact fresh.sound, List.forall_mem_nil _⟩
    have fair : Session.Fairly Command.recycling [] (⟨m, ()⟩ : Session Unit) :=
      Session.fairly_of_texts (fun p hp => by rw [hsupplies] at hp; exact hp) kept (by decide)
    exact ⟨m, n, μ, ν, hm, hn, same, (answers () Command.recycling fair).2, traced⟩

end StackScript
