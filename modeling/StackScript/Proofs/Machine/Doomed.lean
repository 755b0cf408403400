import StackScript.Proofs.Machine.Invoking
import StackScript.Proofs.Machine.Lifelines
import StackScript.Proofs.Machine.Sustained

/-!
# While a fatal exception is pending

A machine with a fatal exception pending is doomed.  Whatever is done to it, the exception stays
pending, and a frame that executes no operator stays as it is or is removed (`Machine.Endures`).
Nothing sets a fatal exception aside (`Machine.Discreet`).

Both are kept by every request (`Request.perform_heeds`) and by the machine's own moves, so they hold
at every moment of a watched session (`HostAct.watch_solemn`), whatever its operators are made of.
-/

namespace StackScript

namespace CallStack

variable {c c' : CallStack} {own : Option ℕ} {f : Frame}

/-- Frames that execute no operator stay as they are or are removed. -/
def Stalls (c c' : CallStack) : Prop :=
  ∀ k f, c.frame? k = some f → f.value.toOperator? = none →
    c'.frame? k = some f ∨ c'.frame? k = none

theorem Stalls.refl (c : CallStack) : c.Stalls c := fun _ _ hf _ => .inl hf

/-- A frame is queued. -/
theorem stalls_of_queued (h : c'.frames = f :: c.frames) : c.Stalls c' := by
  intro k g hg _
  rw [frame?_of_frames h, if_neg (lt_length_of_frame? hg).ne]
  exact .inl hg

/-- The top frame goes. -/
theorem stalls_of_removed (h : c.frames = f :: c'.frames) : c.Stalls c' := by
  intro k g hg _
  by_cases hk : k < c'.length
  · exact .inl ((frame?_of_frames_cons h hk).trans hg)
  · exact .inr (frame?_eq_none_iff.2 (not_lt.1 hk))

/-- The frame of an operator is changed. -/
theorem stalls_update {i : ℕ} (g : Frame → Frame) (hf : c.frame? i = some f)
    (ho : f.value.toOperator?.isSome) : c.Stalls (c.update i g) := by
  intro k f' hf' hidle
  rw [frame?_update (lt_length_of_frame? hf)]
  split
  · rename_i hik
    subst hik
    obtain rfl := Option.some.inj (hf.symm.trans hf')
    rw [hidle] at ho
    cases ho
  · exact .inl hf'

theorem Edited.stalls (h : c.Edited own c') (hosts : c.Hosts own) : c.Stalls c' := by
  cases h with
  | kept => exact .refl c
  | queued v h => exact stalls_of_queued h
  | revised g howner hf _ _ _ _ =>
    obtain ⟨f', hf', ho, -⟩ := hosts _ howner
    obtain rfl := Option.some.inj (hf.symm.trans hf')
    exact stalls_update g hf ho

end CallStack

namespace Machine

variable {m m' : Machine} {own : Option ℕ} {i : ℕ} {f : Frame} {rest : List Frame}

theorem isDoomed_iff : m.isDoomed = true ↔ m.condition = some .internal := by
  unfold isDoomed
  cases m.condition with
  | none => simp
  | some c => simp [Condition.isFatal_iff]

theorem isSome_pending_of_isDoomed (h : m.isDoomed = true) : m.pending.isSome := by
  rw [isDoomed_iff, condition, exception] at h
  cases hp : m.pending with
  | none => rw [hp] at h; cases h
  | some p => rfl

/-- What a fatal exception leaves of a machine: it stays pending, and no frame but those of
operators gets anywhere. -/
structure Endures (m m' : Machine) : Prop where
  pending : m'.pending = m.pending
  stalled : m.calls.Stalls m'.calls

/-- No internal exception is set aside. -/
def Discreet (m : Machine) : Prop :=
  ∀ f ∈ m.calls.frames, ∀ p, f.stash = some p → p.exception.Ordinary

/-- Each exception set aside was set aside before. -/
theorem Discreet.of_stashes (h : m.Discreet)
    (hs : ∀ g ∈ m'.calls.frames, g.stash = none ∨ ∃ f ∈ m.calls.frames, g.stash = f.stash) :
    m'.Discreet := by
  intro g hg p hp
  rcases hs g hg with bare | ⟨f, hf, same⟩
  · rw [bare] at hp
    cases hp
  · exact h f hf p (same ▸ hp)

theorem Discreet.of_calls (h : m.Discreet) (hc : m'.calls = m.calls) : m'.Discreet :=
  h.of_stashes fun g hg => .inr ⟨g, hc ▸ hg, rfl⟩

theorem Discreet.of_map (h : m.Discreet)
    (hs : m'.calls.frames.map Frame.stash = m.calls.frames.map Frame.stash) : m'.Discreet :=
  h.of_stashes fun g hg => by
    obtain ⟨f, hf, same⟩ := List.mem_map.1 (hs ▸ List.mem_map_of_mem hg)
    exact .inr ⟨f, hf, same.symm⟩

/-- One machine comes after another. -/
structure Heeds (m m' : Machine) : Prop where
  endures : m.isDoomed = true → m.Endures m'
  discreet : m'.Discreet
  orderly : m'.calls.Orderly

/-! ### Requests -/

/-- A doomed machine keeps its exception, and sets none aside. -/
def Kept (m m' : Machine) : Prop := m'.pending = m.pending ∧ m'.Discreet

theorem Kept.of_records (h : m.Discreet) (hr : m'.records = m.records) : m.Kept m' := by
  injection hr with hpending hstashes
  exact ⟨hpending, h.of_map hstashes⟩

theorem Kept.of_queues (h : m.Discreet) (hq : m.Queues m') : m.Kept m' := by
  obtain ⟨vs, hvs⟩ := hq.frames
  refine ⟨hq.pending, h.of_stashes fun g hg => ?_⟩
  rw [hvs] at hg
  rcases List.mem_append.1 hg with queued | hg
  · obtain ⟨v, -, rfl⟩ := Frame.mem_queued.1 queued
    exact .inl rfl
  · exact .inr ⟨g, hg, rfl⟩

theorem intercept_doomed (h : m.isDoomed = true) : intercept m = .done none m := by
  rw [intercept, Action.get_bind, if_pos h]
  rfl

theorem stash_doomed (i : ℕ) (h : m.isDoomed = true) : stash i m = .done () m := by
  rw [stash, Action.get_bind, if_pos h]
  rfl

theorem raise_doomed (e : Exception) (h : m.isDoomed = true) : raise e m = .done () m := by
  rw [raise, Action.get_bind, if_pos h]
  rfl

/-- What was set aside is dropped while a fatal exception is pending. -/
theorem restore_doomed (i : ℕ) (h : m.isDoomed = true) (hd : m.Discreet) :
    (restore i m).Meets True (fun _ m' => m.Kept m') fun m' => m.Kept m' := by
  rw [restore, Action.get_bind]
  refine meets_frame fun f _ => ?_
  cases f.stash with
  | none => exact ⟨rfl, hd⟩
  | some p =>
    refine Action.meets_bind ((updateFrame_frames (F := fun _ => False) i _ m).always
      fun _ _ h => h.1) ?_
    rintro _ _ rfl
    rw [if_pos (isSome_pending_of_isDoomed h)]
    have bare : (m.withFrame i fun f => { f with stash := none }).Discreet := by
      intro g hg q hq
      rcases CallStack.mem_update hg with hg | ⟨_, -, rfl⟩
      · exact hd g hg q hq
      · cases hq
    exact (records_discharge (some p) _).mono (fun _ _ => Kept.of_records bare)
      fun _ => Kept.of_records bare

end Machine

namespace Request

open Machine

variable {m : Machine} {own : Option ℕ}

/-- No request takes a fatal exception away, or sets one aside. -/
theorem perform_kept (r : Request) (own : Option ℕ) (h : m.isDoomed = true) (hd : m.Discreet) :
    (r.perform own m).Meets True (fun _ m' => m.Kept m') fun m' => m.Kept m' := by
  by_cases hg : r.governs = false
  · exact (perform_queues hg own m).mono (fun _ _ => .of_queues hd) fun _ => .of_queues hd
  have spared {α : Type} {x : Action Machine α} (hx : Spares records x) :
      (x m).Meets True (fun _ m' => m.Kept m') fun m' => m.Kept m' :=
    (hx m).mono (fun _ _ => .of_records hd) fun _ => .of_records hd
  have stashes {g : Frame → Frame} (hg : ∀ f, (g f).stash = f.stash) (m : Machine) (i : ℕ) :
      records { m with calls := m.calls.update i g } = m.records :=
    congrArg (Prod.mk m.pending) (CallStack.map_update _ hg i)
  cases r with
  | setState next =>
    exact spared (spares_onOwn fun j => spares_setState next fun m =>
      stashes (by exact fun _ => rfl) m j)
  | setLocal name v =>
    exact spared (spares_onOwn fun j => spares_setLocal (fun _ _ => rfl)
      (fun m _ => stashes (by exact fun _ => rfl) m j) name v)
  | intercept =>
    change (Machine.intercept m).Meets _ _ _
    rw [intercept_doomed h]
    exact ⟨rfl, hd⟩
  | stash =>
    cases own with
    | none => exact ⟨rfl, hd⟩
    | some i =>
      change (Machine.stash i m).Meets _ _ _
      rw [stash_doomed i h]
      exact ⟨rfl, hd⟩
  | restore =>
    cases own with
    | none => exact ⟨rfl, hd⟩
    | some i => exact restore_doomed i h hd
  | _ => exact absurd rfl hg

/-- A machine without a fatal exception pending does not get one by a request. -/
theorem perform_discreet (r : Request) (own : Option ℕ) (h : m.isDoomed = false)
    (hd : m.Discreet) : (r.perform own m).Meets True (fun _ m' => m'.Discreet)
      fun m' => m'.Discreet := by
  have civil : m.Civil := by
    refine ⟨fun p hp hc => ?_, hd⟩
    rw [Bool.eq_false_iff, ne_eq, isDoomed_iff] at h
    exact h (by rw [Machine.condition, Machine.exception, hp, ← hc]; rfl)
  exact (r.perform_recorded own civil).mono (fun _ _ hm => hm.stashed) fun _ hm => hm.stashed

/-- **What a request does**, made by the operator that is at work. -/
theorem perform_heeds (r : Request) (hd : m.Discreet) (ho : m.calls.Orderly)
    (hosts : m.calls.Hosts own) :
    (r.perform own m).Meets True (fun _ m' => m.Heeds m' ∧ m'.calls.Hosts own)
      fun m' => m.Heeds m' ∧ m'.calls.Hosts own := by
  have edits := r.perform_edits own m
  cases h : m.isDoomed with
  | true =>
    have kept (m' : Machine) (hm : m.Kept m' ∧ m.calls.Edited own m'.calls) :
        m.Heeds m' ∧ m'.calls.Hosts own :=
      ⟨⟨fun _ => ⟨hm.1.1, hm.2.stalls hosts⟩, hm.1.2, hm.2.orderly ho hosts⟩, hm.2.hosts hosts⟩
    exact ((r.perform_kept own h hd).and edits).mono (fun _ => kept) kept
  | false =>
    have kept (m' : Machine) (hm : m'.Discreet ∧ m.calls.Edited own m'.calls) :
        m.Heeds m' ∧ m'.calls.Hosts own :=
      ⟨⟨fun hm => absurd (h.symm.trans hm) Bool.false_ne_true, hm.1, hm.2.orderly ho hosts⟩,
        hm.2.hosts hosts⟩
    exact ((r.perform_discreet own h hd).and edits).mono (fun _ => kept) kept

end Request

namespace Machine

variable {m m' : Machine} {i : ℕ} {f : Frame} {rest : List Frame}

/-! ### The machine's own moves -/

/-- What is to be done: the call frames, and the exception that is pending. -/
def agenda (m : Machine) : Option PendingException × CallStack := (m.pending, m.calls)

/-- Only the memory and the like have changed. -/
theorem Heeds.of_eq (hd : m.Discreet) (ho : m.calls.Orderly) (hp : m'.pending = m.pending)
    (hc : m'.calls = m.calls) : m.Heeds m' where
  endures _ := ⟨hp, hc ▸ .refl m.calls⟩
  discreet := hd.of_calls hc
  orderly := hc ▸ ho

/-- Something comes after a machine that has the same exception pending and the same frames. -/
theorem Heeds.of_same {m₁ : Machine} (h : m₁.agenda = m.agenda)
    (hm : m₁.Heeds m') : m.Heeds m' := by
  injection h with hp hc
  have doomed (h : m.isDoomed = true) : m₁.isDoomed = true := by
    rwa [isDoomed, condition, exception, hp]
  exact ⟨fun h => ⟨(hm.endures (doomed h)).pending.trans hp, hc ▸ (hm.endures (doomed h)).stalled⟩,
    hm.discreet, hm.orderly⟩

/-- Only the memory and the like change after that. -/
theorem Heeds.same {m₁ : Machine} (hm : m.Heeds m₁)
    (h : m'.agenda = m₁.agenda) : m.Heeds m' := by
  injection h with hp hc
  exact ⟨fun h => ⟨hp.trans (hm.endures h).pending, hc ▸ (hm.endures h).stalled⟩,
    hm.discreet.of_calls hc, hc ▸ hm.orderly⟩

/-- The top frame has gone. -/
theorem Heeds.of_removed (hd : m.Discreet) (ho : m.calls.Orderly) (hp : m'.pending = m.pending)
    (hc : m.calls.frames = f :: m'.calls.frames) : m.Heeds m' where
  endures _ := ⟨hp, CallStack.stalls_of_removed hc⟩
  discreet := hd.of_stashes fun g hg => .inr ⟨g, hc ▸ .tail f hg, rfl⟩
  orderly g hg := ho g (hc ▸ .tail f hg)

/-- A frame has been queued. -/
theorem Heeds.of_queued (hd : m.Discreet) (ho : m.calls.Orderly) (hp : m'.pending = m.pending)
    (hc : m'.calls.frames = f :: m.calls.frames) (hstash : f.stash = none) (hf : f.Orderly) :
    m.Heeds m' where
  endures _ := ⟨hp, CallStack.stalls_of_queued hc⟩
  discreet := hd.of_stashes fun g hg => by
    rw [hc] at hg
    rcases List.mem_cons.1 hg with rfl | hg
    · exact .inl hstash
    · exact .inr ⟨g, hg, rfl⟩
  orderly g hg := by
    rw [hc] at hg
    rcases List.mem_cons.1 hg with rfl | hg
    · exact hf
    · exact ho g hg

/-- The continuation state of an operator's frame has changed. -/
theorem Heeds.of_state (hd : m.Discreet) (ho : m.calls.Orderly) (hf : m.calls.frame? i = some f)
    (operator : f.value.toOperator?.isSome) {next : Continuation} (hnext : next ≠ .unknown) :
    m.Heeds (m.withFrame i fun f => { f with state := next }) where
  endures _ := ⟨rfl, CallStack.stalls_update _ hf operator⟩
  discreet := hd.of_map (CallStack.map_update Frame.stash (by exact fun _ => rfl) i)
  orderly := CallStack.orderly_update ho hf
    ((ho f (CallStack.mem_frames_of_frame? hf)).withState operator hnext)

theorem popFrame_heeds (hd : m.Discreet) (ho : m.calls.Orderly) :
    (popFrame m).Meets True (fun _ m' => m.Heeds m') fun m' => m.Heeds m' := by
  have kept : Spares Machine.pending popFrame := spares_onCalls (fun _ _ _ => rfl) _
  refine ((popFrame_frames m).and (kept m)).mono ?_ fun _ h => .of_eq hd ho h.2 h.1
  rintro _ m' ⟨⟨f, hf⟩, hpending⟩
  exact .of_removed hd ho hpending hf

theorem setState_heeds (hd : m.Discreet) (ho : m.calls.Orderly) (hf : m.calls.frame? i = some f)
    (operator : f.value.toOperator?.isSome) (next : Continuation) :
    (setState i next m).Meets True
      (fun _ m' => m.Heeds m' ∧ (next ≠ .unknown → m'.calls.Hosts (some i)))
      fun m' => m.Heeds m' := by
  refine (setState_frames i next m).mono ?_ ?_
  · rintro _ _ ⟨g, hg, hnext, rfl⟩
    obtain rfl := Option.some.inj (hf.symm.trans hg)
    refine ⟨.of_state hd ho hf operator (Continuation.canBecome_iff.1 hnext).ne_unknown, ?_⟩
    rintro dispatched _ ⟨⟩
    exact ⟨_, frame?_withFrame hf _, operator, dispatched⟩
  · rintro _ rfl
    exact .of_eq hd ho rfl rfl

theorem updateFrame_heeds (hd : m.Discreet) (ho : m.calls.Orderly)
    (hf : m.calls.frame? i = some f) (operator : f.value.toOperator?.isSome)
    {next : Continuation} (hnext : next ≠ .unknown) :
    (updateFrame i (fun f => { f with state := next }) m).Meets True (fun _ m' => m.Heeds m')
      fun _ => False := by
  refine (updateFrame_frames i _ m).mono ?_ fun _ h => h
  rintro _ _ ⟨rfl, -⟩
  exact .of_state hd ho hf operator hnext

theorem raise_heeds (e : Exception) (hd : m.Discreet) (ho : m.calls.Orderly) :
    (raise e m).Meets True (fun _ m' => m.Heeds m') fun m' => m.Heeds m' := by
  cases h : m.isDoomed with
  | true =>
    rw [raise_doomed e h]
    exact .of_eq hd ho rfl rfl
  | false =>
    have calls : Spares Machine.calls (raise e) := spares_raise (fun _ _ _ _ => rfl) e
    have kept (m' : Machine) (hc : m'.calls = m.calls) : m.Heeds m' :=
      ⟨fun hm => absurd (h.symm.trans hm) Bool.false_ne_true, hd.of_calls hc, hc ▸ ho⟩
    exact (calls m).mono (fun _ => kept) kept

/-- A frame is queued after something that changes nothing. -/
theorem pushFrame_heeds {m₁ : Machine} (hd : m.Discreet) (ho : m.calls.Orderly)
    (h₁ : m₁.agenda = m.agenda) (hstash : f.stash = none) (hf : f.Orderly) :
    (onCalls (fun c => c.push f) m₁).Meets True (fun _ m' => m.Heeds m') fun m' => m.Heeds m' := by
  have kept : Spares Machine.pending (onCalls fun c => c.push f) :=
    spares_onCalls (fun _ _ _ => rfl) _
  injection h₁ with hp hc
  refine ((pushFrame_frames f m₁).and (kept m₁)).mono ?_ ?_
  · rintro _ m' ⟨hframes, hpending⟩
    exact .of_queued hd ho (hpending.trans hp) (hc ▸ hframes) hstash hf
  · rintro m' ⟨hcalls, hpending⟩
    exact .of_eq hd ho (hpending.trans hp) (hcalls.trans hc)

theorem execute_heeds (work : Work) (hd : m.Discreet) (ho : m.calls.Orderly) :
    (execute work m).Meets True (fun _ m' => m.Heeds m') fun m' => m.Heeds m' := by
  cases work with
  | source text origin => exact pushFrame_heeds hd ho rfl rfl (Frame.orderly_fresh _)
  | supply supply => exact pushFrame_heeds hd ho rfl rfl ⟨fun _ => rfl, fun _ => rfl, fun _ => rfl⟩
  | values values =>
    have created : Spares agenda (createArray .block values) :=
      spares_createArray (fun _ _ => rfl) _ _
    have released (block : Value) (m₁ : Machine) (h₁ : m.Heeds m₁) :
        (release block m₁).Meets True (fun _ m' => m.Heeds m') fun m' => m.Heeds m' := by
      have part : Spares agenda (release block) := spares_onMemory (fun _ _ => rfl) _
      exact (part m₁).mono (fun _ _ => h₁.same) fun _ => h₁.same
    refine Action.meets_bind ((created m).mono (fun _ _ => id) fun m₁ h₁ => ?_)
      fun block m₁ h₁ => ?_
    · injection h₁ with hp hc
      exact .of_eq hd ho hp hc
    · exact Action.meets_ensuring (pushFrame_heeds hd ho h₁ rfl (Frame.orderly_fresh block))
        (fun _ => released block) (released block)

end Machine

namespace Session

variable {χ : Type} {natives : Natives χ} {s : Session χ} {f : Frame} {rest : List Frame}

/-- A cycle without an operator. -/
theorem step_heeds (hd : s.machine.Discreet) (ho : s.machine.calls.Orderly)
    (hframes : s.machine.calls.frames = f :: rest) (h : s.machine.invoked? f = none) :
    (step natives rest.length f s).Meets True (fun _ t => s.machine.Heeds t.machine)
      fun t => s.machine.Heeds t.machine := by
  cases hdoomed : s.machine.isDoomed with
  | true =>
    rw [step_of_unwound (Machine.isSome_pending_of_isDoomed hdoomed) h]
    exact meets_onMachine (Machine.popFrame_heeds hd ho)
  | false =>
    have kept (t : Session χ) (ht : f.Turned rest t.machine.calls.frames) :
        s.machine.Heeds t.machine :=
      ⟨fun hm => absurd (hdoomed.symm.trans hm) Bool.false_ne_true,
        hd.of_stashes (hframes ▸ ht.stashes), (Machine.Follows.of_turned ho hframes ht).orderly⟩
    have hf : f ∈ s.machine.calls.frames := hframes ▸ .head rest
    exact (step_turns hframes (ho f hf).supplied h).mono (fun _ => kept) kept

end Session

/-! ### Watched sessions -/

namespace Watched

variable {χ α : Type} {natives : Natives χ} {w : Watched χ} {own : Option ℕ}

/-- While a fatal exception is pending, every moment endures the one before it; at no moment is an
internal exception set aside. -/
structure Solemn (w : Watched χ) : Prop where
  present : w.moments.head? = some w.machine
  chain : w.moments.IsChain fun later earlier => earlier.isDoomed = true → earlier.Endures later
  discreet : ∀ m ∈ w.moments, m.Discreet
  ordered : ∀ m ∈ w.moments, m.calls.Orderly

theorem Solemn.now (h : w.Solemn) : w.machine.Discreet :=
  h.discreet _ (List.mem_of_mem_head? h.present)

theorem Solemn.orderly (h : w.Solemn) : w.machine.calls.Orderly :=
  h.ordered _ (List.mem_of_mem_head? h.present)

/-- Noting a session whose machine comes after the one before. -/
theorem note_solemn {x : Action (Session χ) α} {P F : Machine → Prop} (h : w.Solemn)
    (hx : (x w.session).Meets True (fun _ t => w.machine.Heeds t.machine ∧ P t.machine)
      fun t => w.machine.Heeds t.machine ∧ F t.machine) :
    (note x w).Meets True (fun _ v => v.Solemn ∧ P v.machine) fun v => v.Solemn ∧ F v.machine := by
  have noted (t : Session χ) (ht : w.machine.Heeds t.machine) :
      Solemn ⟨t, t.machine :: w.moments⟩ := by
    refine ⟨rfl, List.isChain_cons.2 ⟨fun m hm => ?_, h.chain⟩, fun m hm => ?_, fun m hm => ?_⟩
    · rw [h.present] at hm
      exact Option.some.inj hm ▸ ht.endures
    · rcases List.mem_cons.1 hm with rfl | hm
      · exact ht.discreet
      · exact h.discreet m hm
    · rcases List.mem_cons.1 hm with rfl | hm
      · exact ht.orderly
      · exact h.ordered m hm
  unfold note
  cases ho : x w.session with
  | done a t => rw [ho] at hx; exact ⟨noted t hx.1, hx.2⟩
  | raised e t => rw [ho] at hx; exact ⟨noted t hx.1, hx.2⟩
  | broken b => trivial

/-- Noting a move after which nothing more has to be known. -/
theorem note_heeds {x : Action (Session χ) α} (h : w.Solemn)
    (hx : (x w.session).Meets True (fun _ t => w.machine.Heeds t.machine)
      fun t => w.machine.Heeds t.machine) :
    (note x w).Meets True (fun _ v => v.Solemn) fun v => v.Solemn :=
  (note_solemn (P := fun _ => True) (F := fun _ => True) h (hx.mono (fun _ _ ht => ⟨ht, trivial⟩)
    fun _ ht => ⟨ht, trivial⟩)).mono (fun _ _ hv => hv.1) fun _ hv => hv.1

/-- The session is solemn, and the operator at work is there. -/
def Serves (own : Option ℕ) (w : Watched χ) : Prop := w.Solemn ∧ w.machine.calls.Hosts own

/-- Noting what the operator at work does to the machine. -/
theorem note_serves {x : Action Machine α} (h : w.Serves own)
    (hx : (x w.machine).Meets True (fun _ m => w.machine.Heeds m ∧ m.calls.Hosts own)
      fun m => w.machine.Heeds m ∧ m.calls.Hosts own) :
    (note (Session.onMachine x) w).Meets True (fun _ v => v.Serves own)
      fun v => v.Serves own :=
  note_solemn (P := fun m => m.calls.Hosts own) (F := fun m => m.calls.Hosts own) h.1
    (Session.meets_onMachine hx)

/-- Noting something that changes the memory and the like. -/
theorem note_spares_serves {x : Action Machine α} (h : w.Serves own)
    (hx : Machine.Spares Machine.agenda x) :
    (note (Session.onMachine x) w).Meets True (fun _ v => v.Serves own)
      fun v => v.Serves own := by
  have kept (m : Machine) (hm : m.agenda = w.machine.agenda) :
      w.machine.Heeds m ∧ m.calls.Hosts own := by
    injection hm with hp hc
    exact ⟨.of_eq h.1.now h.1.orderly hp hc, hc ▸ h.2⟩
  exact note_serves h ((hx w.machine).mono (fun _ => kept) kept)

/-- The frame of the operator at work. -/
theorem Serves.frame {i : ℕ} (h : w.Serves (some i)) :
    ∃ f, w.machine.calls.frame? i = some f ∧ f.value.toOperator?.isSome := by
  obtain ⟨f, hf, ho, -⟩ := h.2 i rfl
  exact ⟨f, hf, ho⟩

theorem popFrame_solemn (h : w.Solemn) :
    (note Session.popFrame w).Meets True (fun _ v => v.Solemn) fun v => v.Solemn :=
  note_heeds h (Session.meets_onMachine (Machine.popFrame_heeds h.now h.orderly))

theorem constant_solemn (v : Value) (h : w.Solemn) :
    (note (Session.pushOperand v >>= fun _ => Session.popFrame) w).Meets True
      (fun _ v => v.Solemn) fun v => v.Solemn := by
  refine note_heeds h (Action.meets_bind (P := fun _ t => t.machine.agenda = w.machine.agenda)
    (Session.meets_onMachine ((Machine.spares_exchangeOperands (fun _ _ _ => rfl) 0 [v]
      w.machine).mono (fun _ _ => id) fun m hm => ?_)) fun _ t ht => ?_)
  · injection hm with hp hc
    exact .of_eq h.now h.orderly hp hc
  · injection id ht with _ hc
    have popped := Machine.popFrame_heeds (m := t.machine) (h.now.of_calls hc) (hc ▸ h.orderly)
    exact Session.meets_onMachine (popped.mono (fun _ _ => .of_same ht) fun _ => .of_same ht)

/-- **Every move is made as solemnly.** -/
theorem solemn_sustained (natives : Natives χ) :
    Sustains natives Solemn fun _ i _ => Serves (some i) where
  silent w f rest h hframes ho := note_heeds h (Session.step_heeds h.now h.orderly hframes ho)
  constant w _ _ _ v h _ _ _ := constant_solemn v h
  spent w _ _ _ h _ _ _ := popFrame_solemn h
  dispatched w f rest o _ params h hframes ho _ _ := by
    have hf := CallStack.frame?_length_of_frames hframes
    have operator : f.value.toOperator?.isSome := by
      rw [Machine.toOperator?_of_invoked? ho]
      rfl
    have begun : (note (Session.onMachine (Machine.setState rest.length .firstCall)) w).Meets True
        (fun _ v => v.Serves (some rest.length)) fun v => v.Solemn := by
      refine (note_solemn (P := fun m => m.calls.Hosts (some rest.length)) (F := fun _ => True) h
        (Session.meets_onMachine ((Machine.setState_heeds h.now h.orderly hf operator _).mono
          (fun _ m hm => ⟨hm.1, hm.2 (by simp)⟩) fun m hm => ⟨hm, trivial⟩))).mono
        (fun _ _ hv => hv) fun _ hv => hv.1
    exact Action.meets_bind begun fun _ v hv =>
      (note_spares_serves hv (Machine.spares_onMemory (fun _ _ => rfl) _)).mono (fun _ _ => id)
        fun _ hv => hv.1
  resumed w f rest o h hframes ho hstate := by
    refine ⟨h, ?_⟩
    rintro _ ⟨⟩
    refine ⟨f, CallStack.frame?_length_of_frames hframes, ?_, hstate⟩
    rw [Machine.toOperator?_of_invoked? ho]
    rfl
  invoked o i params := leads_invoke
    (fun r w h => note_serves h (r.perform_heeds h.1.now h.1.orderly h.2))
    (fun w host h => ⟨⟨h.1.present, h.1.chain, h.1.discreet, h.1.ordered⟩, h.2⟩) o params
  released o i params w h := note_spares_serves h (Machine.spares_onMemory (fun _ _ => rfl) _)
  done o i w h := by
    obtain ⟨f, hf, ho⟩ := h.frame
    refine note_solemn (P := fun m => m.calls.Hosts (some i))
      (F := fun m => m.calls.Hosts (some i)) h.1 (Session.meets_onMachine ?_)
    refine ((Machine.setState_heeds h.1.now h.1.orderly hf ho .pop).and
      (Machine.setState_edits .pop)).mono (fun _ m hm => ⟨hm.1.1, hm.2.hosts h.2⟩)
      fun m hm => ⟨hm.1, hm.2.hosts h.2⟩
  removed o i w h := popFrame_solemn h.1
  abandoned o i w h := by
    obtain ⟨f, hf, ho⟩ := h.frame
    exact note_heeds h.1 (Session.meets_onMachine
      ((Machine.updateFrame_heeds h.1.now h.1.orderly hf ho (by simp)).mono (fun _ _ => id)
        fun _ hm => hm.elim))
  left o i w h := h.1
  raised e w h := note_heeds h (Session.meets_onMachine
    (Machine.raise_heeds e h.now h.orderly))

end Watched

/-- **Whatever a host does** to a machine, fatal exceptions stay. -/
theorem HostAct.watch_solemn {χ : Type} (natives : Natives χ) (c : HostAct) :
    Watched.Leads Watched.Solemn Watched.Solemn (c.watch natives) := by
  refine (Watched.solemn_sustained natives).act c (fun r _ w h => ?_) fun work _ w h => ?_
  · have alone : w.Serves none := ⟨h, by rintro _ ⟨⟩⟩
    exact (Watched.note_serves alone (r.perform_heeds h.now h.orderly alone.2)).mono
      (fun _ _ hv => hv.1) fun _ hv => hv.1
  · exact Watched.note_heeds h (Session.meets_onMachine
      (Machine.execute_heeds work h.now h.orderly))

end StackScript
