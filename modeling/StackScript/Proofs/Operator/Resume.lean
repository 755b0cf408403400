import StackScript.Proofs.Machine.Holdings
import StackScript.Proofs.Operator.Regimes

/-!
# Operators that are invoked again

A loop, `stopped`, `finally` and `bind` are invoked more than once.  Each finds in its frame what an
earlier invocation has left there: a continuation state it knows, and the locals that go with it
(`Builtin.Ready`).  An invocation of any builtin, be it the first one or a later one it is ready for,
raises ordinary exceptions only, in which case the operator stays in its state; otherwise the
operator is done, or it is ready to be invoked once more (`Builtin.operation_serves`).

The request for a transition comes last, so an exception never leaves an operator in a state it is
not ready for.
-/

namespace StackScript

/-! ### Ready operators -/

/-- A name is bound among the locals of the frame with `k` frames below it. -/
def Machine.Remembers (m : Machine) (k : ℕ) (name : String) : Prop := ∃ v, m.LocalIs k name v

/-- A number is. -/
def Machine.RemembersWord (m : Machine) (k : ℕ) (name : String) : Prop :=
  ∃ v n, m.LocalIs k name v ∧ v.toWord? = some n

/-- An operator that stays in the state it was invoked in is done. -/
def Continuation.Rests (c : Continuation) : Prop := c = .firstCall ∨ c = .callBeforePop

theorem Continuation.Rests.canBecome_pop {c : Continuation} (h : c.Rests) :
    c.canBecome .pop = true := by
  rcases h with rfl | rfl <;> rfl

/-- The operator in the frame with `k` frames below it may go on from a state: it has not begun, it
is done, or it has left in its frame what it needs. -/
inductive Builtin.Ready (m : Machine) (k : ℕ) : Builtin → Continuation → Prop
  | fresh (b : Builtin) : Ready m k b .unknown
  | done (b : Builtin) : Ready m k b .pop
  | loop {c : Continuation} (hc : c.Rests) (hblock : m.Remembers k "block") : Ready m k .loop c
  | repeatBlock {c : Continuation} (hc : c.Rests) (hblock : m.Remembers k "block")
    (hcount : m.RemembersWord k "count") : Ready m k .repeatBlock c
  | stopped : Ready m k .stopped .callBeforePop
  | ensure (hfinalizer : m.Remembers k "finalizer") : Ready m k .ensure .callBeforePop
  | finalizing : Ready m k .ensure Operation.finalizing
  | bind {step : Word} (hstep : 0 < step.toInt) (htarget : m.Remembers k "target") :
    Ready m k .bind (.running step)

/-- The operator is invoked for the first time, with the operands it asks for, or again, in a state
it is ready for. -/
inductive Builtin.Invited (b : Builtin) (m : Machine) (k : ℕ) : Continuation → List Value → Prop
  | first {params : List Value} (h : Accepted b.signature params) :
    b.Invited m k .firstCall params
  | again {c : Continuation} (h : b.Ready m k c) (hunknown : c ≠ .unknown) (hpop : c ≠ .pop) :
    b.Invited m k c []

/-- After an invocation in the state `c` the operator is done or may go on. -/
def Builtin.Continues (b : Builtin) (k : ℕ) (c : Continuation) (m : Machine) : Prop :=
  ∃ c', m.StateIs k c' ∧ (b.Ready m k c' ∨ c' = c ∧ c.Rests)

namespace Machine

variable {Γ : Charter} {n k : ℕ} {x : Stake} {m m' : Machine} {name : String} {v : Value}
  {c : Continuation}

theorem Remembers.of_steady (h : m.Remembers k name) (steady : m.Steady n m') (hk : k < n) :
    m'.Remembers k name :=
  let ⟨v, hv⟩ := h
  ⟨v, hv.of_steady steady hk⟩

theorem RemembersWord.of_steady (h : m.RemembersWord k name) (steady : m.Steady n m')
    (hk : k < n) : m'.RemembersWord k name :=
  let ⟨v, w, hv, hw⟩ := h
  ⟨v, w, hv.of_steady steady hk, hw⟩

/-- The permanent scopes of a sound machine are there. -/
theorem Sound.isScoped (h : m.Sound Γ n x) : m.Scoped := by
  rw [Scoped, ← Γ.four]
  exact h.permanent.length_le

theorem Sound.length_items (h : m.Sound Γ n x) (hv : m.Knows x v) {vs : List Value}
    (hvs : (m.items v).run = .ok (.ok vs)) : vs.length * Sequence.valueSlot.units ≤ Size.limit := by
  obtain ⟨present, σ, hb, -⟩ := h.memory
  unfold items at hvs
  split at hvs
  · rename_i handle access hd
    obtain ⟨s, ho⟩ := hb.array_of_known present hv hd
    rw [Memory.array_of_object? ho] at hvs
    obtain rfl : s.toList = vs := Except.ok.inj (Except.ok.inj hvs)
    rw [Sequence.toList, List.length_reverse]
    exact hb.length_le_limit ho
  · cases hvs

/-- Moving the operator of a frame to a state. -/
theorem StateIs.setState {next : Continuation} (h : m.StateIs k c)
    (hnext : c.canBecome next = true) :
    ∃ m', Machine.setState k next m = .done () m' ∧ m'.StateIs k next ∧ ∀ n, m.Steady n m' := by
  obtain ⟨f, hf, rfl⟩ := h
  refine ⟨m.withFrame k fun f => { f with state := next }, ?_, ⟨_, frame?_withFrame hf _, rfl⟩,
    fun n => steady_withFrame hf rfl⟩
  exact setState_eq hf hnext

end Machine

/-- What an operator needs stays where it is as long as its locals do. -/
theorem Builtin.Ready.of_steady {m m' : Machine} {n k : ℕ} {b : Builtin} {c : Continuation}
    (h : b.Ready m k c) (steady : m.Steady n m') (hk : k < n) : b.Ready m' k c := by
  cases h with
  | fresh => exact .fresh b
  | done => exact .done b
  | loop hc hblock => exact .loop hc (hblock.of_steady steady hk)
  | repeatBlock hc hblock hcount =>
    exact .repeatBlock hc (hblock.of_steady steady hk) (hcount.of_steady steady hk)
  | stopped => exact .stopped
  | ensure hfinalizer => exact .ensure (hfinalizer.of_steady steady hk)
  | finalizing => exact .finalizing
  | bind hstep htarget => exact .bind hstep (htarget.of_steady steady hk)

/-! ### Quiet steps -/

theorem Request.perform_scoped (r : Request) {m : Machine} (own : Option ℕ) (h : m.Scoped) :
    (r.perform own m).Meets True (fun _ m' => m'.Scoped) fun m' => m'.Scoped := by
  by_cases hg : r.governs = false
  · exact (perform_queues hg own m).mono (fun _ _ hq => hq.scopes h) fun _ hq => hq.scopes h
  have spared {α : Type} {x : Action Machine α} (hx : Machine.Spares Machine.scopes x) :
      (x m).Meets True (fun _ m' => m'.Scoped) fun m' => m'.Scoped := by
    have kept (m' : Machine) (hs : m'.scopes = m.scopes) : m'.Scoped := by
      rwa [Machine.Scoped, hs]
    exact (hx m).mono (fun _ => kept) kept
  cases r with
  | intercept => exact spared (Machine.spares_intercept fun _ _ _ => rfl)
  | setState next =>
    exact spared (Machine.spares_onOwn fun _ => Machine.spares_setState next fun _ => rfl)
  | setLocal name v =>
    exact spared (Machine.spares_onOwn fun _ =>
      Machine.spares_setLocal (fun _ _ => rfl) (fun _ _ => rfl) name v)
  | stash =>
    exact spared (Machine.spares_onOwn fun _ =>
      Machine.spares_stash (fun _ _ _ => rfl) fun _ _ => rfl)
  | restore =>
    exact spared (Machine.spares_onOwn fun _ =>
      Machine.spares_restore (fun _ _ _ => rfl) fun _ _ => rfl)
  | _ => exact absurd rfl hg

namespace Operation

variable {α β : Type} {Γ : Charter} {i : ℕ} {x : Stake} {m m' : Machine} {c : Continuation}
  {p : Operation α} {f : α → Operation β} {v : Value} {params : List Value}

/-- Wherever it is made, the step raises ordinary exceptions only and moves the operator to no other
state. -/
def Quiet (i : ℕ) (p : Operation α) : Prop :=
  ∀ (m : Machine) (c : Continuation), m.Scoped → m.StateIs i c →
    (p.runOn (some i) m).Fair (fun _ m' => m'.Scoped ∧ m'.StateIs i c) fun m' => m'.StateIs i c

theorem fair_bind {R : β → Machine → Prop} {M : α → Machine → Prop} {F : Machine → Prop}
    (hp : (p.runOn (some i) m).Fair M F)
    (hf : ∀ a m', M a m' → ((f a).runOn (some i) m').Fair R F) :
    ((p >>= f).runOn (some i) m).Fair R F := by
  rw [runOn, Program.run_bind]
  exact Action.fair_bind hp hf

theorem Quiet.bind (hp : Quiet i p) (hf : ∀ a, Quiet i (f a)) : Quiet i (p >>= f) :=
  fun m c hm hs => fair_bind (hp m c hm hs) fun a m' h => hf a m' c h.1 h.2

theorem quiet_pure (a : α) : Quiet i (pure a : Operation α) := fun _ _ hm hs => ⟨hm, hs⟩

theorem quiet_of_plain {P : α → ℕ → Prop} (hp : p.Obeys (.plain i) 0 P) : Quiet i p :=
  fun _ _ hm hs => (hp.runOn_plain hm).mono
    (fun _ _ h => ⟨h.2.scopes hm, hs.of_queues h.2⟩) fun _ h => hs.of_queues h

theorem quiet_ask {r : Request} (hr : ∀ next, r ≠ .setState next) : Quiet i (ask r) := by
  intro m c hm hs
  rw [runOn, ask, Program.run_request]
  exact ((Request.perform_ordinary hr i).fair
    ((r.perform_scoped (some i) hm).and (Request.perform_stateIs hr (some i) hs))).mono
      (fun _ _ => id) fun _ h => h.2

theorem quiet_setLocal (name : String) (v : Value) : Quiet i (setLocal name v) :=
  quiet_ask (r := .setLocal name v) (by nofun)

theorem quiet_intercept : Quiet i intercept := quiet_ask (r := .intercept) (by nofun)

theorem quiet_stash : Quiet i stash := quiet_ask (r := .stash) (by nofun)

theorem quiet_restore : Quiet i restore := quiet_ask (r := .restore) (by nofun)

theorem quiet_call (v : Value) : Quiet i (call v) := quiet_ask (r := .call v) (by nofun)

theorem quiet_pop (count : ℕ) : Quiet i (pop count) :=
  quiet_ask (r := .exchange count []) (by nofun)

theorem quiet_push (v : Value) : Quiet i (push v) :=
  quiet_ask (r := .exchange 0 [v]) (by nofun)

/-! ### What the frame of an operator tells -/

theorem ownFrame_runOn {g : Frame} (hg : m.calls.frame? i = some g) :
    ownFrame.runOn (some i) m = .done g m := by
  change (Program.ofSound (m.frame i)).run (Request.perform (some i)) m = _
  rw [Machine.frame_of_frame? hg]
  rfl

theorem runOn_bind {own : Option ℕ} {a : α} (hp : p.runOn own m = .done a m') :
    (p >>= f).runOn own m = (f a).runOn own m' := by
  rw [runOn, Program.run_bind]
  exact Action.bind_done hp _

theorem machine_runOn {own : Option ℕ} : machine.runOn own m = .done m m := rfl

theorem state_runOn (hs : m.StateIs i c) : state.runOn (some i) m = .done c m := by
  obtain ⟨g, hg, rfl⟩ := hs
  rw [state, runOn_bind (ownFrame_runOn hg)]
  rfl

theorem currentOperator_runOn {g : Frame} (hg : m.calls.frame? i = some g) :
    currentOperator.runOn (some i) m = .done g.value m := by
  have index : ownIndex.runOn (some i) m = .done i m := rfl
  rw [currentOperator, runOn_bind index, runOn_bind machine_runOn, hg]
  rfl

theorem expectLocal_runOn {n : ℕ} {name : String} (h : m.Sound Γ n x) (hv : m.LocalIs i name v) :
    (expectLocal name).runOn (some i) m = .done v m := by
  obtain ⟨g, hg⟩ : ∃ g, m.calls.frame? i = some g := by
    obtain ⟨d, hd, -⟩ := hv
    obtain ⟨k, hk, -⟩ := Option.bind_eq_some_iff.1 hd
    obtain ⟨g, hg, -⟩ := Option.bind_eq_some_iff.1 hk
    exact ⟨g, hg⟩
  obtain ⟨r, hr, found⟩ := h.localOf_ok hg name
  obtain rfl := (found v).2 hv
  have run : (local? name).runOn (some i) m = .done (some v) m := by
    rw [local?, runOn_bind (ownFrame_runOn hg)]
    change (Program.ofSound (m.localOf g name)).run (Request.perform (some i)) m = _
    rw [hr]
    rfl
  rw [expectLocal, runOn_bind run]
  rfl

theorem quiet_currentOperator : Quiet i currentOperator := by
  intro m c hm hs
  obtain ⟨g, hg, -⟩ := id hs
  rw [currentOperator_runOn hg]
  exact ⟨hm, hs⟩

/-! ### Serving -/

/-- From the frame with `i` frames below it, the operator ends in `R`, or it raises an ordinary
exception and is in the state `c`. -/
def Serves (i : ℕ) (c : Continuation) (m : Machine) (p : Operation α) (R : α → Machine → Prop) :
    Prop :=
  (p.runOn (some i) m).Fair R fun m' => m'.StateIs i c

section

variable {M : α → Machine → Prop} {R : β → Machine → Prop} {G : Machine → Prop} {a : α}

/-- After a quiet step, of which more is known. -/
theorem Quiet.serves (hq : Quiet i p) (hp : (p.runOn (some i) m).Meets False M G)
    (hm : m.Scoped) (hs : m.StateIs i c)
    (hf : ∀ a m', M a m' → m'.StateIs i c → Serves i c m' (f a) R) :
    Serves i c m (p >>= f) R :=
  fair_bind (M := fun a m' => M a m' ∧ m'.StateIs i c)
    (((hq m c hm hs).and hp).mono (fun _ _ h => ⟨h.2, h.1.2⟩) fun _ h => h.1)
    fun a m' h => hf a m' h.1 h.2

/-- After a step whose result is known. -/
theorem Serves.of_runOn (hp : p.runOn (some i) m = .done a m) (hf : Serves i c m (f a) R) :
    Serves i c m (p >>= f) R := by
  rwa [Serves, runOn_bind hp]

theorem Quiet.serves_end {R : α → Machine → Prop} (hq : Quiet i p) (hm : m.Scoped)
    (hs : m.StateIs i c) (hr : ∀ a m', m'.StateIs i c → R a m') : Serves i c m p R :=
  (hq m c hm hs).mono (fun a m' h => hr a m' h.2) fun _ => id

end

/-- A transition is the last thing an operator asks for. -/
theorem serves_setState {next : Continuation} {R : Unit → Machine → Prop} (hs : m.StateIs i c)
    (hnext : c.canBecome next = true)
    (hr : ∀ m', m'.StateIs i next → (∀ n, m.Steady n m') → R () m') :
    Serves i c m (setState next) R := by
  obtain ⟨m', hdone, hs', steady⟩ := hs.setState hnext
  have run : (setState next).runOn (some i) m = .done () m' :=
    (congrFun (Program.run_request (Request.perform (some i)) (.setState next)) m).trans hdone
  rw [Serves, run]
  exact hr m' hs' steady

/-! ### Loops -/

/-- The operator is done, since it stays in its state. -/
theorem continues_of_rests {b : Builtin} (hs : m.StateIs i c) (hc : c.Rests) : b.Continues i c m :=
  ⟨c, hs, .inr ⟨rfl, hc⟩⟩

/-- The end of a round of a loop. -/
theorem endRound_serves {b : Builtin} (h : m.Sound Γ (i + 1) x) (hs : m.StateIs i .callBeforePop)
    (hr : b.Ready m i .firstCall) :
    Serves i .callBeforePop m endRound fun _ m' => b.Continues i .callBeforePop m' := by
  refine Serves.of_runOn (a := m.condition) rfl ?_
  have rests (m' : Machine) (hs' : m'.StateIs i .callBeforePop) : b.Continues i .callBeforePop m' :=
    continues_of_rests hs' (.inr rfl)
  split
  · exact serves_setState hs rfl fun m' hs' steady =>
      ⟨.firstCall, hs', .inl (hr.of_steady (steady (i + 1)) (Nat.lt_succ_self i))⟩
  · exact (quiet_intercept.bind fun _ => quiet_pure ()).serves_end h.isScoped hs fun _ => rests
  · exact rests m hs

theorem loopBlock_serves (h : m.Sound Γ (i + 1) x) (hx : ∀ v ∈ params, v ∈ x.values)
    (hs : m.StateIs i c) (hp : Builtin.loop.Invited m i c params) :
    Serves i c m (loopBlock params) fun _ m' => Builtin.loop.Continues i c m' := by
  unfold loopBlock
  extract_lets next
  have round (m : Machine) (h : m.Sound Γ (i + 1) x) (hs : m.StateIs i c) (hc : c.Rests)
      (hblock : m.Remembers i "block") :
      Serves i c m (next ()) fun _ m' => Builtin.loop.Continues i c m' := by
    refine Serves.of_runOn (state_runOn hs) ?_
    rcases hc with rfl | rfl
    · obtain ⟨block, hv⟩ := hblock
      refine Serves.of_runOn (expectLocal_runOn h hv) ?_
      refine (quiet_call block).serves (call_meets h hv.knows) h.isScoped hs ?_
      rintro _ m₁ ⟨h₁, steady₁⟩ hs₁
      refine serves_setState hs₁ rfl fun m₂ hs₂ steady₂ => ⟨_, hs₂, .inl (.loop (.inr rfl) ?_)⟩
      exact ⟨block, hv.of_steady (steady₁.trans (steady₂ (i + 1))) (Nat.lt_succ_self i)⟩
    · exact endRound_serves h hs (.loop (.inl rfl) hblock)
  cases hp with
  | first hparams =>
    obtain ⟨block, rfl, -⟩ := accepted_one hparams
    have known : (m.stake + x).Knows block :=
      (Stake.knows_of_mem (hx block (List.mem_singleton_self _))).add_left _
    refine (quiet_setLocal "block" block).serves (setLocal_leaves h known) h.isScoped hs ?_
    rintro _ m₁ ⟨⟨h₁, hv, -⟩, -⟩ hs₁
    refine (quiet_pop 1).serves (pop_meets h₁ 1) h₁.isScoped hs₁ ?_
    rintro _ m₂ ⟨h₂, steady₂, -⟩ hs₂
    exact round m₂ h₂ hs₂ (.inl rfl) ⟨block, hv.of_steady steady₂ (Nat.lt_succ_self i)⟩
  | again hready =>
    cases hready with
    | fresh | done => contradiction
    | loop hc hblock => exact round m h hs hc hblock

theorem repeatBlock_serves (h : m.Sound Γ (i + 1) x) (hx : ∀ v ∈ params, v ∈ x.values)
    (hs : m.StateIs i c) (hp : Builtin.repeatBlock.Invited m i c params) :
    Serves i c m (repeatBlock params) fun _ m' => Builtin.repeatBlock.Continues i c m' := by
  unfold repeatBlock
  extract_lets next
  have round (m : Machine) (h : m.Sound Γ (i + 1) x) (hs : m.StateIs i c) (hc : c.Rests)
      (hblock : m.Remembers i "block") (hcount : m.RemembersWord i "count") :
      Serves i c m (next ()) fun _ m' => Builtin.repeatBlock.Continues i c m' := by
    refine Serves.of_runOn (state_runOn hs) ?_
    rcases hc with rfl | rfl
    · obtain ⟨count, remaining, hv, hword⟩ := hcount
      refine Serves.of_runOn (expectLocal_runOn h hv) ?_
      rw [hword]
      refine Serves.of_runOn (a := remaining) (m := m) rfl ?_
      split
      · obtain ⟨block, hblock⟩ := hblock
        refine (quiet_setLocal "count" _).serves
          (setLocal_leaves h (Stake.knows_of_handle?_none rfl)) h.isScoped hs ?_
        rintro _ m₁ ⟨⟨h₁, hcount, others⟩, -⟩ hs₁
        have hblock := others "block" block (by decide) hblock
        refine Serves.of_runOn (expectLocal_runOn h₁ hblock) ?_
        refine (quiet_call block).serves (call_meets h₁ hblock.knows) h₁.isScoped hs₁ ?_
        rintro _ m₂ ⟨h₂, steady₂⟩ hs₂
        refine serves_setState hs₂ rfl fun m₃ hs₃ steady₃ => ?_
        have steady := steady₂.trans (steady₃ (i + 1))
        exact ⟨_, hs₃, .inl (.repeatBlock (.inr rfl)
          ⟨block, hblock.of_steady steady (Nat.lt_succ_self i)⟩
          ⟨_, _, hcount.of_steady steady (Nat.lt_succ_self i), rfl⟩)⟩
      · exact continues_of_rests hs (.inl rfl)
    · exact endRound_serves h hs (.repeatBlock (.inl rfl) hblock hcount)
  cases hp with
  | first hparams =>
    obtain ⟨block, count, rfl, -, hcount⟩ := accepted_two hparams
    obtain ⟨n, hn⟩ := Param.accepts_integer hcount
    have known : (m.stake + x).Knows block := (Stake.knows_of_mem (hx block (by simp))).add_left _
    have word : (matchedWord [block, count] 1).runOn (some i) m = .done n m := by
      change (Program.ofOption _ count.toWord?).run (Request.perform (some i)) m = _
      rw [hn]
      rfl
    refine Serves.of_runOn (a := block) (m := m) rfl ?_
    refine Serves.of_runOn word ?_
    refine (quiet_of_plain (obeys_toIndex (Q := fun _ _ => True) fun _ => trivial)).serves
      (reads_toIndex n) h.isScoped hs ?_
    rintro _ _ ⟨rfl, -⟩ -
    refine (quiet_setLocal "block" block).serves (setLocal_leaves h known) h.isScoped hs ?_
    rintro _ m₁ ⟨⟨h₁, hblock, -⟩, -⟩ hs₁
    refine (quiet_setLocal "count" _).serves
      (setLocal_leaves h₁ (Stake.knows_of_handle?_none rfl)) h₁.isScoped hs₁ ?_
    rintro _ m₂ ⟨⟨h₂, hcount, others⟩, -⟩ hs₂
    have hblock := others "block" block (by decide) hblock
    refine (quiet_pop 2).serves (pop_meets h₂ 2) h₂.isScoped hs₂ ?_
    rintro _ m₃ ⟨h₃, steady₃, -⟩ hs₃
    exact round m₃ h₃ hs₃ (.inl rfl) ⟨block, hblock.of_steady steady₃ (Nat.lt_succ_self i)⟩
      ⟨_, n, hcount.of_steady steady₃ (Nat.lt_succ_self i), rfl⟩
  | again hready =>
    cases hready with
    | fresh | done => contradiction
    | repeatBlock hc hblock hcount => exact round m h hs hc hblock hcount

/-! ### Exceptions -/

theorem stoppedBlock_serves (h : m.Sound Γ (i + 1) x) (hx : ∀ v ∈ params, v ∈ x.values)
    (hs : m.StateIs i c) (hp : Builtin.stopped.Invited m i c params) :
    Serves i c m (stoppedBlock params) fun _ m' => Builtin.stopped.Continues i c m' := by
  refine Serves.of_runOn (state_runOn hs) ?_
  cases hp with
  | first hparams =>
    obtain ⟨block, rfl, -⟩ := accepted_one hparams
    refine Serves.of_runOn (a := block) (m := m) rfl ?_
    refine (quiet_call block).serves
      (call_meets h (knows_params hx (List.mem_singleton_self _))) h.isScoped hs ?_
    rintro _ m₁ ⟨h₁, -⟩ hs₁
    refine (quiet_pop 1).serves (pop_meets h₁ 1) h₁.isScoped hs₁ ?_
    rintro _ m₂ - hs₂
    exact serves_setState hs₂ rfl fun m₃ hs₃ _ => ⟨_, hs₃, .inl .stopped⟩
  | again hready =>
    cases hready with
    | fresh | done => contradiction
    | stopped =>
      have rests (m' : Machine) (hs' : m'.StateIs i .callBeforePop) :
          Builtin.stopped.Continues i .callBeforePop m' := continues_of_rests hs' (.inr rfl)
      refine Serves.of_runOn (a := m.condition) rfl ?_
      split
      · exact (quiet_push _).serves_end h.isScoped hs fun _ => rests
      · split
        · exact (quiet_intercept.bind fun _ => quiet_push _).serves_end h.isScoped hs
            fun _ => rests
        · exact rests m hs

theorem ensureFinalizer_serves (h : m.Sound Γ (i + 1) x) (hx : ∀ v ∈ params, v ∈ x.values)
    (hs : m.StateIs i c) (hp : Builtin.ensure.Invited m i c params) :
    Serves i c m (ensureFinalizer params) fun _ m' => Builtin.ensure.Continues i c m' := by
  refine Serves.of_runOn (state_runOn hs) ?_
  cases hp with
  | first hparams =>
    obtain ⟨finalizer, body, rfl, -, -⟩ := accepted_two hparams
    have known : (m.stake + x).Knows finalizer :=
      (Stake.knows_of_mem (hx finalizer (by simp))).add_left _
    rw [if_pos rfl]
    refine Serves.of_runOn (a := finalizer) (m := m) rfl ?_
    refine Serves.of_runOn (a := body) (m := m) rfl ?_
    refine (quiet_setLocal "finalizer" finalizer).serves (setLocal_leaves h known) h.isScoped hs ?_
    rintro _ m₁ ⟨⟨h₁, hv, -⟩, -⟩ hs₁
    refine (quiet_call body).serves (call_meets h₁ (knows_params hx (by simp))) h₁.isScoped hs₁ ?_
    rintro _ m₂ ⟨h₂, steady₂⟩ hs₂
    refine (quiet_pop 2).serves (pop_meets h₂ 2) h₂.isScoped hs₂ ?_
    rintro _ m₃ ⟨-, steady₃, -⟩ hs₃
    refine serves_setState hs₃ rfl fun m₄ hs₄ steady₄ => ⟨_, hs₄, .inl (.ensure ?_)⟩
    have steady := (steady₂.trans steady₃).trans (steady₄ (i + 1))
    exact ⟨finalizer, hv.of_steady steady (Nat.lt_succ_self i)⟩
  | again hready =>
    cases hready with
    | fresh | done => contradiction
    | ensure hfinalizer =>
      obtain ⟨finalizer, hv⟩ := hfinalizer
      rw [if_neg (by decide), if_pos rfl]
      refine quiet_stash.serves (stash_meets h) h.isScoped hs ?_
      rintro _ m₁ ⟨h₁, steady₁⟩ hs₁
      have hv := hv.of_steady steady₁ (Nat.lt_succ_self i)
      refine Serves.of_runOn (expectLocal_runOn h₁ hv) ?_
      refine (quiet_call finalizer).serves (call_meets h₁ hv.knows) h₁.isScoped hs₁ ?_
      rintro _ m₂ - hs₂
      exact serves_setState hs₂ rfl fun m₃ hs₃ _ => ⟨_, hs₃, .inl .finalizing⟩
    | finalizing =>
      rw [if_neg (by decide), if_neg (by decide), if_pos rfl]
      refine quiet_restore.serves (restore_meets h) h.isScoped hs ?_
      rintro _ m₁ - hs₁
      exact serves_setState hs₁ rfl fun m₂ hs₂ _ => ⟨_, hs₂, .inl (.done _)⟩

/-! ### Binding -/

theorem beginBind_serves (h : m.Sound Γ (i + 1) x) (hx : v ∈ x.values)
    (hs : m.StateIs i .firstCall) :
    Serves i .firstCall m (beginBind [v]) fun _ m' => Builtin.bind.Continues i .firstCall m' := by
  have known : m.Knows x v := Machine.knows_of_pinned hx
  refine Serves.of_runOn (a := v) (m := m) rfl ?_
  refine (quiet_of_plain (obeys_items (P := fun _ _ => True) fun _ => trivial)).serves
    (reads_items h known) h.isScoped hs ?_
  rintro content _ ⟨rfl, hcontent⟩ -
  refine (quiet_of_plain (obeys_createArray (Q := fun _ _ => True) fun _ => trivial)).serves
    (createArray_meets h hcontent) h.isScoped hs ?_
  rintro target m₁ ⟨-, gained⟩ hs₁
  have htarget : (m₁.stake + (x + .refs [target])).Knows target := Stake.knows_of_mem (by simp)
  -- binding the copy may fail, with an ordinary exception that goes on when the copy is released
  have stored : (runOn (some i) (setLocal "target" target).attempt m₁).Fair
      (fun stored m' => (m'.Sound Γ (i + 1) (x + .refs [target]) ∧ m'.StateIs i .firstCall) ∧
        (∀ u, stored = .ok u → m'.LocalIs i "target" target) ∧
        ∀ e, stored = .error e → e.Ordinary) fun m' => m'.StateIs i .firstCall := by
    have fair := (quiet_setLocal "target" target m₁ .firstCall gained.sound.isScoped hs₁).and
      (setLocal_leaves gained.sound htarget)
    rw [runOn_attempt]
    refine Action.fair_attempt fair (fun u m₂ h₂ => ?_) fun e m₂ he h₂ => ?_
    · exact ⟨⟨h₂.2.1.1, h₂.1.2⟩, fun _ _ => h₂.2.1.2.1, fun _ he => by cases he⟩
    · exact ⟨⟨h₂.2.1.1, h₂.1⟩, fun _ hu => (by cases hu), fun _ he' => Except.error.inj he' ▸ he⟩
  refine fair_bind stored ?_
  rintro result m₂ ⟨⟨h₂, hs₂⟩, bound, ordinary⟩
  refine (quiet_of_plain (obeys_release (P := fun _ _ => True) trivial)).serves
    (release_meets (F := fun _ => False) h₂) h₂.isScoped hs₂ ?_
  rintro _ m₃ ⟨h₃, steady₃, -⟩ hs₃
  cases result with
  | error e => exact ⟨ordinary e rfl, hs₃⟩
  | ok u =>
    have bound := (bound u rfl).of_steady steady₃ (Nat.lt_succ_self i)
    refine Serves.of_runOn (a := ()) (m := m₃) rfl ?_
    refine (quiet_pop 1).serves (pop_meets h₃ 1) h₃.isScoped hs₃ ?_
    rintro _ m₄ ⟨h₄, steady₄, -⟩ hs₄
    split
    · exact (quiet_of_plain (obeys_finishBind target)).serves_end h₄.isScoped hs₄ fun _ _ hs' =>
        continues_of_rests hs' (.inl rfl)
    · refine serves_setState hs₄ (by decide) fun m₅ hs₅ steady₅ =>
        ⟨_, hs₅, .inl (.bind (by decide) ?_)⟩
      exact ⟨target, bound.of_steady (steady₄.trans (steady₅ (i + 1))) (Nat.lt_succ_self i)⟩

theorem quiet_collectBound (target : Value) : Quiet i (collectBound target) := by
  have awaited := obeys_awaitedItem (R := .plain i) (n := 0) (Q := fun _ _ => True) fun _ => trivial
  refine (quiet_of_plain awaited).bind fun awaited => ?_
  split
  · exact quiet_pure ()
  · have taken : (do Program.ofOption .notEnoughOperands ((← machine).operand? 0) :
        Operation Value).Obeys (.plain i) 0 fun _ _ => True :=
      Program.obeys_bind.2 <| obeys_machine fun m =>
        Program.obeys_ofOption.2 ⟨fun _ _ => trivial, fun _ => by simp [Cause.condition]⟩
    refine (quiet_of_plain taken).bind fun bound => ?_
    refine (quiet_of_plain (obeys_setItem (P := fun _ _ => True) trivial)).bind fun _ => ?_
    exact (quiet_pop 1).bind fun _ => quiet_setLocal "pending" _

theorem quiet_bindItem (target item : Value) (index : ℕ) (step : Word) :
    Quiet i (bindItem target index item step) := by
  unfold bindItem
  split
  · refine (quiet_of_plain (obeys_locate (Q := fun _ _ => True) fun _ => trivial)).bind
      fun found => ?_
    split
    · split
      · exact quiet_of_plain (obeys_setItem (P := fun _ _ => True) trivial)
      · exact quiet_pure ()
    · exact quiet_pure ()
  · refine quiet_currentOperator.bind fun operator => (quiet_push item).bind fun _ => ?_
    exact (quiet_call operator).bind fun _ => quiet_setLocal "pending" _
  · exact quiet_pure ()

/-- There are words for all steps of a block, since there are more words than units of memory. -/
theorem next_step_pos {step : Word} {index length : ℕ} (hstep : 0 < step.toInt)
    (hindex : (Word.ofInt (step.toInt - 1)).index? = some index) (hlt : index < length)
    (hlength : length * Sequence.valueSlot.units ≤ Size.limit) :
    0 < (Word.ofInt (step.toInt + 1)).toInt := by
  have range := step.toInt_range
  have previous : (Word.ofInt (step.toInt - 1)).toInt = step.toInt - 1 :=
    Word.toInt_ofInt (by omega) (by omega)
  rw [Word.index?, previous, if_pos (by omega)] at hindex
  have hindex := Option.some.inj hindex
  have few : length * 24 ≤ 18446744073709551615 := hlength
  rw [Word.toInt_ofInt (by omega) (by omega)]
  omega

theorem bindBlock_serves (h : m.Sound Γ (i + 1) x) (hx : ∀ v ∈ params, v ∈ x.values)
    (hs : m.StateIs i c) (hp : Builtin.bind.Invited m i c params) :
    Serves i c m (bindBlock params) fun _ m' => Builtin.bind.Continues i c m' := by
  cases hp with
  | first hparams =>
    obtain ⟨v, rfl, -⟩ := accepted_one hparams
    exact beginBind_serves h (hx v (List.mem_singleton_self _)) hs
  | again hready =>
    cases hready with
    | fresh | done => contradiction
    | @bind step hstep htarget =>
      obtain ⟨target, bound⟩ := htarget
      refine Serves.of_runOn (state_runOn hs) ?_
      refine Serves.of_runOn (expectLocal_runOn h bound) ?_
      have bound : Bound Γ i x target m := ⟨h, bound⟩
      refine (quiet_collectBound target).serves bound.collectBound_tends h.isScoped hs ?_
      rintro _ m₁ ⟨⟨h₁, bound⟩, -⟩ hs₁
      refine (quiet_of_plain (obeys_toIndex (Q := fun _ _ => True) fun _ => trivial)).serves
        (reads_ofOption (P := fun k => Word.index? _ = some k) fun _ => id) h₁.isScoped hs₁ ?_
      rintro index _ ⟨rfl, hindex⟩ -
      obtain ⟨r, hr, hitems⟩ := h₁.items_ok bound.knows (x := x)
      refine (quiet_of_plain (obeys_items (P := fun _ _ => True) fun _ => trivial)).serves
        (reads_read (P := fun vs => r = .ok vs) hr fun _ => id) h₁.isScoped hs₁ ?_
      rintro vs _ ⟨rfl, rfl⟩ -
      split
      · refine (quiet_of_plain (obeys_finishBind target)).serves
          (Bound.finishBind_tends ⟨h₁, bound⟩) h₁.isScoped hs₁ ?_
        rintro _ m₂ - hs₂
        exact serves_setState hs₂ rfl fun m₃ hs₃ _ => ⟨_, hs₃, .inl (.done _)⟩
      · rename_i item hitem
        have known := hitems vs rfl item (List.mem_of_getElem? hitem)
        have next := next_step_pos hstep hindex (List.getElem?_eq_some_iff.1 hitem).1
          (h₁.length_items (bound.knows (x := x)) hr)
        refine (quiet_bindItem target item index step).serves
          (Bound.bindItem_tends ⟨h₁, bound⟩ known) h₁.isScoped hs₁ ?_
        rintro _ m₂ ⟨⟨h₂, bound⟩, -⟩ hs₂
        refine serves_setState hs₂ ?_ fun m₃ hs₃ steady₃ => ⟨_, hs₃, .inl (.bind next ?_)⟩
        · simp [Continuation.canBecome, Continuation.isValid, Continuation.permits, next]
        · exact ⟨target, bound.of_steady (steady₃ (i + 1)) (Nat.lt_succ_self i)⟩

end Operation

/-- An operator that is not invoked again has nothing to go on from. -/
theorem Builtin.Invited.accepted {b : Builtin} {m : Machine} {k : ℕ} {c : Continuation}
    {params : List Value} (h : b.Invited m k c params) (hb : b.resumes = false) :
    c = .firstCall ∧ Accepted b.signature params := by
  cases h with
  | first h => exact ⟨rfl, h⟩
  | again h => cases h <;> contradiction

open Operation in
/-- **Every invocation of a builtin it is ready for** raises ordinary exceptions only, and leaves the
operator done, or ready again. -/
theorem Builtin.operation_serves {Γ : Charter} {i : ℕ} {x : Stake} {m : Machine}
    {c : Continuation} {b : Builtin} {params : List Value} (h : m.Sound Γ (i + 1) x)
    (hx : ∀ v ∈ params, v ∈ x.values) (hs : m.StateIs i c) (hp : b.Invited m i c params) :
    Serves i c m (b.operation params) fun _ m' => b.Continues i c m' := by
  by_cases hb : b.resumes = false
  · obtain ⟨rfl, hparams⟩ := hp.accepted hb
    exact (quiet_of_plain (operation_plain hb hparams i)).serves_end h.isScoped hs fun _ _ hs' =>
      continues_of_rests hs' (.inl rfl)
  · cases b with
    | loop => exact loopBlock_serves h hx hs hp
    | repeatBlock => exact repeatBlock_serves h hx hs hp
    | stopped => exact stoppedBlock_serves h hx hs hp
    | ensure => exact ensureFinalizer_serves h hx hs hp
    | bind => exact bindBlock_serves h hx hs hp
    | _ => exact absurd rfl hb

/-- An operator that fails in a running step may be invoked again. -/
theorem Builtin.Invited.operation_recovers {Γ : Charter} {i : ℕ} {x : Stake} {m : Machine}
    {c : Continuation} {b : Builtin} {params : List Value} (h : b.Invited m i c params)
    (hm : m.Sound Γ (i + 1) x) :
    ((b.operation params).runOn (some i) m).Meets True (fun _ _ => True)
      fun m' => ∀ step, c = .running step → b.Ready m' i c := by
  by_cases hc : ∃ step, c = .running step
  · obtain ⟨step, rfl⟩ := hc
    cases h with
    | again hready =>
      cases hready with
      | loop hc | repeatBlock hc => rcases hc with hc | hc <;> cases hc
      | bind hstep htarget =>
        obtain ⟨target, bound⟩ := htarget
        have tends := Operation.Bound.bindBlock_tends ⟨hm, bound⟩
        exact (tends.mono (fun _ _ _ => trivial) fun m' h' _ _ =>
          .bind hstep ⟨target, h'.1.2⟩).weaken
  · exact Outcome.meets_of_forall (fun _ _ => trivial) fun _ step h => absurd ⟨step, h⟩ hc

end StackScript
