import StackScript.Proofs.Machine.Handling
import StackScript.Proofs.Machine.Reached

/-!
# Operators that keep to what they hold

Whether the references of a machine are counted right is in the hands of the operators of a host: an
operation can pass on a value that is not referred to any more, or give a reference up twice.  An
operation is honest if it does neither (`Operation.Honest`): all it passes on is held by the machine,
or by the operands it was invoked with, or by a creator reference it owns.

Honest operations keep a sound machine sound, and the locals of the frames below their own as they
were (`Operation.Honest.meets`); so does the cycle that invokes one (`Session.cycle_steady`).
-/

namespace StackScript

/-! ### Operations -/

/-- Made from the frame with `i` frames below it, at the machine `m` and with the creator references
`owned`, the requests of the operation pass on values only that are held, and give up creator
references only that are owned.  What others hold is `x`. -/
def Operation.Honest {α : Type} (i : ℕ) (x : Stake) : Operation α → List Value → Machine → Prop
  | Program.ask r next failed, owned, m =>
    ∃ rest, owned.Perm (r.surrendered ++ rest) ∧
      (∀ v ∈ r.passed, m.Knows (x + .refs owned) v) ∧
      (∀ a m', r.perform (some i) m = .done a m' →
        Honest i x (next a) (r.handedOut a ++ rest) m') ∧
      ∀ e m', r.perform (some i) m = .raised e m' → Honest i x (failed e) rest m'
  | _, _, _ => True

/-- The machine is sound, the host owning some creator references, and the locals of the `i` frames
at the bottom are as they were. -/
def Machine.Intact (Γ : Charter) (n i : ℕ) (x : Stake) (m m' : Machine) : Prop :=
  (∃ owned, m'.Sound Γ n (x + .refs owned)) ∧ m.Steady i m'

theorem Machine.Intact.trans {Γ : Charter} {n i : ℕ} {x : Stake} {m m' m'' : Machine}
    (steady : m.Steady i m') (h : m'.Intact Γ n i x m'') : m.Intact Γ n i x m'' :=
  ⟨h.1, steady.trans h.2⟩

/-- **An honest operation** leaves the machine intact. -/
theorem Operation.Honest.meets {α : Type} {Γ : Charter} {i : ℕ} {x : Stake} {p : Operation α}
    {owned : List Value} {m : Machine} (hp : p.Honest i x owned m)
    (h : m.Sound Γ (i + 1) (x + .refs owned)) :
    (p.runOn (some i) m).Meets True (fun _ m' => m.Intact Γ (i + 1) i x m')
      fun m' => m.Intact Γ (i + 1) i x m' := by
  induction p generalizing owned m with
  | done a => exact ⟨⟨owned, h⟩, .refl i m⟩
  | raise e => exact ⟨⟨owned, h⟩, .refl i m⟩
  | broken b => trivial
  | ask r next failed ihn ihf =>
    obtain ⟨rest, hgives, hpasses, hnext, hfailed⟩ := hp
    have sum : x + .refs owned = x + .refs rest + .refs r.surrendered := by
      rw [Stake.refs_perm hgives, Stake.refs_append, add_assoc, add_comm (Stake.refs rest)]
    have own (j : ℕ) (hj : some i = some j) : j < i + 1 := Option.some.inj hj ▸ Nat.lt_succ_self i
    have served := r.perform_serves own (sum ▸ h) (fun v hv => sum ▸ hpasses v hv) (.inl trivial)
    simp only [runOn, Program.run] at ihn ihf ⊢
    cases hr : r.perform (some i) m with
    | done a m' =>
      rw [hr] at served
      obtain ⟨⟨sound, -⟩, steady⟩ := served
      rw [add_assoc, add_comm (Stake.refs rest), ← Stake.refs_append] at sound
      exact (ihn a (hnext a m' hr) sound).mono (fun _ _ ht => .trans steady ht)
        fun _ ht => .trans steady ht
    | raised e m' =>
      rw [hr] at served
      exact (ihf e (hfailed e m' hr) served.1).mono (fun _ _ ht => .trans served.2 ht)
        fun _ ht => .trans served.2 ht
    | broken b => trivial

/-! ### The operator of a cycle -/

namespace Session

variable {χ : Type} {Γ : Charter} {n i : ℕ} {x : Stake} {s : Session χ} {natives : Natives χ}
  {owned : List Value} {f : Frame} {rest : List Frame}

/-- How the operator of the frame with `index` frames below it, being in a given state, is entered
from a session: for the first time with its operands matched and pinned, later with none. -/
inductive Entered (index : ℕ) (signature : List Param) (s : Session χ) :
    Continuation → List Value → Session χ → Prop
  | first {params : List Value} {m m' : Machine}
    (hparams : s.machine.matchOperands signature = .ok params)
    (hstate : Machine.setState index .firstCall s.machine = .done () m)
    (hpinned : Machine.onMemory (Memory.retainAll params) m = .done () m') :
    Entered index signature s .unknown params { s with machine := m' }
  | again {state : Continuation} (hstate : state ≠ .unknown) : Entered index signature s state [] s

/-- The cycle that comes next invokes an operator that keeps to what it holds, if it invokes one of
the host at all. -/
def Minds (natives : Natives χ) (owned : List Value) (s : Session χ) : Prop :=
  ∀ f rest name looping, s.machine.calls.frames = f :: rest →
    s.machine.invoked? f = some (.native name looping) →
    match natives name with
    | .constant v => s.machine.Knows (.refs owned) v
    | .function signature operation => ∀ params t,
      Entered rest.length signature s f.state params t →
        (operation params t.host).Honest rest.length (.refs params) owned t.machine

/-- The action leaves the machine intact, whether it succeeds or raises. -/
def Preserves (Γ : Charter) (n i : ℕ) (x : Stake) (s : Session χ) (a : Action (Session χ) Unit) :
    Prop :=
  (a s).Meets True (fun _ t => s.machine.Intact Γ n i x t.machine)
    fun t => s.machine.Intact Γ n i x t.machine

theorem preserves_of_advances {a : Action (Session χ) Unit}
    (h : Advances Γ i (.refs owned) s a) : Preserves Γ 0 i 0 s a :=
  have intact (m : Machine) (hm : m.Sound Γ 0 (.refs owned) ∧ s.machine.Steady i m) :
      s.machine.Intact Γ 0 i 0 m := ⟨⟨owned, by rw [zero_add]; exact hm.1⟩, hm.2⟩
  (h.mono (fun _ t => intact t.machine) fun t => intact t.machine).weaken

/-- An invocation, of a builtin or of an honest operator. -/
theorem invoke_preserves {o : Operator} {signature : List Param}
    {invoke : ℕ → List Value → Action (Session χ) Unit} {params : List Value}
    (ho : Behaviour.ofOperator natives o = .function signature invoke)
    (honest : ∀ name looping signature operation, o = .native name looping →
      natives name = .function signature operation →
      (operation params s.host).Honest i (.refs params) owned s.machine)
    (h : s.machine.Sound Γ (i + 1) (.refs params + .refs owned)) :
    Preserves Γ (i + 1) i (.refs params) s (invoke i params) := by
  rcases Behaviour.function_cases ho with
    ⟨b, rfl, -, -, rfl⟩ | ⟨name, looping, operation, rfl, hn, rfl⟩
  · exact (meets_onMachine ((b.operation_works h (by simp +contextual)).mono
      (fun _ m hm => ⟨⟨owned, hm.1⟩, hm.2⟩) fun m hm => ⟨⟨owned, hm.1⟩, hm.2⟩)).weaken
  · exact meets_runKeeping ((honest name looping signature operation rfl hn).meets h)

/-- After an action that leaves the machine intact, another one. -/
theorem Preserves.bind {k : Unit → Action (Session χ) Unit} {a : Action (Session χ) Unit} {y : Stake}
    (ha : (a s).Meets True (fun _ t => s.machine.Intact Γ n i y t.machine)
      fun t => s.machine.Intact Γ 0 i x t.machine)
    (hk : ∀ owned (t : Session χ), t.machine.Sound Γ n (y + .refs owned) →
      Preserves Γ 0 i x t (k ())) : Preserves Γ 0 i x s (a >>= k) :=
  Action.meets_bind ha fun _ t ⟨⟨owned, sound⟩, steady⟩ =>
    (hk owned t sound).mono (fun _ _ hu => .trans steady hu) fun _ hu => .trans steady hu

theorem settle_preserves {invokedIn : Continuation} (h : s.machine.Sound Γ (i + 1) (.refs owned)) :
    Preserves Γ 0 i 0 s (settle i invokedIn) := preserves_of_advances (settle_advances h)

/-- Sound with the operand of an operator that is over given up again. -/
theorem releaseAll_preserves {params : List Value}
    (h : s.machine.Sound Γ (i + 1) (.refs params + .refs owned)) :
    (onMachine (Machine.onMemory (Memory.releaseAll params)) s).Meets True
      (fun _ t => s.machine.Intact Γ (i + 1) i 0 t.machine) fun _ => False := by
  have h : s.machine.Sound Γ (i + 1) (.refs owned + .refs params) := by
    rwa [add_comm (Stake.refs owned)]
  refine meets_onMachine ((Machine.releaseAll_meets h).mono (fun _ m hm => ?_) fun _ => id)
  exact ⟨⟨owned, by rw [zero_add]; exact hm.1⟩, hm.2.mono (Nat.le_succ i)⟩

theorem dispatch_preserves {o : Operator} {signature : List Param}
    {invoke : ℕ → List Value → Action (Session χ) Unit}
    (ho : Behaviour.ofOperator natives o = .function signature invoke)
    (honest : ∀ params t, Entered i signature s .unknown params t →
      ∀ name looping signature operation, o = .native name looping →
        natives name = .function signature operation →
        (operation params t.host).Honest i (.refs params) owned t.machine)
    (h : s.machine.Sound Γ (i + 1) (.refs owned)) :
    Preserves Γ 0 i 0 s (dispatch i signature (invoke i)) := by
  unfold Preserves dispatch
  rw [theMachine_bind]
  have intact (m : Machine) (hm : m.Sound Γ (i + 1) (.refs owned)) (steady : s.machine.Steady i m) :
      s.machine.Intact Γ 0 i 0 m := ⟨⟨owned, by rw [zero_add]; exact hm.unframed⟩, steady⟩
  cases hparams : s.machine.matchOperands signature with
  | error c => exact intact _ h (.refl i _)
  | ok params =>
    change Preserves Γ 0 i 0 s (onMachine (Machine.setState i .firstCall) >>= fun _ =>
      onMachine (Machine.onMemory (Memory.retainAll params)) >>= fun _ => (invoke i params).ensuring
        (onMachine (Machine.onMemory (Memory.releaseAll params))) >>= fun _ => settle i .firstCall)
    -- what is entered is the very session that `Entered` speaks of
    have moved : (Machine.setState i .firstCall s.machine).Meets True _ _ :=
      Machine.setState_meets h (Nat.lt_succ_self i)
    refine meets_onMachine_bind ?_
    cases hstate : Machine.setState i .firstCall s.machine with
    | broken b => trivial
    | raised e m =>
      rw [hstate] at moved
      exact intact m moved.1 (moved.2.mono (Nat.le_succ i))
    | done u m =>
      rw [hstate] at moved
      obtain ⟨h₁, steady₁, operands⟩ := moved
      have known (v : Value) (hv : v ∈ params) : m.Knows (.refs owned) v :=
        Machine.knows_of_operand (operands ▸ Machine.mem_of_matchOperands hparams hv)
      have pinned : (Machine.onMemory (Memory.retainAll params) m).Meets True _ _ :=
        Machine.retainAll_meets h₁ known
      refine meets_onMachine_bind ?_
      cases hpinned : Machine.onMemory (Memory.retainAll params) m with
      | broken b => trivial
      | raised e m' =>
        rw [hpinned] at pinned
        exact intact m' pinned.1 ((steady₁.trans pinned.2).mono (Nat.le_succ i))
      | done u m' =>
        rw [hpinned] at pinned
        obtain ⟨h₂, steady₂⟩ := pinned
        have entered : Entered i signature s .unknown params { s with machine := m' } :=
          .first hparams hstate hpinned
        rw [add_comm (Stake.refs owned)] at h₂
        have steady : s.machine.Steady i m' := (steady₁.trans steady₂).mono (Nat.le_succ i)
        have released (t : Session χ) (ht : m'.Intact Γ (i + 1) i (.refs params) t.machine) :
            (onMachine (Machine.onMemory (Memory.releaseAll params)) t).Meets True
              (fun _ t => m'.Intact Γ (i + 1) i 0 t.machine) fun _ => False := by
          obtain ⟨⟨owned, ht⟩, steady⟩ := ht
          exact (releaseAll_preserves ht).mono (fun _ _ hu => .trans steady hu) fun _ => id
        have invoked := invoke_preserves ho (honest params _ entered) h₂
        exact (Preserves.bind (Action.meets_ensuring invoked
          (fun _ t ht => (released t ht).always fun _ _ => id) fun t ht =>
            (released t ht).always fun _ u ⟨⟨owned, hu⟩, steady⟩ => ⟨⟨owned, hu.unframed⟩, steady⟩)
          fun owned t ht => settle_preserves (zero_add (Stake.refs owned) ▸ ht)).mono
            (fun _ _ ht => .trans steady ht) fun _ ht => .trans steady ht

theorem resume_preserves {o : Operator} {signature : List Param} {state : Continuation}
    {invoke : ℕ → List Value → Action (Session χ) Unit}
    (ho : Behaviour.ofOperator natives o = .function signature invoke)
    (honest : ∀ name looping signature operation, o = .native name looping →
      natives name = .function signature operation →
      (operation [] s.host).Honest i (.refs []) owned s.machine)
    (h : s.machine.Sound Γ (i + 1) (.refs owned)) :
    Preserves Γ 0 i 0 s (resume i state (invoke i)) := by
  have entered : s.machine.Sound Γ (i + 1) (.refs [] + .refs owned) := by
    rwa [Stake.refs_nil, zero_add]
  have invoked := invoke_preserves ho honest entered
  rw [Stake.refs_nil] at invoked
  refine Preserves.bind (Action.meets_onRaise invoked fun t ht => ?_) fun owned t ht =>
    settle_preserves (zero_add (Stake.refs owned) ▸ ht)
  obtain ⟨⟨owned, ht⟩, steady⟩ := ht
  split
  · exact (abandon_meets ht).always fun _ u hu =>
      ⟨⟨owned, hu.1.unframed⟩, steady.trans (hu.2.mono (Nat.le_succ i))⟩
  · exact ⟨⟨owned, ht.unframed⟩, steady⟩

/-! ### The cycle -/

theorem stepOperator_preserves {o : Operator} (hframes : s.machine.calls.frames = f :: rest)
    (ho : s.machine.invoked? f = some o) (minds : s.Minds natives owned)
    (h : s.machine.Sound Γ (rest.length + 1) (.refs owned)) :
    Preserves Γ 0 rest.length 0 s (stepOperator natives rest.length o) := by
  have hf : s.machine.calls.frame? rest.length = some f := CallStack.frame?_head hframes
  unfold stepOperator
  cases hb : Behaviour.ofOperator natives o with
  | constant v =>
    refine preserves_of_advances (pushOperand_popFrame_advances h ?_)
    rcases Behaviour.constant_cases hb with ⟨b, rfl, hv⟩ | ⟨name, looping, rfl, hn⟩
    · exact Machine.knows_of_handle?_none (Builtin.handle?_of_constant hv)
    · have mind := minds f rest name looping hframes ho
      rw [hn] at mind
      exact mind
  | function signature invoke =>
    -- the signature the operands are matched with is that of the native
    have honest (params : List Value) (t : Session χ)
        (ht : Entered rest.length signature s f.state params t) (name : String) (looping : Bool)
        (asked : List Param) (operation : List Value → χ → Operation (χ × Except Exception Unit))
        (hnative : o = .native name looping) (hn : natives name = .function asked operation) :
        (operation params t.host).Honest rest.length (.refs params) owned t.machine := by
      subst hnative
      have mind := minds f rest name looping hframes ho
      rw [hn] at mind
      unfold Behaviour.ofOperator Behaviour.ofNative at hb
      simp only [hn, Behaviour.function.injEq] at hb
      exact mind params t (hb.1 ▸ ht)
    unfold Preserves
    dsimp only
    rw [theMachine_bind, Machine.frame_of_frame? hf, read_bind]
    have again (state : Continuation) (hstate : f.state = state) (hne : state ≠ .unknown) :
        Preserves Γ 0 rest.length 0 s (resume rest.length state (invoke rest.length)) :=
      resume_preserves hb (honest [] s (hstate ▸ .again hne)) h
    cases hstate : f.state with
    | pop => exact preserves_of_advances (popFrame_advances h)
    | unknown => exact dispatch_preserves hb (hstate ▸ honest) h
    | firstCall | running | callBeforePop | popping => exact again _ hstate (by simp)

/-- A step that invokes no operator of the host does not depend on which there are. -/
theorem step_of_no_native (ho : ∀ name looping, s.machine.invoked? f ≠ some (.native name looping)) :
    step natives i f s = step Natives.none i f s := by
  cases hinvoked : s.machine.invoked? f with
  | some o =>
    rw [step_of_invoked hinvoked, step_of_invoked hinvoked]
    cases o with
    | builtin b => rfl
    | native name looping => exact absurd hinvoked (ho name looping)
  | none =>
    by_cases hpending : s.machine.pending.isSome
    · rw [step_of_unwound hpending hinvoked, step_of_unwound hpending hinvoked]
    · rw [step_of_not_pending hpending, step_of_not_pending hpending]
      rw [Machine.invoked?, if_neg hpending] at hinvoked
      unfold advance
      cases hsupply : f.supply with
      | some supply => rfl
      | none =>
        rw [if_neg (by rw [hsupply]; simp)] at hinvoked
        have plain (o : Operator) : f.value.datum ≠ .operator o := fun hd => by
          rw [toOperator?_eq_some hd] at hinvoked
          cases hinvoked
        cases hd : f.value.datum with
        | operator o => exact absurd hd (plain o)
        | name name executable => cases executable <;> rfl
        | string text executable => cases executable <;> rfl
        | array handle access => cases access <;> rfl
        | _ => rfl

/-- Nor does the cycle. -/
theorem cycle_of_no_native (ho : ∀ f rest name looping, s.machine.calls.frames = f :: rest →
    s.machine.invoked? f ≠ some (.native name looping)) :
    cycle natives s = cycle Natives.none s := by
  unfold cycle
  rw [theMachine_bind, theMachine_bind]
  cases hframes : s.machine.calls.frames with
  | nil => rfl
  | cons f rest =>
    dsimp only
    rw [Action.bind_apply, Action.bind_apply, Action.attempt, Action.attempt,
      step_of_no_native fun name looping => ho f rest name looping hframes]

theorem step_preserves (hframes : s.machine.calls.frames = f :: rest)
    (minds : s.Minds natives owned) (h : s.machine.Sound Γ 0 (.refs owned))
    (hfed : s.machine.Fed (.refs owned)) :
    Preserves Γ 0 rest.length 0 s (step natives rest.length f) := by
  have hdepth : s.machine.Sound Γ (rest.length + 1) (.refs owned) :=
    { h with depth := by simp [CallStack.length, hframes] }
  cases ho : s.machine.invoked? f with
  | some o =>
    unfold Preserves
    rw [step_of_invoked ho]
    exact stepOperator_preserves hframes ho minds hdepth
  | none =>
    have same : step natives rest.length f s = step Natives.none rest.length f s :=
      step_of_no_native (by simp [ho])
    unfold Preserves
    rw [same]
    exact preserves_of_advances (step_advances (Behaviour.works_none Γ) h hfed hframes)

/-- **A cycle whose operator keeps to what it holds** leaves the machine intact. -/
theorem cycle_preserves (hframes : s.machine.calls.frames = f :: rest)
    (minds : s.Minds natives owned) (h : s.machine.Sound Γ 0 (.refs owned))
    (hfed : s.machine.Fed (.refs owned)) :
    (cycle natives s).Meets True (fun _ t => s.machine.Intact Γ 0 rest.length 0 t.machine)
      fun t => s.machine.Intact Γ 0 rest.length 0 t.machine := by
  unfold cycle
  rw [theMachine_bind, hframes]
  have worked := (step_preserves hframes minds h hfed).and (step_handles hframes)
  refine Action.meets_bind (P := fun _ t => s.machine.Intact Γ 0 rest.length 0 t.machine ∧
    f.Handled rest t.machine.calls.frames)
    (Action.meets_attempt (worked.mono (fun _ _ => id) fun _ ht _ => ht)) ?_
  rintro result t ⟨⟨⟨owned, sound⟩, steady⟩, handled⟩
  cases result with
  | ok _ => exact ⟨⟨owned, sound⟩, steady⟩
  | error e =>
    exact meets_onMachine_bind ((Machine.raise_meets sound.framed e).mono (fun _ m hm =>
      ⟨⟨owned, hm.1.unframed⟩, steady.trans (hm.2.mono handled.length_le)⟩) fun _ => id)

end Session

end StackScript
