import StackScript.Proofs.Operator.Reading

/-!
# What operators do

An operator works if it keeps the machine sound, whether it succeeds or raises, leaves the locals
of the frames below its own alone, and violates no invariant (`Operation.Works`).  There is one lemma
for each request that changes the machine; what an operator does follows from those of its requests.
-/

namespace StackScript

namespace Operation

variable {α β : Type} {Γ : Charter} {n i : ℕ} {x : Stake} {m : Machine} {v : Value}
  {own : Option ℕ} {lax : Prop} {F : Machine → Prop} {params : List Value}

/-- From the frame with `i` frames below it, the step leaves a machine in `R`, or in `G` if it
raises, and the locals of the frames below as they were. -/
def Leaves (i : ℕ) (m : Machine) (p : Operation α) (R : α → Machine → Prop) (G : Machine → Prop) :
    Prop :=
  (p.runOn (some i) m).Meets False (fun a m' => R a m' ∧ m.Steady i m') fun m' =>
    G m' ∧ m.Steady i m'

/-- From the frame with `i` frames below it, with `x` the stake of others. -/
def Works (Γ : Charter) (i : ℕ) (x : Stake) (m : Machine) (p : Operation Unit) : Prop :=
  Leaves i m p (fun _ m' => m'.Sound Γ (i + 1) x) fun m' => m'.Sound Γ (i + 1) x

section

variable {p : Operation α} {f : α → Operation β} {M : α → Machine → Prop}
  {R : β → Machine → Prop} {G : Machine → Prop}

theorem Leaves.bind (hp : Leaves i m p M G) (hf : ∀ a m', M a m' → Leaves i m' (f a) R G) :
    Leaves i m (p >>= f) R G :=
  meets_bind hp fun a m' ⟨ha, steady⟩ => (hf a m' ha).mono
    (fun _ _ h => ⟨h.1, steady.trans h.2⟩) fun _ h => ⟨h.1, steady.trans h.2⟩

/-- After a step that leaves the locals of the operator alone too. -/
theorem Leaves.after
    (hp : (p.runOn (some i) m).Meets False M fun m' => G m' ∧ m.Steady (i + 1) m')
    (hs : ∀ a m', M a m' → m.Steady (i + 1) m') (hf : ∀ a m', M a m' → Leaves i m' (f a) R G) :
    Leaves i m (p >>= f) R G :=
  Leaves.bind (hp.mono (fun a m' h => ⟨h, (hs a m' h).mono (Nat.le_succ i)⟩)
    fun _ h => ⟨h.1, h.2.mono (Nat.le_succ i)⟩) hf

/-- Before a step that only looks at the machine. -/
theorem Reads.leaves {P : α → Prop} (hp : p.Reads (some i) m P) (hfail : G m)
    (hf : ∀ a, P a → Leaves i m (f a) R G) : Leaves i m (p >>= f) R G :=
  hp.step ⟨hfail, .refl i m⟩ hf

theorem leaves_pure {a : α} (h : M a m) : Leaves i m (pure a) M G := ⟨h, .refl i m⟩

theorem leaves_fail {c : Cause} (h : G m) : Leaves i m (Program.fail c) M G := ⟨h, .refl i m⟩

end

/-- A step that leaves all locals alone works if it keeps the machine sound. -/
theorem works_of_steady {p : Operation Unit}
    (hp : (p.runOn (some i) m).Meets False
      (fun _ m' => m'.Sound Γ (i + 1) x ∧ m.Steady (i + 1) m')
      fun m' => m'.Sound Γ (i + 1) x ∧ m.Steady (i + 1) m') : Works Γ i x m p :=
  hp.mono (fun _ _ h => ⟨h.1, h.2.mono (Nat.le_succ i)⟩) fun _ h => ⟨h.1, h.2.mono (Nat.le_succ i)⟩

/-- A step that is one request. -/
theorem meets_ask {r : Request} {P : r.Answer → Machine → Prop}
    (h : (r.perform own m).Meets lax P F) : ((ask r).runOn own m).Meets lax P F := by
  rw [runOn, ask, Program.run_request]
  exact h

theorem works_pure (h : m.Sound Γ (i + 1) x) : Works Γ i x m (pure ()) := leaves_pure h

theorem works_fail {c : Cause} (h : m.Sound Γ (i + 1) x) : Works Γ i x m (Program.fail c) :=
  leaves_fail h

/-- The operands an operator holds on to are known. -/
theorem knows_params (hx : ∀ v ∈ params, v ∈ x.values) (hv : v ∈ params) : m.Knows x v :=
  Machine.knows_of_pinned (hx v hv)

/-- After a step that fails, its remedy. -/
theorem meets_rescue {α : Type} {p : Operation α} {remedy : Exception → Operation α}
    {P : α → Machine → Prop} {M : Machine → Prop} (hp : (p.runOn own m).Meets lax P M)
    (hf : ∀ e m', M m' → ((remedy e).runOn own m').Meets lax P F) :
    (runOn own (p.rescue remedy) m).Meets lax P F := by
  induction p generalizing m with
  | done a => exact hp
  | raise e => exact hf e m hp
  | broken b => exact hp
  | ask r next failed ihn ihf =>
    simp only [runOn, Program.rescue, Program.run] at hp ⊢
    cases hr : r.perform own m with
    | done a m₁ => rw [hr] at hp; exact ihn a hp
    | raised e m₁ => rw [hr] at hp; exact ihf e hp
    | broken b => rw [hr] at hp; exact hp

/-- A step whose exception is kept as a result. -/
theorem runOn_attempt (p : Operation α) : runOn own p.attempt = (p.runOn own).attempt := by
  funext m
  induction p generalizing m with
  | done a => rfl
  | raise e => rfl
  | broken b => rfl
  | ask r next failed ihn ihf =>
    simp only [runOn, Program.attempt, Program.run, Action.attempt] at ihn ihf ⊢
    cases r.perform own m with
    | done a m₁ => exact ihn a m₁
    | raised e m₁ => exact ihf e m₁
    | broken b => rfl

theorem meets_attempt {p : Operation α} {P : Except Exception α → Machine → Prop}
    (hp : (p.runOn own m).Meets lax (fun a m' => P (.ok a) m') fun m' => ∀ e, P (.error e) m') :
    (runOn own p.attempt m).Meets lax P F := by
  rw [runOn_attempt]
  exact Action.meets_attempt hp

/-- Looking at the machine. -/
theorem machine_step {f : Machine → Operation Unit} (h : Works Γ i x m (f m)) :
    Works Γ i x m (machine >>= f) := h

/-! ### Operands -/

theorem exchange_meets {drop : ℕ} {values : List Value} (h : m.Sound Γ n x)
    (hv : ∀ v ∈ values, m.Knows x v) :
    ((exchange drop values).runOn own m).Meets lax
      (fun _ m' => m'.Sound Γ n x ∧ m.Steady n m' ∧ m'.calls = m.calls)
      fun m' => m'.Sound Γ n x ∧ m.Steady n m' :=
  meets_ask (r := .exchange drop values) (Machine.exchangeOperands_meets h hv)

theorem pop_meets (h : m.Sound Γ n x) (count : ℕ) :
    ((pop count).runOn own m).Meets lax
      (fun _ m' => m'.Sound Γ n x ∧ m.Steady n m' ∧ m'.calls = m.calls)
      fun m' => m'.Sound Γ n x ∧ m.Steady n m' :=
  exchange_meets h (by simp)

theorem push_meets (h : m.Sound Γ n x) (hv : m.Knows x v) :
    ((push v).runOn own m).Meets lax
      (fun _ m' => m'.Sound Γ n x ∧ m.Steady n m' ∧ m'.calls = m.calls)
      fun m' => m'.Sound Γ n x ∧ m.Steady n m' :=
  exchange_meets h (by simpa using hv)

theorem exchange_works {drop : ℕ} {values : List Value} (h : m.Sound Γ (i + 1) x)
    (hv : ∀ v ∈ values, m.Knows x v) : Works Γ i x m (exchange drop values) :=
  works_of_steady ((exchange_meets h hv).mono (fun _ _ h => ⟨h.1, h.2.1⟩) fun _ => id)

/-- The usual end of an operator: one result takes the place of its operands. -/
theorem result_works {drop : ℕ} (h : m.Sound Γ (i + 1) x) (hv : m.Knows x v) :
    Works Γ i x m (exchange drop [v]) :=
  exchange_works h (by simpa using hv)

theorem pop_works (h : m.Sound Γ (i + 1) x) (count : ℕ) : Works Γ i x m (pop count) :=
  exchange_works h (by simp)

theorem clearOperands_works (h : m.Sound Γ (i + 1) x) : Works Γ i x m clearOperands :=
  works_of_steady (meets_ask (r := .clearOperands) (Machine.clearOperands_meets h))

/-! ### Creators -/

theorem release_meets (h : m.Sound Γ n (x + .refs [v])) :
    ((release v).runOn own m).Meets lax
      (fun _ m' => m'.Sound Γ n x ∧ m.Steady n m' ∧ m.SameStacks m') F :=
  meets_ask (r := .release v) (Machine.release_meets h)

theorem adopt_works {drop : ℕ} (h : m.Sound Γ (i + 1) (x + .refs [v])) :
    Works Γ i x m (adopt drop v) :=
  works_of_steady (meets_ask (r := .adopt drop v) (Machine.adopt_meets h))

theorem createArray_meets {access : Access} {items : List Value} (h : m.Sound Γ n x)
    (hv : ∀ v ∈ items, m.Knows x v) :
    ((createArray access items).runOn own m).Meets lax
      (fun v m' => (∃ k, v = .array k access) ∧ m.Gained Γ n x v m')
      fun m' => m'.Sound Γ n x ∧ m.Steady n m' :=
  meets_ask (r := .createArray access items) (Machine.createArray_meets h hv)

theorem createFilledArray_meets {access : Access} {length : ℕ} (h : m.Sound Γ n x)
    (hv : m.Knows x v) :
    ((createFilledArray access length v).runOn own m).Meets lax
      (fun w m' => (∃ k, w = .array k access) ∧ m.Gained Γ n x w m')
      fun m' => m'.Sound Γ n x ∧ m.Steady n m' :=
  meets_ask (r := .createFilledArray access length v) (Machine.createFilledArray_meets h hv)

theorem createDictionary_meets (h : m.Sound Γ n x) :
    (createDictionary.runOn own m).Meets lax
      (fun v m' => (∃ k, v = .dictionary k true) ∧ m.Gained Γ n x v m')
      fun m' => m'.Sound Γ n x ∧ m.Steady n m' :=
  meets_ask (r := .createDictionary) (Machine.createDictionary_meets h)

/-! ### Containers and scopes -/

theorem setItem_meets {container : Value} {index : ℕ} (h : m.Sound Γ n x)
    (hcontainer : m.Knows x container) (ha : m.Anchored x container) (hv : m.Knows x v) :
    ((setItem container index v).runOn own m).Meets False (fun _ m' => m.Altered Γ n x m')
      fun m' => m'.Sound Γ n x ∧ m.Steady n m' :=
  meets_ask (r := .setItem container index v) (Machine.setItem_meets h hcontainer (.inr ha) hv)

theorem define_meets {container : Value} {name : String} (h : m.Sound Γ n x)
    (hcontainer : m.Knows x container) (ha : m.Anchored x container) (hv : m.Knows x v) :
    ((define container name v).runOn own m).Meets False (fun _ m' => m.Altered Γ n x m')
      fun m' => m'.Sound Γ n x ∧ m.Steady n m' :=
  meets_ask (r := .define container name v) (Machine.define_meets h hcontainer (.inr ha) hv)

theorem openScope_meets (h : m.Sound Γ n x) (hv : m.Knows x v) :
    ((openScope v).runOn own m).Meets lax (fun _ m' => m'.Sound Γ n x ∧ m.Steady n m')
      fun m' => m'.Sound Γ n x ∧ m.Steady n m' :=
  meets_ask (r := .openScope v) (Machine.openScope_meets h hv)

theorem closeScope_works (h : m.Sound Γ (i + 1) x) : Works Γ i x m closeScope :=
  works_of_steady (meets_ask (r := .closeScope) (Machine.closeScope_meets h))

/-! ### Work and the operator's frame -/

theorem call_meets (h : m.Sound Γ n x) (hv : m.Knows x v) :
    ((call v).runOn own m).Meets lax (fun _ m' => m'.Sound Γ n x ∧ m.Steady n m')
      fun m' => m'.Sound Γ n x ∧ m.Steady n m' :=
  meets_ask (r := .call v) (Machine.call_meets h hv)

theorem setState_meets {next : Continuation} (h : m.Sound Γ (i + 1) x) :
    ((setState next).runOn (some i) m).Meets lax
      (fun _ m' => m'.Sound Γ (i + 1) x ∧ m.Steady (i + 1) m')
      fun m' => m'.Sound Γ (i + 1) x ∧ m.Steady (i + 1) m' :=
  meets_ask (r := .setState next)
    ((Machine.setState_meets h (Nat.lt_succ_self i)).mono (fun _ _ h => ⟨h.1, h.2.1⟩) fun _ => id)

theorem setState_works {next : Continuation} (h : m.Sound Γ (i + 1) x) :
    Works Γ i x m (setState next) := works_of_steady (setState_meets h)

theorem setLocal_leaves {name : String} (h : m.Sound Γ (i + 1) x) (hv : (m.stake + x).Knows v) :
    Leaves i m (setLocal name v)
      (fun _ m' => m'.Sound Γ (i + 1) x ∧ m'.LocalIs i name v ∧
        ∀ other w, other ≠ name → m.LocalIs i other w → m'.LocalIs i other w)
      fun m' => m'.Sound Γ (i + 1) x ∧ ∀ other w, m.LocalIs i other w → m'.LocalIs i other w :=
  meets_ask (r := .setLocal name v) ((Machine.setLocal_meets h (Nat.lt_succ_self i)
    (hv.add_right _)).mono
    (fun _ _ ⟨⟨h, steady⟩, bound⟩ => ⟨⟨h, bound⟩, steady⟩)
    fun _ ⟨⟨h, steady⟩, kept⟩ => ⟨⟨h, kept⟩, steady⟩)

theorem openBlock_works (h : m.Sound Γ (i + 1) x) : Works Γ i x m openBlock :=
  works_of_steady (meets_ask (r := .openBlock) (Machine.openBlock_meets h))

theorem closeBlock_works (h : m.Sound Γ (i + 1) x) : Works Γ i x m closeBlock :=
  works_of_steady (meets_ask (r := .closeBlock) (Machine.closeBlock_meets h))

theorem intercept_meets (h : m.Sound Γ n x) :
    (intercept.runOn own m).Meets lax (fun _ m' => m'.Sound Γ n x ∧ m.Steady n m') F :=
  meets_ask (r := .intercept) (Machine.intercept_meets h)

theorem stash_meets (h : m.Sound Γ (i + 1) x) :
    (stash.runOn (some i) m).Meets lax
      (fun _ m' => m'.Sound Γ (i + 1) x ∧ m.Steady (i + 1) m')
      fun m' => m'.Sound Γ (i + 1) x ∧ m.Steady (i + 1) m' :=
  meets_ask (r := .stash) (Machine.stash_meets h (Nat.lt_succ_self i))

theorem stash_works (h : m.Sound Γ (i + 1) x) : Works Γ i x m stash :=
  works_of_steady (stash_meets h)

theorem restore_meets (h : m.Sound Γ (i + 1) x) :
    (restore.runOn (some i) m).Meets lax
      (fun _ m' => m'.Sound Γ (i + 1) x ∧ m.Steady (i + 1) m')
      fun m' => m'.Sound Γ (i + 1) x ∧ m.Steady (i + 1) m' :=
  meets_ask (r := .restore) (Machine.restore_meets h (Nat.lt_succ_self i))

theorem restore_works (h : m.Sound Γ (i + 1) x) : Works Γ i x m restore :=
  works_of_steady (restore_meets h)

/-! ### One step after the other -/

/-- After a step that works, another operation. -/
theorem Works.step {p : Operation Unit} {f : Unit → Operation Unit} (hp : Works Γ i x m p)
    (hf : ∀ m', m'.Sound Γ (i + 1) x → Works Γ i x m' (f ())) : Works Γ i x m (p >>= f) :=
  Leaves.bind hp fun _ m' h => hf m' h

end Operation

end StackScript
