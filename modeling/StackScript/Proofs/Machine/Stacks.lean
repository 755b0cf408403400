import StackScript.Proofs.Machine.Sound

/-!
# Stacks and containers of a sound machine

What hosts and operators can do to the stacks and the containers of a machine, except for the call
frame of an operator itself.  Each operation keeps the machine sound, whether it succeeds or fails,
and leaves the locals of the frames alone; a creator gets the reference to what it creates, and
gives it up later.
-/

namespace StackScript

namespace Machine

variable {Γ : Charter} {n : ℕ} {x y : Stake} {m m' : Machine} {μ : Memory} {v : Value} {lax : Prop}

/-! ### Changing one part -/

theorem meets_onMemory {α : Type} {f : Action Memory α} {P : α → Machine → Prop}
    {F : Machine → Prop}
    (h : (f m.memory).Meets lax (fun a μ => P a { m with memory := μ })
      fun μ => F { m with memory := μ }) :
    (onMemory f m).Meets lax P F :=
  Action.meets_zoom h

theorem meets_onMemory_bind {α β : Type} {f : Action Memory α} {k : α → Action Machine β}
    {P : β → Machine → Prop} {F : Machine → Prop}
    (h : (f m.memory).Meets lax (fun a μ => (k a { m with memory := μ }).Meets lax P F)
      fun μ => F { m with memory := μ }) :
    ((onMemory f >>= k) m).Meets lax P F :=
  Action.meets_bind (meets_onMemory (P := fun a m' => (k a m').Meets lax P F) h)
    fun _ _ h => h

theorem meets_onOperands {f : Sequence → Action Memory Sequence} {P : Unit → Machine → Prop}
    {F : Machine → Prop}
    (h : (f m.operands m.memory).Meets lax
      (fun s μ => P () { m with memory := μ, operands := s })
      fun μ => F { m with memory := μ }) :
    (onOperands f m).Meets lax P F := by
  rw [onOperands, Action.get_bind]
  exact meets_onMemory_bind h

theorem meets_onScopes {f : Sequence → Action Memory Sequence} {P : Unit → Machine → Prop}
    {F : Machine → Prop}
    (h : (f m.scopes m.memory).Meets lax
      (fun s μ => P () { m with memory := μ, scopes := s })
      fun μ => F { m with memory := μ }) :
    (onScopes f m).Meets lax P F := by
  rw [onScopes, Action.get_bind]
  exact meets_onMemory_bind h

theorem meets_onCalls {f : CallStack → Action Memory CallStack} {P : Unit → Machine → Prop}
    {F : Machine → Prop}
    (h : (f m.calls m.memory).Meets lax
      (fun c μ => P () { m with memory := μ, calls := c })
      fun μ => F { m with memory := μ }) :
    (onCalls f m).Meets lax P F := by
  rw [onCalls, Action.get_bind]
  exact meets_onMemory_bind h

theorem Sound.withMemory (h : m.Sound Γ n x) (hμ : μ.Sound Γ (m.stake + y)) :
    Machine.Sound Γ n y { m with memory := μ } :=
  { h with memory := hμ }

/-- What the machine holds besides its operands. -/
def besideOperands (m : Machine) : Stake :=
  m.calls.stake + m.scopes.stake + m.pending.elim 0 PendingException.stake

/-- What the machine holds besides its call frames. -/
def besideCalls (m : Machine) : Stake :=
  m.operands.stake + m.scopes.stake + m.pending.elim 0 PendingException.stake

/-- What the machine holds besides its scopes. -/
def besideScopes (m : Machine) : Stake :=
  m.operands.stake + m.calls.stake + m.pending.elim 0 PendingException.stake

theorem stake_eq_operands (m : Machine) (x : Stake) :
    m.stake + x = m.besideOperands + x + m.operands.stake := by
  rw [stake, besideOperands]
  abel

theorem stake_eq_calls (m : Machine) (x : Stake) :
    m.stake + x = m.besideCalls + x + m.calls.stake := by
  rw [stake, besideCalls]
  abel

theorem stake_eq_scopes (m : Machine) (x : Stake) :
    m.stake + x = m.besideScopes + x + m.scopes.stake := by
  rw [stake, besideScopes]
  abel

/-! ### Frames that keep their locals -/

theorem steady_of_frames
    (hframes : ∀ index < n, (m'.calls.frame? index).bind Frame.locals =
      (m.calls.frame? index).bind Frame.locals)
    (hkeeps : ∀ index < n, ∀ f i, m.calls.frame? index = some f → f.locals = some i →
      m'.memory.heap.content? i = m.memory.heap.content? i) : m.Steady n m' := by
  intro index hi
  rw [localObject?, localObject?, hframes index hi]
  cases hf : m.calls.frame? index with
  | none => rfl
  | some f =>
    cases hl : f.locals with
    | none => simp [hl]
    | some i =>
      have := hkeeps index hi f i hf hl
      simp only [Option.bind_some, hl]
      rw [Heap.object?_eq_join, this, ← Heap.object?_eq_join]

theorem steady_of_keeps
    (hframes : ∀ index < n, (m'.calls.frame? index).bind Frame.locals =
      (m.calls.frame? index).bind Frame.locals)
    (hkeeps : ∀ i ∈ m.stake.locals,
      m'.memory.heap.content? i = m.memory.heap.content? i) : m.Steady n m' :=
  steady_of_frames hframes fun _ _ _ i hf hl => hkeeps i (mem_locals_stake hf hl)

theorem steady_of_loses {z : Stake} (loses : m.memory.Loses z m'.memory)
    (hz : ∀ i ∈ m.stake.locals, i ∈ z.locals)
    (hframes : ∀ index < n, (m'.calls.frame? index).bind Frame.locals =
      (m.calls.frame? index).bind Frame.locals) : m.Steady n m' :=
  steady_of_keeps hframes fun i hi =>
    loses.keeps _ (Heap.supports_holders z _) i (Stake.holders_pos_of_local (hz i hi))

theorem locals_stake (m : Machine) : m.stake.locals = m.calls.stake.locals := by simp [stake]

/-! ### Operands -/

/-- A request that is refused may have given references up. -/
theorem Sound.of_released {σ : ℕ → Label} (h : m.Sound Γ n x)
    (hc : m.memory.Classified Γ σ (m.stake + x)) (sum : m.stake + x = y)
    (released : Memory.Released Γ.total σ y m.memory μ) :
    Machine.Sound Γ n x { m with memory := μ } ∧ m.Steady n { m with memory := μ } := by
  obtain ⟨hb, loses⟩ := released
  subst sum
  exact ⟨h.withMemory (.of_loses h.memory.present hc hb loses rfl),
    steady_of_loses loses (fun i hi => by simp [hi]) fun _ _ => rfl⟩

/-- The machine with other operands. -/
theorem Sound.withOperands {σ : ℕ → Label} {s : Sequence} (h : m.Sound Γ n x)
    (hc : m.memory.Classified Γ σ (m.stake + x)) (hs : m.operands.Resized s)
    (hb : μ.Balanced Γ.total σ (m.besideOperands + x + s.stake))
    (loses : m.memory.Loses (m.besideOperands + x) μ) :
    Machine.Sound Γ n x { m with memory := μ, operands := s } ∧
      m.Steady n { m with memory := μ, operands := s } := by
  obtain ⟨⟨c, hreserve⟩, sized⟩ := hs
  set m' : Machine := { m with memory := μ, operands := s } with hm'
  have sum := stake_eq_operands m x
  have sum' : m'.stake + x = m.besideOperands + x + s.stake := stake_eq_operands m' x
  refine ⟨{ h with
    memory := ?_
    operands := sized
    accounts := ⟨by rw [hm', hreserve]; exact h.accounts.1, h.accounts.2⟩ }, ?_⟩
  · rw [sum']
    exact .of_loses h.memory.present hc hb loses (by rw [sum]; simp)
  · -- operands are no locals, so those of the frames are all still held
    refine steady_of_loses loses (fun i hi => ?_) fun _ _ => rfl
    rw [locals_stake] at hi
    simp [besideOperands, hi]

theorem exchangeOperands_meets {drop : ℕ} {values : List Value} (h : m.Sound Γ n x)
    (hv : ∀ v ∈ values, m.Knows x v) :
    (exchangeOperands drop values m).Meets lax
      (fun _ m' => m'.Sound Γ n x ∧ m.Steady n m' ∧ m'.calls = m.calls)
      fun m' => m'.Sound Γ n x ∧ m.Steady n m' := by
  obtain ⟨present, σ, hb, hc⟩ := h.memory
  have sum := stake_eq_operands m x
  refine meets_onOperands ((Sequence.exchange_meets (x := m.besideOperands + x) drop values
    (by rwa [← sum]) (by rwa [← sum]) (.inr (present.outSupported _))).mono ?_ ?_)
  · rintro s μ ⟨⟨resized, -⟩, hb', loses⟩
    obtain ⟨sound, steady⟩ := h.withOperands hc resized hb' loses
    exact ⟨sound, steady, rfl⟩
  · exact fun μ released => h.of_released hc sum released.1

theorem clearOperands_meets {F : Machine → Prop} (h : m.Sound Γ n x) :
    (clearOperands m).Meets lax (fun _ m' => m'.Sound Γ n x ∧ m.Steady n m') F := by
  obtain ⟨present, σ, hb, hc⟩ := h.memory
  have sum := stake_eq_operands m x
  refine meets_onOperands ((Sequence.clear_meets (x := m.besideOperands + x)
    (by rwa [← sum]) h.operands (.inr (present.outSupported _))).always ?_)
  rintro s μ ⟨⟨resized, -⟩, hb', loses⟩
  exact h.withOperands hc resized hb' loses

/-! ### Creators -/

/-- A creator gives its reference up. -/
theorem release_meets {F : Machine → Prop} (h : m.Sound Γ n (x + .refs [v])) :
    (release v m).Meets lax
      (fun _ m' => m'.Sound Γ n x ∧ m.Steady n m' ∧ m.SameStacks m') F := by
  obtain ⟨present, σ, hb, hc⟩ := h.memory
  rw [← add_assoc] at hb hc
  refine meets_onMemory ((Memory.release_meets hb (.inr (present.outSupported _))).mono ?_
    fun _ h => h.elim)
  rintro _ μ ⟨hb', loses⟩
  refine ⟨h.withMemory (.of_loses present hc hb' loses (by simp)), ?_, rfl⟩
  exact steady_of_loses loses (fun i hi => by simp [hi]) fun _ _ => rfl

/-- The reference of the creator goes whether the value found its place or not. -/
theorem adopt_meets {drop : ℕ} (h : m.Sound Γ n (x + .refs [v])) :
    (adopt drop v m).Meets lax (fun _ m' => m'.Sound Γ n x ∧ m.Steady n m')
      fun m' => m'.Sound Γ n x ∧ m.Steady n m' := by
  refine Action.meets_ensuring (exchangeOperands_meets h fun w hw => ?_) ?_ ?_
  · obtain rfl : w = v := by simpa using hw
    exact knows_of_pinned (by simp)
  · rintro _ m₁ ⟨h₁, steady, -⟩
    refine (release_meets (F := fun _ => False) h₁).always ?_
    exact fun _ m₂ ⟨h₂, steady₂, _⟩ => ⟨h₂, steady.trans steady₂⟩
  · rintro m₁ ⟨h₁, steady⟩
    refine (release_meets (F := fun _ => False) h₁).always ?_
    exact fun _ m₂ ⟨h₂, steady₂, _⟩ => ⟨h₂, steady.trans steady₂⟩

/-! ### Describing frames -/

/-- The call trail can be told: every value in a frame is there. -/
theorem Sound.trail_ok (h : m.Sound Γ n x) : ∃ lines, m.trail = .ok lines := by
  obtain ⟨present, σ, hb, -⟩ := h.memory
  refine exists_mapM_ok m.calls.frames fun f hf => ?_
  have text : ∃ text, m.memory.format f.value = .ok text :=
    hb.format_ok present (knows_of_frame hf)
  unfold describe
  by_cases hsupply : f.supply.isSome
  · rw [if_pos hsupply]
    exact ⟨_, rfl⟩
  · rw [if_neg hsupply]
    cases hdatum : f.value.datum with
    | string _ executable =>
      cases executable
      · exact exists_bind_ok text fun _ => ⟨_, rfl⟩
      · exact ⟨_, rfl⟩
    | array _ access =>
      cases access
      · exact ⟨_, rfl⟩
      · exact exists_bind_ok text fun _ => ⟨_, rfl⟩
      · exact exists_bind_ok text fun _ => ⟨_, rfl⟩
    | null | boolean | integer | name | mark | operator | dictionary =>
      exact exists_bind_ok text fun _ => ⟨_, rfl⟩

theorem Sound.allocationTrail_ok (h : m.Sound Γ n x) : ∃ lines, m.allocationTrail = .ok lines := by
  unfold allocationTrail
  split
  · exact h.trail_ok
  · exact ⟨[], rfl⟩

/-! ### Creating containers -/

/-- The permanent scopes are held by the stack of scopes. -/
theorem Sound.mem_values_of_permanent (h : m.Sound Γ n x) (hv : v ∈ Γ.permanent) :
    v ∈ (m.stake + x).values := by
  rw [Stake.values_add, Multiset.mem_add]
  exact .inl (mem_values_stake_of_scope (h.permanent.subset hv))

/-- What creating a value leaves: its creator holds the reference. -/
structure Gained (Γ : Charter) (n : ℕ) (x : Stake) (m : Machine) (v : Value) (m' : Machine) :
    Prop where
  sound : m'.Sound Γ n (x + .refs [v])
  steady : m.Steady n m'
  same : m.SameStacks m'

theorem Sound.gained {l : Label} {i : ℕ} {σ : ℕ → Label} (h : m.Sound Γ n x)
    (hc : m.memory.Classified Γ σ (m.stake + x))
    (created : Memory.Created Γ.total σ (m.stake + x) m.memory l i μ) (hl : l.account = .user)
    (hv : v.handle? = some i) (hs : v.string? = none) (hk : v.kind = l.kind) :
    m.Gained Γ n x v { m with memory := μ } := by
  refine ⟨h.withMemory ?_, steady_of_keeps (fun _ _ => rfl) fun j hj => created.keeps j ?_, rfl⟩
  · rw [← add_assoc]
    exact .of_created h.memory.present hc (fun w hw => h.mem_values_of_permanent hw) created
      (Stake.pointsTo_ref hv hs hk) (.inl hl)
  · exact Stake.holders_pos_of_local (by simp [hj])

theorem createArray_meets {access : Access} {items : List Value} (h : m.Sound Γ n x)
    (hv : ∀ v ∈ items, m.Knows x v) :
    (createArray access items m).Meets lax
      (fun v m' => (∃ i, v = .array i access) ∧ m.Gained Γ n x v m')
      fun m' => m'.Sound Γ n x ∧ m.Steady n m' := by
  obtain ⟨lines, hlines⟩ := h.allocationTrail_ok
  obtain ⟨present, σ, hb, hc⟩ := h.memory
  rw [createArray, Action.get_bind]
  refine Action.meets_bind (Action.meets_ofSound (P := fun _ m' => m' = m) hlines rfl) ?_
  rintro trail _ rfl
  refine meets_onMemory_bind ((Memory.newArray_meets hb hv (.inr (present.outSupported _)) .user
    trail).mono (fun i μ created => ?_) fun μ released => ?_)
  · exact ⟨⟨i, rfl⟩, h.gained hc created rfl rfl rfl rfl⟩
  · exact h.of_released hc rfl released

theorem createFilledArray_meets {access : Access} {length : ℕ} (h : m.Sound Γ n x)
    (hv : m.Knows x v) :
    (createFilledArray access length v m).Meets lax
      (fun w m' => (∃ i, w = .array i access) ∧ m.Gained Γ n x w m')
      fun m' => m'.Sound Γ n x ∧ m.Steady n m' := by
  obtain ⟨lines, hlines⟩ := h.allocationTrail_ok
  obtain ⟨present, σ, hb, hc⟩ := h.memory
  rw [createFilledArray, Action.get_bind]
  refine Action.meets_bind (Action.meets_ofSound (P := fun _ m' => m' = m) hlines rfl) ?_
  rintro trail _ rfl
  refine meets_onMemory_bind ((Memory.newFilledArray_meets hb hv (.inr (present.outSupported _))
    .user length trail).mono (fun i μ created => ?_) fun μ released => ?_)
  · exact ⟨⟨i, rfl⟩, h.gained hc created rfl rfl rfl rfl⟩
  · exact h.of_released hc rfl released

theorem createDictionary_meets (h : m.Sound Γ n x) :
    (createDictionary m).Meets lax
      (fun v m' => (∃ i, v = .dictionary i true) ∧ m.Gained Γ n x v m')
      fun m' => m'.Sound Γ n x ∧ m.Steady n m' := by
  obtain ⟨lines, hlines⟩ := h.allocationTrail_ok
  obtain ⟨present, σ, hb, hc⟩ := h.memory
  rw [createDictionary, Action.get_bind]
  refine Action.meets_bind (Action.meets_ofSound (P := fun _ m' => m' = m) hlines rfl) ?_
  rintro trail _ rfl
  refine meets_onMemory_bind ((Memory.newDictionary_meets hb .user trail).mono
    (fun i μ created => ?_) ?_)
  · exact ⟨⟨i, rfl⟩, h.gained hc created rfl rfl rfl rfl⟩
  · rintro _ rfl
    exact ⟨h, .refl n _⟩

/-! ### Modifying containers -/

/-- Held by something else than itself, so that it can be modified in place. -/
def Anchored (x : Stake) (m : Machine) (v : Value) : Prop :=
  ∀ i, v.handle? = some i → m.memory.heap.Anchored (m.stake + x) i

theorem anchored_of_mem (hv : v ∈ (m.stake + x).values) : m.Anchored x v := fun _ hi =>
  Heap.anchored_of_holders (Stake.holders_pos_of_mem hv hi)

theorem anchored_of_pinned (hv : v ∈ x.values) : m.Anchored x v :=
  anchored_of_mem (by simp [hv])

theorem anchored_of_scope (hv : v ∈ m.scopes.items) : m.Anchored x v :=
  anchored_of_mem (by simp [mem_values_stake_of_scope hv])

/-- What a modification in place leaves. -/
structure Altered (Γ : Charter) (n : ℕ) (x : Stake) (m m' : Machine) : Prop where
  sound : m'.Sound Γ n x
  steady : m.Steady n m'
  same : m.SameStacks m'

theorem Sound.altered {i : ℕ} {o : Object} {σ : ℕ → Label} (h : m.Sound Γ n x)
    (hc : m.memory.Classified Γ σ (m.stake + x)) (hi : i ∉ (m.stake + x).locals)
    (modified : Memory.Modified Γ.total σ (m.stake + x) m.memory i o μ) :
    m.Altered Γ n x { m with memory := μ } := by
  refine ⟨h.withMemory (.of_modified hc modified), steady_of_keeps (fun _ _ => rfl) fun j hj => ?_,
    rfl⟩
  have hj : j ∈ (m.stake + x).locals := by simp [hj]
  refine modified.alters.keeps j ?_ (Stake.holders_pos_of_local hj)
  rintro rfl
  exact hi hj

theorem setItem_meets {container : Value} {index : ℕ} (h : m.Sound Γ n x)
    (hcontainer : m.Knows x container) (ha : lax ∨ m.Anchored x container) (hv : m.Knows x v) :
    (setItem container index v m).Meets lax (fun _ m' => m.Altered Γ n x m')
      fun m' => m'.Sound Γ n x ∧ m.Steady n m' := by
  unfold setItem
  cases hdatum : container.datum with
  | array i access =>
    cases access with
    | mutable =>
      have hi : container.handle? = some i := by rw [Value.handle?, hdatum]
      obtain ⟨present, σ, hb, hc⟩ := h.memory
      obtain ⟨s, ho⟩ := hb.array_of_known present hcontainer hdatum
      have hlocals := hb.not_mem_locals_of_known hcontainer hi
      refine meets_onMemory ((Memory.setItem_meets hb present ho
        (ha.imp_right fun ha => ha i hi) hv).mono ?_ ?_)
      · exact fun _ μ modified => h.altered hc hlocals modified
      · intro μ modified
        have altered := h.altered hc hlocals modified
        exact ⟨altered.sound, altered.steady⟩
    | block | literal => exact ⟨h, .refl n m⟩
  | null | boolean | integer | string | name | mark | operator | dictionary =>
    exact ⟨h, .refl n m⟩

theorem define_meets {container : Value} {name : String} (h : m.Sound Γ n x)
    (hcontainer : m.Knows x container) (ha : lax ∨ m.Anchored x container) (hv : m.Knows x v) :
    (define container name v m).Meets lax (fun _ m' => m.Altered Γ n x m')
      fun m' => m'.Sound Γ n x ∧ m.Steady n m' := by
  unfold define
  cases hdatum : container.datum with
  | dictionary i writable =>
    cases writable with
    | true =>
      have hi : container.handle? = some i := by rw [Value.handle?, hdatum]
      have hk : container.kind = .dictionary := by rw [Value.kind, hdatum]; rfl
      obtain ⟨present, σ, hb, hc⟩ := h.memory
      obtain ⟨d, ho⟩ := hb.dictionary_of_known present hcontainer hk hi
      have hlocals := hb.not_mem_locals_of_known hcontainer hi
      refine meets_onMemory ((Memory.define_meets hb present ho
        (ha.imp_right fun ha => ha i hi) hv).mono ?_ ?_)
      · exact fun _ μ modified => h.altered hc hlocals modified
      · intro μ modified
        have altered := h.altered hc hlocals modified
        exact ⟨altered.sound, altered.steady⟩
    | false => exact ⟨h, .refl n m⟩
  | null | boolean | integer | string | name | mark | operator | array => exact ⟨h, .refl n m⟩

end Machine

end StackScript
