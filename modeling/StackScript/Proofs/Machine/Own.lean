import StackScript.Proofs.Machine.Frames

/-!
# The frame of an operator and the pending exception

What an operator can do to its own frame: move it along the continuation protocol, bind locals, and
set the pending exception aside in it.  The charge of an exception moves with its record, from the
machine to a frame and back, and is given back once, when the record is dropped.
-/

namespace StackScript

namespace Machine

variable {Γ : Charter} {n index : ℕ} {x y : Stake} {m m' : Machine} {μ : Memory} {v w : Value}
  {f : Frame} {name other : String} {lax : Prop} {F : Machine → Prop}

/-! ### Changing a frame -/

theorem Sound.exists_frame (h : m.Sound Γ n x) (hi : index < n) :
    ∃ f, m.calls.frame? index = some f :=
  CallStack.frame?_isSome (hi.trans_le h.depth)

theorem frame_of_frame? (hf : m.calls.frame? index = some f) : m.frame index = .ok f := by
  rw [frame, hf]

theorem frame_bind {α : Type} (hf : m.calls.frame? index = some f) (k : Frame → Action Machine α) :
    ((liftM (m.frame index) : Action Machine Frame) >>= k) m = k f m := by
  rw [frame_of_frame? hf]
  rfl

theorem lt_length_of_frame? (hf : m.calls.frame? index = some f) : index < m.calls.length := by
  by_contra hi
  rw [CallStack.frame?, if_neg hi] at hf
  cases hf

/-- The machine with another frame in the place of one. -/
def withFrame (m : Machine) (index : ℕ) (g : Frame → Frame) : Machine :=
  { m with calls := m.calls.update index g }

theorem updateFrame_eq (hf : m.calls.frame? index = some f) (g : Frame → Frame) :
    updateFrame index g m = .done () (m.withFrame index g) := by
  rw [updateFrame, Action.get_bind, frame_bind hf]
  rfl

/-- A transition that the protocol has. -/
theorem setState_eq {next : Continuation} (hf : m.calls.frame? index = some f)
    (hnext : f.state.canBecome next = true) :
    setState index next m = .done () (m.withFrame index fun f => { f with state := next }) := by
  rw [setState, Action.get_bind, frame_bind hf, if_pos hnext, updateFrame_eq hf]

theorem frame?_withFrame (hf : m.calls.frame? index = some f) (g : Frame → Frame) :
    (m.withFrame index g).calls.frame? index = some (g f) := by
  rw [withFrame, CallStack.frame?_update (lt_length_of_frame? hf), if_pos rfl, hf]
  rfl

theorem stake_withFrame (hf : m.calls.frame? index = some f) (g : Frame → Frame) :
    (m.withFrame index g).stake + f.stake = m.stake + (g f).stake := by
  have key := CallStack.stake_update hf g
  have rearranged (a b c d e : Stake) : a + b + c + d + e = a + c + d + (b + e) := by abel
  rw [stake, stake, rearranged, rearranged, withFrame, key]

/-- What the frame gains is no longer held by others. -/
theorem Sound.withFrame {g : Frame → Frame} (h : m.Sound Γ n x)
    (hf : m.calls.frame? index = some f) (hstake : (g f).stake + y = f.stake + x)
    (hs : ∀ s, (g f).supply = some s → Γ.supplies s) : (m.withFrame index g).Sound Γ n y := by
  have hi := lt_length_of_frame? hf
  refine { h with
    memory := ?_
    depth := by simpa [Machine.withFrame] using h.depth
    calls := by simpa [Machine.withFrame] using h.calls
    accounts := by simpa [Machine.withFrame] using h.accounts
    supplied := ?_ }
  · have : (m.withFrame index g).stake + y = m.stake + x := by
      refine add_right_cancel (b := f.stake) ?_
      rw [add_right_comm, stake_withFrame hf, add_assoc, hstake, add_right_comm, add_assoc,
        add_comm f.stake, ← add_assoc, add_right_comm]
    rw [this]
    exact h.memory
  · intro f' hf' s hsupply
    rw [← List.mem_reverse, Machine.withFrame, CallStack.frames_update hi] at hf'
    obtain ⟨k, hk⟩ := List.mem_iff_getElem?.1 hf'
    rw [List.getElem?_modify] at hk
    cases hget : m.calls.frames.reverse[k]? with
    | none => simp [hget] at hk
    | some f₀ =>
      have hmem : f₀ ∈ m.calls.frames := List.mem_reverse.1 (List.mem_of_getElem? hget)
      rw [hget] at hk
      -- the frame that is changed, or one that stays
      by_cases hik : index = k
      · subst hik
        rw [CallStack.frame?_eq_getElem?, hget] at hf
        obtain rfl := Option.some.inj hf
        obtain rfl : g f₀ = f' := by simpa using hk
        exact hs s hsupply
      · obtain rfl : f₀ = f' := by simpa [hik] using hk
        exact h.supplied f₀ hmem s hsupply

/-- The other frames stay, and so do the locals of the frame if it keeps them. -/
theorem localObject?_withFrame {g : Frame → Frame} (hf : m.calls.frame? index = some f) (k : ℕ)
    (hk : k ≠ index ∨ (g f).locals = f.locals) :
    (m.withFrame index g).localObject? k = m.localObject? k := by
  rw [localObject?, localObject?, withFrame, CallStack.frame?_update (lt_length_of_frame? hf)]
  by_cases hik : index = k
  · subst hik
    rw [if_pos rfl, hf]
    simp only [Option.map_some, Option.bind_some, hk.resolve_left (absurd rfl)]
  · rw [if_neg hik]

theorem steady_withFrame {g : Frame → Frame} (hf : m.calls.frame? index = some f)
    (hl : (g f).locals = f.locals) : m.Steady n (m.withFrame index g) := fun k _ =>
  localObject?_withFrame hf k (.inr hl)

theorem setState_meets {next : Continuation} (h : m.Sound Γ n x) (hi : index < n) :
    (setState index next m).Meets lax
      (fun _ m' => m'.Sound Γ n x ∧ m.Steady n m' ∧ m'.operands = m.operands)
      fun m' => m'.Sound Γ n x ∧ m.Steady n m' := by
  obtain ⟨f, hf⟩ := h.exists_frame hi
  by_cases hnext : f.state.canBecome next = true
  · rw [setState_eq hf hnext]
    exact ⟨h.withFrame hf rfl fun s hs => h.supplied f (CallStack.mem_frames_of_frame? hf) s hs,
      steady_withFrame hf rfl, rfl⟩
  · rw [setState, Action.get_bind, frame_bind hf, if_neg hnext]
    exact ⟨h, .refl n m⟩

/-! ### Locals -/

/-- A name is bound to a value among the locals of a frame. -/
def LocalIs (m : Machine) (index : ℕ) (name : String) (v : Value) : Prop :=
  ∃ d, m.localObject? index = some (.dictionary d) ∧ d.get? name = some v

theorem LocalIs.unique (h : m.LocalIs index name v) (h' : m.LocalIs index name w) : v = w := by
  obtain ⟨d, hd, hv⟩ := h
  obtain ⟨d', hd', hw⟩ := h'
  rw [hd] at hd'
  obtain rfl : d = d' := by simpa using hd'
  rw [hv] at hw
  exact Option.some.inj hw

theorem LocalIs.of_steady (h : m.LocalIs index name v) (steady : m.Steady n m') (hi : index < n) :
    m'.LocalIs index name v := by
  obtain ⟨d, hd, hv⟩ := h
  exact ⟨d, (steady index hi).trans hd, hv⟩

theorem LocalIs.knows (h : m.LocalIs index name v) : m.Knows x v := by
  obtain ⟨d, hd, hv⟩ := h
  obtain ⟨i, -, ho⟩ := Option.bind_eq_some_iff.1 hd
  exact Memory.knows_of_get? ho hv

/-- What is bound among the locals of a frame is held by something else than itself: no known value
refers to the locals of a frame. -/
theorem Sound.anchored_of_local (h : m.Sound Γ n x) (hl : m.LocalIs index name v) :
    m.Anchored x v := by
  intro i hi
  obtain ⟨present, σ, hb, -⟩ := h.memory
  obtain ⟨d, hd, hv⟩ := hl
  obtain ⟨k, hk, ho⟩ := Option.bind_eq_some_iff.1 hd
  obtain ⟨f, hf, hlocals⟩ := Option.bind_eq_some_iff.1 hk
  have held : k ∈ (m.stake + x).locals := by simp [mem_locals_stake hf hlocals]
  have hne : k ≠ i := by
    rintro rfl
    exact hb.not_mem_locals_of_known (LocalIs.knows ⟨d, hd, hv⟩) hi held
  refine ⟨fun j => j = i ∨ j = k, .inl rfl, ?_⟩
  rintro j (rfl | rfl)
  · exact .inr ⟨k, .dictionary d, hne, .inr rfl, ho, v, Dictionary.mem_values_of_get? hv, hi⟩
  · exact .inl (Stake.holders_pos_of_local held)

/-- No two frames bind their locals in the same dictionary. -/
theorem Sound.locals_ne {j k : ℕ} {g : Frame} {i : Handle} (h : m.Sound Γ n x)
    (hf : m.calls.frame? j = some f) (hg : m.calls.frame? k = some g) (hjk : j ≠ k)
    (hi : f.locals = some i) : g.locals ≠ some i := by
  intro hl
  obtain ⟨present, σ, hb, -⟩ := h.memory
  -- without the locals of the one frame, those of the other are still there
  set bare : Frame → Frame := fun f => { f with locals := none } with hbare
  have hg' : (m.withFrame j bare).calls.frame? k = some g := by
    rw [Machine.withFrame, CallStack.frame?_update (lt_length_of_frame? hf), if_neg hjk, hg]
  have key := congrArg (fun y : Stake => y.locals.count i) (stake_withFrame hf bare)
  have bare_count : (bare f).stake.locals.count i = 0 := by
    rw [Multiset.count_eq_zero, Frame.mem_locals_stake]
    exact nofun
  have count : 0 < f.stake.locals.count i := Multiset.count_pos.2 (Frame.mem_locals_stake.2 hi)
  have count' : 0 < (m.withFrame j bare).stake.locals.count i :=
    Multiset.count_pos.2 (mem_locals_stake hg' hl)
  simp only [Stake.locals_add, Multiset.count_add, bare_count] at key
  have one := (hb.locals i (by simp [mem_locals_stake hf hi])).2
  rw [hb.holders, Stake.holders, Stake.locals_add, Stake.locals_add, Multiset.count_add,
    Multiset.count_add] at one
  omega

/-- Reading a local violates no invariant, and what is read is known. -/
theorem Sound.localOf_ok (h : m.Sound Γ n x) (hf : m.calls.frame? index = some f) (name : String) :
    ∃ r, m.localOf f name = .ok r ∧ ∀ v, r = some v ↔ m.LocalIs index name v := by
  obtain ⟨present, σ, hb, -⟩ := h.memory
  have located (i : Handle) (hl : f.locals = some i) :
      m.localObject? index = m.memory.heap.object? i := by
    rw [localObject?, hf]
    simp [hl]
  cases hl : f.locals with
  | none =>
    refine ⟨none, by rw [localOf, hl]; rfl, fun v => ⟨(by intro hv; cases hv), ?_⟩⟩
    rintro ⟨d, hd, -⟩
    rw [localObject?, hf] at hd
    simp [hl] at hd
  | some i =>
    obtain ⟨d, ho⟩ := hb.dictionary_of_locals present (i := i) (by
      rw [Stake.locals_add, Multiset.mem_add]
      exact .inl (mem_locals_stake hf hl))
    refine ⟨d.get? name, ?_, fun v => ⟨fun hv => ⟨d, (located i hl).trans ho, hv⟩, ?_⟩⟩
    · rw [localOf, hl]
      change ((m.memory.dictionary i) >>= fun d => pure (d.get? name)) = _
      rw [bind_of_ok (Memory.dictionary_of_object? ho)]
      rfl
    · rintro ⟨d', hd', hv⟩
      rw [located i hl, ho] at hd'
      obtain rfl : d = d' := by simpa using hd'
      exact hv

/-- The locals of a frame are created when the first of them is bound. -/
theorem ensureLocals_meets (h : m.Sound Γ n x) (hi : index < n) :
    (ensureLocals index m).Meets lax
      (fun i m' => (m'.Sound Γ n x ∧ m.Steady index m') ∧
        (∃ f, m'.calls.frame? index = some f ∧ f.locals = some i) ∧
        (m' = m ∨ m.localObject? index = none) ∧ ∀ v, m.Knows x v → m'.Knows x v)
      fun m' => m' = m := by
  obtain ⟨f, hf⟩ := h.exists_frame hi
  rw [ensureLocals, Action.get_bind, frame_bind hf]
  cases hl : f.locals with
  | some i => exact ⟨⟨h, .refl index m⟩, ⟨f, hf, hl⟩, .inl rfl, fun _ => id⟩
  | none =>
    obtain ⟨present, σ, hb, hc⟩ := h.memory
    refine meets_onMemory_bind (((Memory.newDictionary_meets hb .system _).and
      (Memory.newDictionary_values hb .system _)).mono (fun i μ ⟨created, held⟩ => ?_) ?_)
    · have sound : μ.Sound Γ (m.stake + (x + .localsAt i)) := by
        rw [← add_assoc]
        exact .of_created present hc (fun v hv => h.mem_values_of_permanent hv) created
          (Stake.pointsTo_localsAt i) (.inr ⟨rfl, by simp⟩)
      set m₁ : Machine := { m with memory := μ } with hm₁
      have h₁ : m₁.Sound Γ n (x + .localsAt i) := h.withMemory sound
      have hf₁ : m₁.calls.frame? index = some f := hf
      rw [Action.bind_done (updateFrame_eq hf₁ _)]
      refine ⟨⟨h₁.withFrame hf₁ ?_ fun s hs =>
        h.supplied f (CallStack.mem_frames_of_frame? hf) s hs, fun k hk => ?_⟩,
        ⟨_, frame?_withFrame hf₁ _, rfl⟩, .inr ?_, ?_⟩
      · rw [Frame.stake, Frame.stake, Frame.extras, Frame.extras, hl]
        simp only [Option.elim_some, Option.elim_none, zero_add]
        abel
      · -- the new dictionary is not one that was there
        have steady : m.Steady n m₁ := steady_of_keeps (fun _ _ => rfl) fun j hj =>
          created.keeps j (Stake.holders_pos_of_local (by simp [hj]))
        exact (localObject?_withFrame hf₁ k (.inl hk.ne)).trans (steady k (hk.trans hi))
      · rw [localObject?, hf]
        simp [hl]
      · intro v hv
        have values := congrArg Stake.values
          (stake_withFrame hf₁ fun f => { f with locals := some i })
        refine hv.mono fun w hw => ?_
        simp only [Stake.values_add, Frame.values_stake, add_left_inj] at values
        rw [Stake.values_add, Stake.values_add] at hw ⊢
        rw [values]
        exact (congrArg (w ∈ m.stake.values + x.values + ·) held).mpr hw
    · rintro _ ⟨rfl, -⟩
      rfl

/-- **Binding a local.**  The others stay as they are, and so do those of the frames below; all do if
it fails. -/
theorem setLocal_meets (h : m.Sound Γ n x) (hi : index < n) (hv : m.Knows x v) :
    (setLocal index name v m).Meets lax
      (fun _ m' => (m'.Sound Γ n x ∧ m.Steady index m') ∧ m'.LocalIs index name v ∧
        ∀ other w, other ≠ name → m.LocalIs index other w → m'.LocalIs index other w)
      fun m' => (m'.Sound Γ n x ∧ m.Steady index m') ∧
        ∀ other w, m.LocalIs index other w → m'.LocalIs index other w := by
  refine Action.meets_bind ((ensureLocals_meets h hi).mono (fun _ _ => id) ?_) ?_
  · rintro _ rfl
    exact ⟨⟨h, .refl index _⟩, fun _ _ => id⟩
  rintro i m₁ ⟨⟨h₁, steady₁⟩, ⟨f, hf, hl⟩, kept, knows⟩
  obtain ⟨present, σ, hb, hc⟩ := h₁.memory
  have hloc : i ∈ (m₁.stake + x).locals := by
    rw [Stake.locals_add, Multiset.mem_add]
    exact .inl (mem_locals_stake hf hl)
  obtain ⟨d, ho⟩ := hb.dictionary_of_locals present hloc
  have anchored : m₁.memory.heap.Anchored (m₁.stake + x) i :=
    Heap.anchored_of_holders (Stake.holders_pos_of_local hloc)
  have known : m₁.Knows x v := knows v hv
  have located (m' : Machine) (hcalls : m'.calls = m₁.calls) :
      m'.localObject? index = m'.memory.heap.object? i := by
    rw [localObject?, hcalls, hf]
    simp [hl]
  have below {μ : Memory} {o : Object}
      (modified : Memory.Modified Γ.total σ (m₁.stake + x) m₁.memory i o μ) :
      m.Steady index { m₁ with memory := μ } := by
    refine steady₁.trans (steady_of_frames (fun _ _ => rfl) fun k hk g j hg hj => ?_)
    refine modified.alters.keeps j ?_ (Stake.holders_pos_of_local (by
      simp [mem_locals_stake hg hj]))
    rintro rfl
    exact h₁.locals_ne hf hg hk.ne' hl hj
  -- new locals hold nothing
  have entry (other : String) (w : Value) (h : m.LocalIs index other w) : d.get? other = some w := by
    obtain ⟨d', hd', hw⟩ := h
    rcases kept with rfl | unbound
    · rw [located m₁ rfl, ho] at hd'
      obtain rfl : d = d' := by simpa using hd'
      exact hw
    · rw [unbound] at hd'
      cases hd'
  have object {μ : Memory} {o : Object}
      (modified : Memory.Modified Γ.total σ (m₁.stake + x) m₁.memory i o μ) :
      Machine.localObject? { m₁ with memory := μ } index = some o :=
    (located { m₁ with memory := μ } rfl).trans modified.object
  refine meets_onMemory ((Memory.define_meets hb present ho (.inr anchored) known).mono ?_ ?_)
  · intro _ μ modified
    refine ⟨⟨h₁.withMemory (.of_modified hc modified), below modified⟩,
      ⟨_, object modified, TextMap.find?_put_self d.entries name v⟩, fun other w hne hother => ?_⟩
    exact ⟨_, object modified,
      (TextMap.find?_put_ne d.entries (Ne.symm hne) v).trans (entry other w hother)⟩
  · exact fun μ modified => ⟨⟨h₁.withMemory (.of_modified hc modified), below modified⟩,
      fun other w hother => ⟨d, object modified, entry other w hother⟩⟩

/-! ### Block definitions -/

theorem openBlock_meets (h : m.Sound Γ n x) :
    (openBlock m).Meets lax (fun _ m' => m'.Sound Γ n x ∧ m.Steady n m') F :=
  ⟨{ h with }, .refl n m⟩

theorem closeBlock_meets (h : m.Sound Γ n x) :
    (closeBlock m).Meets lax (fun _ m' => m'.Sound Γ n x ∧ m.Steady n m') F :=
  ⟨{ h with }, .refl n m⟩

/-! ### The pending exception -/

/-- What the machine holds besides the charge of the pending exception. -/
def besidePending (m : Machine) : Stake := m.operands.stake + m.calls.stake + m.scopes.stake

theorem stake_eq_pending (m : Machine) (x : Stake) :
    m.stake + x = m.besidePending + x + m.pending.elim 0 PendingException.stake := by
  rw [stake, besidePending]
  abel

/-- A record that is dropped gives its charge back. -/
theorem discharge_meets {σ : ℕ → Label} {p : Option PendingException}
    (hb : m.memory.Balanced Γ.total σ (y + p.elim 0 PendingException.stake)) :
    (discharge p m).Meets lax
      (fun _ m' => ∃ μ : Memory, m' = { m with memory := μ } ∧ μ.Balanced Γ.total σ y ∧
        m.memory.SameObjects μ) F := by
  cases p with
  | none =>
    rw [Option.elim_none, add_zero] at hb
    exact ⟨m.memory, rfl, hb, .refl _⟩
  | some p =>
    exact meets_onMemory ((PendingException.discharge_meets (F := fun _ => False) hb).mono
      (fun _ μ h => ⟨μ, rfl, h⟩) fun _ h => h.elim)

/-- The machine with another pending exception, and another memory that holds the same objects. -/
theorem Sound.withPending {σ : ℕ → Label} {p : Option PendingException} (h : m.Sound Γ n x)
    (hc : m.memory.Classified Γ σ (m.stake + x)) (depth : ℕ)
    (hb : μ.Balanced Γ.total σ (m.besidePending + x + p.elim 0 PendingException.stake))
    (same : m.memory.SameObjects μ) :
    Machine.Sound Γ n x { m with memory := μ, pending := p, blockDepth := depth } := by
  refine { h with memory := ?_ }
  rw [stake_eq_pending]
  refine .of_loses h.memory.present hc hb (same.loses 0) ?_
  rw [stake_eq_pending]
  simp [besidePending]

theorem steady_of_same (same : m.memory.SameObjects m'.memory) (hcalls : m'.calls = m.calls) :
    m.Steady n m' :=
  steady_of_keeps (fun _ _ => by rw [hcalls]) fun i _ => same.content i

/-- **Making an exception pending** does not fail: what was pending before is dropped, and a record
that cannot be paid for is left out. -/
theorem raise_meets (h : m.Sound Γ n x) (e : Exception) :
    (raise e m).Meets lax (fun _ m' => m'.Sound Γ n x ∧ m.Steady n m') F := by
  obtain ⟨lines, hlines⟩ := h.trail_ok
  obtain ⟨present, σ, hb, hc⟩ := h.memory
  rw [raise, Action.get_bind]
  by_cases hdoomed : m.isDoomed
  · simp only [hdoomed, if_true]
    exact ⟨h, .refl n m⟩
  · simp only [hdoomed]
    refine Action.meets_bind (Action.meets_ofSound (P := fun t m' => m' = m) hlines rfl) ?_
    rintro trail _ rfl
    rw [stake_eq_pending] at hb
    refine Action.meets_bind (discharge_meets hb) ?_
    rintro _ _ ⟨μ, rfl, hb₁, same₁⟩
    refine meets_onMemory_bind ((PendingException.record_meets (F := fun _ => False) hb₁ _).mono
      ?_ fun _ h => h.elim)
    rintro p μ' ⟨hb₂, same₂⟩
    have same := same₁.trans same₂
    exact ⟨h.withPending hc 0 (p := some p) hb₂ same, steady_of_same same rfl⟩

theorem intercept_meets (h : m.Sound Γ n x) :
    (intercept m).Meets lax (fun _ m' => m'.Sound Γ n x ∧ m.Steady n m') F := by
  obtain ⟨present, σ, hb, hc⟩ := h.memory
  rw [intercept, Action.get_bind]
  by_cases hdoomed : m.isDoomed
  · simp only [hdoomed, if_true]
    exact ⟨h, .refl n m⟩
  · simp only [hdoomed]
    rw [stake_eq_pending] at hb
    refine Action.meets_bind (discharge_meets hb) ?_
    rintro _ _ ⟨μ, rfl, hb₁, same⟩
    refine ⟨h.withPending hc m.blockDepth (p := none) ?_ same, steady_of_same same rfl⟩
    rwa [Option.elim_none, add_zero]

/-- **Setting the pending exception aside** moves its charge to the frame, in place of one set aside
before, whose charge is given back. -/
theorem stash_meets (h : m.Sound Γ n x) (hi : index < n) :
    (stash index m).Meets lax (fun _ m' => m'.Sound Γ n x ∧ m.Steady n m')
      fun m' => m'.Sound Γ n x ∧ m.Steady n m' := by
  obtain ⟨f, hf⟩ := h.exists_frame hi
  rw [stash, Action.get_bind]
  by_cases hdoomed : m.isDoomed
  · simp only [hdoomed, if_true]
    exact ⟨h, .refl n m⟩
  simp only [hdoomed]
  cases hpending : m.pending with
  | none => exact ⟨h, .refl n m⟩
  | some p =>
    change (((liftM (m.frame index) : Action Machine Frame) >>= fun frame =>
      discharge frame.stash >>= fun _ => updateFrame index (fun f => { f with stash := some p }) >>=
        fun _ => modify fun m => { m with pending := none }) m).Meets _ _ _
    rw [frame_bind hf]
    -- the machine as it will be, the charge of the record that is dropped still to be given back
    set m₀ : Machine := { m with pending := none } with hm₀
    have hf₀ : m₀.calls.frame? index = some f := hf
    have h₀ : m₀.Sound Γ n (x + p.stake) := by
      refine { h with memory := ?_ }
      have : m₀.stake + (x + p.stake) = m.stake + x := by
        rw [stake_eq_pending m₀, stake_eq_pending m, hpending, Option.elim_none, Option.elim_some,
          add_zero, ← add_assoc]
        rfl
      rw [this]
      exact h.memory
    set g : Frame → Frame := fun f => { f with stash := some p } with hg
    have h₁ : (m₀.withFrame index g).Sound Γ n (x + f.stash.elim 0 PendingException.stake) := by
      refine h₀.withFrame hf₀ ?_ fun s hs =>
        h.supplied f (CallStack.mem_frames_of_frame? hf) s hs
      rw [hg, Frame.stake, Frame.stake, Frame.extras, Frame.extras, Option.elim_some]
      abel
    obtain ⟨present, σ, hb, hc⟩ := h₁.memory
    rw [← add_assoc] at hb hc
    refine Action.meets_bind (discharge_meets (m := m) hb) ?_
    rintro _ _ ⟨μ, rfl, hb', same⟩
    rw [Action.bind_done (updateFrame_eq (m := { m with memory := μ }) hf g)]
    refine ⟨h₁.withMemory (.of_loses present hc hb' (same.loses 0) (by simp)), ?_⟩
    exact (steady_withFrame (n := n) hf₀ rfl).trans (steady_of_same same rfl)

/-- **Bringing an exception back** moves its charge to the machine, or gives it back if another one
is pending by now. -/
theorem restore_meets (h : m.Sound Γ n x) (hi : index < n) :
    (restore index m).Meets lax (fun _ m' => m'.Sound Γ n x ∧ m.Steady n m')
      fun m' => m'.Sound Γ n x ∧ m.Steady n m' := by
  obtain ⟨f, hf⟩ := h.exists_frame hi
  rw [restore, Action.get_bind, frame_bind hf]
  cases hstash : f.stash with
  | none => exact ⟨h, .refl n m⟩
  | some p =>
    dsimp only
    set g : Frame → Frame := fun f => { f with stash := none } with hg
    have steady : m.Steady n (m.withFrame index g) := steady_withFrame hf rfl
    have h₁ : (m.withFrame index g).Sound Γ n (x + p.stake) := by
      refine h.withFrame hf ?_ fun s hs => h.supplied f (CallStack.mem_frames_of_frame? hf) s hs
      rw [hg, Frame.stake, Frame.stake, Frame.extras, Frame.extras, hstash, Option.elim_some,
        Option.elim_none]
      abel
    rw [Action.bind_done (updateFrame_eq hf g)]
    cases hpending : m.pending with
    | none =>
      refine ⟨{ h₁ with memory := ?_ }, steady⟩
      have : Machine.stake { m.withFrame index g with pending := some p } + x =
          (m.withFrame index g).stake + (x + p.stake) := by
        rw [stake_eq_pending, stake_eq_pending (m.withFrame index g),
          show (m.withFrame index g).pending = none from hpending, Option.elim_none,
          Option.elim_some, add_zero, ← add_assoc]
        rfl
      exact this ▸ h₁.memory
    | some _ =>
      -- another exception is pending, so the one brought back is dropped
      obtain ⟨present, σ, hb, hc⟩ := h₁.memory
      rw [← add_assoc] at hb hc
      refine (discharge_meets (p := some p) (F := fun _ => False) hb).always ?_
      rintro _ _ ⟨μ, rfl, hb', same⟩
      refine ⟨h₁.withMemory (.of_loses present hc hb' (same.loses 0) (by simp)), ?_⟩
      exact steady.trans (steady_of_same same rfl)

/-! ### Work -/

/-- Queueing work. The values of a block have to be known, and the supply allowed. -/
theorem execute_meets {work : Work} (h : m.Sound Γ n x)
    (hv : ∀ vs, work = .values vs → ∀ v ∈ vs, m.Knows x v)
    (hs : ∀ s, work = .supply s → Γ.supplies s) :
    (execute work m).Meets lax (fun _ m' => m'.Sound Γ n x ∧ m.Steady n m')
      fun m' => m'.Sound Γ n x ∧ m.Steady n m' := by
  cases work with
  | source text origin =>
    exact call_meets h (knows_of_handle?_none rfl)
  | values values =>
    refine Action.meets_bind (createArray_meets h (hv values rfl)) ?_
    rintro block m₁ ⟨-, gained⟩
    have released (m₂ : Machine) (h₂ : m₂.Sound Γ n (x + .refs [block]) ∧ m₁.Steady n m₂) :
        (release block m₂).Meets lax (fun _ m' => m'.Sound Γ n x ∧ m.Steady n m')
          fun m' => m'.Sound Γ n x ∧ m.Steady n m' :=
      (release_meets (F := fun _ => False) h₂.1).always fun _ _ h =>
        ⟨h.1, (gained.steady.trans h₂.2).trans h.2.1⟩
    exact Action.meets_ensuring (call_meets gained.sound (knows_of_pinned (by simp)))
      (fun _ => released) released
  | supply supply =>
    refine pushFrame_meets h (knows_of_handle?_none rfl) (by rfl) ?_
    rintro s ⟨⟩
    exact hs supply rfl

end Machine

end StackScript
