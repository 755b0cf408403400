import StackScript.Proofs.Machine.Stacks

/-!
# Scopes and call frames of a sound machine

Scopes come and go above the permanent ones.  Call frames come with nothing but their value
(`Machine.call_meets`) and go with everything they hold (`Machine.popFrame_meets`): the locals of a
frame are referred to by nothing else, so they are disposed of with it.
-/

namespace StackScript

open Memory (onLedger onHeap)

/-! ### Exception records -/

namespace PendingException

variable {total : Option ℕ} {σ : ℕ → Label} {x : Stake} {m : Memory} {lax : Prop}

/-- Recording an exception never fails: a record that is not paid for costs nothing. -/
theorem record_meets {F : Memory → Prop} (hb : m.Balanced total σ x) (e : Exception) :
    (record e m).Meets lax (fun p m' => m'.Balanced total σ (x + p.stake) ∧ m.SameObjects m')
      F := by
  let Paid (m' : Memory) : Prop :=
    m'.Balanced total σ (x + .charged .system e.size.units) ∧ m.SameObjects m'
  refine Action.meets_bind (P := fun r m' => r.toOption.elim (m' = m) fun _ => Paid m')
    (Action.meets_attempt ((Memory.charge_meets hb (Size.cost_eq_min e.size)).mono
      (fun _ _ => id) fun _ h _ => h)) ?_
  rintro (_ | _) m' h
  · obtain rfl : m' = m := h
    refine ⟨?_, .refl _⟩
    have : PendingException.stake ⟨⟨if e.condition.isFatal then e.condition else .memoryOverflow,
        "", []⟩, {}⟩ = 0 := Stake.charged_zero .system
    rwa [this, add_zero]
  · exact h

theorem discharge_meets {F : Memory → Prop} {p : PendingException}
    (hb : m.Balanced total σ (x + p.stake)) :
    (p.discharge m).Meets lax (fun _ m' => m'.Balanced total σ x ∧ m.SameObjects m') F :=
  (Memory.discharge_meets hb (Size.cost_eq_min p.charge)).mono (fun _ _ => id) fun _ h => h.elim

theorem discharge_elim_meets {F : Memory → Prop} {p : Option PendingException}
    (hb : m.Balanced total σ (x + p.elim 0 PendingException.stake)) :
    (p.elim (pure ()) PendingException.discharge m).Meets lax
      (fun _ m' => m'.Balanced total σ x ∧ m.SameObjects m') F := by
  cases p with
  | none =>
    rw [Option.elim_none, add_zero] at hb
    exact ⟨hb, .refl m⟩
  | some p => exact discharge_meets hb

end PendingException

/-! ### What a frame holds -/

namespace Memory

variable {total : Option ℕ} {σ : ℕ → Label} {x : Stake} {m : Memory} {i : ℕ}

/-- The reference to the locals of a frame is given up like any other. -/
theorem Balanced.ref_of_localsAt (hb : m.Balanced total σ (x + .localsAt i)) :
    m.Balanced total σ (x + .refs [.dictionary i true]) := by
  have labelled := (hb.locals i (by simp)).1
  have holders (j : ℕ) : (Stake.refs [.dictionary i true]).holders j =
      (Stake.localsAt i).holders j := by
    rw [Stake.holders_ref, Stake.holders_localsAt]
    simp [Value.handle?, Value.dictionary, eq_comm]
  have mentions (t : String) : (Stake.refs [.dictionary i true]).mentions t = 0 := by
    simp [Stake.mentions_ref, Value.string?, Value.dictionary]
  constructor
  · intro j
    rw [hb.holders]
    simp only [Stake.holders_add, holders]
  · intro t
    rw [hb.mentions]
    simp only [Stake.mentions_add, mentions, Stake.mentions_localsAt]
  · intro a
    rw [hb.units]
    simp
  · exact hb.positive
  · exact hb.labelled
  · intro v hv j hj
    rw [Stake.values_add, Stake.values_add, Stake.values_refs, Multiset.mem_add,
      Multiset.mem_add] at hv
    rcases hv with (hv | hv) | hv
    · exact hb.kinds v (by simp [hv]) j hj
    · obtain rfl : v = .dictionary i true := by simpa using hv
      obtain rfl : i = j := by simpa [Value.handle?, Value.dictionary] using hj
      rw [labelled]
      rfl
    · exact hb.kinds v (by simp [hv]) j hj
  · intro j hj
    exact hb.locals j (by simpa using Or.inl (by simpa using hj))
  · exact hb.heap
  · exact hb.exact
  · exact hb.tabled
  · exact hb.trailed

/-- The locals of a frame go with the reference to them. -/
theorem Balanced.dead_of_localsAt {m' : Memory} (hb : m.Balanced total σ (x + .localsAt i))
    (hb' : m'.Balanced total σ x) (loses : m.Loses x m') : m'.heap.cell? i = none := by
  have one := (hb.locals i (by simp)).2
  rw [hb.holders, Stake.holders_add, Stake.holders_add, Stake.holders_localsAt, if_pos rfl] at one
  cases hc : m'.heap.cell? i with
  | none => rfl
  | some c =>
    have pos := hb'.positive i c hc
    rw [← Heap.countAt_of_cell? hc, hb'.holders, Stake.holders_add] at pos
    -- whoever holds it now held it before, besides the frame
    have held : 0 < m'.heap.stake.holders i := by omega
    rw [Stake.holders_pos_iff, Heap.locals_stake] at held
    obtain ⟨v, hv, hvi⟩ := held.resolve_right (by simp)
    obtain ⟨j, o, ho, hvo⟩ := Heap.mem_values_stake.1 hv
    have := Heap.holders_stake_pos (loses.sheds.object?_eq ho) hvo hvi
    omega

end Memory

namespace Frame

variable {total : Option ℕ} {σ : ℕ → Label} {x : Stake} {m : Memory} {lax : Prop} {f : Frame}

/-- The locals of a frame go with it, and what it has set aside. -/
theorem dispose_meets (hb : m.Balanced total σ (x + f.extras))
    (hout : lax ∨ Heap.OutSupported x m.heap) :
    (f.dispose m).Meets lax
      (fun _ m' => Memory.Released total σ x m m' ∧
        ∀ i, f.locals = some i → m'.heap.cell? i = none) fun _ => False := by
  obtain ⟨value, state, cursor, locals, stash, supply⟩ := f
  -- what is set aside goes last, and leaves the heap alone
  have stashed (m₁ : Memory)
      (h : Memory.Released total σ (x + stash.elim 0 PendingException.stake) m m₁ ∧
        ∀ i, locals = some i → m₁.heap.cell? i = none) :
      (stash.elim (pure ()) PendingException.discharge m₁).Meets lax
        (fun _ m' => Memory.Released total σ x m m' ∧
          ∀ i, locals = some i → m'.heap.cell? i = none) fun _ => False := by
    obtain ⟨⟨hb₁, loses⟩, dead⟩ := h
    refine (PendingException.discharge_elim_meets hb₁).mono ?_ fun _ => id
    rintro _ m₂ ⟨hb₂, same⟩
    refine ⟨⟨hb₂, loses.of_add_right.trans (same.loses x)⟩, fun i hi => ?_⟩
    have := same.content i
    rwa [Heap.content?_eq_none_iff.2 (dead i hi), Heap.content?_eq_none_iff] at this
  cases locals with
  | none =>
    have last := stashed m ⟨⟨by simpa [extras] using hb, .refl _ m⟩, fun i hi => by cases hi⟩
    cases stash <;> exact last
  | some i =>
    have sum : x + Frame.extras ⟨value, state, cursor, some i, stash, supply⟩ =
        x + stash.elim 0 PendingException.stake + .localsAt i := by
      simp only [extras, Option.elim_some]
      abel
    rw [sum] at hb
    refine Action.meets_bind ((Memory.release_meets hb.ref_of_localsAt
      (hout.imp_right fun hout => hout.add_right _)).mono (fun _ _ => id) fun _ h => h) ?_
    rintro _ m₁ ⟨hb₁, loses⟩
    have last := stashed m₁ ⟨⟨hb₁, loses⟩, fun _ hi =>
      Option.some.inj hi ▸ hb.dead_of_localsAt hb₁ loses⟩
    cases stash <;> exact last

end Frame

/-! ### The call stack -/

namespace CallStack

variable {total : Option ℕ} {σ : ℕ → Label} {x : Stake} {m : Memory} {lax : Prop}
  {c c' : CallStack} {f : Frame} {rest : List Frame} {v : Value}

/-- `c'` has these frames, in as many slots as they need. -/
structure Reframed (c : CallStack) (frames : List Frame) (c' : CallStack) : Prop where
  reserve : ∃ k, c'.reserve = c.reserve.withCapacity k
  fits : c'.reserve.Fits c'.length
  frames : c'.frames = frames

/-- What the frames of a list hold. -/
def held (frames : List Frame) : Stake := (frames.map Frame.stake).sum

theorem held_cons (f : Frame) (rest : List Frame) : held (f :: rest) = f.stake + held rest :=
  List.sum_cons

theorem stake_of_frames (hframes : c.frames = rest) : c.stake = c.reserve.stake + held rest := by
  rw [stake, hframes, held]

theorem mem_locals_held {g : Frame} {i : ℕ} (hg : g ∈ rest) (hi : g.locals = some i) :
    i ∈ (held rest).locals := by
  obtain ⟨l, r, rfl⟩ := List.append_of_mem hg
  simp [held, Frame.mem_locals_stake.2 hi]

theorem push_meets (hb : m.Balanced total σ (x + c.stake))
    (hv : (x + c.stake + m.heap.stake).Knows f.value) (hf : f.extras = 0)
    (hout : lax ∨ Heap.OutSupported x m.heap) :
    (c.push f m).Meets lax
      (fun c' m' => c.Reframed (f :: c.frames) c' ∧
        Memory.Balanced total σ (x + c'.stake) m' ∧ m.Loses (x + held c.frames) m')
      fun m' => Memory.Released total σ (x + c.stake) m m' := by
  have parts : x + c.stake = x + held c.frames + c.reserve.stake + .refs [] := by
    rw [stake_of_frames rfl, Stake.refs_nil]
    abel
  rw [parts] at hb hv ⊢
  refine Action.meets_bind ((Reserve.exchange_meets _ _ _ hb (by simpa using hv)
    (hout.imp_right fun hout => hout.add_right _)).mono (fun _ _ => id) fun _ h => h.1) ?_
  rintro r m' ⟨⟨k, rfl, hk⟩, hb', loses⟩
  refine ⟨⟨⟨k, rfl⟩, hk, rfl⟩, ?_, loses⟩
  have : x + held c.frames + (c.reserve.withCapacity k).stake + .refs [f.value] =
      x + CallStack.stake ⟨c.reserve.withCapacity k, f :: c.frames⟩ := by
    rw [stake_of_frames rfl, held_cons, Frame.stake, hf]
    abel
  rwa [← this]

/-- The top frame goes with everything it holds; that cannot fail. -/
theorem pop_meets (hb : m.Balanced total σ (x + c.stake)) (hframes : c.frames = f :: rest)
    (hfits : c.reserve.Fits c.length) (hout : lax ∨ Heap.OutSupported x m.heap) :
    (c.pop m).Meets lax
      (fun c' m' => c.Reframed rest c' ∧ (Memory.Balanced total σ (x + c'.stake) m' ∧
        m.Loses (x + held rest) m') ∧ ∀ i, f.locals = some i → m'.heap.cell? i = none)
      fun _ => False := by
  have parts : x + c.stake = x + held rest + f.extras + c.reserve.stake + .refs [f.value] := by
    rw [stake_of_frames hframes, held_cons, Frame.stake]
    abel
  rw [parts] at hb
  rw [pop, hframes]
  refine Action.meets_bind ((Reserve.exchange_meets _ _ [] hb (by simp) ?_).mono
    (fun _ _ => id) fun _ h => h.2 ⟨hfits, rfl⟩) ?_
  · rw [add_assoc]
    exact hout.imp_right fun hout => hout.add_right _
  -- the slot and the value have gone, and the extras are left
  rintro r m₁ ⟨⟨k, rfl, hk⟩, hb₁, loses₁⟩
  have parts₁ : x + held rest + f.extras + (c.reserve.withCapacity k).stake + .refs [] =
      x + held rest + (c.reserve.withCapacity k).stake + f.extras := by
    rw [Stake.refs_nil]
    abel
  rw [parts₁] at hb₁
  refine Action.meets_bind ((Frame.dispose_meets hb₁ ?_).mono (fun _ _ => id) fun _ h => h) ?_
  · rw [add_assoc]
    exact (loses₁.of_add_right.of_add_right.outSupported hout).imp_right
      fun hout => hout.add_right _
  rintro _ m₂ ⟨⟨hb₂, loses₂⟩, dead⟩
  have length : c.length = rest.length + 1 := by simp [CallStack.length, hframes]
  refine ⟨⟨⟨k, rfl⟩, ?_, rfl⟩, ⟨?_, loses₁.of_add_right.trans loses₂.of_add_right⟩, dead⟩
  · rw [length] at hk
    exact hk
  · have : x + held rest + (c.reserve.withCapacity k).stake =
        x + CallStack.stake ⟨c.reserve.withCapacity k, rest⟩ := by
      rw [stake_of_frames rfl]
      abel
    rwa [← this]

/-- A fresh frame takes the place of the top one, which goes with everything it holds. -/
theorem replaceTop_meets (hb : m.Balanced total σ (x + c.stake)) (hframes : c.frames = f :: rest)
    (hv : (x + c.stake + m.heap.stake).Knows v) (hout : lax ∨ Heap.OutSupported x m.heap) :
    (c.replaceTop v m).Meets lax
      (fun c' m' => c.Reframed ({ value := v } :: rest) c' ∧
        (Memory.Balanced total σ (x + c'.stake) m' ∧ m.Loses (x + held rest) m') ∧
        ∀ i, f.locals = some i → m'.heap.cell? i = none)
      fun m' => Memory.Released total σ (x + c.stake) m m' := by
  have parts : x + c.stake = x + held rest + f.extras + c.reserve.stake + .refs [f.value] := by
    rw [stake_of_frames hframes, held_cons, Frame.stake]
    abel
  rw [parts] at hb hv ⊢
  rw [replaceTop, hframes]
  refine Action.meets_bind ((Reserve.exchange_meets _ _ _ hb (by simpa using hv) ?_).mono
    (fun _ _ => id) fun _ h => h.1) ?_
  · rw [add_assoc]
    exact hout.imp_right fun hout => hout.add_right _
  rintro r m₁ ⟨⟨k, rfl, hk⟩, hb₁, loses₁⟩
  have parts₁ : x + held rest + f.extras + (c.reserve.withCapacity k).stake + .refs [v] =
      x + (held rest + (c.reserve.withCapacity k).stake + .refs [v]) + f.extras := by
    abel
  rw [parts₁] at hb₁
  refine Action.meets_bind ((Frame.dispose_meets hb₁ ?_).always fun _ _ => id) ?_
  · exact (loses₁.of_add_right.of_add_right.outSupported hout).imp_right
      fun hout => hout.add_right _
  rintro _ m₂ ⟨⟨hb₂, loses₂⟩, dead⟩
  rw [← add_assoc, ← add_assoc] at loses₂
  have length : c.length = rest.length + 1 := by simp [CallStack.length, hframes]
  refine ⟨⟨⟨k, rfl⟩, ?_, rfl⟩, ⟨?_, loses₁.of_add_right.trans loses₂.of_add_right.of_add_right⟩,
    dead⟩
  · rw [length] at hk
    exact hk
  · have : x + (held rest + (c.reserve.withCapacity k).stake + .refs [v]) =
        x + CallStack.stake ⟨c.reserve.withCapacity k, { value := v } :: rest⟩ := by
      rw [stake_of_frames rfl, held_cons, show Frame.stake { value := v } = .refs [v] + 0 from rfl]
      abel
    rwa [← this]

end CallStack

namespace Machine

variable {Γ : Charter} {n : ℕ} {x : Stake} {m : Machine} {v : Value} {lax : Prop}

/-! ### Scopes -/

/-- The machine with other scopes, among which the permanent ones stay. -/
theorem Sound.rescoped {σ : ℕ → Label} {s : Sequence} {μ : Memory} (h : m.Sound Γ n x)
    (hc : m.memory.Classified Γ σ (m.stake + x)) (hs : m.scopes.Resized s)
    (hb' : μ.Balanced Γ.total σ (m.besideScopes + x + s.stake))
    (loses : m.memory.Loses (m.besideScopes + x) μ)
    (dictionaries : ∀ v ∈ s.items, v.kind = .dictionary) (permanent : Γ.permanent <:+ s.items) :
    Machine.Sound Γ n x { m with memory := μ, scopes := s } ∧
      m.Steady n { m with memory := μ, scopes := s } := by
  obtain ⟨⟨c, hreserve⟩, sized⟩ := hs
  set m' : Machine := { m with memory := μ, scopes := s } with hm'
  have sum := stake_eq_scopes m x
  have sum' : m'.stake + x = m.besideScopes + x + s.stake := stake_eq_scopes m' x
  refine ⟨{ h with
    memory := ?_
    scopes := sized
    accounts := ⟨h.accounts.1, h.accounts.2.1, by rw [hm', hreserve]; exact h.accounts.2.2⟩
    dictionaries := dictionaries
    permanent := permanent }, ?_⟩
  · rw [sum']
    exact .of_loses h.memory.present hc hb' loses (by rw [sum]; simp)
  · -- scopes hold no locals, so those of the frames are all still held
    refine steady_of_loses loses (fun i hi => ?_) fun _ _ => rfl
    rw [locals_stake] at hi
    simp [besideScopes, hi]

theorem openScope_meets (h : m.Sound Γ n x) (hv : m.Knows x v) :
    (openScope v m).Meets lax (fun _ m' => m'.Sound Γ n x ∧ m.Steady n m')
      fun m' => m'.Sound Γ n x ∧ m.Steady n m' := by
  by_cases hk : v.kind = .dictionary
  · obtain ⟨present, σ, hb, hc⟩ := h.memory
    have sum := stake_eq_scopes m x
    rw [openScope, if_pos hk]
    refine meets_onScopes ((Sequence.exchange_meets (x := m.besideScopes + x) 0 [v]
      (by rwa [← sum]) ?_ (.inr (present.outSupported _))).mono ?_ ?_)
    · intro w hw
      obtain rfl : w = v := by simpa using hw
      rwa [← sum]
    · rintro s μ ⟨⟨resized, items⟩, hb', loses⟩
      have items : s.items = v :: m.scopes.items := items
      refine h.rescoped hc resized hb' loses ?_ ?_
      · rw [items]
        exact List.forall_mem_cons.2 ⟨hk, h.dictionaries⟩
      · rw [items]
        exact h.permanent.trans (List.suffix_cons v _)
    · exact fun μ released => h.of_released hc sum released.1
  · rw [openScope, if_neg hk]
    exact ⟨h, .refl n m⟩

/-- The permanent scopes stay. -/
theorem closeScope_meets (h : m.Sound Γ n x) :
    (closeScope m).Meets lax (fun _ m' => m'.Sound Γ n x ∧ m.Steady n m')
      fun m' => m'.Sound Γ n x ∧ m.Steady n m' := by
  by_cases hmany : m.scopes.length ≤ permanentScopes
  · rw [closeScope, Action.get_bind]
    simp only [hmany, if_true]
    exact ⟨h, .refl n m⟩
  · rw [closeScope, Action.get_bind]
    simp only [hmany, if_false]
    obtain ⟨present, σ, hb, hc⟩ := h.memory
    have sum := stake_eq_scopes m x
    refine meets_onScopes ((Sequence.exchange_meets (x := m.besideScopes + x) 1 []
      (by rwa [← sum]) (by simp) (.inr (present.outSupported _))).mono ?_ ?_)
    · rintro s μ ⟨⟨resized, items⟩, hb', loses⟩
      have items : s.items = m.scopes.items.drop 1 := items
      refine h.rescoped hc resized hb' loses ?_ ?_
      · rw [items]
        exact fun v hv => h.dictionaries v (List.mem_of_mem_drop hv)
      · -- there is a scope more than the permanent ones, and those are last
        rw [items]
        refine List.suffix_of_suffix_length_le h.permanent (List.drop_suffix 1 _) ?_
        have four := Γ.four
        rw [Sequence.length] at hmany
        rw [List.length_drop]
        omega
    · exact fun μ released => h.of_released hc sum released.1

/-! ### Frames come and go -/

/-- A frame is queued that holds nothing but its value. -/
theorem pushFrame_meets {f : Frame} (h : m.Sound Γ n x) (hv : m.Knows x f.value)
    (hf : f.extras = 0) (hs : ∀ s, f.supply = some s → Γ.supplies s) :
    (onCalls (fun c => c.push f) m).Meets lax (fun _ m' => m'.Sound Γ n x ∧ m.Steady n m')
      fun m' => m'.Sound Γ n x ∧ m.Steady n m' := by
  obtain ⟨present, σ, hb, hc⟩ := h.memory
  have sum := stake_eq_calls m x
  refine meets_onCalls ((CallStack.push_meets (x := m.besideCalls + x) (by rwa [← sum])
    (by rwa [← sum]) hf (.inr (present.outSupported _))).mono ?_ ?_)
  · rintro c μ ⟨⟨⟨k, hreserve⟩, fits, frames⟩, hb', loses⟩
    set m' : Machine := { m with memory := μ, calls := c } with hm'
    have sum' : m'.stake + x = m.besideCalls + x + c.stake := stake_eq_calls m' x
    have locals : c.stake.locals = m.calls.stake.locals := by
      rw [CallStack.stake_of_frames frames, CallStack.held_cons, Frame.stake, hf,
        CallStack.stake_of_frames (c := m.calls) rfl]
      simp
    have length : c.length = m.calls.length + 1 := by simp [CallStack.length, frames]
    have depth := h.depth
    refine ⟨{ h with
      memory := ?_
      depth := by change n ≤ c.length; omega
      calls := fits
      accounts := ⟨h.accounts.1, by rw [hm', hreserve]; exact h.accounts.2.1, h.accounts.2.2⟩
      supplied := ?_ }, ?_⟩
    · rw [sum']
      exact .of_loses present hc hb' loses (by rw [sum]; simp [locals])
    · rw [hm', frames]
      exact List.forall_mem_cons.2 ⟨hs, h.supplied⟩
    · refine steady_of_loses loses (fun i hi => ?_) fun index hi => ?_
      · rw [locals_stake, CallStack.stake_of_frames (c := m.calls) rfl] at hi
        simpa using Or.inr (by simpa using hi)
      · have : c = ⟨c.reserve, f :: m.calls.frames⟩ := by rw [← frames]
        change (c.frame? index).bind Frame.locals = _
        rw [this, CallStack.frame?_cons _ _ _ (by omega)]
  · exact fun μ released => h.of_released hc sum released

theorem call_meets (h : m.Sound Γ n x) (hv : m.Knows x v) :
    (call v m).Meets lax (fun _ m' => m'.Sound Γ n x ∧ m.Steady n m')
      fun m' => m'.Sound Γ n x ∧ m.Steady n m' :=
  pushFrame_meets h hv (by rfl) fun s hs => by cases hs

/-- After the top frame has gone, and another one has come in its place perhaps.  The locals of the
other frames stay as they are. -/
theorem Sound.reframed {σ : ℕ → Label} {f : Frame} {rest : List Frame} (new : List Frame)
    {c : CallStack} {μ : Memory} (h : m.Sound Γ n x) (hc : m.memory.Classified Γ σ (m.stake + x))
    (hframes : m.calls.frames = f :: rest) (hc' : m.calls.Reframed (new ++ rest) c)
    (hnew : ∀ g ∈ new, g.extras = 0 ∧ g.supply = none)
    (hb' : μ.Balanced Γ.total σ (m.besideCalls + x + c.stake))
    (loses : m.memory.Loses (m.besideCalls + x + CallStack.held rest) μ)
    (dead : ∀ i, f.locals = some i → μ.heap.cell? i = none) :
    Machine.Sound Γ 0 x { m with memory := μ, calls := c } ∧
      m.Steady rest.length { m with memory := μ, calls := c } := by
  obtain ⟨⟨k, hreserve⟩, fits, frames⟩ := hc'
  set m' : Machine := { m with memory := μ, calls := c } with hm'
  have sum := stake_eq_calls m x
  have sum' : m'.stake + x = m.besideCalls + x + c.stake := stake_eq_calls m' x
  refine ⟨{ h with
    memory := ?_
    depth := Nat.zero_le _
    calls := fits
    accounts := ⟨h.accounts.1, by rw [hm', hreserve]; exact h.accounts.2.1, h.accounts.2.2⟩
    supplied := ?_ }, ?_⟩
  · rw [sum']
    refine ⟨h.memory.present.sheds loses.sheds, σ, hb', hc.of_lives loses.lives fun i hi => ?_⟩
    rw [sum, Stake.locals_add, Multiset.mem_add] at hi
    rw [Stake.locals_add, Multiset.mem_add]
    rcases hi with hi | hi
    · exact .inl (.inl hi)
    · -- the locals of the frame that went are gone, and those of the others still held
      rw [CallStack.stake_of_frames hframes, CallStack.held_cons] at hi
      rw [CallStack.stake_of_frames frames, CallStack.held, List.map_append, List.sum_append]
      simp only [Stake.locals_add, Reserve.locals_stake, zero_add, Multiset.mem_add] at hi ⊢
      rcases hi with hi | hi
      · exact .inr (dead i (Frame.mem_locals_stake.1 hi))
      · exact .inl (.inr (.inr hi))
  · rw [hm', frames]
    intro g hg s hs
    rcases List.mem_append.1 hg with hg | hg
    · rw [(hnew g hg).2] at hs
      cases hs
    · refine h.supplied g ?_ s hs
      rw [hframes]
      exact List.mem_cons_of_mem f hg
  · have below (index : ℕ) (hi : index < rest.length) :
        m.calls.frame? index = rest.reverse[index]? :=
      CallStack.frame?_below hframes hi
    refine steady_of_frames (fun index hi => ?_) fun index hi g i hg hl => ?_
    · rw [below index hi, hm', CallStack.frame?_of_append frames hi]
    · rw [below index hi] at hg
      have mem : g ∈ rest := List.mem_reverse.1 (List.mem_of_getElem? hg)
      refine loses.keeps _ (Heap.supports_holders _ _) i (Stake.holders_pos_of_local ?_)
      rw [Stake.locals_add, Multiset.mem_add]
      exact .inr (CallStack.mem_locals_held mem hl)

/-- The top frame is removed, whatever it holds. -/
theorem popFrame_top {f : Frame} {rest : List Frame} (h : m.Sound Γ n x)
    (hframes : m.calls.frames = f :: rest) :
    (popFrame m).Meets lax (fun _ m' => m'.Sound Γ 0 x ∧ m.Steady rest.length m')
      fun _ => False := by
  obtain ⟨present, σ, hb, hc⟩ := h.memory
  have sum := stake_eq_calls m x
  refine meets_onCalls ((CallStack.pop_meets (x := m.besideCalls + x) (by rwa [← sum]) hframes
    h.calls (.inr (present.outSupported _))).always ?_)
  rintro c μ ⟨hc', ⟨hb', loses⟩, dead⟩
  exact h.reframed [] hc hframes hc' (by simp) hb' loses dead

/-- The locals of the frames below the top one stay as they are when it goes. -/
theorem popFrame_meets (h : m.Sound Γ n x) :
    (popFrame m).Meets lax (fun _ m' => m'.Sound Γ 0 x ∧ m.Steady (m.calls.length - 1) m')
      fun m' => m'.Sound Γ 0 x ∧ m.Steady (m.calls.length - 1) m' := by
  cases hframes : m.calls.frames with
  | nil =>
    refine meets_onCalls ?_
    rw [CallStack.pop, hframes]
    exact ⟨h.unframed, .refl _ m⟩
  | cons f rest =>
    have below : m.calls.length - 1 = rest.length := by simp [CallStack.length, hframes]
    rw [below]
    exact (popFrame_top h hframes).always fun _ _ => id

theorem replaceFrame_meets (h : m.Sound Γ n x) (hv : m.Knows x v) :
    (replaceFrame v m).Meets lax (fun _ m' => m'.Sound Γ 0 x ∧ m.Steady (m.calls.length - 1) m')
      fun m' => m'.Sound Γ 0 x ∧ m.Steady (m.calls.length) m' := by
  cases hframes : m.calls.frames with
  | nil =>
    refine meets_onCalls ?_
    rw [CallStack.replaceTop, hframes]
    exact ⟨h.unframed, .refl _ m⟩
  | cons f rest =>
    have below : m.calls.length - 1 = rest.length := by simp [CallStack.length, hframes]
    obtain ⟨present, σ, hb, hc⟩ := h.memory
    have sum := stake_eq_calls m x
    rw [below]
    refine meets_onCalls ((CallStack.replaceTop_meets (x := m.besideCalls + x) (by rwa [← sum])
      hframes (by rwa [← sum]) (.inr (present.outSupported _))).mono ?_ ?_)
    · rintro c μ ⟨hc', ⟨hb', loses⟩, dead⟩
      exact h.reframed [{ value := v }] hc hframes hc' (by simp [Frame.extras]) hb' loses
        dead
    · intro μ released
      obtain ⟨sound, steady⟩ := h.framed.of_released hc sum released
      exact ⟨sound.unframed, steady⟩

end Machine

end StackScript
