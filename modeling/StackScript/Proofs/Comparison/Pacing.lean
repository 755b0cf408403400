import StackScript.Proofs.Comparison.Driving

/-!
# Sessions that keep pace

Two unhindered sessions have frames at the bottom of their call stacks that give the same values, the one
a text, and the other whatever gives them (`Session.Paces`).  They keep pace: what is above those frames
is executed in lockstep, and the next value is given in both (`Paces.next`).  So both go on for ever,
or they come to rest after as many cycles: nothing is above the frame of the text, and an exception is
pending or the text has come to its end (`Paces.comes_to_rest`).

The frame of a block stands for no container of the first session, and goes with its last value.  The
cells of the two are compared anew then (`Renaming.onward`), so nothing is known any more of what the
block was.  At the end the two hold the same (`Machine.Mirrors`).
-/

namespace StackScript

open StackScript.Action Likeness

namespace Machine

variable {m m' n n' : Machine}

/-- The stacks grow alike, and the options are alike. -/
structure Kindred (m n : Machine) : Prop where
  operands : n.operands.reserve.shape = m.operands.reserve.shape
  scopes : n.scopes.reserve.shape = m.scopes.reserve.shape
  throws : m.options.throwOnException = n.options.throwOnException
  budget : m.options.defaultMaxCycles = n.options.defaultMaxCycles

theorem Kindred.refl (m : Machine) : m.Kindred m := ⟨rfl, rfl, rfl, rfl⟩

theorem Kindred.of_make (h : m.Kindred n) (left : m.SameMake m') (right : n.SameMake n') :
    m'.Kindred n' where
  operands := ((congrArg (fun p => p.1) right.shape).trans h.operands).trans
    (congrArg (fun p => p.1) left.shape).symm
  scopes := ((congrArg (fun p => p.2.2) right.shape).trans h.scopes).trans
    (congrArg (fun p => p.2.2) left.shape).symm
  throws := by rw [left.options, right.options, h.throws]
  budget := by rw [left.options, right.options, h.budget]

end Machine

/-! ### Comparing anew -/

namespace Renaming

variable {R : Renaming} {b b' below below' : List Frame} {m m' n n' : Machine} {Γ Δ : Charter} {p q : ℕ}
  {x y : Stake} {ib : ∀ f ∈ b, f.value.toOperator? = none} {ib' : ∀ f ∈ b', f.value.toOperator? = none}
  {idle : ∀ f ∈ below, f.value.toOperator? = none} {idle' : ∀ f ∈ below', f.value.toOperator? = none}

/-- Records of exceptions are alike whatever handles stand for. -/
theorem pendings_anew {R' : Renaming} {e e' : Option PendingException}
    (h : Option.Rel R.likeness.Pendings e e') : Option.Rel R'.likeness.Pendings e e' := by
  cases h with
  | none => exact .none
  | some h => exact .some ⟨⟨h.exception.condition, False.elim⟩, False.elim⟩

/-- What is still there in both is alike if it was. -/
theorem cells_of_thins {h k h' k' : Heap} (alike : R.Heaps h k) (left : Cells.Thins h.cell? h'.cell?)
    (right : Cells.Thins k.cell? k'.cell?) {i j : Handle} (hi : h'.Live i) (hj : k'.Live j)
    (hij : R.handles i j) : Option.Rel R.Cells (h'.cell? i) (k'.cell? j) := by
  obtain ⟨c, hc⟩ := Option.ne_none_iff_exists'.1 hi
  obtain ⟨d, hd⟩ := Option.ne_none_iff_exists'.1 hj
  have cells := alike.cell hij
  rwa [left i c hc, right j d hd, ← hc, ← hd] at cells

/-- What two machines show is alike, but for the call frames. -/
structure Scenes (R : Renaming) (c c' : Scene) : Prop where
  operands : List.Forall₂ R.likeness.Values c.operands c'.operands
  scopes : List.Forall₂ R.likeness.Values c.scopes c'.scopes
  pending : Option.Rel R.likeness.Pendings c.pending c'.pending
  blockDepth : c.blockDepth = c'.blockDepth

theorem scenes_of_machines (h : (R.setting b b' ib ib').Machines m n) : R.Scenes m.scene n.scene :=
  ⟨h.operands.items, h.scopes.items, h.pending, h.blockDepth⟩

theorem kindred_of_machines (h : (R.setting b b' ib ib').Machines m n) : m.Kindred n :=
  ⟨congrArg Reserve.shape h.operands.reserve.symm, congrArg Reserve.shape h.scopes.reserve.symm, h.throws,
    h.budget⟩

/-- What two machines hold is alike. -/
structure Stores (R : Renaming) (m n : Machine) : Prop where
  heaps : R.Heaps m.memory.heap n.memory.heap
  operands : List.Forall₂ R.likeness.Values m.operands.items n.operands.items
  scopes : List.Forall₂ R.likeness.Values m.scopes.items n.scopes.items

section

variable (sound : m'.Sound Γ p x) (sound' : n'.Sound Δ q y)
  (cells : ∀ i j, m'.memory.heap.Live i → n'.memory.heap.Live j → R.handles i j →
    Option.Rel R.Cells (m'.memory.heap.cell? i) (n'.memory.heap.cell? j))
include cells

/-- **What machines hold is compared anew.** -/
theorem stores_onward (operands : List.Forall₂ R.likeness.Values m'.operands.items n'.operands.items)
    (scopes : List.Forall₂ R.likeness.Values m'.scopes.items n'.scopes.items) :
    (R.onward sound.wellFormed sound'.wellFormed).Stores m' n' := by
  have shown {Γ : Charter} {p : ℕ} {x : Stake} {m : Machine} (sound : m.Sound Γ p x) {v : Value}
      (hv : v ∈ m.operands.items ∨ v ∈ m.scopes.items) : Present m.memory.heap v := fun i hi =>
    sound.live (.inl (hv.elim (fun h => .inl ⟨v, h, hi⟩) fun h => .inr (.inr ⟨v, h, hi⟩)))
  exact ⟨heaps_onward sound.closed sound'.closed cells,
    all_values_onward operands (fun _ hv => shown sound (.inl hv)) fun _ hv => shown sound' (.inl hv),
    all_values_onward scopes (fun _ hv => shown sound (.inr hv)) fun _ hv => shown sound' (.inr hv)⟩

/-- **Machines are compared anew**, with other frames at the bottom. -/
theorem machines_onward (kindred : m'.Kindred n') (growing : m'.Growing) (growing' : n'.Growing)
    (scenes : R.Scenes m'.scene n'.scene)
    (frames : ∃ l k, m'.calls.frames = l ++ below ∧ n'.calls.frames = k ++ below' ∧
      List.Forall₂ (R.onward sound.wellFormed sound'.wellFormed).likeness.Frames l k) :
    ((R.onward sound.wellFormed sound'.wellFormed).setting below below' idle idle').Machines m' n' := by
  have stores := stores_onward sound sound' cells scenes.operands scenes.scopes
  have fits := sound'.operands
  have fits' := sound'.scopes
  rw [Sequence.Sized, Sequence.length, ← stores.operands.length_eq] at fits
  rw [Sequence.Sized, Sequence.length, ← stores.scopes.length_eq] at fits'
  exact {
    memory := stores.heaps
    operands := ⟨(Reserve.Fits.unique sound.operands fits kindred.operands).symm, stores.operands⟩
    calls := ⟨⟨growing.calls, growing'.calls⟩, frames⟩
    scopes := ⟨(Reserve.Fits.unique sound.scopes fits' kindred.scopes).symm, stores.scopes⟩
    pending := pendings_anew scenes.pending
    blockDepth := scenes.blockDepth
    throws := kindred.throws
    budget := kindred.budget }

end

end Renaming

namespace Renaming

variable {R : Renaming} {v w : Value}

theorem values_plain (h : v.datum = w.datum) (hv : v.handle? = none) : R.likeness.Values v w := by
  refine ⟨?_, False.elim⟩
  rw [← h]
  rw [Value.handle?] at hv
  generalize v.datum = d at hv
  cases d with
  | array | dictionary => cases hv
  | _ => constructor

theorem pushed_alike (h : v.datum = w.datum) (hv : v.handle? = none) :
    List.Forall₂ R.likeness.Values v.pushed w.pushed := by
  have same : w.isExecutable = v.isExecutable := congrArg Datum.isExecutable h.symm
  unfold Value.pushed
  rw [same]
  split
  · exact .nil
  · exact .cons (values_plain h hv) .nil

theorem queued_alike (h : v.datum = w.datum) (hv : v.handle? = none) :
    List.Forall₂ R.likeness.Frames v.queued w.queued := by
  have same : w.isExecutable = v.isExecutable := congrArg Datum.isExecutable h.symm
  unfold Value.queued
  rw [same]
  split
  · exact .cons ⟨values_plain h hv, rfl, rfl, .none, .none, .none⟩ .nil
  · exact .nil

end Renaming

namespace Machine

/-- **Two machines hold the same**, up to the handles of their containers and to where values come from. -/
def Mirrors (m n : Machine) : Prop := ∃ R : Renaming, R.Stores m n

end Machine

/-! ### Two sessions -/

namespace Session

variable {χ : Type} {R : Renaming} {H : Handle → Handle → Prop} {σ τ : Cells} {f : Frame}
  {below : List Frame} {d : Datum} {ds es : List Datum} {k l : Option Condition} {s t u v : Session χ}

/-- The frame at the bottom of the second session, which may be that of a block that stands for no
container of the first one; it may have gone already. -/
inductive Awaits (H : Handle → Handle → Prop) (σ : Cells) (ds : List Datum) (k : Option Condition) :
    List Frame → Prop
  | frame {g : Frame} (bare : g.Bare) (h : g.Provides σ ds k)
      (apart : ∀ j, g.value.handle? = some j → ∀ i, ¬ H i j) : Awaits H σ ds k [g]
  | gone (hds : ds = []) (hk : k = none) : Awaits H σ ds k []

theorem Awaits.idle (h : Awaits H σ ds k below) : ∀ g ∈ below, g.value.toOperator? = none := by
  cases h with
  | frame _ h => exact List.forall_mem_singleton.2 h.toOperator?_eq_none
  | gone => exact List.forall_mem_nil _

theorem Awaits.mono {H' : Handle → Handle → Prop} (h : Awaits H σ ds k below)
    (weaker : ∀ i j, H' i j → H i j) : Awaits H' σ ds k below := by
  cases h with
  | gone hds hk => exact .gone hds hk
  | frame bare h apart => exact .frame bare h fun j hj i hij => apart j hj i (weaker i j hij)

/-- A block goes on to be what it is. -/
theorem Awaits.of_apart (h : Awaits H σ ds k below)
    (same : ∀ j, (∀ i, ¬ H i j) → τ j = σ j) : Awaits H τ ds k below := by
  cases h with
  | gone hds hk => exact .gone hds hk
  | frame bare h apart =>
    refine .frame bare ?_ apart
    cases h with
    | text hvalue hcursor hsupply lexes hds => exact .text hvalue hcursor hsupply lexes hds
    | supply hvalue hsupply plain hds => exact .supply hvalue hsupply plain hds
    | block hvalue hsupply cell plain hds =>
      refine .block hvalue hsupply ?_ plain hds
      rwa [same _ (apart _ (by rw [Value.handle?, hvalue]))]

/-- It still stands for no container when the comparison begins anew, if it stands for none that is there. -/
theorem Awaits.onward {h k : Heap} {c : Option Condition} (hw : h.WellFormed) (kw : k.WellFormed)
    (ha : Awaits (fun i j => h.Live i ∧ R.handles i j) k.cell? ds c below) :
    Awaits (R.onward hw kw).handles k.cell? ds c below := by
  cases ha with
  | gone hds hk => exact .gone hds hk
  | @frame g bare hg apart =>
    refine .frame bare hg fun j hj i hij => ?_
    rcases hij with ⟨hi, -, hij⟩ | ⟨n, -, rfl⟩
    · exact apart j hj i ⟨hi, hij⟩
    · cases hg with
      | text hvalue | supply hvalue => rw [Value.handle?, hvalue] at hj; cases hj
      | @block i' q hvalue _ cell =>
        obtain rfl : i' = k.upcoming n := by rw [Value.handle?, hvalue] at hj; exact Option.some.inj hj
        rw [kw.upcoming_empty] at cell
        cases cell

/-- **Two sessions keep pace.** The first one has a text at the bottom of its call stack, with the data
`ds` still to come; in the second one a frame at the bottom gives the same data, and then others. -/
structure Paces (R : Renaming) (f : Frame) (below : List Frame) (ds es : List Datum)
    (k l : Option Condition) (s t : Session χ) : Prop where
  left : s.Unhindered
  right : t.Unhindered
  bare : f.Bare
  plain : f.value.handle? = none
  provides : f.Provides s.machine.memory.heap.cell? ds k
  awaits : Awaits R.handles t.machine.memory.heap.cell? (ds ++ es) l below
  sessions : (R.setting [f] below (List.forall_mem_singleton.2 provides.toOperator?_eq_none)
    awaits.idle).Sessions s t

namespace Paces

/-- **Sessions keep pace from now on** if they are alike. -/
theorem exists_onward (kindred : u.machine.Kindred v.machine) (left : u.Unhindered) (right : v.Unhindered)
    (host : u.host = v.host)
    (cells : ∀ i j, u.machine.memory.heap.Live i → v.machine.memory.heap.Live j → R.handles i j →
      Option.Rel R.Cells (u.machine.memory.heap.cell? i) (v.machine.memory.heap.cell? j))
    (scenes : R.Scenes u.machine.scene v.machine.scene) (bare : f.Bare)
    (plain : f.value.handle? = none) (provides : f.Provides u.machine.memory.heap.cell? ds k)
    (awaits : Awaits (fun i j => u.machine.memory.heap.Live i ∧ R.handles i j)
      v.machine.memory.heap.cell? (ds ++ es) l below)
    (frames : ∃ l k, u.machine.calls.frames = l ++ [f] ∧ v.machine.calls.frames = k ++ below ∧
      ∀ R : Renaming, List.Forall₂ R.likeness.Frames l k) :
    ∃ R', Paces R' f below ds es k l u v := by
  obtain ⟨Γ, x, -, ample⟩ := id left
  obtain ⟨Δ, y, -, ample'⟩ := id right
  obtain ⟨above, above', hu, hv, alike⟩ := frames
  exact ⟨_, left, right, bare, plain, provides,
    awaits.onward ample.sound.wellFormed ample'.sound.wellFormed,
    Renaming.machines_onward ample.sound ample'.sound cells kindred ample.growing ample'.growing
      scenes ⟨above, above', hu, hv, alike _⟩, host⟩

/-- There is nothing above the frames at the bottom. -/
theorem bottom (h : Paces R f below ds es k l s t) (length : s.machine.calls.length = 1) :
    s.machine.calls.frames = [f] ∧ t.machine.calls.frames = below := by
  obtain ⟨l, k, hl, hk, hlk⟩ := h.sessions.machine.calls.frames
  rw [CallStack.length, hl, List.length_append] at length
  obtain rfl : l = [] :=
    List.length_eq_zero_iff.1 (Nat.add_right_cancel (length.trans (Nat.zero_add 1).symm))
  cases hlk
  exact ⟨hl, hk⟩

/-- What is above is executed in both. -/
theorem lockstep (h : Paces R f below ds es k l s t) (work : 1 < s.machine.calls.length) :
    ∃ u v, s.Next u ∧ t.Next v ∧ Paces R f below ds es k l u v := by
  obtain ⟨u, v, hu, hv, left, right, sessions⟩ := h.left.lockstep h.right h.sessions work
  have before : R.Heaps s.machine.memory.heap t.machine.memory.heap := h.sessions.machine.memory
  have after : R.Heaps u.machine.memory.heap v.machine.memory.heap := sessions.machine.memory
  exact ⟨u, v, hu, hv, left, right, h.bare, h.plain, h.provides.of_plain h.plain _,
    h.awaits.of_apart fun j hj => (after.apart j hj).trans (before.apart j hj).symm, sessions⟩

/-- **The next value is given in both.** -/
theorem gives (h : Paces R f below (d :: ds) es k l s t) (length : s.machine.calls.length = 1)
    (hp : s.machine.pending = none) :
    ∃ u v, s.Next u ∧ t.Next v ∧ ∃ R' f' below', Paces R' f' below' ds es k l u v := by
  obtain ⟨hframes, hframes'⟩ := h.bottom length
  have old := h.sessions.machine
  have hp' : t.machine.pending = none := by
    have same := old.isSome_pending
    rw [hp] at same
    exact Option.not_isSome_iff_eq_none.1 (by simp [← same])
  have heaps : R.Heaps s.machine.memory.heap t.machine.memory.heap := old.memory
  obtain ⟨u, hu, left, host, a, below₁, τ, hd, plain, leaves, becomes, has, thins⟩ :=
    h.left.gives hframes h.bare hp h.provides
  cases leaves with
  | gone hf => exact absurd h.plain hf
  | @stays f' hvalue bare provides =>
    have awaits := h.awaits
    cases awaits with
    | gone hds => cases hds
    | @frame g bare' provides' apart =>
      obtain ⟨v, hv, right, host', a', below₂, τ', hd', plain', leaves', becomes', has', thins'⟩ :=
        h.right.gives hframes' bare' hp' provides'
      have same : a.datum = a'.datum := hd.trans hd'.symm
      rw [← has.cells] at provides thins
      rw [← has'.cells] at leaves' thins'
      -- the second frame may have gone with its last value, while the first one stays
      have awaits' : Awaits (fun i j => u.machine.memory.heap.Live i ∧ R.handles i j)
          v.machine.memory.heap.cell? (ds ++ es) l below₂ := by
        cases leaves' with
        | gone _ hds hk => exact .gone hds hk
        | stays hvalue' bare' provides' =>
          exact .frame bare' provides' fun j hj i hij => apart j (hvalue' ▸ hj) i hij.2
      have before := Renaming.scenes_of_machines old
      have scenes : R.Scenes u.machine.scene v.machine.scene := by
        rw [becomes.scene, becomes'.scene]
        exact { before with
          operands := List.rel_append (Renaming.pushed_alike same plain) before.operands }
      -- containers that are left on both sides go on to be renamed as they were
      obtain ⟨R', paces⟩ := exists_onward
        ((Renaming.kindred_of_machines old).of_make (sameMake_of_next hu) (sameMake_of_next hv)) left right
        (by rw [host, host', h.sessions.host]) (fun i j => Renaming.cells_of_thins heaps thins thins')
        scenes bare (hvalue ▸ h.plain) provides awaits'
        ⟨a.queued, a'.queued, becomes.frames, becomes'.frames,
          fun R => Renaming.queued_alike same plain⟩
      exact ⟨u, v, hu, hv, R', f', below₂, paces⟩

/-! ### Whole runs -/

/-- The first session has come to the end of its text, or an exception is pending there. -/
def Resting (ds : List Datum) (s : Session χ) : Prop :=
  s.machine.calls.length = 1 ∧ (s.machine.pending.isSome ∨ ds = [])

/-- Until then there is work left in both. -/
theorem work (h : Paces R f below ds es k l s t) (resting : ¬ Resting ds s) :
    s.machine.calls.frames ≠ [] ∧ t.machine.calls.frames ≠ [] := by
  obtain ⟨above, above', hs, ht, hlk⟩ := h.sessions.machine.calls.frames
  have some : s.machine.calls.frames ≠ [] := by
    rw [hs]
    exact List.append_ne_nil_of_right_ne_nil _ (List.cons_ne_nil _ _)
  refine ⟨some, fun none => ?_⟩
  rw [ht] at none
  obtain ⟨rfl, gone⟩ := List.append_eq_nil_iff.1 none
  cases hlk
  refine resting ⟨by rw [CallStack.length, hs]; rfl, .inr ?_⟩
  have awaits := h.awaits
  rw [show below = [] from gone] at awaits
  cases awaits with
  | gone hds => exact (List.append_eq_nil_iff.1 hds).1

/-- **Until then** they go on. -/
theorem next (h : Paces R f below ds es k l s t) (resting : ¬ Resting ds s) :
    ∃ u v, s.Next u ∧ t.Next v ∧ ∃ R' f' below' ds', Paces R' f' below' ds' es k l u v := by
  by_cases length : s.machine.calls.length = 1
  · have goes := not_or.1 (not_and.1 resting length)
    cases ds with
    | nil => exact absurd rfl goes.2
    | cons d ds =>
      obtain ⟨u, v, hu, hv, R', f', below', paces⟩ :=
        h.gives length (Option.not_isSome_iff_eq_none.1 goes.1)
      exact ⟨u, v, hu, hv, R', f', below', ds, paces⟩
  · have some : 0 < s.machine.calls.length := by
      obtain ⟨above, -, hs, -⟩ := h.sessions.machine.calls.frames
      rw [CallStack.length, hs, List.length_append]
      exact Nat.succ_pos _
    obtain ⟨u, v, hu, hv, paces⟩ := h.lockstep (by omega)
    exact ⟨u, v, hu, hv, R, f, below, ds, paces⟩

/-- **They come to that**, after as many cycles, or they go on for ever. -/
theorem comes_to_rest (h : Paces R f below ds es k l s t) :
    (s.RunsForever ∧ t.RunsForever) ∨ ∃ n u v R' f' below' ds', After n s u ∧ After n t v ∧
      Paces R' f' below' ds' es k l u v ∧ Resting ds' u := by
  by_cases rests : ∃ n u v R' f' below' ds', After n s u ∧ After n t v ∧
      Paces R' f' below' ds' es k l u v ∧ Resting ds' u
  · exact .inr rests
  · left
    have paces (n : ℕ) : ∃ u v R' f' below' ds', After n s u ∧ After n t v ∧
        Paces R' f' below' ds' es k l u v := by
      induction n with
      | zero => exact ⟨s, t, R, f, below, ds, rfl, rfl, h⟩
      | succ n ih =>
        obtain ⟨u, v, R', f', below', ds', hu, hv, paces⟩ := ih
        have busy : ¬ Resting ds' u := fun resting =>
          rests ⟨n, u, v, R', f', below', ds', hu, hv, paces, resting⟩
        obtain ⟨work, work'⟩ := paces.work busy
        obtain ⟨u', v', hu', hv', later⟩ := paces.next busy
        obtain ⟨R'', f'', below'', ds'', paces'⟩ := later
        exact ⟨u', v', R'', f'', below'', ds'', hu.trans (paces.left.after_one work hu'),
          hv.trans (paces.right.after_one work' hv'), paces'⟩
    have busy (n : ℕ) : ∃ u v, After n s u ∧ After n t v ∧ u.machine.calls.frames ≠ [] ∧
        v.machine.calls.frames ≠ [] := by
      obtain ⟨u, v, R', f', below', ds', hu, hv, paces⟩ := paces n
      exact ⟨u, v, hu, hv, paces.work fun resting =>
        rests ⟨n, u, v, R', f', below', ds', hu, hv, paces, resting⟩⟩
    exact ⟨runsForever_of_after fun n => (busy n).elim fun u ⟨_, hu, _, work, _⟩ => ⟨u, hu, work⟩,
      runsForever_of_after fun n => (busy n).elim fun _ ⟨v, _, hv, _, work⟩ => ⟨v, hv, work⟩⟩

/-- The frames at the bottom go in both. -/
theorem closes (h : Paces R f below ds [] k l s t) (rests : Resting ds s) :
    ∃ u v, s.Closes k u ∧ t.Closes l v ∧ u.machine.Mirrors v.machine := by
  obtain ⟨hframes, hframes'⟩ := h.bottom rests.1
  have old := h.sessions.machine
  obtain ⟨u, closes⟩ := h.left.closes hframes h.bare h.provides rests.2
  have closes' : ∃ v, t.Closes l v := by
    have awaits := h.awaits
    cases awaits with
    | gone hds hk =>
      subst hk
      exact ⟨t, h.right.closes_of_idle hframes'⟩
    | frame bare provides =>
      rw [List.append_nil] at provides
      exact h.right.closes hframes' bare provides (old.isSome_pending ▸ rests.2)
  obtain ⟨v, closes'⟩ := closes'
  obtain ⟨Γ, x, -, ample⟩ := id closes.unhindered
  obtain ⟨Δ, y, -, ample'⟩ := id closes'.unhindered
  refine ⟨u, v, closes, closes', _, Renaming.stores_onward ample.sound ample'.sound
    (fun i j => Renaming.cells_of_thins old.memory closes.thins closes'.thins) ?_ ?_⟩
  · rw [closes.operands, closes'.operands]
    exact old.operands.items
  · rw [closes.scopes, closes'.scopes]
    exact old.scopes.items

end Paces

/-- A run completes that fails at its end for the condition `k`, if for any; before that the condition
`c` is pending, and so many blocks have been begun. -/
structure Settles (c k : Option Condition) (depth : ℕ) (s t : Session χ) : Prop where
  completes : s.Completes t
  condition : t.machine.condition = (c <|> k)
  blockDepth : t.machine.blockDepth = if c = none ∧ k.isSome then 0 else depth

theorem Closes.settles {n : ℕ} (h : t.Closes k u) (ht : After n s t) :
    s.Settles t.machine.condition k t.machine.blockDepth u :=
  ⟨ht.completes_of h.completes, h.condition, h.blockDepth⟩

/-- **Sessions that keep pace** both go on for ever, or both complete with the same in them. -/
theorem Paces.comes_to_end (h : Paces R f below ds [] k l s t) :
    (s.RunsForever ∧ t.RunsForever) ∨ ∃ u v c n, s.Settles c k n u ∧ t.Settles c l n v ∧
      u.machine.Mirrors v.machine := by
  rcases h.comes_to_rest with forever | ⟨n, u, v, R', f', below', ds', hu, hv, paces, rests⟩
  · exact .inl forever
  · obtain ⟨u', v', left, right, mirrors⟩ := paces.closes rests
    have old := paces.sessions.machine
    refine .inr ⟨u', v', _, _, left.settles hu, ?_, mirrors⟩
    rw [old.condition, old.blockDepth]
    exact right.settles hv

end Session

end StackScript
