import StackScript.Proofs.Operator.Copying

/-!
# Blocks that are being bound

While `bind` is at work on the items of a block, the locals of its frame refer to the working copy, and
nothing else refers to these two (`Session.Poised`).  Each of its cycles goes on with one item, or ends
the work: what the scene beneath refers to, and what the items lead to, is not touched by any of them.
-/

namespace StackScript

open StackScript.Action Memory

/-- One of the values refers to the container. -/
def Refers (vs : List Value) (i : Handle) : Prop := ∃ v ∈ vs, v.handle? = some i

theorem Refers.mono {vs ws : List Value} {i : Handle} (h : Refers vs i)
    (hvs : ∀ v ∈ vs, ∀ i, v.handle? = some i → Refers ws i) : Refers ws i :=
  let ⟨v, hv, hi⟩ := h
  hvs v hv i hi

theorem Refers.subset {vs ws : List Value} {i : Handle} (h : Refers vs i) (hvs : vs ⊆ ws) :
    Refers ws i :=
  let ⟨v, hv, hi⟩ := h
  ⟨v, hvs hv, hi⟩

/-- The scene or others refer to the container. -/
def Scene.Roots (x : Stake) (c : Scene) (i : Handle) : Prop := c.Holds i ∨ 0 < x.holders i

namespace Machine

variable {Γ : Charter} {n : ℕ} {x : Stake} {m : Machine} {f : Frame} {above rest : List Frame}
  {d i g : Handle} {awaited : Option ℕ} {items : List Value}

/-- The working copy and its locals are there. -/
theorem Sound.copying (above : List Frame) (h : m.Sound Γ n x) (hframes : m.calls.frames = above ++ f :: rest)
    (hlocals : f.locals = some d) (hc : m.memory.heap.Copying d i awaited items) :
    m.LocalIs rest.length "target" (.array i .mutable) ∧ m.memory.heap.Holds d i ∧
      ∃ s : Sequence, s.toList = items ∧ m.memory.heap.object? i = some (.array s) := by
  have there {j : Handle} (hj : m.memory.heap.Live j) : ∃ o, m.memory.heap.object? j = some o := by
    obtain ⟨c, hc⟩ := Option.ne_none_iff_exists'.1 hj
    exact h.memory.present.exists_object hc
  have live : m.memory.heap.Live d := h.live (.inl (.inr (.inl ⟨f, by simp [scene, hframes],
    .inr hlocals⟩)))
  obtain ⟨o, ho⟩ := there live
  obtain ⟨D, rfl, tracks⟩ := hc.locals o ho
  have held : m.memory.heap.Holds d i :=
    ⟨_, ho, _, Dictionary.mem_values_of_get? tracks.target, rfl⟩
  refine ⟨⟨D, ?_, tracks.target⟩, held, ?_⟩
  · rw [localObject?, CallStack.frame?_above hframes, Option.bind_some, hlocals]
    exact ho
  · obtain ⟨o, ho⟩ := there (h.closed d i held)
    obtain ⟨s, rfl, hs⟩ := hc.items o ho
    exact ⟨s, hs, ho⟩

/-- The working copy holds what its items refer to. -/
theorem Sound.holds_of_copying (h : m.Sound Γ n x) (hframes : m.calls.frames = above ++ f :: rest)
    (hlocals : f.locals = some d) (hc : m.memory.heap.Copying d i awaited items)
    (hg : Refers items g) : m.memory.heap.Holds i g := by
  obtain ⟨-, -, s, rfl, ho⟩ := h.copying above hframes hlocals hc
  obtain ⟨v, hv, hg⟩ := hg
  exact ⟨_, ho, v, List.mem_reverse.1 hv, hg⟩

/-- Every container is referred to by something. -/
theorem Sound.held (h : m.Sound Γ n x) (hg : m.memory.heap.Live g) :
    m.scene.Roots x g ∨ ∃ j, m.memory.heap.Holds j g := by
  obtain ⟨-, σ, hb, -⟩ := h.memory
  obtain ⟨c, hc⟩ := Option.ne_none_iff_exists'.1 hg
  have held := hb.positive g c hc
  rw [← Heap.countAt_of_cell? hc, hb.holders, Stake.holders_add, Nat.add_pos_iff_pos_or_pos,
    Stake.holders_add, Nat.add_pos_iff_pos_or_pos, holders_pos_iff] at held
  refine held.imp_right fun held => ?_
  obtain ⟨v, hv, hg⟩ := (Stake.holders_pos_iff.1 held).resolve_right (by simp)
  obtain ⟨j, o, ho, hv⟩ := Heap.mem_values_stake.1 hv
  exact ⟨j, o, ho, v, hv, hg⟩

/-- When a block has been made of the working copy and the frame has gone, the working copy and its
locals have gone too. -/
theorem Sound.finishes {t : Machine} {y : Stake} {base : Scene} {j : Handle} {R : Handle → Prop}
    (h : m.Sound Γ n y) (hframes : m.calls.frames = above ++ f :: rest)
    (hlocals : f.locals = some d) (hc : m.memory.heap.Copying d i awaited items)
    (hs : m.memory.heap.Seals R fun g => g = d ∨ g = i)
    (hroots : ∀ g, base.Roots x g → R g) (hitems : ∀ g, Refers items g → R g)
    (hlive : ∀ g, R g → m.memory.heap.Live g) (ht : t.Sound Γ 0 x)
    (hscene : t.scene = { base with operands := .array j .block :: base.operands })
    (hb : m.memory.heap.Builds j items t.memory.heap) :
    (∃ s : Sequence, s.toList = items ∧ t.memory.heap.object? j = some (.array s)) ∧
      Heap.Makes R (Refers items) (· = j) m.memory.heap t.memory.heap ∧
        ∀ g, g = d ∨ g = i → ¬ t.memory.heap.Live g := by
  obtain ⟨-, held, s, hs', hi⟩ := h.copying above hframes hlocals hc
  have root : t.scene.Roots x j := by
    rw [hscene]
    exact .inl (.inl ⟨_, List.mem_cons_self, rfl⟩)
  obtain ⟨a, ha, object⟩ := hb.object? (ht.live root)
  have within (g : Handle) (hg : t.memory.heap.Holds j g) : Refers items g := by
    obtain ⟨o, ho, v, hv, hg⟩ := hg
    rw [object] at ho
    cases ho
    exact ⟨v, ha ▸ List.mem_reverse.2 hv, hg⟩
  refine ⟨⟨a, ha, object⟩, ⟨hb.drifts, ?_, ?_⟩, ?_⟩
  · rintro _ rfl reached
    exact hb.unused (reached.live h.closed hlive)
  · rintro _ g rfl hg
    exact .inr (Heap.reaches_of_root (within g hg))
  -- what would hold one of them is sealed with them
  have sealed (g : Handle) (hg : g = d ∨ g = i) (live : t.memory.heap.Live g) :
      ∃ g', (g' = d ∨ g' = i) ∧ m.memory.heap.Holds g' g ∧ t.memory.heap.Live g' := by
    have ne : g ≠ j := by
      rintro rfl
      refine hb.unused ?_
      rcases hg with rfl | rfl
      · exact Heap.live_of_object? held.choose_spec.1
      · exact Heap.live_of_object? hi
    rcases ht.held live with hroot | ⟨g', hg'⟩
    · rw [hscene] at hroot
      rcases hroot with ((⟨v, hv, hvg⟩ | hf) | hx)
      · rcases List.mem_cons.1 hv with rfl | hv
        · exact absurd (Option.some.inj hvg).symm ne
        · exact absurd (hroots g (.inl (.inl ⟨v, hv, hvg⟩))) (hs.roots g hg)
      · exact absurd (hroots g (.inl (.inr hf))) (hs.roots g hg)
      · exact absurd (hroots g (.inr hx)) (hs.roots g hg)
    · have ne' : g' ≠ j := by
        rintro rfl
        exact hs.roots g hg (hitems g (within g hg'))
      have holds := hb.drifts.holds ne' hg'
      exact ⟨g', hs.held g' g hg holds, holds, Heap.live_of_object? hg'.choose_spec.1⟩
  -- the working copy holds neither, and the locals do not hold themselves
  have outside (g : Handle) (hg : g = d ∨ g = i) : ¬ m.memory.heap.Holds i g := by
    rintro ⟨o, ho, v, hv, hvg⟩
    rw [hi] at ho
    cases ho
    exact hs.roots g hg (hitems g ⟨v, hs' ▸ List.mem_reverse.2 hv, hvg⟩)
  have gone : ¬ t.memory.heap.Live d := by
    intro live
    obtain ⟨g', rfl | rfl, holds, -⟩ := sealed d (.inl rfl) live
    · obtain ⟨o, ho, v, hv, hvg⟩ := holds
      obtain ⟨D, rfl, tracks⟩ := hc.locals o ho
      exact hc.ne (tracks.values v hv _ hvg)
    · exact outside d (.inl rfl) holds
  rintro g (rfl | rfl) live
  · exact gone live
  · obtain ⟨g', rfl | rfl, holds, live'⟩ := sealed g (.inr rfl) live
    · exact gone live'
    · exact outside _ (.inr rfl) holds

end Machine

namespace Session

variable {χ : Type} {Γ : Charter} {x : Stake} {goal : List Frame} {s t u : Session χ} {op v : Value}
  {base : Scene} {d i b : Handle} {k : ℕ} {content : List Value}

/-- The frame of `bind` when the item at an index is the next one. -/
def bindFrame (op : Value) (d : Handle) (k : ℕ) : Frame where
  value := op
  state := .running (.ofInt (k + 1))
  locals := some d

/-- Above the scene `base`, `bind` is at work on a copy of a block, which will hold these items when
what is awaited has been taken in.  There are no more frames in the goal than in the scene. -/
structure Poised (Γ : Charter) (x : Stake) (goal : List Frame) (op : Value) (base : Scene)
    (d i : Handle) (k : ℕ) (content : List Value) (u : Session χ) : Prop where
  ample : u.Ample Γ x goal
  within : goal.length ≤ base.frames.length
  working : ∃ operands awaited items,
    u.machine.scene = { base with
      operands := operands
      frames := bindFrame op d k :: base.frames } ∧
    u.machine.memory.heap.Copying d i awaited items ∧
    Operation.Collects base.operands operands awaited items content
  sealed : u.machine.memory.heap.Seals (fun g => base.Roots x g ∨ Refers content g)
    fun g => g = d ∨ g = i

/-- What has been on the stack, or is among the items, has been there before. -/
theorem Poised.live (h : u.Poised Γ x goal op base d i k content) {g : Handle}
    (hg : base.Roots x g ∨ Refers content g) : u.machine.memory.heap.Live g := by
  obtain ⟨operands, awaited, items, scene, copying, collects⟩ := h.working
  have frames : u.machine.calls.frames = [] ++ bindFrame op d k :: base.frames :=
    congrArg Scene.frames scene
  have item (hg : Refers items g) : u.machine.memory.heap.Live g :=
    h.ample.sound.closed i g (h.ample.sound.holds_of_copying frames rfl copying hg)
  have root (hg : u.machine.scene.Roots x g) : u.machine.memory.heap.Live g := h.ample.sound.live hg
  rw [scene] at root
  cases collects with
  | ready =>
    refine hg.elim (fun hg => root (hg.imp_left fun hg => ?_)) item
    exact hg.mono (List.Subset.refl _) (fun f hf => .inr ⟨f, List.mem_cons_of_mem _ hf, rfl, rfl⟩) rfl
  | @awaits _ k v hk =>
    rcases hg with hg | ⟨w, hw, hg⟩
    · refine root (hg.imp_left fun hg => ?_)
      exact hg.mono (List.subset_cons_self _ _)
        (fun f hf => .inr ⟨f, List.mem_cons_of_mem _ hf, rfl, rfl⟩) rfl
    · rcases List.mem_or_eq_of_mem_set hw with hw | rfl
      · exact item ⟨w, hw, hg⟩
      · exact root (.inl (.inl ⟨w, List.mem_cons_self, hg⟩))

/-- There are words for all steps of a block. -/
theorem Poised.small (h : u.Poised Γ x goal op base d i k content) (hk : k ≤ content.length) :
    (k : ℤ) + 2 ≤ 9223372036854775807 := by
  obtain ⟨operands, awaited, items, scene, copying, collects⟩ := h.working
  obtain ⟨-, -, s, rfl, object⟩ := h.ample.sound.copying []
    (congrArg Scene.frames scene) rfl copying
  obtain ⟨-, σ, balanced, -⟩ := h.ample.sound.memory
  have few : s.items.length * 24 ≤ 18446744073709551615 := balanced.length_le_limit object
  have length : content.length = s.items.length := by
    cases collects with
    | ready => simp [Sequence.toList]
    | awaits => simp [Sequence.toList]
  omega

/-- What is made of the working copy is made of its items. -/
theorem Poised.makes {h' : Heap} {awaited : Option ℕ} {items : List Value}
    (h : u.Poised Γ x goal op base d i k content)
    (hr : u.machine.memory.heap.Revises d i awaited items h')
    (hitems : ∀ g, Refers items g → Refers content g) :
    Heap.Makes (fun g => base.Roots x g ∨ Refers content g) (Refers content)
      (fun g => g = d ∨ g = i) u.machine.memory.heap h' where
  drifts := hr.drifts
  apart _ hg := h.sealed.not_reaches hg
  within := by
    rintro _ j (rfl | rfl) ⟨o, ho, v, hv, hj⟩
    · obtain ⟨D, rfl, tracks⟩ := hr.copying.locals o ho
      exact .inl (.inr (tracks.values v hv j hj))
    · obtain ⟨s, rfl, rfl⟩ := hr.copying.items o ho
      exact .inr (Heap.reaches_of_root (hitems j ⟨v, List.mem_reverse.2 hv, hj⟩))

/-- **A cycle of `bind`** takes in what has been awaited, and goes on from there. -/
theorem Poised.next {M : Machine → Prop} {P : Session χ → Prop}
    (h : u.Poised Γ x goal op base d i k content) (hop : op.datum = .operator (.builtin .bind))
    (hp : base.pending = none) (hk : k ≤ content.length)
    (hnext : ∀ m, m.Sound Γ (base.frames.length + 1) x → m.Growing →
      m.scene = { base with frames := bindFrame op d k :: base.frames } →
      u.machine.memory.heap.Revises d i none content m.memory.heap →
        ((match content[k]? with
          | none => do
            Operation.finishBind (.array i .mutable)
            Operation.setState .pop
          | some item => do
            Operation.bindItem (.array i .mutable) k item (.ofInt (k + 1))
            Operation.setState (.running (.ofInt (k + 1 + 1))) : Operation Unit).runOn
              (some base.frames.length) m).Grants fun _ => M)
    (hsettle : ∀ t : Session χ, M t.machine →
      (settle base.frames.length (.running (.ofInt (k + 1))) t).Grants fun _ => P) :
    ∃ t, Next u t ∧ t.Ample Γ x goal ∧ P t := by
  obtain ⟨operands, awaited, items, scene, copying, collects⟩ := h.working
  have frames : u.machine.calls.frames = bindFrame op d k :: base.frames :=
    congrArg Scene.frames scene
  have sound : u.machine.Sound Γ (base.frames.length + 1) x :=
    { h.ample.sound with depth := (CallStack.length_of_cons frames).ge }
  obtain ⟨bound, -⟩ := sound.copying [] frames rfl copying
  have operands : u.machine.operands.items = operands := congrArg Scene.operands scene
  have small := h.small hk
  refine h.ample.next frames (toCome_cons h.within _).ne (fed_of_no_supply frames rfl) ?_
  rw [step_of_builtin ((congrArg Scene.pending scene).trans hp) rfl hop,
    stepOperator_resumes rfl frames nofun nofun]
  refine resume_grants (M := fun t => M t.machine) (grants_onMachine ?_) hsettle
  refine Operation.bindBlock_grants ⟨sound, bound⟩ h.ample.growing frames rfl rfl (by omega) copying
    (operands ▸ collects) fun m sound' becomes revised =>
      hnext m sound' (becomes.growing h.ample.growing) ?_ revised
  rw [becomes.scene, scene]

/-- The scene beneath is still led to where it was. -/
theorem Poised.retains {m : Machine} {n : ℕ} {awaited : Option ℕ} {items operands : List Value}
    (above : List Frame) (h : u.Poised Γ x goal op base d i k content) (hm : m.Sound Γ n x)
    (hscene : m.scene = { base with
      operands := operands
      frames := above ++ base.frames })
    (hoperands : base.operands ⊆ operands)
    (hr : u.machine.memory.heap.Revises d i awaited items m.memory.heap) :
    Heap.Retains (base.Roots x) u.machine.memory.heap m.memory.heap := by
  refine hr.drifts.retains h.ample.sound.closed hm.closed (fun g hg => h.live (.inl hg))
    (fun g hg => hm.live (hg.imp_left fun hg => ?_)) fun g reached hg =>
      h.sealed.not_reaches hg (reached.mono fun _ => .inl)
  rw [hscene]
  exact hg.mono hoperands
    (fun f hf => .inr ⟨f, List.mem_append_right _ hf, rfl, rfl⟩) rfl

theorem canBecome_bindFrame (hk : (k : ℤ) + 2 ≤ 9223372036854775807) :
    (bindFrame op d k).state.canBecome (.running (.ofInt (k + 1 + 1))) = true := by
  simp only [Continuation.canBecome, Continuation.isValid, bindFrame, Continuation.permits,
    Bool.and_true, decide_eq_true_eq]
  rw [Word.toInt_ofInt (by omega) (by omega)]
  omega

/-- In a running step an operator stays. -/
theorem settle_bindFrame (above : List Frame) {rest : List Frame}
    (hframes : t.machine.calls.frames = above ++ bindFrame op d k :: rest) (c : Continuation) :
    settle rest.length c t = .done () t :=
  settle_stays hframes (by rintro rfl (h | h) <;> cases h) nofun

/-- A value that is no block is bound, and the next one is to follow. -/
theorem Poised.binds (h : u.Poised Γ x goal op base d i k content)
    (hop : op.datum = .operator (.builtin .bind)) (hp : base.pending = none)
    (hv : content[k]? = some v) (hblock : v.block? = none) :
    ∃ t, Next u t ∧ t.Poised Γ x goal op base d i (k + 1) (content.set k (u.machine.bound v)) ∧
      u.machine.memory.heap.Revises d i none (content.set k (u.machine.bound v))
        t.machine.memory.heap := by
  obtain ⟨hk, rfl⟩ := List.getElem?_eq_some_iff.1 hv
  have small := h.small hk.le
  have scopes : u.machine.scopes.items = base.scopes := by
    obtain ⟨operands, awaited, items, scene, -⟩ := h.working
    exact congrArg Scene.scopes scene
  let Bound (m : Machine) : Prop :=
    m.scene = { base with frames := bindFrame op d (k + 1) :: base.frames } ∧
      u.machine.memory.heap.Revises d i none (content.set k (u.machine.bound content[k]))
        m.memory.heap
  have binds (m : Machine) (sound : m.Sound Γ (base.frames.length + 1) x) (growing : m.Growing)
      (scene : m.scene = { base with frames := bindFrame op d k :: base.frames })
      (revised : u.machine.memory.heap.Revises d i none content m.memory.heap) :
      ((do
        Operation.bindItem (.array i .mutable) k content[k] (.ofInt (k + 1))
        Operation.setState (.running (.ofInt (k + 1 + 1))) : Operation Unit).runOn
          (some base.frames.length) m).Grants fun _ => Bound := by
    have same : m.bound = u.machine.bound := by
      refine Machine.bound_eq_of_resolution? (Machine.resolution?_of_retains (R := base.Roots x)
        ((congrArg Scene.scopes scene).trans scopes.symm)
        (h.retains [_] sound scene (List.Subset.refl _) revised) fun w hw j hj => ?_)
      exact .inl (.inr (.inr ⟨w, scopes ▸ hw, hj⟩))
    refine Operation.grants_runOn_bind (Operation.bindItem_grants sound revised.copying hv hblock _)
      fun _ m₁ ⟨h₁, revised₁⟩ => Operation.grants_ask ?_
    obtain ⟨m₂, moved, memory, h₂⟩ := Machine.setState_above [] _
      (h₁.frames.trans (congrArg Scene.frames scene)) (canBecome_bindFrame small)
    change Outcome.Grants (Machine.setState base.frames.length _ m₁) _
    rw [moved]
    refine ⟨h₂.scene.trans ?_, memory ▸ same ▸ revised.trans revised₁⟩
    rw [h₁.scene, scene]
    simp [bindFrame]
  obtain ⟨t, next, ample, scene, revised⟩ := h.next (M := Bound) (P := fun t => Bound t.machine) hop
    hp hk.le (fun m sound growing scene revised => by
      rw [hv]; exact binds m sound growing scene revised)
    (fun t ht => by
      rw [settle_bindFrame [] (congrArg Scene.frames ht.1)]
      exact ht)
  refine ⟨t, next, ⟨ample, h.within, ⟨_, _, _, scene, revised.copying, .ready _⟩,
    (h.sealed.of_drifts revised.drifts).mono fun g => Or.imp_right fun hg => ?_⟩, revised⟩
  refine hg.mono fun w hw j hj => ?_
  rcases List.mem_or_eq_of_mem_set hw with hw | rfl
  · exact ⟨w, hw, hj⟩
  · exact ⟨content[k], List.getElem_mem hk, Machine.handle?_bound hj⟩

/-- For a nested block another `bind` is queued, and the next item is to follow. -/
theorem Poised.queues (h : u.Poised Γ x goal op base d i k content)
    (hop : op.datum = .operator (.builtin .bind)) (hp : base.pending = none)
    (hv : content[k]? = some v) (hblock : v.block? = some b) :
    ∃ t, Next u t ∧ t.Ample Γ x goal ∧ t.machine.scene = { base with
      operands := v :: base.operands
      frames := { value := op } :: bindFrame op d (k + 1) :: base.frames } ∧
      u.machine.memory.heap.Revises d i (some k) content t.machine.memory.heap := by
  obtain ⟨hk, rfl⟩ := List.getElem?_eq_some_iff.1 hv
  have small := h.small hk.le
  have index : (Word.ofInt ((Word.ofInt ((k : ℤ) + 1)).toInt - 1)).index? = some k := by
    rw [Word.toInt_ofInt (by omega) (by omega), add_sub_cancel_right]
    unfold Word.index?
    rw [Word.toInt_ofInt (by omega) (by omega), if_pos (by omega), Int.toNat_natCast]
  let Queued (m : Machine) : Prop :=
    m.scene = { base with
      operands := content[k] :: base.operands
      frames := { value := op } :: bindFrame op d (k + 1) :: base.frames } ∧
      u.machine.memory.heap.Revises d i (some k) content m.memory.heap
  have queues (m : Machine) (growing : m.Growing)
      (scene : m.scene = { base with frames := bindFrame op d k :: base.frames })
      (revised : u.machine.memory.heap.Revises d i none content m.memory.heap) :
      ((do
        Operation.bindItem (.array i .mutable) k content[k] (.ofInt (k + 1))
        Operation.setState (.running (.ofInt (k + 1 + 1))) : Operation Unit).runOn
          (some base.frames.length) m).Grants fun _ => Queued := by
    refine Operation.grants_runOn_bind (Operation.bindItem_queues growing
      (congrArg Scene.frames scene) rfl revised.copying hblock k _)
      fun _ m₁ ⟨h₁, revised₁⟩ => Operation.grants_ask ?_
    obtain ⟨m₂, moved, memory, h₂⟩ := Machine.setState_above [{ value := op }] _
      h₁.frames (canBecome_bindFrame small)
    change Outcome.Grants (Machine.setState base.frames.length _ m₁) _
    rw [moved]
    refine ⟨h₂.scene.trans ?_, memory ▸ index ▸ revised.trans revised₁⟩
    rw [h₁.scene, show m.operands.items = base.operands from congrArg Scene.operands scene, scene]
    rfl
  exact h.next (M := Queued) (P := fun t => Queued t.machine) hop hp hk.le
    (fun m _ growing scene revised => by rw [hv]; exact queues m growing scene revised)
    (fun t ht => by
      rw [settle_bindFrame [_] (congrArg Scene.frames ht.1)]
      exact ht)

/-- After the last item the working copy gives way to a block, and the frame goes. -/
theorem Poised.ends (h : u.Poised Γ x goal op base d i k content)
    (hop : op.datum = .operator (.builtin .bind)) (hp : base.pending = none)
    (hk : k = content.length) :
    ∃ t j, Next u t ∧ t.Ample Γ x goal ∧
      t.machine.scene = { base with operands := .array j .block :: base.operands } ∧
      (∃ a : Sequence, a.toList = content ∧ t.machine.memory.heap.object? j = some (.array a)) ∧
      Heap.Makes (fun g => base.Roots x g ∨ Refers content g) (Refers content) (· = j)
        u.machine.memory.heap t.machine.memory.heap ∧
      ∀ g, g = d ∨ g = i → ¬ t.machine.memory.heap.Live g := by
  let Finished (c : Scene) (m' : Machine) : Prop := ∃ (m : Machine) (j : Handle),
    m.Sound Γ (base.frames.length + 1) x ∧
      m.scene = { base with frames := bindFrame op d k :: base.frames } ∧
        u.machine.memory.heap.Revises d i none content m.memory.heap ∧
          m'.scene = { c with operands := .array j .block :: base.operands } ∧
            m.memory.heap.Builds j content m'.memory.heap
  have finishes (m : Machine) (sound : m.Sound Γ (base.frames.length + 1) x) (growing : m.Growing)
      (scene : m.scene = { base with frames := bindFrame op d k :: base.frames })
      (revised : u.machine.memory.heap.Revises d i none content m.memory.heap) :
      ((do
        Operation.finishBind (.array i .mutable)
        Operation.setState .pop : Operation Unit).runOn (some base.frames.length) m).Grants fun _ m' =>
          m'.Growing ∧ Finished
            { base with frames := { bindFrame op d k with state := .pop } :: base.frames } m' := by
    refine Operation.grants_runOn_bind (Operation.finishBind_grants growing sound.wellFormed
      revised.copying.items) fun _ m₁ ⟨j, h₁, builds⟩ => Operation.grants_ask ?_
    obtain ⟨m₂, moved, memory, h₂⟩ := Machine.setState_above [] .pop
      (h₁.frames.trans (congrArg Scene.frames scene)) rfl
    change Outcome.Grants (Machine.setState base.frames.length _ m₁) _
    rw [moved]
    refine ⟨h₂.growing (h₁.growing growing), m, j, sound, scene, revised, h₂.scene.trans ?_,
      memory ▸ builds⟩
    rw [h₁.scene, show m.operands.items = base.operands from congrArg Scene.operands scene, scene]
    rfl
  obtain ⟨t, next, ample, m, j, sound, scene, revised, scene', builds⟩ := h.next
    (M := fun m' => m'.Growing ∧ Finished
      { base with frames := { bindFrame op d k with state := .pop } :: base.frames } m')
    (P := fun t => Finished base t.machine) hop hp hk.le
    (fun m sound growing scene revised => by
      rw [List.getElem?_eq_none hk.ge]
      exact finishes m sound growing scene revised)
    (fun t ⟨growing, m, j, sound, scene, revised, scene', builds⟩ => by
      refine (settle_grants growing (congrArg Scene.frames scene') (.inr rfl)).mono
        fun _ t' ⟨becomes, sheds⟩ => ⟨m, j, sound, scene, revised, becomes.scene.trans ?_,
          builds.trans_sheds sheds⟩
      rw [scene'])
  refine ⟨t, j, next, ample, scene', ?_⟩
  have frames : m.calls.frames = [] ++ bindFrame op d k :: base.frames :=
    congrArg Scene.frames scene
  have live (g : Handle) (hg : base.Roots x g ∨ Refers content g) : m.memory.heap.Live g := by
    refine hg.elim (fun hg => sound.live (hg.imp_left fun hg => ?_)) fun hg =>
      sound.closed i g (sound.holds_of_copying frames rfl revised.copying hg)
    rw [scene]
    exact hg.mono (List.Subset.refl _)
      (fun f hf => .inr ⟨f, List.mem_cons_of_mem _ hf, rfl, rfl⟩) rfl
  obtain ⟨object, made, gone⟩ := sound.finishes frames rfl revised.copying
    (h.sealed.of_drifts revised.drifts) (fun _ => .inl) (fun _ => .inr) live ample.sound scene' builds
  have before := h.makes revised fun _ => id
  exact ⟨object, (before.trans made (before.retains h.ample.sound.closed sound.closed
    (fun _ => h.live) live) (fun _ hg => Heap.reaches_of_root hg) fun _ hg =>
      .inr (Heap.reaches_of_root hg)).drop ample.sound.closed (fun _ => .inr)
        fun g hg hne => gone g (hg.resolve_right hne), gone⟩

/-! ### Beginning -/

theorem matchOperands_block {m : Machine} {below : List Value}
    (hoperands : m.operands.items = v :: below) (hv : v.block? = some b) :
    m.matchOperands Builtin.bind.signature = .ok [v] := by
  have accepted : Param.block.accepts v = true := by
    unfold Value.block? at hv
    split at hv
    · rename_i hd
      simp [Param.accepts, Value.access?, hd]
    · cases hv
  simp [Machine.matchOperands, Sequence.length, hoperands, Builtin.signature,
    Machine.matchOperands.go, accepted]
  rfl

/-- **The first cycle of `bind`** makes a working copy, and goes on from there. -/
theorem Ample.drafts {a : Sequence} {E : Scene → Memory → Prop} {P : Session χ → Prop}
    (h : s.Ample Γ x goal) (hgoal : goal.length ≤ base.frames.length)
    (hop : op.datum = .operator (.builtin .bind)) (hp : base.pending = none)
    (hscene : s.machine.scene = { base with
      operands := v :: base.operands
      frames := { value := op } :: base.frames })
    (hv : v.block? = some b) (ha : s.machine.memory.heap.object? b = some (.array a))
    (hnext : ∀ m d i, m.Sound Γ (base.frames.length + 1) (x + .refs [v]) → m.Growing →
      m.scene = { base with
        frames := { value := op, state := .firstCall, locals := some d } :: base.frames } →
      s.machine.memory.heap.Revises d i none a.toList m.memory.heap →
      ¬ s.machine.memory.heap.Live d → ¬ s.machine.memory.heap.Live i →
        ((if a.toList.isEmpty then Operation.finishBind (.array i .mutable)
          else Operation.setState (.running (.ofInt 1)) : Operation Unit).runOn
            (some base.frames.length) m).Grants fun _ m' => m.Becomes m'.scene m' ∧ E m'.scene m'.memory)
    (hsheds : ∀ c μ ν, E c μ → μ.Sheds ν → E c ν)
    (hsettle : ∀ t : Session χ, t.machine.Growing → E t.machine.scene t.machine.memory →
      (settle base.frames.length .firstCall t).Grants fun _ => P) :
    ∃ t, Next s t ∧ t.Ample Γ x goal ∧ P t := by
  have frames : s.machine.calls.frames = { value := op } :: base.frames :=
    congrArg Scene.frames hscene
  have operands : s.machine.operands.items = v :: base.operands := congrArg Scene.operands hscene
  refine h.next frames (toCome_cons hgoal _).ne (fed_of_no_supply frames rfl) ?_
  rw [step_of_builtin ((congrArg Scene.pending hscene).trans hp) rfl hop,
    stepOperator_dispatches rfl frames rfl]
  refine dispatch_grants (E := E) h.sound frames rfl (matchOperands_block operands hv) ?_ hsheds
    fun t c hc he => hsettle t (hc.growing h.growing) (hc.scene ▸ he)
  intro m hm recounts sound
  have shows : m.memory.heap.Shows b (Object.Lists a.toList) := by
    intro o ho
    rw [Heap.object?_of_content? (recounts.content b), ha] at ho
    cases ho
    exact ⟨a, rfl, rfl⟩
  refine grants_onMachine ?_
  change ((Operation.beginBind [v]).runOn (some base.frames.length) m).Grants _
  refine Operation.beginBind_grants sound (hm.growing h.growing) hm.frames rfl
    (hm.operands.trans operands) hv shows fun m' d i sound' becomes revised hd hi => ?_
  have same (g : Handle) (hg : s.machine.memory.heap.Live g) : m.memory.heap.Live g := by
    rw [Heap.live_iff_content?, recounts.content g, ← Heap.live_iff_content?]
    exact hg
  refine (hnext m' d i sound' (becomes.growing (hm.growing h.growing)) ?_
    ⟨(recounts.sheds.drifts _).trans revised.drifts, revised.copying⟩ (fun live => hd (same d live))
      fun live => hi (same i live)).mono fun _ m'' ⟨becomes', he⟩ =>
        ⟨m''.scene, ⟨rfl, (becomes'.growth.trans becomes.growth).trans hm.growth⟩, he⟩
  rw [becomes.scene, hm.scene, hscene]

section

variable {a : Sequence} (h : s.Ample Γ x goal) (hgoal : goal.length ≤ base.frames.length)
  (hop : op.datum = .operator (.builtin .bind))
  (hp : base.pending = none)
  (hscene : s.machine.scene = { base with
    operands := v :: base.operands
    frames := { value := op } :: base.frames })
  (hv : v.block? = some b) (ha : s.machine.memory.heap.object? b = some (.array a))

include h hscene in
theorem Ample.live_of_beneath {g : Handle} (hg : base.Roots x g ∨ Refers [v] g) :
    s.machine.memory.heap.Live g := by
  have root (hg : s.machine.scene.Roots x g) : s.machine.memory.heap.Live g := h.sound.live hg
  rw [hscene] at root
  rcases hg with hg | ⟨w, hw, hg⟩
  · exact root (hg.imp_left fun hg => hg.mono (List.subset_cons_self _ _)
      (fun f hf => .inr ⟨f, List.mem_cons_of_mem _ hf, rfl, rfl⟩) rfl)
  · exact root (.inl (.inl ⟨w, List.mem_cons.2 (.inl (List.mem_singleton.1 hw)), hg⟩))

include hv ha in
theorem reaches_of_item {g : Handle} (hg : Refers a.toList g) :
    s.machine.memory.heap.Reaches (Refers [v]) g := by
  obtain ⟨w, hw, hg⟩ := hg
  exact (Heap.reaches_of_root ⟨v, List.mem_singleton_self v, Heap.handle?_of_block? hv⟩).step
    ⟨_, ha, w, List.mem_reverse.1 hw, hg⟩

include h hscene hv ha in
/-- A working copy that has just been made is made of the items of the block, and sealed. -/
theorem Ample.makes_draft {h' : Heap} {awaited : Option ℕ}
    (revised : s.machine.memory.heap.Revises d i awaited a.toList h')
    (hd : ¬ s.machine.memory.heap.Live d) (hi : ¬ s.machine.memory.heap.Live i) :
    Heap.Makes (fun g => base.Roots x g ∨ Refers [v] g) (Refers [v]) (fun g => g = d ∨ g = i)
      s.machine.memory.heap h' ∧ h'.Seals (fun g => base.Roots x g ∨ Refers a.toList g) fun g => g = d ∨ g = i := by
  have unused : ∀ g, g = d ∨ g = i → ¬ s.machine.memory.heap.Live g := by
    rintro g (rfl | rfl)
    · exact hd
    · exact hi
  have live (g : Handle) (hg : base.Roots x g ∨ Refers [v] g) : s.machine.memory.heap.Live g :=
    h.live_of_beneath hscene hg
  have item (g : Handle) (hg : Refers a.toList g) : s.machine.memory.heap.Live g :=
    (reaches_of_item hv ha hg).live h.sound.closed fun g hg => live g (.inr hg)
  refine ⟨⟨revised.drifts, fun g hg reached => ?_, ?_⟩, ?_⟩
  · exact unused g hg (reached.live h.sound.closed live)
  · rintro _ j (rfl | rfl) ⟨o, ho, w, hw, hj⟩
    · obtain ⟨D, rfl, tracks⟩ := revised.copying.locals o ho
      exact .inl (.inr (tracks.values w hw j hj))
    · obtain ⟨s', rfl, hs'⟩ := revised.copying.items o ho
      exact .inr (reaches_of_item hv ha ⟨w, hs' ▸ List.mem_reverse.2 hw, hj⟩)
  · exact Heap.seals_of_unused h.sound.closed revised.drifts unused fun g hg =>
      hg.elim (fun hg => live g (.inl hg)) (item g)

include h hgoal hop hp hscene hv ha in
/-- A block with items has a working copy then. -/
theorem Ample.poised (hitems : a.toList ≠ []) : ∃ t d i, Next s t ∧
    t.Poised Γ x goal op base d i 0 a.toList ∧
      s.machine.memory.heap.Revises d i none a.toList t.machine.memory.heap ∧
        Heap.Makes (fun g => base.Roots x g ∨ Refers [v] g) (Refers [v]) (fun g => g = d ∨ g = i)
          s.machine.memory.heap t.machine.memory.heap := by
  obtain ⟨t, next, ample, d, i, hd, hi, scene, revised⟩ := h.drafts (E := fun c μ => ∃ d i,
      ¬ s.machine.memory.heap.Live d ∧ ¬ s.machine.memory.heap.Live i ∧
        c = { base with frames := bindFrame op d 0 :: base.frames } ∧
          s.machine.memory.heap.Revises d i none a.toList μ.heap)
    (P := fun t => ∃ d i, ¬ s.machine.memory.heap.Live d ∧ ¬ s.machine.memory.heap.Live i ∧
      t.machine.scene = { base with frames := bindFrame op d 0 :: base.frames } ∧
        s.machine.memory.heap.Revises d i none a.toList t.machine.memory.heap)
    hgoal hop hp hscene hv ha
    (fun m d i sound growing scene revised hd hi => by
      rw [if_neg (by simpa using hitems)]
      obtain ⟨m₁, moved, memory, h₁⟩ := Machine.setState_above []
        (.running (.ofInt 1)) (congrArg Scene.frames scene) rfl
      refine Operation.grants_ask ?_
      change Outcome.Grants (Machine.setState base.frames.length _ m) _
      rw [moved]
      refine ⟨⟨rfl, h₁.growth⟩, d, i, hd, hi, h₁.scene.trans ?_, memory ▸ revised⟩
      rw [scene]
      rfl)
    (fun c μ ν ⟨d, i, hd, hi, hc, revised⟩ sheds => ⟨d, i, hd, hi, hc, revised.sheds sheds⟩)
    (fun t growing ⟨d, i, hd, hi, scene, revised⟩ => by
      rw [settle_bindFrame [] (congrArg Scene.frames scene)]
      exact ⟨d, i, hd, hi, scene, revised⟩)
  obtain ⟨made, sealed⟩ := h.makes_draft hscene hv ha revised hd hi
  exact ⟨t, d, i, next, ⟨ample, hgoal, ⟨_, _, _, scene, revised.copying, .ready _⟩, sealed⟩,
    revised, made⟩

include h hgoal hop hp hscene hv ha in
/-- A block without items is done with in one cycle. -/
theorem Ample.copies_empty (hitems : a.toList = []) : ∃ t j, Next s t ∧ t.Ample Γ x goal ∧
    t.machine.scene = { base with operands := .array j .block :: base.operands } ∧
    (∃ a : Sequence, a.toList = [] ∧ t.machine.memory.heap.object? j = some (.array a)) ∧
    Heap.Makes (base.Roots x) (Refers [v]) (· = j) s.machine.memory.heap t.machine.memory.heap := by
  let Finished (frames : Handle → List Frame) (c : Scene) (μ : Memory) : Prop :=
    ∃ (m : Machine) (d i j : Handle), m.Sound Γ (base.frames.length + 1) (x + .refs [v]) ∧
      m.scene = { base with
        frames := { value := op, state := .firstCall, locals := some d } :: base.frames } ∧
        s.machine.memory.heap.Revises d i none a.toList m.memory.heap ∧
          ¬ s.machine.memory.heap.Live d ∧ ¬ s.machine.memory.heap.Live i ∧
            c = { base with
              operands := .array j .block :: base.operands
              frames := frames d } ∧ m.memory.heap.Builds j a.toList μ.heap
  obtain ⟨t, next, ample, m, d, i, j, sound, scene, revised, hd, hi, scene', builds⟩ := h.drafts
    (E := Finished fun d => { value := op, state := .firstCall, locals := some d } :: base.frames)
    (P := fun t => Finished (fun _ => base.frames) t.machine.scene t.machine.memory)
    hgoal hop hp hscene hv ha
    (fun m d i sound growing scene revised hd hi => by
      rw [if_pos (by simp [hitems])]
      refine (Operation.finishBind_grants growing sound.wellFormed revised.copying.items).mono
        fun _ m' ⟨j, becomes, builds⟩ => ⟨⟨rfl, becomes.growth⟩, m, d, i, j, sound, scene, revised,
          hd, hi, becomes.scene.trans ?_, builds⟩
      rw [scene, show m.operands.items = base.operands from congrArg Scene.operands scene])
    (fun c μ ν ⟨m, d, i, j, sound, scene, revised, hd, hi, hc, builds⟩ sheds =>
      ⟨m, d, i, j, sound, scene, revised, hd, hi, hc, builds.trans_sheds sheds⟩)
    (fun t growing ⟨m, d, i, j, sound, scene, revised, hd, hi, scene', builds⟩ => by
      refine (settle_grants growing (congrArg Scene.frames scene') (.inl ⟨rfl, .inl rfl⟩)).mono
        fun _ t' ⟨becomes, sheds⟩ => ⟨m, d, i, j, sound, scene, revised, hd, hi,
          becomes.scene.trans ?_, builds.trans_sheds sheds⟩
      rw [scene'])
  obtain ⟨before, sealed⟩ := h.makes_draft hscene hv ha revised hd hi
  have before := before.mono (fun _ hg => Heap.reaches_of_root (.inl hg)) fun _ hg =>
    Heap.reaches_of_root hg
  have frames : m.calls.frames =
      [] ++ { value := op, state := .firstCall, locals := some d } :: base.frames :=
    congrArg Scene.frames scene
  have root (g : Handle) (hg : base.Roots x g) : m.memory.heap.Live g := by
    have root : m.scene.Roots x g := hg.imp_left fun hg => by
      rw [scene]
      exact hg.mono (List.Subset.refl _)
        (fun f hf => .inr ⟨f, List.mem_cons_of_mem _ hf, rfl, rfl⟩) rfl
    refine sound.live (root.imp_right fun hx => ?_)
    rw [Stake.holders_add]
    exact Nat.add_pos_left hx _
  have live (g : Handle) (hg : base.Roots x g ∨ Refers a.toList g) : m.memory.heap.Live g :=
    hg.elim (root g) fun hg =>
      sound.closed i g (sound.holds_of_copying frames rfl revised.copying hg)
  obtain ⟨object, made, gone⟩ := sound.finishes frames rfl revised.copying sealed (fun _ => .inl)
    (fun _ => .inr) live ample.sound scene' builds
  refine ⟨t, j, next, ample, scene', hitems ▸ object, (before.trans made (before.retains
    h.sound.closed sound.closed (fun g hg => h.live_of_beneath hscene (.inl hg)) root)
    (fun _ hg => Heap.reaches_of_root (.inl hg))
    fun _ hg => .inr (reaches_of_item hv ha hg)).drop ample.sound.closed (fun _ => .inr)
      fun g hg hne => gone g (hg.resolve_right hne)⟩

end

end Session

end StackScript
