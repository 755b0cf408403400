import StackScript.Proofs.Machine.Drafting

/-!
# Binding a block

`bind` goes over the items of a block one at a time, one in each cycle, and a nested block is bound by
another `bind` above it, which leaves its copy on the operand stack.  By induction on the code in the
block, all this comes to replacing the block by one that reads as the code bound everywhere
(`binding_copies_the_code`).
-/

namespace StackScript

open StackScript.Action Memory
open Relation (ReflTransGen)

/-- The container is one of the blocks among the values, or nested in one of them. -/
def Heap.Nested (h : Heap) (vs : List Value) (g : Handle) : Prop :=
  ∃ v ∈ vs, ∃ b, v.block? = some b ∧ ReflTransGen h.Nests b g

namespace Session

variable {χ : Type} {Γ : Charter} {x : Stake} {goal : List Frame} {s t u : Session χ} {op v : Value}
  {base : Scene}
  {d i b j : Handle} {k : ℕ} {content done fin : List Value} {R V N : Handle → Prop} {code : Code}

/-- Some cycles have left a block on the operands, which holds the values `done` and then such that
are read as the code.  It has been made of what `V` leads to, and what has been made besides is nested in
the latter values. -/
structure Copies (Γ : Charter) (x : Stake) (goal : List Frame) (base : Scene) (R V N : Handle → Prop)
    (done fin : List Value) (code : Code) (j : Handle) (s t : Session χ) : Prop where
  cycles : Cycles s t
  ample : t.Ample Γ x goal
  scene : t.machine.scene = { base with operands := .array j .block :: base.operands }
  object : ∃ a : Sequence, a.toList = done ++ fin ∧
    t.machine.memory.heap.object? j = some (.array a)
  reads : t.machine.memory.heap.Reads fin code
  makes : Heap.Makes R V N s.machine.memory.heap t.machine.memory.heap
  made : N j
  nested : ∀ g, N g → t.machine.memory.heap.Live g →
    g = j ∨ t.machine.memory.heap.Nested fin g

theorem Copies.holds (h : Copies Γ x goal base R V N done fin code j s t) {g : Handle}
    (hg : Refers (done ++ fin) g) : t.machine.memory.heap.Holds j g := by
  obtain ⟨a, ha, object⟩ := h.object
  obtain ⟨v, hv, hg⟩ := hg
  have held : v ∈ a.toList := ha ▸ hv
  exact ⟨_, object, v, List.mem_reverse.1 held, hg⟩

theorem Copies.live (h : Copies Γ x goal base R V N done fin code j s t) {g : Handle}
    (hg : base.Roots x g ∨ Refers done g) : t.machine.memory.heap.Live g := by
  have root (hg : t.machine.scene.Roots x g) : t.machine.memory.heap.Live g := h.ample.sound.live hg
  rw [h.scene] at root
  rcases hg with hg | hg
  · exact root (hg.imp_left fun hg => hg.mono (List.subset_cons_self _ _)
      (fun f hf => .inr ⟨f, hf, rfl, rfl⟩) rfl)
  · exact h.ample.sound.closed j g (h.holds (hg.subset (List.subset_append_left _ _)))

/-- The copy of a block reads as the code, and nothing is made but that and what is nested in it. -/
theorem Copies.reads_block (h : Copies Γ x goal base R V N [] fin code j s t) :
    t.machine.memory.heap.Reads [.array j .block] (.block none code .nil) := by
  obtain ⟨a, ha, object⟩ := h.object
  exact .block (v := .array j .block) rfl object (ha ▸ h.reads) .nil

theorem Copies.nests (h : Copies Γ x goal base R V N [] fin code j s t) {g : Handle} (hg : N g)
    (live : t.machine.memory.heap.Live g) : ReflTransGen t.machine.memory.heap.Nests j g := by
  obtain ⟨a, ha, object⟩ := h.object
  rcases h.nested g hg live with rfl | ⟨v, hv, b, hb, path⟩
  · exact .refl
  · exact .head ⟨a, object, v, ha ▸ hv, hb⟩ path

/-- What is put before a copy that has been made. -/
theorem Copies.after {t₀ : Session χ} {R₀ V₀ N₀ : Handle → Prop} {rest : List Value} {rcode : Code}
    (done fin : List Value) (N₁ S : Handle → Prop)
    (h : Copies Γ x goal base R V N (done ++ fin) rest rcode j t₀ t) (cycles : Cycles s t₀)
    (makes : Heap.Makes R₀ V₀ N₀ s.machine.memory.heap t₀.machine.memory.heap)
    (retains : Heap.Retains R₀ s.machine.memory.heap t₀.machine.memory.heap)
    (hR : ∀ g, R₀ g → t₀.machine.memory.heap.Reaches R g)
    (hV : ∀ g, V g → N₀ g ∨ s.machine.memory.heap.Reaches V₀ g)
    (hN : ∀ g, N₀ g → S g ∨ N₁ g) (hsub : ∀ g, N₁ g → N₀ g)
    (hS : ∀ g, S g → ¬ t.machine.memory.heap.Live g)
    (reads : t.machine.memory.heap.Reads (fin ++ rest) code)
    (nested : ∀ g, N₁ g → ¬ N g → t.machine.memory.heap.Live g →
      t.machine.memory.heap.Nested fin g) :
    Copies Γ x goal base R₀ V₀ (fun g => N₁ g ∨ N g) done (fin ++ rest) code j s t where
  cycles := cycles.trans h.cycles
  ample := h.ample
  scene := h.scene
  object := List.append_assoc done fin rest ▸ h.object
  reads := reads
  -- containers that are gone again need not be among those that are new
  makes := (makes.trans h.makes retains hR hV).drop h.ample.sound.closed
    (fun g hg => hg.imp_left (hsub g)) fun g hg hne =>
      hS g ((hg.elim (hN g) fun hg => absurd (.inr hg) hne).resolve_right fun hg => hne (.inl hg))
  made := .inr h.made
  nested g hg live := by
    by_cases hn : N g
    · rcases h.nested g hn live with same | ⟨v, hv, inside⟩
      · exact .inl same
      · exact .inr ⟨v, List.mem_append_right _ hv, inside⟩
    · obtain ⟨v, hv, inside⟩ := nested g (hg.resolve_right hn) hn live
      exact .inr ⟨v, List.mem_append_left _ hv, inside⟩

/-! ### Code -/

/-- Whatever has been done before, the items that are left are bound, and the working copy has gone
then. -/
def Binds (Γ : Charter) (x : Stake) (goal : List Frame) (op : Value) (χ : Type) (code : Code) : Prop :=
  ∀ (u : Session χ) (base : Scene) (d i : Handle) (k : ℕ) (content : List Value),
    u.Poised Γ x goal op base d i k content → base.pending = none → k ≤ content.length →
      u.machine.memory.heap.Reads (content.drop k) code → ∃ t j N fin,
        Copies Γ x goal base (fun g => base.Roots x g ∨ Refers (content.take k) g) (Refers content) N
          (content.take k) fin (code.map u.machine.bound) j u t ∧
          ∀ g, g = d ∨ g = i → ¬ t.machine.memory.heap.Live g

/-- **A block is bound** if its items are. -/
theorem Binds.block {a : Sequence} (hbinds : Binds Γ x goal op χ code) (h : s.Ample Γ x goal)
    (hgoal : goal.length ≤ base.frames.length)
    (hop : op.datum = .operator (.builtin .bind)) (hp : base.pending = none)
    (hscene : s.machine.scene = { base with
      operands := v :: base.operands
      frames := { value := op } :: base.frames })
    (hv : v.block? = some b) (ha : s.machine.memory.heap.object? b = some (.array a))
    (hcode : s.machine.memory.heap.Reads a.toList code) :
    ∃ t j N fin, Copies Γ x goal base (base.Roots x) (Refers [v]) N [] fin (code.map s.machine.bound) j
      s t := by
  by_cases hitems : a.toList = []
  · obtain ⟨t, j, next, ample, scene, object, makes⟩ :=
      h.copies_empty hgoal hop hp hscene hv ha hitems
    rw [hitems] at hcode
    cases hcode
    exact ⟨t, j, _, [], .single next, ample, scene, object, .nil, makes, rfl, fun g hg _ => .inl hg⟩
  · obtain ⟨u, d, i, next, poised, revised, makes⟩ := h.poised hgoal hop hp hscene hv ha hitems
    -- what the items lead to is not touched by making the working copy
    have live (g : Handle) (hg : base.Roots x g ∨ Refers a.toList g) :
        s.machine.memory.heap.Reaches (fun g => base.Roots x g ∨ Refers [v] g) g :=
      hg.elim (fun hg => Heap.reaches_of_root (.inl hg)) fun hg =>
        (reaches_of_item hv ha hg).mono fun _ => .inr
    have retains : Heap.Retains (fun g => base.Roots x g ∨ Refers a.toList g)
        s.machine.memory.heap u.machine.memory.heap :=
      (makes.mono live fun _ hg => Heap.reaches_of_root hg).retains h.sound.closed
        poised.ample.sound.closed (fun g hg => (live g hg).live h.sound.closed fun _ =>
          h.live_of_beneath hscene) fun _ => poised.live
    obtain ⟨operands, awaited, items, scene, -⟩ := poised.working
    have same : u.machine.bound = s.machine.bound := by
      refine Machine.bound_eq_of_resolution? (Machine.resolution?_of_retains
        ((congrArg Scene.scopes scene).trans (congrArg Scene.scopes hscene).symm) retains ?_)
      intro w hw g hg
      exact .inl (.inl (.inr (.inr ⟨w, (congrArg Scene.scopes hscene) ▸ hw, hg⟩)))
    obtain ⟨t, j, N, fin, copies, gone⟩ := hbinds u base d i 0 a.toList poised hp (Nat.zero_le _)
      (hcode.of_retains retains fun w hw g hg => .inr ⟨w, hw, hg⟩)
    refine ⟨t, j, _, _, Copies.after [] [] (fun _ => False)
      (fun g => g = d ∨ g = i) copies (.single next)
      (makes.mono (fun _ hg => Heap.reaches_of_root (.inl hg)) fun _ hg => Heap.reaches_of_root hg)
      (retains.mono fun _ => .inl) (fun _ hg => Heap.reaches_of_root (.inl hg))
      (fun g hg => .inr (reaches_of_item hv ha hg)) (fun _ => .inl) (fun _ => False.elim) gone
      (same ▸ copies.reads) fun _ => False.elim⟩

theorem Poised.bound_eq {m : Machine} (h : u.Poised Γ x goal op base d i k content)
    (hscopes : m.scopes.items = base.scopes)
    (retains : Heap.Retains (base.Roots x) u.machine.memory.heap m.memory.heap) :
    m.bound = u.machine.bound := by
  obtain ⟨operands, awaited, items, scene, -⟩ := h.working
  have scopes : u.machine.scopes.items = base.scopes := congrArg Scene.scopes scene
  exact Machine.bound_eq_of_resolution? (Machine.resolution?_of_retains
    (hscopes.trans scopes.symm) retains fun w hw g hg => .inl (.inr (.inr ⟨w, scopes ▸ hw, hg⟩)))

theorem binds_nil (hop : op.datum = .operator (.builtin .bind)) : Binds Γ x goal op χ .nil := by
  intro u base d i k content h hp hk hcode
  have finished : content.length ≤ k := by
    generalize hrest : content.drop k = rest at hcode
    cases hcode
    exact List.drop_eq_nil_iff.1 hrest
  have all : content.take k = content := List.take_of_length_le finished
  obtain ⟨t, j, next, ample, scene, object, makes, gone⟩ := h.ends hop hp (hk.antisymm finished)
  refine ⟨t, j, (· = j), [], ⟨.single next, ample, scene, ?_, .nil, ?_, rfl, fun g hg _ => .inl hg⟩,
    gone⟩
  · rwa [all, List.append_nil]
  · rwa [all]

theorem take_succ_set (hk : k < content.length) (w : Value) :
    (content.set k w).take (k + 1) = content.take k ++ [w] := by
  rw [List.take_set, List.take_succ_eq_append_getElem hk, List.set_append_right _ _ (by simp)]
  simp [Nat.min_eq_left hk.le]

theorem Binds.value (hop : op.datum = .operator (.builtin .bind)) (hrest : Binds Γ x goal op χ code) :
    Binds Γ x goal op χ (.value v code) := by
  intro u base d i k content h hp hk hcode
  obtain ⟨hv, hblock, following⟩ : content[k]? = some v ∧ v.block? = none ∧
      u.machine.memory.heap.Reads (content.drop (k + 1)) code := by
    generalize hdrop : content.drop k = rest at hcode
    cases hcode with
    | value hblock hcode =>
      refine ⟨?_, hblock, ?_⟩
      · rw [← List.head?_drop, hdrop, List.head?_cons]
      · rwa [← List.tail_drop, hdrop, List.tail_cons]
  obtain ⟨t₀, next, poised, revised⟩ := h.binds hop hp hv hblock
  obtain ⟨hk, rfl⟩ := List.getElem?_eq_some_iff.1 hv
  set w := u.machine.bound content[k] with hw
  -- what is stored refers to what the item refers to
  have stored (g : Handle) (hg : Refers (content.set k w) g) : Refers content g := by
    refine hg.mono fun v' hv' g hg => ?_
    rcases List.mem_or_eq_of_mem_set hv' with hv' | rfl
    · exact ⟨v', hv', hg⟩
    · exact ⟨content[k], List.getElem_mem hk, Machine.handle?_bound hg⟩
  have makes := h.makes revised stored
  have retains {W : List Value} (hW : W ⊆ content) (hW' : W ⊆ content.set k w) :
      Heap.Retains (fun g => base.Roots x g ∨ Refers W g) u.machine.memory.heap
        t₀.machine.memory.heap := by
    refine (makes.mono (fun g hg => Heap.reaches_of_root (hg.imp_right fun hg => hg.subset hW))
      fun _ hg => Heap.reaches_of_root hg).retains h.ample.sound.closed poised.ample.sound.closed
        (fun g hg => h.live (hg.imp_right fun hg => hg.subset hW))
        fun g hg => poised.live (hg.imp_right fun hg => hg.subset hW')
  have before : content.take k ⊆ content.set k w :=
    fun a ha => List.mem_of_mem_take (i := k + 1) (by rw [take_succ_set hk]; simp [ha])
  have later : content.drop (k + 1) ⊆ content.set k w := by
    rw [← List.drop_set_of_lt (Nat.lt_succ_self k) (a := w)]
    exact List.drop_subset _ _
  have same : t₀.machine.bound = u.machine.bound := by
    obtain ⟨operands, awaited, items, scene, -⟩ := poised.working
    exact h.bound_eq (congrArg Scene.scopes scene)
      ((retains (List.take_subset _ _) before).mono fun _ => .inl)
  obtain ⟨t, j, N, fin, copies, gone⟩ := hrest t₀ base d i (k + 1) (content.set k w) poised hp
    (by rwa [List.length_set]) (by
      rw [List.drop_set_of_lt (Nat.lt_succ_self k)]
      exact following.of_retains (retains (List.drop_subset _ _) later) fun a ha g hg =>
        .inr ⟨a, ha, hg⟩)
  rw [take_succ_set hk, same] at copies
  refine ⟨t, j, _, _, Copies.after _ [w] (fun _ => False) (fun g => g = d ∨ g = i)
    copies (.single next) (makes.mono (fun g hg => Heap.reaches_of_root (hg.imp_right fun hg =>
      hg.subset (List.take_subset _ _))) fun _ hg => Heap.reaches_of_root hg)
    (retains (List.take_subset _ _) before)
    (fun g hg => Heap.reaches_of_root (hg.imp_right fun hg => hg.subset (List.subset_append_left _ _)))
    (fun g hg => .inr (Heap.reaches_of_root (stored g hg))) (fun _ => .inl) (fun _ => False.elim) gone
    (.value (Machine.block?_bound hblock) copies.reads) fun _ => False.elim, gone⟩

/-- What has been taken over from the copy of a nested block. -/
structure TakesIn (Γ : Charter) (x : Stake) (goal : List Frame) (op : Value) (base : Scene)
    (d i : Handle) (k : ℕ) (content : List Value) (N : Handle → Prop) (body : Code) (j : Handle)
    (u t : Session χ) : Prop where
  cycles : Cycles u t
  poised : t.Poised Γ x goal op base d i (k + 1) (content.set k (.array j .block))
  retains : Heap.Retains (fun g => base.Roots x g ∨ Refers content g) u.machine.memory.heap
    t.machine.memory.heap
  makes : Heap.Makes (fun g => base.Roots x g ∨ Refers content g) (Refers content)
    (fun g => (g = d ∨ g = i) ∨ N g) u.machine.memory.heap t.machine.memory.heap
  made : N j
  reads : ∃ a : Sequence, t.machine.memory.heap.object? j = some (.array a) ∧
    t.machine.memory.heap.Reads a.toList body
  nested : ∀ g, N g → t.machine.memory.heap.Live g → ReflTransGen t.machine.memory.heap.Nests j g

/-- A nested block is bound by another `bind`, whose copy is awaited then. -/
theorem Poised.nests {a : Sequence} (h : u.Poised Γ x goal op base d i k content)
    (hop : op.datum = .operator (.builtin .bind)) (hp : base.pending = none)
    (hv : content[k]? = some v) (hblock : v.block? = some b)
    (ha : u.machine.memory.heap.object? b = some (.array a))
    (hcode : u.machine.memory.heap.Reads a.toList code) (hbinds : Binds Γ x goal op χ code) :
    ∃ t j N, TakesIn Γ x goal op base d i k content N (code.map u.machine.bound) j u t := by
  obtain ⟨u₁, next, ample, scene, revised⟩ := h.queues hop hp hv hblock
  obtain ⟨hk, rfl⟩ := List.getElem?_eq_some_iff.1 hv
  set base' : Scene := { base with frames := bindFrame op d (k + 1) :: base.frames } with hbase'
  have frames : u₁.machine.calls.frames = [{ value := op }] ++ bindFrame op d (k + 1) :: base.frames :=
    congrArg Scene.frames scene
  replace scene : u₁.machine.scene = { base' with
      operands := content[k] :: base'.operands
      frames := { value := op } :: base'.frames } := scene
  have single (g : Handle) (hg : Refers [content[k]] g) : Refers content g :=
    hg.subset (by simp)
  have nested : Refers content b :=
    single b ⟨content[k], List.mem_singleton_self _, Heap.handle?_of_block? hblock⟩
  -- the frame beneath leads to the working copy and its items
  have beneath (g : Handle) (hg : base.Roots x g) : base'.Roots x g :=
    hg.imp_left fun hg => hg.mono (List.Subset.refl _)
      (fun f hf => .inr ⟨f, List.mem_cons_of_mem _ hf, rfl, rfl⟩) rfl
  have locals : u₁.machine.memory.heap.Reaches (base'.Roots x) d :=
    Heap.reaches_of_root (.inl (.inr (.inl ⟨_, List.mem_cons_self, .inr rfl⟩)))
  have copied : u₁.machine.memory.heap.Reaches (base'.Roots x) i :=
    locals.step (ample.sound.copying _ frames rfl revised.copying).2.1
  have roots (g : Handle) (hg : base.Roots x g ∨ Refers content g) :
      u₁.machine.memory.heap.Reaches (base'.Roots x) g :=
    hg.elim (fun hg => Heap.reaches_of_root (beneath g hg)) fun hg =>
      copied.step (ample.sound.holds_of_copying frames rfl revised.copying hg)
  have live (g : Handle) (hg : base'.Roots x g) : u₁.machine.memory.heap.Live g :=
    ample.live_of_beneath scene (.inl hg)
  have makes₁ := h.makes revised fun _ => id
  have retains₁ := makes₁.retains h.ample.sound.closed ample.sound.closed (fun _ => h.live)
    fun g hg => (roots g hg).live ample.sound.closed live
  have same : u₁.machine.bound = u.machine.bound :=
    h.bound_eq (congrArg Scene.scopes scene) (retains₁.mono fun _ => .inl)
  obtain ⟨t, j, N, fin, copies⟩ := hbinds.block ample (h.within.trans (Nat.le_succ _)) hop
    (show base'.pending = none from hp) scene hblock
    ((retains₁.object? (Heap.reaches_of_root (.inr nested))).trans ha)
    (hcode.of_reached retains₁ fun w hw g hg => (Heap.reaches_of_root (.inr nested)).step
      ⟨_, ha, w, List.mem_reverse.1 hw, hg⟩)
  have retains₂ : Heap.Retains (base'.Roots x) u₁.machine.memory.heap t.machine.memory.heap :=
    copies.makes.retains ample.sound.closed copies.ample.sound.closed live fun g hg =>
      copies.live (.inl hg)
  obtain ⟨a', ha', object⟩ := copies.object
  refine ⟨t, j, N, .head next copies.cycles, ⟨copies.ample, h.within, ⟨_, _, content, copies.scene,
    ⟨revised.copying.ne, fun o ho => ?_, fun o ho => ?_⟩, .awaits _ hk⟩, ?_⟩,
    retains₁.trans (retains₂.of_roots roots),
    makes₁.trans copies.makes retains₁ roots fun g hg => .inr (Heap.reaches_of_root (single g hg)),
    copies.made, ⟨a', object, ha' ▸ same ▸ copies.reads⟩, fun g => copies.nests⟩
  · exact revised.copying.locals o ((retains₂.object? locals).symm.trans ho)
  · exact revised.copying.items o ((retains₂.object? copied).symm.trans ho)
  · refine copies.makes.seals (h.sealed.of_drifts revised.drifts)
      (fun g hg => Heap.reaches_of_root (.inr (single g hg))) ?_ ?_
    · rintro g (rfl | rfl)
      · exact locals
      · exact copied
    · rintro g (hg | ⟨w, hw, hg⟩)
      · exact .inl (.inl hg)
      · rcases List.mem_or_eq_of_mem_set hw with hw | rfl
        · exact .inl (.inr ⟨w, hw, hg⟩)
        · exact .inr (Option.some.inj hg ▸ copies.made)

theorem Binds.nested {source : Option Provenance} {body rest : Code}
    (hop : op.datum = .operator (.builtin .bind)) (hbody : Binds Γ x goal op χ body)
    (hrest : Binds Γ x goal op χ rest) : Binds Γ x goal op χ (.block source body rest) := by
  intro u base d i k content h hp hk hcode
  obtain ⟨v, b, a, hv, hblock, ha, inside, following⟩ : ∃ v b a, content[k]? = some v ∧
      v.block? = some b ∧ u.machine.memory.heap.object? b = some (.array a) ∧
        u.machine.memory.heap.Reads a.toList body ∧
          u.machine.memory.heap.Reads (content.drop (k + 1)) rest := by
    generalize hdrop : content.drop k = items at hcode
    cases hcode with
    | @block v vs b a _ _ hv ha inside hcode =>
      refine ⟨v, b, a, ?_, hv, ha, inside, ?_⟩
      · rw [← List.head?_drop, hdrop, List.head?_cons]
      · rwa [← List.tail_drop, hdrop, List.tail_cons]
  obtain ⟨t₁, j₁, N₁, first⟩ := h.nests hop hp hv hblock ha inside hbody
  have hk := (List.getElem?_eq_some_iff.1 hv).1
  set w := Value.array j₁ .block with hw
  have same : t₁.machine.bound = u.machine.bound := by
    obtain ⟨operands, awaited, items, scene, -⟩ := first.poised.working
    exact h.bound_eq (congrArg Scene.scopes scene) (first.retains.mono fun _ => .inl)
  obtain ⟨t, j, N, fin, copies, gone⟩ := hrest t₁ base d i (k + 1) (content.set k w) first.poised hp
    (by rwa [List.length_set]) (by
      rw [List.drop_set_of_lt (Nat.lt_succ_self k)]
      exact following.of_retains first.retains fun a ha g hg => .inr ⟨a, List.mem_of_mem_drop ha, hg⟩)
  rw [take_succ_set hk, same] at copies
  have copied : Refers (content.take k ++ [w]) j₁ := ⟨w, by simp, rfl⟩
  have before (g : Handle) (hg : base.Roots x g ∨ Refers (content.take k) g) :
      base.Roots x g ∨ Refers content g := hg.imp_right fun hg => hg.subset (List.take_subset _ _)
  -- the copy of the nested block stays what it is
  have retains : Heap.Retains (fun g => base.Roots x g ∨ Refers (content.take k ++ [w]) g)
      t₁.machine.memory.heap t.machine.memory.heap :=
    copies.makes.retains first.poised.ample.sound.closed copies.ample.sound.closed
      (fun g hg => first.poised.live (hg.imp_right fun hg => hg.subset fun a ha =>
        List.mem_of_mem_take (i := k + 1) (take_succ_set hk w ▸ ha))) fun g => copies.live
  have reached : t₁.machine.memory.heap.Reaches
      (fun g => base.Roots x g ∨ Refers (content.take k ++ [w]) g) j₁ :=
    Heap.reaches_of_root (.inr copied)
  obtain ⟨a', object, reads⟩ := first.reads
  refine ⟨t, j, _, _, Copies.after _ [w] N₁ (fun g => g = d ∨ g = i)
    copies first.cycles (first.makes.mono (fun g hg => Heap.reaches_of_root (before g hg))
      fun _ hg => Heap.reaches_of_root hg) (first.retains.mono before)
    (fun g hg => Heap.reaches_of_root (hg.imp_right fun hg => hg.subset (List.subset_append_left _ _)))
    (fun g ⟨v, hv, hg⟩ => ?_) (fun _ => id) (fun _ => .inr) gone ?_ (fun g hg hn live => ?_), gone⟩
  · rcases List.mem_or_eq_of_mem_set hv with hv | rfl
    · exact .inr (Heap.reaches_of_root ⟨v, hv, hg⟩)
    · exact .inl (.inr (Option.some.inj hg ▸ first.made))
  · exact .block (v := w) rfl ((retains.object? reached).trans object) (reads.of_reached retains
      fun v hv g hg => reached.step ⟨_, object, v, List.mem_reverse.1 hv, hg⟩) copies.reads
  · exact ⟨w, List.mem_singleton_self w, j₁, rfl, retains.nests reached
      (first.nested g hg (copies.makes.drifts g live hn).1)⟩

/-- **Whatever the code is**, it is bound. -/
theorem binds_of_code (hop : op.datum = .operator (.builtin .bind)) (code : Code) :
    Binds Γ x goal op χ code := by
  induction code with
  | nil => exact binds_nil hop
  | value v rest ih => exact ih.value hop
  | block source body rest ihbody ihrest => exact ihbody.nested hop ihrest

/-- The top frame is about to bind a block on top of the operands: no exception is pending, no
allocation is refused before the frame has gone, and the block is not nested in itself. -/
structure Binding (m₀ : Machine) (owned : List Value) (v : Value) (below : List Value)
    (rest : List Frame) (s : Session χ) : Prop where
  reached : Reached m₀ owned s
  pending : s.machine.pending = none
  granted : ¬ s.StarvesBefore rest
  frames : ∃ op, op.datum = .operator (.builtin .bind) ∧
    s.machine.calls.frames = { value := op } :: rest
  operands : s.machine.operands.items = v :: below
  grounded : ∃ i, v.block? = some i ∧ s.machine.memory.heap.Grounded i

end Session

/-- The scene when the operands above `below` and the frames above `rest` have gone. -/
def Scene.beneath (c : Scene) (below : List Value) (rest : List Frame) : Scene :=
  { c with operands := below, frames := rest }

/-- Blocks nested in a known block are there. -/
theorem Machine.Sound.array_of_nests {Γ : Charter} {n : ℕ} {x : Stake} {m : Machine} {v : Value}
    {i j : Handle} (h : m.Sound Γ n x) (hv : m.Knows x v) (hi : v.block? = some i)
    (path : ReflTransGen m.memory.heap.Nests i j) :
    ∃ s, m.memory.heap.object? j = some (.array s) := by
  obtain ⟨present, σ, hb, -⟩ := h.memory
  have array {w : Value} {g : Handle} (hw : m.Knows x w) (hg : w.block? = some g) :
      ∃ s, m.memory.heap.object? g = some (.array s) := by
    unfold Value.block? at hg
    split at hg
    · rename_i hd
      cases hg
      exact hb.array_of_known present hw hd
    · cases hg
  induction path with
  | refl => exact array hv hi
  | tail _ nests =>
    obtain ⟨s, hs, w, hw, hj⟩ := nests
    exact array (Machine.knows_of_item hs (List.mem_reverse.1 hw)) hj

theorem Session.Binding.scene {χ : Type} {m₀ : Machine} {owned : List Value} {op v : Value}
    {below : List Value} {rest : List Frame} {s : Session χ} (h : s.Binding m₀ owned v below rest)
    (frames : s.machine.calls.frames = { value := op } :: rest) :
    s.machine.scene = { s.machine.scene.beneath below rest with
      operands := v :: (s.machine.scene.beneath below rest).operands
      frames := { value := op } :: (s.machine.scene.beneath below rest).frames } := by
  simp only [Scene.beneath, ← frames, ← h.operands]
  rfl

open Session in
theorem Session.Binding.copies {χ : Type} {options : Options} {m₀ : Machine} {owned : List Value}
    {v : Value} {below : List Value} {rest : List Frame} {s : Session χ} (hm₀ : m₀.Created options)
    (h : s.Binding m₀ owned v below rest) : ∃ Γ code t j N fin,
      s.machine.memory.heap.Reads [v] (.block v.source code .nil) ∧ s.Ample Γ (.refs owned) rest ∧
        Copies Γ (.refs owned) rest (s.machine.scene.beneath below rest)
          ((s.machine.scene.beneath below rest).Roots (.refs owned)) (Refers [v]) N [] fin
            (code.map s.machine.bound) j s t := by
  obtain ⟨Γ, -, kept⟩ := h.reached.sound hm₀
  have ample : s.Ample Γ (.refs owned) rest := ⟨kept.sound, h.reached.growing hm₀, h.granted⟩
  obtain ⟨op, hop, frames⟩ := h.frames
  obtain ⟨i, hi, grounded⟩ := h.grounded
  obtain ⟨a, code, object, reads⟩ := Heap.exists_code grounded fun j =>
    ample.sound.array_of_nests (Machine.knows_of_operand (by simp [h.operands])) hi
  obtain ⟨t, j, N, fin, copies⟩ := (binds_of_code hop code).block ample le_rfl hop
    h.pending (h.scene frames) hi object reads
  exact ⟨Γ, code, t, j, N, fin, .block hi object reads .nil, ample, copies⟩

open Session in
/-- **Binding is the recursion it comes to.**  Let a host have reached a session that is about to bind
a block.  Some cycles later the frame has gone, and in the place of the block there is one that reads as
the code in it bound everywhere.  Everything else the session shows is as it was, and so is every
container it led to, or its host; the only containers that are new are the blocks of the copy.  Names
stand for what they stood for, and wherever they do the copy can be bound again, which makes one that
reads the same. -/
theorem binding_copies_the_code {χ : Type} {options : Options} {m₀ : Machine} {owned : List Value}
    {v : Value} {below : List Value} {rest : List Frame} {s : Session χ} (hm₀ : m₀.Created options)
    (h : s.Binding m₀ owned v below rest) :
    ∃ code t j, s.machine.memory.heap.Reads [v] (.block v.source code .nil) ∧ Cycles s t ∧
      t.machine.scene = { s.machine.scene with
        operands := .array j .block :: below
        frames := rest } ∧
      t.machine.memory.heap.Reads [.array j .block] (.block none (code.map s.machine.bound) .nil) ∧
      Heap.Retains ((s.machine.scene.beneath below rest).Roots (.refs owned))
        s.machine.memory.heap t.machine.memory.heap ∧
      s.machine.memory.heap.Drifts (ReflTransGen t.machine.memory.heap.Nests j)
        t.machine.memory.heap ∧
      t.machine.bound = s.machine.bound ∧
      ∀ (s' : Session χ) (owned' : List Value) (v' : Value) (below' : List Value)
        (rest' : List Frame), s'.Binding m₀ owned' v' below' rest' →
          s'.machine.bound = s.machine.bound →
          s'.machine.memory.heap.Reads [v'] (.block v'.source (code.map s.machine.bound) .nil) →
            ∃ t' j', Cycles s' t' ∧
              t'.machine.scene = { s'.machine.scene with
                operands := .array j' .block :: below'
                frames := rest' } ∧
              t'.machine.memory.heap.Reads [.array j' .block]
                (.block none (code.map s.machine.bound) .nil) := by
  obtain ⟨Γ, code, t, j, N, fin, reads, ample, copies⟩ := h.copies hm₀
  obtain ⟨op, hop, frames⟩ := h.frames
  have retains : Heap.Retains ((s.machine.scene.beneath below rest).Roots (.refs owned))
      s.machine.memory.heap t.machine.memory.heap :=
    copies.makes.retains ample.sound.closed copies.ample.sound.closed
      (fun g hg => ample.live_of_beneath (h.scene frames) (.inl hg))
      fun g hg => copies.live (.inl hg)
  refine ⟨code, t, j, reads, copies.cycles, copies.scene, copies.reads_block, retains,
    fun g live hg => copies.makes.drifts g live fun hn => hg (copies.nests hn live), ?_, ?_⟩
  · exact Machine.bound_eq_of_resolution? (Machine.resolution?_of_retains
      (congrArg Scene.scopes copies.scene) retains fun w hw g hg => .inl (.inr (.inr ⟨w, hw, hg⟩)))
  · intro s' owned' v' below' rest' h' same reads'
    obtain ⟨Γ', code', t', j', N', fin', reads'', -, copies'⟩ := h'.copies hm₀
    cases reads''.unique reads'
    refine ⟨t', j', copies'.cycles, copies'.scene, ?_⟩
    have reads := copies'.reads_block
    rwa [same, Code.map_map s.machine.bound_bound] at reads

/-- A name that stands for an operator, in a block and in another one within it. -/
theorem nested_names_are_bound : ∃ (s t : Session Unit) (v : Value) (code : Code) (j : Handle),
    Session.trial {} "\x7b1 add \x7badd\x7d\x7d bind" 19 = some s ∧
      s.machine.operands.items = [v] ∧
        s.machine.memory.heap.Reads [v] (.block v.source code .nil) ∧ Session.Cycles s t ∧
          t.machine.operands.items = [.array j .block] ∧ t.machine.memory.heap.Reads
            [.array j .block] (.block none (code.map s.machine.bound) .nil) := by
  have facts : (Session.trial {} "\x7b1 add \x7badd\x7d\x7d bind" 19).map (fun s =>
      (s.machine.calls.frames, s.machine.pending, s.machine.operands.items, s.concludes 10,
        s.machine.memory.heap.grounds 2 6)) =
      some ([{ value := ⟨.operator (.builtin .bind),
          some ⟨"-", "\x7b1 add \x7badd\x7d\x7d bind", 14, 4⟩⟩ },
        { value := ⟨.string "\x7b1 add \x7badd\x7d\x7d bind" true,
            some (.whole "-" "\x7b1 add \x7badd\x7d\x7d bind")⟩, cursor := 18 }], none,
          [.array 6 .block], true, true) := by
    decide +kernel
  obtain ⟨s, hs, facts⟩ := Option.map_eq_some_iff.1 facts
  simp only [Prod.mk.injEq] at facts
  obtain ⟨frames, pending, operands, concludes, grounds⟩ := facts
  obtain ⟨m₀, created, reached⟩ := Reached.of_trial (by rintro t ⟨⟩) hs
  obtain ⟨code, t, j, reads, cycles, scene, reads', -⟩ := binding_copies_the_code created
    ⟨reached, pending, Session.not_starvesBefore (Session.granted_of_concludes concludes),
      ⟨_, rfl, frames⟩, operands, 6, rfl, Heap.grounded_of_grounds grounds⟩
  exact ⟨s, t, _, code, j, hs, operands, reads, cycles, congrArg Scene.operands scene, reads'⟩

end StackScript
