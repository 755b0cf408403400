import StackScript.Proofs.Memory.Reaching

/-!
# The code in a block

A block holds values, and blocks in turn.  `Code` is what it comes to when the handles of the nested
blocks are followed, and `Heap.Reads` says that a heap holds such code.  Code stays what it is as long
as nothing reached from its blocks changes (`Heap.Reads.of_retains`).

Containers can be made of what some handles lead to, without anything else being changed
(`Heap.Makes`): the new ones hold others of them and what these handles lead to, and where other
handles lead there is none of them.  What is made in two steps one after the other is made in one
(`Heap.Makes.trans`), and what is used in between only does not count once it has gone
(`Heap.Makes.drop`).
-/

namespace StackScript

open Relation (ReflTransGen)

/-- The handle of a block. -/
def Value.block? (v : Value) : Option Handle :=
  match v.datum with
  | .array i .block => some i
  | _ => none

/-- Values in a row, the nested blocks read. -/
inductive Code where
  | nil
  | value (v : Value) (rest : Code)
  /-- A nested block, with the place it comes from. -/
  | block (source : Option Provenance) (body rest : Code)
deriving DecidableEq, Repr

/-- The code with another value in the place of each, copies of the nested blocks included. -/
def Code.map (f : Value → Value) : Code → Code
  | .nil => .nil
  | .value v rest => .value (f v) (rest.map f)
  | .block _ body rest => .block none (body.map f) (rest.map f)

theorem Code.map_map {f : Value → Value} (hf : ∀ v, f (f v) = f v) (c : Code) :
    (c.map f).map f = c.map f := by
  induction c with
  | nil => rfl
  | value v rest ih => simp only [map, hf, ih]
  | block source body rest ihbody ihrest => simp only [map, ihbody, ihrest]

namespace Heap

variable {h h' : Heap} {R : Handle → Prop} {vs ws : List Value} {c d : Code} {i j : Handle}
  {items : List Value}

/-- The values in a row are this code. -/
inductive Reads (h : Heap) : List Value → Code → Prop
  | nil : Reads h [] .nil
  | value {v : Value} {vs : List Value} {rest : Code} (hv : v.block? = none)
      (hrest : Reads h vs rest) : Reads h (v :: vs) (.value v rest)
  | block {v : Value} {vs : List Value} {i : Handle} {s : Sequence} {body rest : Code}
      (hv : v.block? = some i) (hs : h.object? i = some (.array s)) (hbody : Reads h s.toList body)
      (hrest : Reads h vs rest) : Reads h (v :: vs) (.block v.source body rest)

theorem handle?_of_block? {v : Value} (hv : v.block? = some i) : v.handle? = some i := by
  unfold Value.block? at hv
  split at hv
  · rename_i hd
    obtain rfl := Option.some.inj hv
    rw [Value.handle?, hd]
  · cases hv

theorem datum_of_block? {v : Value} (hv : v.block? = some i) : v.datum = .array i .block := by
  unfold Value.block? at hv
  split at hv
  · rename_i hd
    rwa [← Option.some.inj hv]
  · cases hv

/-- Where a block is read first. -/
theorem Reads.of_block {source : Option Provenance} {body rest : Code}
    (hc : h.Reads vs (.block source body rest)) : ∃ v ws i, ∃ s : Sequence, vs = v :: ws ∧
      v.block? = some i ∧ h.object? i = some (.array s) ∧ h.Reads s.toList body ∧ h.Reads ws rest := by
  cases hc with
  | block hv hs hbody hrest => exact ⟨_, _, _, _, rfl, hv, hs, hbody, hrest⟩

/-- There is one way to read values. -/
theorem Reads.unique (hc : h.Reads vs c) (hd : h.Reads vs d) : c = d := by
  induction hc generalizing d with
  | nil => cases hd; rfl
  | value hv _ ih =>
    cases hd with
    | value _ hrest => rw [ih hrest]
    | block hv' => rw [hv] at hv'; cases hv'
  | block hv hs _ _ ihbody ihrest =>
    cases hd with
    | value hv' => rw [hv] at hv'; cases hv'
    | block hv' hs' hbody hrest =>
      rw [hv] at hv'
      cases hv'
      rw [hs] at hs'
      cases hs'
      rw [ihbody hbody, ihrest hrest]

theorem Reads.of_reached (hc : h.Reads vs c) (hr : Retains R h h')
    (hvs : ∀ v ∈ vs, ∀ i, v.handle? = some i → h.Reaches R i) : h'.Reads vs c := by
  induction hc with
  | nil => exact .nil
  | value hv _ ih => exact .value hv (ih (List.forall_mem_cons.1 hvs).2)
  | @block v vs i s body rest hv hs _ _ ihbody ihrest =>
    obtain ⟨hhead, htail⟩ := List.forall_mem_cons.1 hvs
    have reached := hhead i (handle?_of_block? hv)
    refine .block hv ((hr.object? reached).trans hs) (ihbody fun w hw j hj => ?_) (ihrest htail)
    exact reached.step ⟨_, hs, w, List.mem_reverse.1 hw, hj⟩

/-- Code stays what it is while what its blocks reach does not change. -/
theorem Reads.of_retains (hc : h.Reads vs c) (hr : Retains R h h')
    (hvs : ∀ v ∈ vs, ∀ i, v.handle? = some i → R i) : h'.Reads vs c :=
  hc.of_reached hr fun v hv i hi => reaches_of_root (hvs v hv i hi)

/-! ### Blocks that hold no block twice on the way down -/

/-- A block is nested in another one. -/
def Nests (h : Heap) (i j : Handle) : Prop :=
  ∃ s : Sequence, h.object? i = some (.array s) ∧ ∃ v ∈ s.toList, v.block? = some j

/-- The block is not nested in itself, however deep, nor is any of those nested in it. -/
def Grounded (h : Heap) (i : Handle) : Prop :=
  ∀ j, Relation.ReflTransGen h.Nests i j → ¬ Relation.TransGen h.Nests j j

theorem holds_of_nests (hij : h.Nests i j) : h.Holds i j :=
  let ⟨_, hs, v, hv, hj⟩ := hij
  ⟨_, hs, v, List.mem_reverse.1 hv, handle?_of_block? hj⟩

/-- A block is grounded if those nested in it are. -/
theorem Grounded.of_nested (h' : ∀ j, h.Nests i j → h.Grounded j) : h.Grounded i := by
  have cycle : ¬ Relation.TransGen h.Nests i i := by
    intro cycle
    obtain ⟨j, nests, back⟩ := Relation.TransGen.head'_iff.1 cycle
    exact h' j nests i back cycle
  intro k path
  rcases path.cases_head with rfl | ⟨j, nests, path⟩
  · exact cycle
  · exact h' j nests k path

/-- Nesting ends after so many blocks on the way down. -/
def grounds (h : Heap) : ℕ → Handle → Bool
  | 0, _ => false
  | depth + 1, i =>
    match h.object? i with
    | some (.array s) => s.toList.all fun v => v.block?.all (h.grounds depth)
    | _ => true

theorem grounded_of_grounds {depth : ℕ} (hi : h.grounds depth i = true) : h.Grounded i := by
  induction depth generalizing i with
  | zero => cases hi
  | succ depth ih =>
    refine .of_nested fun j ⟨s, hs, v, hv, hj⟩ => ih ?_
    rw [grounds, hs] at hi
    simpa [hj] using List.all_eq_true.1 hi v hv

theorem exists_code_of_items (vs : List Value)
    (hvs : ∀ v ∈ vs, ∀ j, v.block? = some j → ∃ s : Sequence, ∃ code,
      h.object? j = some (.array s) ∧ h.Reads s.toList code) : ∃ code, h.Reads vs code := by
  induction vs with
  | nil => exact ⟨.nil, .nil⟩
  | cons v vs ih =>
    obtain ⟨hv, hvs⟩ := List.forall_mem_cons.1 hvs
    obtain ⟨rest, hrest⟩ := ih hvs
    cases hb : v.block? with
    | none => exact ⟨_, .value hb hrest⟩
    | some j =>
      obtain ⟨s, body, hs, hbody⟩ := hv j hb
      exact ⟨_, .block hb hs hbody hrest⟩

/-- **A block can be read** if it is not nested in itself, nor is any of those nested in it. -/
theorem exists_code (hi : h.Grounded i)
    (harray : ∀ j, Relation.ReflTransGen h.Nests i j → ∃ s, h.object? j = some (.array s)) :
    ∃ s : Sequence, ∃ code, h.object? i = some (.array s) ∧ h.Reads s.toList code := by
  -- below the block, being nested is a well-founded order
  let Below := { j // Relation.ReflTransGen h.Nests i j }
  have : Finite Below := by
    refine ((Set.finite_lt_nat h.cells.size).subset fun j hj => ?_).to_subtype
    obtain ⟨s, hs⟩ := harray j hj
    obtain ⟨c, hc, -⟩ := exists_cell_of_object? hs
    exact lt_size_of_cell? hc
  let Under : Below → Below → Prop := fun a b => Relation.TransGen h.Nests b a
  have : IsTrans Below Under := ⟨fun _ _ _ hab hbc => hbc.trans hab⟩
  have : Std.Irrefl Under := ⟨fun a => hi a a.2⟩
  have wf : WellFounded Under := Finite.wellFounded_of_trans_of_irrefl Under
  refine wf.induction (C := fun a : Below => ∃ s : Sequence, ∃ code,
    h.object? a = some (.array s) ∧ h.Reads s.toList code) ⟨i, .refl⟩ fun a ih => ?_
  obtain ⟨s, hs⟩ := harray a a.2
  obtain ⟨code, hcode⟩ := exists_code_of_items (h := h) s.toList fun v hv j hj =>
    have nests : h.Nests a j := ⟨s, hs, v, hv, hj⟩
    ih ⟨j, a.2.tail nests⟩ (.single nests)
  exact ⟨s, code, hs, hcode⟩

/-! ### Arrays that are built -/

/-- An array of the items has been stored, and then cells may have gone. -/
def Builds (h : Heap) (i : Handle) (items : List Value) (h' : Heap) : Prop :=
  ∃ s : Sequence, s.toList = items ∧ ∃ h₁, h.Stores i (.array s) h₁ ∧ h₁.Sheds h'

theorem Builds.trans_sheds {h'' : Heap} (hb : h.Builds i items h') (hs : h'.Sheds h'') :
    h.Builds i items h'' :=
  let ⟨s, items, h₁, stores, sheds⟩ := hb
  ⟨s, items, h₁, stores, sheds.trans hs⟩

theorem Builds.drifts (hb : h.Builds i items h') : h.Drifts (· = i) h' :=
  let ⟨_, _, _, stores, sheds⟩ := hb
  stores.drifts.trans (sheds.drifts _)

theorem Builds.unused (hb : h.Builds i items h') : ¬ h.Live i :=
  let ⟨_, _, _, stores, _⟩ := hb
  not_not.2 stores.unused

/-- The array is there unless it has gone. -/
theorem Builds.object? (hb : h.Builds i items h') (hi : h'.Live i) :
    ∃ s : Sequence, s.toList = items ∧ h'.object? i = some (.array s) := by
  obtain ⟨s, hs, h₁, stores, sheds⟩ := hb
  refine ⟨s, hs, ?_⟩
  rw [object?_eq_join, (sheds i).resolve_left (live_iff_content?.1 hi), stores.content i,
    if_pos rfl]
  rfl

end Heap

/-! ### Containers made of others -/

namespace Heap

variable {h h₁ h₂ h₃ : Heap} {R R' S V V' W W' N N' : Handle → Prop} {i j : Handle}

/-- Where handles lead that others lead to. -/
theorem Reaches.of_roots (hj : h.Reaches R j) (hR : ∀ i, R i → h.Reaches R' i) : h.Reaches R' j := by
  obtain ⟨r, hr, path⟩ := hj
  obtain ⟨r', hr', before⟩ := hR r hr
  exact ⟨r', hr', before.trans path⟩

theorem Retains.of_roots (hr : Retains R h₁ h₂) (hR : ∀ i, R' i → h₁.Reaches R i) :
    Retains R' h₁ h₂ :=
  fun j hj => hr j (hj.of_roots hR)

/-- The containers of a set are held by others of the set only, and `R` refers to none of them. -/
structure Seals (R S : Handle → Prop) (h : Heap) : Prop where
  roots : ∀ i, S i → ¬ R i
  held : ∀ g i, S i → h.Holds g i → S g

theorem Seals.not_reaches (hs : h.Seals R S) (hi : S i) : ¬ h.Reaches R i := by
  rintro ⟨r, hr, path⟩
  induction path with
  | refl => exact hs.roots r hi hr
  | tail path held ih => exact ih (hs.held _ _ hi held)

theorem Seals.mono (hs : h.Seals R S) (hR : ∀ i, R' i → R i) : h.Seals R' S :=
  ⟨fun i hi hr => hs.roots i hi (hR i hr), hs.held⟩

/-- A set stays sealed while nothing but its own containers changes. -/
theorem Seals.of_drifts (hs : h₁.Seals R S) (hd : h₁.Drifts S h₂) : h₂.Seals R S where
  roots := hs.roots
  held g i hi held := by_contra fun hg => hg (hs.held g i hi (hd.holds hg held))

/-- A set of new containers is sealed as far as nothing refers to them from outside. -/
theorem seals_of_unused (hc : h₁.Closed) (hd : h₁.Drifts S h₂) (hS : ∀ i, S i → ¬ h₁.Live i)
    (hR : ∀ i, R i → h₁.Live i) : h₂.Seals R S where
  roots i hi hr := hS i hi (hR i hr)
  held g i hi held := by_contra fun hg => hS i hi (hc g i (hd.holds hg held))

/-- The containers `N` have been made of what `V` leads to: nothing else is new or has changed, `R`
leads to none of them, and they hold only others of them and what `V` leads to. -/
structure Makes (R V N : Handle → Prop) (h₁ h₂ : Heap) : Prop where
  drifts : h₁.Drifts N h₂
  apart : ∀ i, N i → ¬ h₁.Reaches R i
  within : ∀ g i, N g → h₂.Holds g i → N i ∨ h₁.Reaches V i

theorem Makes.mono (hm : Makes R V N h₁ h₂) (hR : ∀ i, R' i → h₁.Reaches R i)
    (hV : ∀ i, V i → h₁.Reaches V' i) : Makes R' V' N h₁ h₂ where
  drifts := hm.drifts
  apart i hi reached := hm.apart i hi (reached.of_roots hR)
  within g i hg held := (hm.within g i hg held).imp_right fun reached => reached.of_roots hV

theorem Makes.retains (hm : Makes R V N h₁ h₂) (hc₁ : h₁.Closed) (hc₂ : h₂.Closed)
    (hR₁ : ∀ i, R i → h₁.Live i) (hR₂ : ∀ i, R i → h₂.Live i) : Retains R h₁ h₂ :=
  hm.drifts.retains hc₁ hc₂ hR₁ hR₂ fun i reached hi => hm.apart i hi reached

/-- What is reached afterwards has been made, or was reached before. -/
theorem Makes.reached (hm : Makes R V N h₁ h₂) (hV : ∀ i, V i → h₁.Reaches W i)
    (hW : ∀ i, W' i → N i ∨ h₁.Reaches W i) (hj : h₂.Reaches W' j) : N j ∨ h₁.Reaches W j := by
  obtain ⟨r, hr, path⟩ := hj
  induction path with
  | refl => exact hW r hr
  | @tail g i path held ih =>
    by_cases hg : N g
    · exact (hm.within g i hg held).imp_right fun reached => reached.of_roots hV
    · exact .inr ((ih.resolve_left hg).step (hm.drifts.holds hg held))

/-- What has been made in two steps. -/
theorem Makes.trans (h₁₂ : Makes R V N h₁ h₂) (h₂₃ : Makes R' V' N' h₂ h₃)
    (retains : Retains R h₁ h₂) (hR : ∀ i, R i → h₂.Reaches R' i)
    (hV : ∀ i, V' i → N i ∨ h₁.Reaches V i) : Makes R V (fun i => N i ∨ N' i) h₁ h₃ where
  drifts := (h₁₂.drifts.mono fun _ => .inl).trans (h₂₃.drifts.mono fun _ => .inr)
  apart i hi reached := hi.elim (fun hi => h₁₂.apart i hi reached) fun hi =>
    h₂₃.apart i hi ((retains.reaches reached).of_roots hR)
  within g i hg held := by
    have first (hheld : N i ∨ h₁.Reaches V i) : (N i ∨ N' i) ∨ h₁.Reaches V i :=
      hheld.imp_left .inl
    by_cases hg' : N' g
    · rcases h₂₃.within g i hg' held with hi | reached
      · exact .inl (.inr hi)
      · exact first (h₁₂.reached (fun _ => reaches_of_root) hV reached)
    · exact first (h₁₂.within g i (hg.resolve_right hg') (h₂₃.drifts.holds hg' held))

/-- What is made leaves a set sealed that leads to none of what it is made of, and that is kept. -/
theorem Makes.seals (hm : Makes R V N h₁ h₂) (hs : h₁.Seals W S) (hV : ∀ i, V i → h₁.Reaches W i)
    (hR : ∀ i, S i → h₁.Reaches R i) (hW : ∀ i, W' i → W i ∨ N i) : h₂.Seals W' S where
  roots i hi hw := (hW i hw).elim (hs.roots i hi) fun hn => hm.apart i hn (hR i hi)
  held g i hi held := by
    by_cases hg : N g
    · rcases hm.within g i hg held with hn | reached
      · exact absurd (hR i hi) (hm.apart i hn)
      · exact absurd (reached.of_roots hV) (hs.not_reaches hi)
    · exact hs.held g i hi (hm.drifts.holds hg held)

/-- What has gone does not count. -/
theorem Makes.drop (hm : Makes R V N h₁ h₂) (hc : h₂.Closed) (hsub : ∀ i, N' i → N i)
    (hgone : ∀ i, N i → ¬ N' i → ¬ h₂.Live i) : Makes R V N' h₁ h₂ where
  drifts i live hi := hm.drifts i live fun hn => hgone i hn hi live
  apart i hi := hm.apart i (hsub i hi)
  within g i hg held := (hm.within g i (hsub g hg) held).imp_left fun hn =>
    by_contra fun hi => hgone i hn hi (hc g i held)

/-- Blocks nested in what is retained stay nested in it. -/
theorem Retains.nests (hr : Retains R h₁ h₂) (hi : h₁.Reaches R i)
    (path : ReflTransGen h₁.Nests i j) : ReflTransGen h₂.Nests i j := by
  have reached (j : Handle) (path : ReflTransGen h₁.Nests i j) : h₁.Reaches R j := by
    induction path with
    | refl => exact hi
    | tail _ nests ih => exact ih.step (holds_of_nests nests)
  induction path with
  | refl => exact .refl
  | tail path nests ih =>
    obtain ⟨s, hs, inside⟩ := nests
    exact ih.tail ⟨s, (hr.object? (reached _ path)).trans hs, inside⟩

end Heap

end StackScript
