import StackScript.Proofs.Machine.Ample

/-!
# Where cycles lead

A scene holds containers: its operands, its frames and its scopes refer to them (`Scene.Holds`).  Some
cycles of an ample session *arrive* at another one if that holds all that the first one held, and
nothing the first one led to has changed on the way (`Session.Arrives`).  Arriving is transitive, and
where the scopes are still the same, names stand for what they stood for
(`Session.Arrives.resolution?_eq`).
-/

namespace StackScript

open StackScript.Action Memory
open Relation (ReflTransGen)

/-! ### What is held -/

/-- The scene refers to the container. -/
def Scene.Holds (c : Scene) (i : Handle) : Prop :=
  (∃ v ∈ c.operands, v.handle? = some i) ∨
    (∃ f ∈ c.frames, f.value.handle? = some i ∨ f.locals = some i) ∨
      ∃ v ∈ c.scopes, v.handle? = some i

/-- It still does if nothing is gone that refers to a container. -/
theorem Scene.Holds.mono {c c' : Scene} {i : Handle} (h : c.Holds i)
    (hoperands : c.operands ⊆ c'.operands)
    (hframes : ∀ f ∈ c.frames, (f.value.handle? = none ∧ f.locals = none) ∨
      ∃ g ∈ c'.frames, g.value = f.value ∧ g.locals = f.locals)
    (hscopes : c'.scopes = c.scopes) : c'.Holds i := by
  rcases h with ⟨v, hv, hi⟩ | ⟨f, hf, hi⟩ | ⟨v, hv, hi⟩
  · exact .inl ⟨v, hoperands hv, hi⟩
  · refine .inr (.inl ?_)
    rcases hframes f hf with ⟨hvalue, hlocals⟩ | ⟨g, hg, hvalue, hlocals⟩
    · rw [hvalue, hlocals] at hi
      exact hi.elim nofun nofun
    · exact ⟨g, hg, by rwa [hvalue, hlocals]⟩
  · exact .inr (.inr ⟨v, hscopes ▸ hv, hi⟩)

namespace Machine

variable {Γ : Charter} {n : ℕ} {x : Stake} {m m' : Machine} {i : Handle} {R : Handle → Prop}
  {name : String}

theorem holders_pos_iff : 0 < m.stake.holders i ↔ m.scene.Holds i := by
  have frames (l : List Frame) : 0 < (l.map Frame.stake).sum.holders i ↔
      ∃ f ∈ l, f.value.handle? = some i ∨ f.locals = some i := by
    induction l with
    | nil => simp
    | cons f rest ih =>
      rw [List.map_cons, List.sum_cons, Stake.holders_add, Nat.add_pos_iff_pos_or_pos, ih,
        Stake.holders_pos_iff]
      simp [Frame.mem_locals_stake]
  have sequence (s : Sequence) : 0 < s.stake.holders i ↔ ∃ v ∈ s.items, v.handle? = some i := by
    rw [Stake.holders_pos_iff]
    simp
  have pending : (m.pending.elim 0 PendingException.stake).holders i = 0 := by
    simp [Stake.holders]
  have reserve : m.calls.reserve.stake.holders i = 0 := by simp [Stake.holders]
  rw [stake, CallStack.stake]
  simp only [Stake.holders_add, Nat.add_pos_iff_pos_or_pos, frames, sequence, pending, reserve,
    lt_irrefl, false_or, or_false]
  exact or_assoc

/-- The machine or others refer to the container. -/
def Roots (x : Stake) (m : Machine) (i : Handle) : Prop := m.scene.Holds i ∨ 0 < x.holders i

theorem Sound.live (h : m.Sound Γ n x) (hi : m.Roots x i) : m.memory.heap.Live i := by
  obtain ⟨-, σ, hb, -⟩ := h.memory
  refine hb.live ?_
  rwa [Stake.holders_add, Nat.add_pos_iff_pos_or_pos, holders_pos_iff]

theorem Sound.closed (h : m.Sound Γ n x) : m.memory.heap.Closed := by
  obtain ⟨-, σ, hb, -⟩ := h.memory
  exact hb.closed

theorem Sound.wellFormed (h : m.Sound Γ n x) : m.memory.heap.WellFormed := by
  obtain ⟨-, σ, hb, -⟩ := h.memory
  exact hb.heap

/-! ### Names -/

theorem binding?_of_content? {v : Value}
    (hv : ∀ i, v.handle? = some i → m'.memory.heap.content? i = m.memory.heap.content? i) :
    m'.binding? name v = m.binding? name v := by
  have got (i : Handle) (hi : m'.memory.heap.content? i = m.memory.heap.content? i) :
      m'.memory.heap.get i = m.memory.heap.get i := by
    unfold Heap.content? at hi
    unfold Heap.get
    cases hc : m.memory.heap.cell? i <;> cases hc' : m'.memory.heap.cell? i <;>
      rw [hc, hc'] at hi <;> first | rfl | cases hi | skip
    dsimp only
    rw [Option.some.inj hi]
  unfold binding? entry? Memory.dictionary
  cases hd : v.datum with
  | dictionary i writable =>
    dsimp only
    rw [got i (hv i (by rw [Value.handle?, hd]))]
  | null | boolean | integer | string | name | mark | operator | array => rfl

/-- Names stand for what they stood for while the scopes and their dictionaries stay. -/
theorem resolution?_of_retains (hs : m'.scopes.items = m.scopes.items)
    (hr : Heap.Retains R m.memory.heap m'.memory.heap)
    (hR : ∀ v ∈ m.scopes.items, ∀ i, v.handle? = some i → R i) (name : String) :
    m'.resolution? name = m.resolution? name := by
  have found (scopes : List Value) (hscopes : ∀ v ∈ scopes, v ∈ m.scopes.items) :
      m'.foundIn name scopes = m.foundIn name scopes := by
    induction scopes with
    | nil => rfl
    | cons v rest ih =>
      obtain ⟨hv, hrest⟩ := List.forall_mem_cons.1 hscopes
      have same : m'.binding? name v = m.binding? name v := binding?_of_content? fun i hi =>
        (hr i (Heap.reaches_of_root (hR v hv i hi))).2
      simp only [foundIn, List.findSome?_cons, same] at ih ⊢
      rw [ih hrest]
  rw [resolution?, hs]
  exact found _ fun _ => id

end Machine

/-! ### Sessions -/

namespace Session

variable {χ : Type} {Γ : Charter} {x : Stake} {s t u : Session χ} {f : Frame}
  {rest goal : List Frame} {R : Handle → Prop}

/-- Some cycles have led from `s` to `t`. -/
def Cycles : Session χ → Session χ → Prop := ReflTransGen Next

/-- The session is ample after some cycles; it holds what was held before, and nothing that led to
has changed. -/
structure Arrives (Γ : Charter) (x : Stake) (goal : List Frame) (s t : Session χ) : Prop where
  cycles : Cycles s t
  ample : t.Ample Γ x goal
  holds : ∀ i, s.machine.scene.Holds i → t.machine.scene.Holds i
  retains : Heap.Retains (s.machine.Roots x) s.machine.memory.heap t.machine.memory.heap

theorem Arrives.roots (h : Arrives Γ x goal s t) {i : Handle} (hi : s.machine.Roots x i) :
    t.machine.Roots x i :=
  hi.imp_left (h.holds i)

theorem Ample.arrives (h : s.Ample Γ x goal) : Arrives Γ x goal s s :=
  ⟨.refl, h, fun _ => id, .refl h.sound.closed fun _ => h.sound.live⟩

theorem Arrives.trans (hst : Arrives Γ x goal s t) (htu : Arrives Γ x goal t u) : Arrives Γ x goal s u :=
  ⟨hst.cycles.trans htu.cycles, htu.ample, fun i hi => htu.holds i (hst.holds i hi),
    hst.retains.trans (htu.retains.mono fun _ => hst.roots)⟩

/-- What is held on either side of cycles is retained, if only unused cells were given to others. -/
theorem Ample.retains {N : Handle → Prop} (hs : s.Ample Γ x goal) (ht : t.Ample Γ x goal)
    (hd : s.machine.memory.heap.Drifts N t.machine.memory.heap)
    (hN : ∀ i, N i → ¬ s.machine.memory.heap.Live i)
    (hRs : ∀ i, R i → s.machine.memory.heap.Live i)
    (hRt : ∀ i, R i → t.machine.memory.heap.Live i) :
    Heap.Retains R s.machine.memory.heap t.machine.memory.heap :=
  hd.retains_of_unused hN hs.sound.closed ht.sound.closed hRs hRt

/-- A cycle in which no object changes, and nothing that was held is given up. -/
theorem Ample.turns {c : Scene} (h : s.Ample Γ x goal) (hframes : s.machine.calls.frames = f :: rest)
    (hgoal : f :: rest ≠ goal) (hf : f.supply = none)
    (hstep : (step Natives.none rest.length f s).Grants fun _ t => s.machine.Becomes c t.machine ∧
      s.machine.memory.Sheds t.machine.memory)
    (hc : ∀ i, s.machine.scene.Holds i → c.Holds i) :
    ∃ t, Arrives Γ x goal s t ∧ t.machine.scene = c := by
  obtain ⟨t, next, ample, becomes, sheds⟩ := h.next hframes hgoal (fed_of_no_supply hframes hf) hstep
  have holds (i : Handle) (hi : s.machine.scene.Holds i) : t.machine.scene.Holds i :=
    becomes.scene ▸ hc i hi
  exact ⟨t, ⟨.single next, ample, holds, h.retains ample (N := fun _ => False)
    (Heap.Sheds.drifts sheds _) (fun _ => False.elim) (fun _ => h.sound.live) fun _ hi =>
      ample.sound.live (hi.imp_left (holds _))⟩, becomes.scene⟩

theorem Arrives.resolution?_eq (h : Arrives Γ x goal s t)
    (hs : t.machine.scopes.items = s.machine.scopes.items) (name : String) :
    t.machine.resolution? name = s.machine.resolution? name :=
  Machine.resolution?_of_retains hs h.retains (fun v hv _ hi => .inl (.inr (.inr ⟨v, hv, hi⟩))) name

end Session

end StackScript
