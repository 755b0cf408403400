import StackScript.Machine.Run
import StackScript.Proofs.Memory.Reading

/-!
# Sound machines

A machine is sound if its memory is balanced under everything the machine holds, and a stake `x` of
others besides: creators that have not given up their references, operators that hold on to their
operands.

What does not change over the life of a machine is its `Charter`: the capacity, the permanent
scopes, the arrays built with the host scope, and which supplies of values a host may give.

* `Memory.Sound`: balanced, no object checked out, and containers are charged to the accounts of
  the charter;
* `Machine.Sound`: sound memory, stacks in as many slots as they need, dictionaries as scopes with
  the permanent ones at the bottom;
* `Machine.Steady`: the locals of the frames at the bottom stay as they are.
-/

namespace StackScript

/-! ### What a machine holds -/

/-- The charge of the record of an exception. -/
def PendingException.stake (p : PendingException) : Stake := .charged .system p.charge.units

/-- What a frame holds besides its value. -/
def Frame.extras (f : Frame) : Stake :=
  f.locals.elim 0 Stake.localsAt + f.stash.elim 0 PendingException.stake

/-- What a frame holds. -/
def Frame.stake (f : Frame) : Stake := .refs [f.value] + f.extras

/-- What the call stack holds. -/
def CallStack.stake (c : CallStack) : Stake := c.reserve.stake + (c.frames.map Frame.stake).sum

/-- What a machine holds. -/
def Machine.stake (m : Machine) : Stake :=
  m.operands.stake + m.calls.stake + m.scopes.stake + m.pending.elim 0 PendingException.stake

/-- What does not change over the life of a machine. -/
structure Charter where
  /-- Capacity of the memory. -/
  total : Option ℕ
  /-- The permanent scopes, the top first. -/
  permanent : List Value
  four : permanent.length = Machine.permanentScopes
  distinct : (permanent.filterMap Value.handle?).Nodup
  /-- The arrays built with the host scope. -/
  built : ℕ → Prop
  /-- The supplies a host may give. -/
  supplies : Supply → Prop
  supplies_next : ∀ s v rest, supplies s → s.next? = some (v, rest) → supplies rest

/-- What containers are charged to: those of the machine itself are the permanent scopes, the
locals of frames, and the arrays built with the host scope. -/
structure Memory.Classified (Γ : Charter) (σ : ℕ → Label) (y : Stake) (m : Memory) : Prop where
  accounts : ∀ i, m.heap.cell? i ≠ none → (σ i).account ≠ .string
  dictionaries : ∀ i, m.heap.cell? i ≠ none → σ i = ⟨.dictionary, .system⟩ →
    i ∈ y.locals ∨ ∃ v ∈ Γ.permanent, v.handle? = some i
  arrays : ∀ i, m.heap.cell? i ≠ none → σ i = ⟨.array, .system⟩ → Γ.built i
  permanent : ∀ v ∈ Γ.permanent, ∀ i, v.handle? = some i → σ i = ⟨.dictionary, .system⟩

/-- The memory holds what `y` says and nothing else. -/
structure Memory.Sound (Γ : Charter) (y : Stake) (m : Memory) : Prop where
  present : m.heap.Present
  accounted : ∃ σ, m.Balanced Γ.total σ y ∧ m.Classified Γ σ y

namespace Memory

variable {Γ : Charter} {σ : ℕ → Label} {x y y' z : Stake} {m m' : Memory}

theorem Loses.lives (h : m.Loses x m') (i : ℕ) (hi : m'.heap.cell? i ≠ none) :
    m.heap.cell? i ≠ none := by
  intro hnone
  rcases h.sheds i with gone | kept
  · exact hi (Heap.content?_eq_none_iff.1 gone)
  · rw [Heap.content?_eq_none_iff.2 hnone] at kept
    exact hi (Heap.content?_eq_none_iff.1 kept)

theorem Classified.of_lives (hc : m.Classified Γ σ y)
    (hlives : ∀ i, m'.heap.cell? i ≠ none → m.heap.cell? i ≠ none)
    (hlocals : ∀ i ∈ y.locals, i ∈ y'.locals ∨ m'.heap.cell? i = none) :
    m'.Classified Γ σ y' where
  accounts i hi := hc.accounts i (hlives i hi)
  dictionaries i hi hl := (hc.dictionaries i (hlives i hi) hl).imp_left fun h =>
    (hlocals i h).resolve_right hi
  arrays i hi := hc.arrays i (hlives i hi)
  permanent := hc.permanent

/-- A memory that has only lost references and gained some. -/
theorem Sound.of_loses (hp : m.heap.Present) (hc : m.Classified Γ σ y)
    (hb : m'.Balanced Γ.total σ y') (loses : m.Loses z m') (hlocals : y'.locals = y.locals) :
    m'.Sound Γ y' :=
  ⟨hp.sheds loses.sheds, σ, hb, hc.of_lives loses.lives fun _ hi => .inl (hlocals ▸ hi)⟩

theorem Sound.of_modified {i : ℕ} {o : Object} (hc : m.Classified Γ σ y)
    (h : Modified Γ.total σ y m i o m') : m'.Sound Γ y :=
  ⟨h.present, σ, h.balanced, hc.of_lives h.alters.lives fun _ => .inl⟩

/-- A new container is charged to hosted code, or it is the locals of a frame. -/
theorem Sound.of_created {l : Label} {i : ℕ} (hp : m.heap.Present) (hc : m.Classified Γ σ y)
    (hheld : ∀ v ∈ Γ.permanent, v ∈ y.values) (h : Created Γ.total σ y m l i m')
    (hz : z.PointsTo i l) (hl : l.account = .user ∨ l = ⟨.dictionary, .system⟩ ∧ i ∈ z.locals) :
    m'.Sound Γ (y + z) := by
  refine ⟨h.present hp, Function.update σ i l, h.balanced z hz, ⟨?_, ?_, ?_, ?_⟩⟩
  · intro j hj
    by_cases hji : j = i
    · subst hji
      rw [Function.update_self]
      rcases hl with hl | ⟨rfl, -⟩
      · simp [hl]
      · simp
    · rw [Function.update_of_ne hji]
      exact hc.accounts j (h.lives j hji hj)
  · intro j hj hlabel
    rw [Stake.locals_add, Multiset.mem_add]
    by_cases hji : j = i
    · subst hji
      rw [Function.update_self] at hlabel
      rcases hl with hl | ⟨-, hmem⟩
      · rw [hlabel] at hl
        cases hl
      · exact .inl (.inr hmem)
    · rw [Function.update_of_ne hji] at hlabel
      exact (hc.dictionaries j (h.lives j hji hj) hlabel).imp_left .inl
  · intro j hj hlabel
    by_cases hji : j = i
    · subst hji
      rw [Function.update_self] at hlabel
      rcases hl with hl | ⟨hl, -⟩
      · rw [hlabel] at hl
        cases hl
      · rw [hlabel] at hl
        cases hl
    · rw [Function.update_of_ne hji] at hlabel
      exact hc.arrays j (h.lives j hji hj) hlabel
  · intro v hv j hj
    rw [Function.update_of_ne (h.handle_ne (hheld v hv) hj)]
    exact hc.permanent v hv j hj

end Memory

/-! ### Frames -/

@[simp] theorem Reserve.values_stake (r : Reserve) : r.stake.values = 0 := rfl

@[simp] theorem Reserve.locals_stake (r : Reserve) : r.stake.locals = 0 := rfl

@[simp] theorem Sequence.values_stake (s : Sequence) : s.stake.values = s.items := by simp [stake]

@[simp] theorem Sequence.locals_stake (s : Sequence) : s.stake.locals = 0 := by simp [stake]

@[simp] theorem PendingException.locals_stake (p : PendingException) : p.stake.locals = 0 := rfl

@[simp] theorem PendingException.values_elim_stake (p : Option PendingException) :
    (p.elim 0 PendingException.stake).values = 0 := by
  cases p <;> rfl

@[simp] theorem PendingException.locals_elim_stake (p : Option PendingException) :
    (p.elim 0 PendingException.stake).locals = 0 := by
  cases p <;> rfl

theorem Frame.mem_locals_stake {f : Frame} {i : ℕ} : i ∈ f.stake.locals ↔ f.locals = some i := by
  cases hl : f.locals <;> simp [stake, extras, hl, eq_comm]

@[simp] theorem Frame.values_stake (f : Frame) : f.stake.values = {f.value} := by
  cases hl : f.locals <;> simp [stake, extras, hl]

namespace CallStack

variable {c : CallStack} {f g : Frame} {index : ℕ}

theorem mem_frames_of_frame? (hf : c.frame? index = some f) : f ∈ c.frames := by
  rw [frame?_eq_getElem?] at hf
  exact List.mem_reverse.1 (List.mem_of_getElem? hf)

theorem frame?_isSome (hi : index < c.length) : ∃ f, c.frame? index = some f := by
  rw [frame?_eq_getElem?]
  exact ⟨_, List.getElem?_eq_getElem (by simpa [length] using hi)⟩

theorem frame?_cons (c : CallStack) (r : Reserve) (f : Frame) (hi : index < c.length) :
    frame? ⟨r, f :: c.frames⟩ index = c.frame? index := by
  rw [frame?_eq_getElem?, frame?_eq_getElem?, List.reverse_cons, List.getElem?_append_left]
  simpa [length] using hi

theorem frame?_of_append {above below : List Frame} (hc : c.frames = above ++ below)
    (hi : index < below.length) : c.frame? index = below.reverse[index]? := by
  rw [frame?_eq_getElem?, hc, List.reverse_append, List.getElem?_append_left (by simpa using hi)]

theorem frame?_below {f : Frame} {below : List Frame} (hc : c.frames = f :: below)
    (hi : index < below.length) : c.frame? index = below.reverse[index]? :=
  frame?_of_append (show c.frames = [f] ++ below from hc) hi

@[simp] theorem length_update (c : CallStack) (index : ℕ) (g : Frame → Frame) :
    (c.update index g).length = c.length := by
  unfold update length
  split <;> simp

@[simp] theorem reserve_update (c : CallStack) (index : ℕ) (g : Frame → Frame) :
    (c.update index g).reserve = c.reserve := by
  unfold update
  split <;> rfl

theorem frames_update (hi : index < c.length) (g : Frame → Frame) :
    (c.update index g).frames.reverse = c.frames.reverse.modify index g := by
  rw [update, if_pos hi]
  refine List.ext_getElem? fun k => ?_
  rw [length] at hi ⊢
  by_cases hk : k < c.frames.length
  · rw [List.getElem?_reverse (by simpa using hk), List.getElem?_modify, List.getElem?_modify,
      List.getElem?_reverse hk, List.length_modify]
    by_cases hik : index = k
    · subst hik
      simp
    · have : c.frames.length - 1 - index ≠ c.frames.length - 1 - k := by omega
      simp [hik, this]
  · rw [List.getElem?_eq_none (by simpa using hk), List.getElem?_eq_none (by simpa using hk)]

theorem frame?_update (hi : index < c.length) (g : Frame → Frame) (k : ℕ) :
    (c.update index g).frame? k = if index = k then (c.frame? k).map g else c.frame? k := by
  rw [frame?_eq_getElem?, frame?_eq_getElem?, frames_update hi, List.getElem?_modify]
  split <;> cases c.frames.reverse[k]? <;> simp [*]

/-- Changing one frame changes one summand of the stake. -/
theorem stake_update (hf : c.frame? index = some f) (g : Frame → Frame) :
    (c.update index g).stake + f.stake = c.stake + (g f).stake := by
  have hi : index < c.length := by
    by_contra hi
    rw [frame?, if_neg hi] at hf
    cases hf
  have hlen : index < c.frames.reverse.length := by simpa [length] using hi
  rw [frame?_eq_getElem?, List.getElem?_eq_getElem hlen] at hf
  have hf := Option.some.inj hf
  have reversed (l : List Frame) : (l.map Frame.stake).sum = (l.reverse.map Frame.stake).sum := by
    rw [List.map_reverse, List.sum_reverse]
  have key := Heap.sum_map_set Frame.stake c.frames.reverse index hlen (g f)
  rw [hf] at key
  rw [stake, stake, reserve_update, reversed, reversed c.frames, frames_update hi,
    List.modify_eq_set_get _ hlen, List.get_eq_getElem, hf, add_assoc, key, add_assoc]

/-- A frame is part of the call stack. -/
theorem exists_stake_eq_add (hf : f ∈ c.frames) : ∃ y, c.stake = y + f.stake := by
  obtain ⟨l, r, hlr⟩ := List.append_of_mem hf
  refine ⟨c.reserve.stake + (l.map Frame.stake).sum + (r.map Frame.stake).sum, ?_⟩
  rw [stake, hlr, List.map_append, List.map_cons, List.sum_append, List.sum_cons]
  abel

end CallStack

/-! ### Sound machines -/

/-- The object the locals of a frame are bound in. -/
def Machine.localObject? (m : Machine) (index : ℕ) : Option Object :=
  ((m.calls.frame? index).bind Frame.locals).bind m.memory.heap.object?

/-- The machine holds what it shows to hold, others hold `x`, and nobody holds anything else; there
are at least `n` call frames. -/
structure Machine.Sound (Γ : Charter) (n : ℕ) (x : Stake) (m : Machine) : Prop where
  memory : m.memory.Sound Γ (m.stake + x)
  depth : n ≤ m.calls.length
  operands : m.operands.Sized
  calls : m.calls.reserve.Fits m.calls.length
  scopes : m.scopes.Sized
  accounts : m.operands.reserve.account = .system ∧ m.calls.reserve.account = .system ∧
    m.scopes.reserve.account = .system
  dictionaries : ∀ v ∈ m.scopes.items, v.kind = .dictionary
  permanent : Γ.permanent <:+ m.scopes.items
  supplied : ∀ f ∈ m.calls.frames, ∀ s, f.supply = some s → Γ.supplies s

namespace Machine

/-- Safe to be referred to once more. -/
def Knows (x : Stake) (m : Machine) (v : Value) : Prop :=
  (m.stake + x + m.memory.heap.stake).Knows v

/-- Only the memory differs. -/
def SameStacks (m m' : Machine) : Prop := m' = { m with memory := m'.memory }

/-- The locals of the `n` frames at the bottom are as they were. -/
def Steady (n : ℕ) (m m' : Machine) : Prop :=
  ∀ index < n, m'.localObject? index = m.localObject? index

variable {Γ : Charter} {n k : ℕ} {x y : Stake} {m m' m'' : Machine} {v : Value}

theorem Steady.refl (n : ℕ) (m : Machine) : m.Steady n m := fun _ _ => rfl

theorem Steady.trans (h : m.Steady n m') (h' : m'.Steady n m'') : m.Steady n m'' :=
  fun index hi => (h' index hi).trans (h index hi)

theorem Steady.mono (h : m.Steady n m') (hk : k ≤ n) : m.Steady k m' :=
  fun index hi => h index (hi.trans_le hk)

theorem SameStacks.operands (h : m.SameStacks m') : m'.operands = m.operands := by rw [h]

/-- No frame has to be there any more. -/
theorem Sound.unframed (h : m.Sound Γ n x) : m.Sound Γ 0 x := { h with depth := Nat.zero_le _ }

/-- Every frame there is may be relied on. -/
theorem Sound.framed (h : m.Sound Γ n x) : m.Sound Γ m.calls.length x := { h with depth := le_rfl }

/-! ### What is known -/

theorem mem_values_stake_of_operand (hv : v ∈ m.operands.items) : v ∈ m.stake.values := by
  simp [stake, Sequence.stake, hv]

theorem mem_values_stake_of_scope (hv : v ∈ m.scopes.items) : v ∈ m.stake.values := by
  simp [stake, Sequence.stake, hv]

theorem mem_values_stake_of_frame {f : Frame} (hf : f ∈ m.calls.frames) :
    f.value ∈ m.stake.values := by
  have : f.value ∈ (m.calls.frames.map Frame.stake).sum.values :=
    (Heap.mem_values_sum ..).2 ⟨f, hf, by simp [Frame.stake]⟩
  simp [stake, CallStack.stake, this]

theorem knows_of_mem_stake (hv : v ∈ m.stake.values) : m.Knows x v :=
  ((Stake.knows_of_mem hv).add_right x).add_right _

theorem knows_of_operand (hv : v ∈ m.operands.items) : m.Knows x v :=
  knows_of_mem_stake (mem_values_stake_of_operand hv)

theorem knows_of_scope (hv : v ∈ m.scopes.items) : m.Knows x v :=
  knows_of_mem_stake (mem_values_stake_of_scope hv)

theorem knows_of_frame {f : Frame} (hf : f ∈ m.calls.frames) : m.Knows x f.value :=
  knows_of_mem_stake (mem_values_stake_of_frame hf)

theorem knows_of_pinned (hv : v ∈ x.values) : m.Knows x v :=
  ((Stake.knows_of_mem hv).add_left m.stake).add_right _

theorem knows_of_handle?_none (hv : v.handle? = none) : m.Knows x v :=
  Stake.knows_of_handle?_none hv

theorem knows_of_item {i : ℕ} {o : Object} (ho : m.memory.heap.object? i = some o)
    (hv : v ∈ o.values) : m.Knows x v :=
  Memory.knows_of_mem_values ho hv

theorem mem_locals_stake {index : ℕ} {f : Frame} {i : ℕ} (hf : m.calls.frame? index = some f)
    (hi : f.locals = some i) : i ∈ m.stake.locals := by
  obtain ⟨y, hy⟩ := CallStack.exists_stake_eq_add (CallStack.mem_frames_of_frame? hf)
  have : i ∈ m.calls.stake.locals := by
    rw [hy, Stake.locals_add, Multiset.mem_add]
    exact .inr (Frame.mem_locals_stake.2 hi)
  simp [stake, this]

end Machine

end StackScript
