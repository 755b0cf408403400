import StackScript.Proofs.Machine.Bootstrap
import StackScript.Proofs.Machine.Custody

/-!
# Setups that pass containers on as they were built

What a setup gets for an array it has built is the value with the permission the array was built
with.  A genuine setup passes containers on by such values only (`Setup.Genuine`).  The machine it
creates is uniform: all values that refer to one container are the same datum
(`Machine.uniform_of_create`).
-/

namespace StackScript

open StackScript.Action Memory

/-! ### Uniform memory -/

/-- The datum refers to no container, or it is that of one of the values. -/
def Value.Among (v : Value) (values : Multiset Value) : Prop :=
  v.handle?.isSome → ∃ w ∈ values, w.datum = v.datum

theorem Value.among_of_mem {v : Value} {values : Multiset Value} (h : v ∈ values) : v.Among values :=
  fun _ => ⟨v, h, rfl⟩

theorem Value.among_of_handle?_none {v : Value} {values : Multiset Value} (h : v.handle? = none) :
    v.Among values := fun hv => by
  rw [h] at hv
  cases hv

theorem Value.Among.knows {v : Value} {x : Stake} (h : v.Among x.values) : x.Knows v := by
  intro i hi
  obtain ⟨w, hw, hd⟩ := h (by rw [hi]; rfl)
  exact ⟨w, hw, by rw [← w.handle?_datum, hd, v.handle?_datum, hi], by
    rw [Value.kind, hd, ← Value.kind]⟩

namespace Memory

variable {total : Option ℕ} {scopes : List Value} {y y' : Stake} {m m' : Memory} {v : Value}
  {i : Handle}

/-- What is held by `y` or in a slot. -/
def known (y : Stake) (m : Memory) : Multiset Value := (y + m.heap.stake).values

/-- Values that are held or in slots and refer to the same container are the same datum. -/
def Uniform (y : Stake) (m : Memory) : Prop :=
  ∀ v ∈ m.known y, ∀ w ∈ m.known y, ∀ i, v.handle? = some i → w.handle? = some i → v.datum = w.datum

theorem mem_known : v ∈ m.known y ↔
    v ∈ y.values ∨ ∃ i o, m.heap.object? i = some o ∧ v ∈ o.values := by
  rw [known, Stake.values_add, Multiset.mem_add, Heap.mem_values_stake]

theorem Furnished.cell?_ne_none (h : m.Furnished total scopes y) (hv : v ∈ m.known y)
    (hi : v.handle? = some i) : m.heap.cell? i ≠ none := by
  obtain ⟨-, -, σ, hb, -⟩ := h
  obtain ⟨c, hc⟩ := hb.exists_cell_of_known (Stake.knows_of_mem hv) hi
  rw [hc]
  exact Option.some_ne_none c

/-- Nothing is known but what was known before. -/
theorem Uniform.of_among (h : m.Uniform y) (hv : ∀ v ∈ m'.known y', v.Among (m.known y)) :
    m'.Uniform y' := by
  intro v hv' w hw' i hvi hwi
  obtain ⟨v₀, hv₀, hvd⟩ := hv v hv' (by rw [hvi]; rfl)
  obtain ⟨w₀, hw₀, hwd⟩ := hv w hw' (by rw [hwi]; rfl)
  rw [← hvd, ← hwd]
  exact h v₀ hv₀ w₀ hw₀ i (by rw [← v₀.handle?_datum, hvd, v.handle?_datum, hvi])
    (by rw [← w₀.handle?_datum, hwd, w.handle?_datum, hwi])

/-- Nothing is known but what was known before, and a container that is new. -/
theorem Uniform.of_created {created : Value} (h : m.Uniform y) (hf : m.Furnished total scopes y)
    (hi : created.handle? = some i) (unused : m.heap.cell? i = none)
    (hv : ∀ v ∈ m'.known y', v.datum = created.datum ∨ v.Among (m.known y)) : m'.Uniform y' := by
  -- what was known before refers to other containers
  have apart {v w : Value} (hd : v.datum = created.datum) (ha : w.Among (m.known y)) {j : Handle}
      (hvj : v.handle? = some j) (hwj : w.handle? = some j) : False := by
    obtain ⟨w₀, hw₀, hwd⟩ := ha (by rw [hwj]; rfl)
    obtain rfl : i = j := by
      rw [← v.handle?_datum, hd, created.handle?_datum, hi] at hvj
      exact Option.some.inj hvj
    exact hf.cell?_ne_none hw₀ (by rw [← w₀.handle?_datum, hwd, w.handle?_datum, hwj]) unused
  intro v hv' w hw' j hvj hwj
  rcases hv v hv' with hvd | hva <;> rcases hv w hw' with hwd | hwa
  · rw [hvd, hwd]
  · exact (apart hvd hwa hvj hwj).elim
  · exact (apart hwd hva hwj hvj).elim
  · obtain ⟨v₀, hv₀, hvd⟩ := hva (by rw [hvj]; rfl)
    obtain ⟨w₀, hw₀, hwd⟩ := hwa (by rw [hwj]; rfl)
    rw [← hvd, ← hwd]
    exact h v₀ hv₀ w₀ hw₀ j (by rw [← v₀.handle?_datum, hvd, v.handle?_datum, hvj])
      (by rw [← w₀.handle?_datum, hwd, w.handle?_datum, hwj])

/-- Memory in the making that is uniform. -/
structure Arranged (total : Option ℕ) (scopes : List Value) (y : Stake) (m : Memory) : Prop where
  furnished : m.Furnished total scopes y
  uniform : m.Uniform y

theorem arranged_empty (h : total.getD Size.limit ≤ Size.limit) (debug : Bool) :
    (Memory.empty total debug).Arranged total [] 0 where
  furnished := furnished_empty h debug
  uniform v hv := by
    obtain hv | ⟨i, o, ho, -⟩ := mem_known.1 hv
    · cases hv
    · cases ho

/-- Containers have gone perhaps. -/
theorem Uniform.of_sheds (h : m.Uniform y) (sheds : m.Sheds m')
    (hy : ∀ v ∈ y'.values, v ∈ y.values) : m'.Uniform y' := by
  refine h.of_among fun v hv => Value.among_of_mem (mem_known.2 ?_)
  rcases mem_known.1 hv with hv | ⟨i, o, ho, hv⟩
  · exact .inl (hy v hv)
  · exact .inr ⟨i, o, sheds.object?_eq ho, hv⟩

instance (slot : Size) (account : Account) (initial increment : ℕ) :
    Respects Sheds (Reserve.acquire slot account initial increment) :=
  Respects.mono (R := Recounts) inferInstance fun _ _ h => h.sheds

instance (slot : Size) (account : Account) (initial increment : ℕ) :
    Respects Sheds (Sequence.acquire slot account initial increment) := by
  unfold Sequence.acquire
  infer_instance

instance : Respects Sheds CallStack.acquire := by
  unfold CallStack.acquire
  infer_instance

/-- A step after which nothing more is held, and that creates nothing. -/
theorem Arranged.shed {α : Type} {x : Action Memory α} [Respects Sheds x] {P : α → Prop}
    {lax : Prop} {F : Memory → Prop} {scopesAfter : List Value} {after : α → Stake}
    (h : m.Arranged total scopes y)
    (hx : (x m).Meets lax (fun a m' => P a ∧ m'.Furnished total scopesAfter (after a)) F)
    (hy : ∀ a, P a → ∀ v ∈ (after a).values, v ∈ y.values) :
    (x m).Meets lax (fun a m' => P a ∧ m'.Arranged total scopesAfter (after a)) fun _ => True :=
  (hx.and (Respects.respects (R := Sheds) m)).mono
    (fun a _ ⟨⟨ha, furnished⟩, sheds⟩ => ⟨ha, furnished, h.uniform.of_sheds sheds (hy a ha)⟩)
    fun _ _ => trivial

/-- A value has been bound in a scope. -/
theorem Uniform.of_rewrites (h : m.Uniform y) (rewrites : m.heap.Rewrites i v m'.heap)
    (hv : v.Among (m.known y)) : m'.Uniform y := by
  refine h.of_among fun w hw => ?_
  rcases mem_known.1 hw with held | ⟨j, o, ho, hw⟩
  · exact Value.among_of_mem (mem_known.2 (.inl held))
  · by_cases hj : j = i
    · subst hj
      obtain ⟨o₀, ho₀, hsub, -⟩ := rewrites.object o ho
      rcases List.mem_cons.1 (hsub hw) with rfl | hw
      · exact hv
      · exact Value.among_of_mem (mem_known.2 (.inr ⟨j, o₀, ho₀, hw⟩))
    · refine Value.among_of_mem (mem_known.2 (.inr ⟨j, o, ?_, hw⟩))
      rw [Heap.object?_eq_join] at ho ⊢
      rcases rewrites.others j hj with gone | kept
      · rw [gone] at ho
        cases ho
      · rwa [← kept]

/-- A container has been created, and its creator holds it. -/
theorem Uniform.of_stores {o : Object} (h : m.Uniform y) (hf : m.Furnished total scopes y)
    (stores : m.heap.Stores i o m'.heap) (hi : v.handle? = some i)
    (ho : ∀ w ∈ o.values, w.Among (m.known y)) : m'.Uniform (y + .refs [v]) := by
  refine h.of_created hf hi stores.unused fun w hw => ?_
  rcases mem_known.1 hw with held | ⟨j, o', ho', hw⟩
  · rw [Stake.values_add, Stake.values_refs, Multiset.mem_add] at held
    rcases held with held | created
    · exact .inr (Value.among_of_mem (mem_known.2 (.inl held)))
    · exact .inl (congrArg Value.datum (List.mem_singleton.1 created))
  · rw [Heap.object?_eq_join, stores.content] at ho'
    split at ho'
    · exact .inr (ho w (Option.some.inj ho' ▸ hw))
    · exact .inr (Value.among_of_mem
        (mem_known.2 (.inr ⟨j, o', (Heap.object?_eq_join ..).trans ho', hw⟩)))

theorem Furnished.wellFormed (h : m.Furnished total scopes y) : m.heap.WellFormed := by
  obtain ⟨-, -, σ, hb, -⟩ := h
  exact hb.heap

variable {lax : Prop}

theorem Arranged.newDictionary (h : m.Arranged total scopes y) (writable : Bool)
    (trail : List String) :
    (newDictionary .system trail m).Meets lax
      (fun i m' => m'.Arranged total (.dictionary i writable :: scopes)
        (y + .refs [.dictionary i writable])) fun _ => True := by
  refine ((h.furnished.newDictionary writable trail).and
    (newDictionary_stores h.furnished.wellFormed .system trail)).mono ?_ fun _ _ => trivial
  rintro i m' ⟨furnished, stores⟩
  exact ⟨furnished, h.uniform.of_stores h.furnished stores rfl fun w hw => nomatch hw⟩

theorem Arranged.newArray {items : List Value} (h : m.Arranged total scopes y)
    (hv : ∀ v ∈ items, v.Among y.values) (access : Access) (trail : List String) :
    (newArray .system items trail m).Meets lax
      (fun i m' => m'.Arranged total scopes (y + .refs [.array i access]))
      fun m' => m'.Arranged total scopes y := by
  have among (v : Value) (hmem : v ∈ items) : v.Among (m.known y) := fun hv' => by
    obtain ⟨w, hw, hd⟩ := hv v hmem hv'
    exact ⟨w, mem_known.2 (.inl hw), hd⟩
  refine ((h.furnished.newArray (fun v hmem => (among v hmem).knows) access trail).and
    (newArray_stores h.furnished.wellFormed .system items trail)).mono ?_ ?_
  · rintro i m' ⟨furnished, s, hs, stores⟩
    exact ⟨furnished, h.uniform.of_stores h.furnished stores rfl fun w hw =>
      among w (s.items_subset hs hw)⟩
  · exact fun m' ⟨furnished, sheds⟩ => ⟨furnished, h.uniform.of_sheds sheds fun _ => id⟩

theorem Arranged.define {writable : Bool} {name : String} (h : m.Arranged total scopes y)
    (hi : .dictionary i writable ∈ scopes) (hv : v.Among y.values) :
    (Memory.define i name v m).Meets lax (fun _ m' => m'.Arranged total scopes y)
      fun m' => m'.Arranged total scopes y := by
  have among : v.Among (m.known y) := fun hv' => by
    obtain ⟨w, hw, hd⟩ := hv hv'
    exact ⟨w, mem_known.2 (.inl hw), hd⟩
  exact ((h.furnished.define hi (among.knows)).and (define_rewrites i name v m)).mono
    (fun _ _ hm' => ⟨hm'.1, h.uniform.of_rewrites hm'.2 among⟩)
    fun _ hm' => ⟨hm'.1, h.uniform.of_rewrites hm'.2 among⟩

end Memory

/-! ### Setups -/

/-- The setup passes containers on by the values it was given when it built them. -/
inductive Setup.Genuine {α : Type} : List Value → Setup α → Prop
  | done (given : List Value) (a : α) : Genuine given (.done a)
  | raise (given : List Value) (e : Exception) : Genuine given (.raise e)
  | define {given : List Value} {name : String} {v : Value} {next : Unit → Setup α}
      {failed : Exception → Setup α} (hv : v.Among given)
      (hnext : Genuine given (next ())) (hfailed : ∀ e, Genuine given (failed e)) :
      Genuine given (.ask (.define name v) next failed)
  | array {given : List Value} {access : Access} {items : List Value} {next : Value → Setup α}
      {failed : Exception → Setup α} (hv : ∀ v ∈ items, v.Among given)
      (hnext : ∀ i, Genuine (.array i access :: given) (next (.array i access)))
      (hfailed : ∀ e, Genuine given (failed e)) :
      Genuine given (.ask (.array access items) next failed)

namespace Setup

variable {α : Type} {total : Option ℕ} {scope : Handle} {y : Stake} {given : List Value}
  {c : Construction} {setup : Setup α}

/-- A genuine setup passes on no containers but those it has built. -/
theorem Genuine.selfContained (h : setup.Genuine given) : setup.SelfContained given := by
  have knows (given : List Value) (v : Value) (hv : v.Among given) : (Stake.refs given).Knows v :=
    Value.Among.knows (by rwa [Stake.values_refs])
  induction h with
  | done given a => exact .done given a
  | raise given e => exact .raise given e
  | define hv _ _ ihn ihf => exact .define (knows _ _ hv) ihn ihf
  | array hv _ _ ihn ihf => exact .array (fun v hmem => knows _ v (hv v hmem)) ihn ihf

/-- A setup at work, in uniform memory. -/
structure Tidy (total : Option ℕ) (scope : Handle) (y : Stake) (given : List Value)
    (c : Construction) : Prop where
  created : c.created = given
  place : c.scope = scope
  arranged : c.memory.Arranged total [.dictionary scope false] (y + .refs given)

theorem among_given {v : Value} (h : v.Among given) : v.Among (y + .refs given).values := fun hv => by
  obtain ⟨w, hw, hd⟩ := h hv
  exact ⟨w, by simp only [Stake.values_add, Stake.values_refs, Multiset.mem_add]; exact .inr hw, hd⟩

theorem run_tidy (hs : setup.Genuine given) (h : Tidy total scope y given c) :
    (setup.run Provision.perform c).Meets False (fun _ c' => ∃ given', Tidy total scope y given' c')
      fun c' => ∃ given', Tidy total scope y given' c' := by
  induction hs generalizing c with
  | done => exact ⟨_, h⟩
  | raise => exact ⟨_, h⟩
  | @define given name v _ _ hv _ _ ihnext ihfailed =>
    have defined : ((Provision.define name v).perform c).Meets False
        (fun _ => Tidy total scope y given) (Tidy total scope y given) := by
      change (Provision.onMemory (Memory.define c.scope name v) c).Meets _ _ _
      rw [h.place]
      exact Action.meets_zoom ((h.arranged.define List.mem_cons_self (among_given hv)).mono
        (fun _ _ h' => ⟨h.created, h.place, h'⟩) fun _ h' => ⟨h.created, h.place, h'⟩)
    exact Program.meets_ask defined (fun _ _ => ihnext) fun e _ => ihfailed e
  | @array given access items _ _ hv _ _ ihnext ihfailed =>
    have built : ((Provision.array access items).perform c).Meets False
        (fun v c' => ∃ i, v = .array i access ∧ Tidy total scope y (v :: given) c')
        (Tidy total scope y given) := by
      change ((Provision.onMemory (Memory.newArray .system items ["host scope"]) >>= _) c).Meets _ _ _
      refine Action.meets_bind (P := fun i c' => c'.created = given ∧ c'.scope = scope ∧
        c'.memory.Arranged total [.dictionary scope false] (y + .refs given + .refs [.array i access]))
        (Action.meets_zoom ((h.arranged.newArray (fun v hmem => among_given (hv v hmem)) access _).mono
          (fun _ _ h' => ⟨h.created, h.place, h'⟩) fun _ h' => ⟨h.created, h.place, h'⟩)) ?_
      rintro i c' ⟨created, place, h'⟩
      refine ⟨i, rfl, congrArg _ created, place, ?_⟩
      rw [Stake.refs_cons, add_comm (Stake.refs [_]), ← add_assoc]
      exact h'
    refine Program.meets_ask built ?_ fun e _ => ihfailed e
    rintro _ c' ⟨i, rfl, h'⟩
    exact ihnext i h'

/-- Filling the host scope leaves memory uniform. -/
theorem fill_tidy {m : Memory} (hs : setup.Genuine [])
    (h : m.Arranged total [.dictionary scope false] y) :
    (setup.fill scope m).Meets False
      (fun _ m' => m'.Arranged total [.dictionary scope false] y) fun _ => True := by
  have run := run_tidy (y := y) (c := { memory := m, scope := scope }) hs
    ⟨rfl, rfl, by rwa [Stake.refs_nil, add_zero]⟩
  refine fill_meets_of_run run ?_
  rintro c ⟨given, created, -, arranged⟩
  have released : (Memory.releaseAll c.created.reverse c.memory).Meets False
      (fun _ m' => True ∧ m'.Furnished total [.dictionary scope false] y) fun _ => False := by
    refine (Memory.Furnished.releaseAll ?_ h.furnished.held).always fun _ _ h => ⟨trivial, h⟩
    rw [Stake.refs_reverse, created]
    exact arranged.furnished
  exact (arranged.shed released fun _ _ v hv => by simp [hv]).mono (fun _ _ h => h.2) fun _ => id

end Setup

/-! ### Machines -/

namespace Machine

variable {α : Type} {total : Option ℕ} {scopes : List Value} {y : Stake} {μ : Memory}
  {setup : Setup α} {options : Options}

theorem defineBuiltins_arranged {scope : Handle} {writable : Bool} (builtins : List Builtin)
    (h : μ.Arranged total scopes y) (hs : .dictionary scope writable ∈ scopes) :
    (defineBuiltins scope builtins μ).Meets False (fun _ μ' => μ'.Arranged total scopes y)
      fun _ => True := by
  induction builtins generalizing μ with
  | nil => exact h
  | cons b rest ih =>
    exact Action.meets_bind ((h.define hs (Value.among_of_handle?_none rfl)).mono
      (fun _ _ => id) fun _ _ => trivial) fun _ _ h' => ih h'

theorem assemble_uniform (hs : setup.Genuine []) (h : μ.Arranged options.maxMemory [] 0) :
    (assemble options setup μ).Meets False (fun r _ => r.1.memory.Uniform r.1.stake)
      fun _ => True := by
  refine Action.meets_bind (h.shed (h.furnished.sequence ..) fun s items v hv => ?_) ?_
  · simp [items.1] at hv
  rintro operands μ₁ ⟨⟨noOperands, -⟩, h₁⟩
  refine Action.meets_bind (h₁.shed h₁.furnished.callStack fun c frames v hv => ?_) ?_
  · simpa [CallStack.stake, frames.1] using hv
  rintro calls μ₂ ⟨⟨idle, -⟩, h₂⟩
  refine Action.meets_bind (h₂.shed (h₂.furnished.sequence ..) fun s items v hv => ?_) ?_
  · simpa [items.1] using hv
  rintro empty μ₃ ⟨⟨none, -⟩, h₃⟩
  refine Action.meets_bind (h₃.newDictionary false _) ?_
  intro host μ₄ h₄
  refine Action.meets_bind (Setup.fill_tidy hs h₄) ?_
  intro provided μ₅ h₅
  refine Action.meets_bind (h₅.newDictionary false _) ?_
  intro system μ₆ h₆
  refine Action.meets_bind (defineBuiltins_arranged Builtin.all h₆ List.mem_cons_self) ?_
  intro _ μ₇ h₇
  refine Action.meets_bind (h₇.newDictionary true _) ?_
  intro common μ₈ h₈
  refine Action.meets_bind (h₈.newDictionary true _) ?_
  intro user μ₉ h₉
  rw [Stake.add_refs_four] at h₉
  -- the scopes take over what their creator held
  refine Action.meets_bind (h₉.shed (Memory.Furnished.openScopes none h₉.furnished)
    fun s items v hv => ?_) ?_
  · rw [Stake.values_add, Sequence.values_stake, items.1] at hv
    simpa [none, -List.reverse_cons] using hv
  rintro scopes μ' ⟨-, h'⟩
  change μ'.Uniform (operands.stake + calls.stake + scopes.stake + 0)
  rw [add_zero]
  exact h'.uniform

/-- **A machine created by a genuine setup** is uniform. -/
theorem uniform_of_create {m : Machine} {a : α}
    (hcapacity : ∀ t, options.maxMemory = some t → t ≤ Size.limit) (hs : setup.Genuine [])
    (hm : create options setup = .done (m, a) μ) : Custody.Uniform ⟨m, []⟩ := by
  have uniform : (create options setup).Meets False (fun r _ => r.1.memory.Uniform r.1.stake)
      fun _ => True := by
    refine assemble_uniform hs (Memory.arranged_empty ?_ _)
    cases hmax : options.maxMemory with
    | none => exact le_rfl
    | some t => exact hcapacity t hmax
  rw [hm] at uniform
  have known (v : Value) (hv : v ∈ m.places ++ []) : v ∈ m.memory.known m.stake := by
    rw [Memory.known, m.values_eq_places]
    exact Multiset.mem_coe.2 (List.append_nil m.places ▸ hv)
  intro d hd e he i hdi hei
  obtain ⟨v, hv, rfl⟩ := List.mem_map.1 hd
  obtain ⟨w, hw, rfl⟩ := List.mem_map.1 he
  exact uniform v (known v hv) w (known w hw) i hdi hei

end Machine

end StackScript
