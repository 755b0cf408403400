import StackScript.Machine.Bootstrap
import StackScript.Proofs.Machine.Cycle
import StackScript.Proofs.Memory.Contents

/-!
# A created machine is sound

While a machine is put together its memory is *furnished*: every container is a permanent scope or
an array the setup has built (`Memory.Furnished`).  The setup may pass on containers it has built
itself and no others (`Setup.SelfContained`).  What comes out is a sound machine that holds
everything there is (`Machine.create_meets`).
-/

namespace StackScript

open Memory (onLedger onHeap)

/-! ### Empty memory -/

theorem Ledger.exact_empty {total : Option ℕ} (h : total.getD Size.limit ≤ Size.limit) :
    Ledger.Exact total { total := total } where
  capacity := rfl
  countable := h
  sum := rfl
  used_le := le_rfl
  peak_le := Nat.zero_le _

theorem Memory.balanced_empty {total : Option ℕ} (h : total.getD Size.limit ≤ Size.limit)
    (debug : Bool) (σ : ℕ → Label) : (Memory.empty total debug).Balanced total σ 0 where
  holders i := rfl
  mentions t := rfl
  units a := by cases a <;> rfl
  positive i c hc := by cases hc
  labelled i o ho := by cases ho
  kinds v hv := by cases hv
  locals i hi := by cases hi
  heap := ⟨List.nodup_nil, fun i => ⟨nofun, fun hi => absurd hi.1 (Nat.not_lt_zero i)⟩⟩
  exact := Ledger.exact_empty h
  tabled := ⟨List.nodup_nil, fun _ he => by cases he⟩
  trailed l hl := by
    cases debug with
    | false => cases hl
    | true =>
      obtain rfl : [] = l := Option.some.inj hl
      exact ⟨List.nodup_nil, fun i => by simp [Heap.cell?, empty], fun _ ht => by cases ht⟩

/-! ### Memory in the making -/

/-- Everything is charged to the machine itself, and the dictionaries are `scopes`. -/
structure Memory.Equips (σ : ℕ → Label) (scopes : List Value) (m : Memory) : Prop where
  live : ∀ i, m.heap.cell? i ≠ none →
    σ i = ⟨.array, .system⟩ ∨ σ i = ⟨.dictionary, .system⟩ ∧ ∃ v ∈ scopes, v.handle? = some i
  distinct : (scopes.filterMap Value.handle?).Nodup
  scopes : ∀ v ∈ scopes, ∀ i, v.handle? = some i → σ i = ⟨.dictionary, .system⟩

/-- The memory has some scopes, all of them held, and arrays built by a setup. -/
structure Memory.Furnished (total : Option ℕ) (scopes : List Value) (y : Stake) (m : Memory) :
    Prop where
  present : m.heap.Present
  held : ∀ v ∈ scopes, v ∈ y.values
  accounted : ∃ σ, m.Balanced total σ y ∧ m.Equips σ scopes

namespace Memory

variable {total : Option ℕ} {scopes : List Value} {x y z : Stake} {m m' : Memory} {lax : Prop}
  {v : Value} {σ : ℕ → Label}

theorem furnished_empty (h : total.getD Size.limit ≤ Size.limit) (debug : Bool) :
    (Memory.empty total debug).Furnished total [] 0 where
  present i hi := by cases hi
  held v hv := by cases hv
  accounted := ⟨fun _ => ⟨.array, .system⟩, balanced_empty h debug _, fun _ _ => .inl rfl,
    List.nodup_nil,
    fun v hv => by cases hv⟩

theorem Equips.of_lives (h : m.Equips σ scopes)
    (lives : ∀ i, m'.heap.cell? i ≠ none → m.heap.cell? i ≠ none) : m'.Equips σ scopes :=
  ⟨fun i hi => h.live i (lives i hi), h.distinct, h.scopes⟩

theorem Equips.furnished (h : m.Equips σ scopes) (present : m.heap.Present)
    (hb : m'.Balanced total σ y) (loses : m.Loses z m') (held : ∀ v ∈ scopes, v ∈ y.values) :
    m'.Furnished total scopes y :=
  ⟨present.sheds loses.sheds, held, σ, hb, h.of_lives loses.lives⟩

/-- A new stack pays for its slots. -/
theorem Furnished.reserve (h : m.Furnished total scopes y) (slot : Size) (initial increment : ℕ) :
    (Reserve.acquire slot .system initial increment m).Meets lax
      (fun r m' => (r.account = .system ∧ r.Fits 0) ∧ m'.Furnished total scopes (y + r.stake))
      fun _ => True := by
  obtain ⟨present, held, σ, hb, equips⟩ := h
  refine (Reserve.acquire_meets hb slot .system initial increment).mono ?_ fun _ _ => trivial
  rintro r m' ⟨rfl, fits, hb', same⟩
  exact ⟨⟨rfl, fits⟩, equips.furnished present hb' (same.loses 0) (by simpa using held)⟩

theorem Furnished.sequence (h : m.Furnished total scopes y) (slot : Size)
    (initial increment : ℕ) :
    (Sequence.acquire slot .system initial increment m).Meets lax
      (fun s m' => (s.items = [] ∧ s.reserve.account = .system ∧ s.Sized) ∧
        m'.Furnished total scopes (y + s.stake)) fun _ => True := by
  refine Action.meets_bind (h.reserve slot initial increment) ?_
  rintro r m' ⟨⟨account, fits⟩, h'⟩
  refine ⟨⟨rfl, account, fits⟩, ?_⟩
  rwa [Sequence.stake, Stake.refs_nil, add_zero]

theorem Furnished.callStack (h : m.Furnished total scopes y) :
    (CallStack.acquire m).Meets lax
      (fun c m' => (c.frames = [] ∧ c.reserve.account = .system ∧ c.reserve.Fits 0) ∧
        m'.Furnished total scopes (y + c.stake)) fun _ => True := by
  refine Action.meets_bind (h.reserve CallStack.frameSlot 32 32) ?_
  rintro r m' ⟨⟨account, fits⟩, h'⟩
  refine ⟨⟨rfl, account, fits⟩, ?_⟩
  rwa [CallStack.stake, List.map_nil, List.sum_nil, add_zero]

/-- A new dictionary becomes a scope. -/
theorem Furnished.newDictionary (h : m.Furnished total scopes y) (writable : Bool)
    (trail : List String) :
    (newDictionary .system trail m).Meets lax
      (fun i m' => m'.Furnished total (.dictionary i writable :: scopes)
        (y + .refs [.dictionary i writable])) fun _ => True := by
  obtain ⟨present, held, σ, hb, equips⟩ := h
  refine (newDictionary_meets hb .system trail).mono (fun i m' created => ?_) fun _ _ => trivial
  have other (w : Value) (hw : w ∈ scopes) (j : ℕ) (hj : w.handle? = some j) : j ≠ i :=
    created.handle_ne (held w hw) hj
  refine ⟨created.present present, ?_, _, created.balanced _ (Stake.pointsTo_ref rfl rfl rfl),
    fun j hj => ?_, ?_, ?_⟩
  · simp only [Stake.values_add, Stake.values_refs, Multiset.mem_add, List.forall_mem_cons]
    exact ⟨.inr (by simp), fun w hw => .inl (held w hw)⟩
  · by_cases hji : j = i
    · subst hji
      rw [Function.update_self]
      exact .inr ⟨rfl, _, List.mem_cons_self, rfl⟩
    · rw [Function.update_of_ne hji]
      refine (equips.live j (created.lives j hji hj)).imp_right fun ⟨hl, w, hw, hwj⟩ => ?_
      exact ⟨hl, w, List.mem_cons_of_mem _ hw, hwj⟩
  · refine List.nodup_cons.2 ⟨fun hi => ?_, equips.distinct⟩
    obtain ⟨w, hw, hwi⟩ := List.mem_filterMap.1 hi
    exact other w hw i hwi rfl
  · refine List.forall_mem_cons.2 ⟨fun j hj => ?_, fun w hw j hj => ?_⟩
    · obtain rfl : i = j := by simpa [Value.handle?, Value.dictionary] using hj
      exact Function.update_self ..
    · rw [Function.update_of_ne (other w hw j hj)]
      exact equips.scopes w hw j hj

/-- A new array of the setup. -/
theorem Furnished.newArray {items : List Value} (h : m.Furnished total scopes y)
    (hv : ∀ v ∈ items, (y + m.heap.stake).Knows v) (access : Access) (trail : List String) :
    (newArray .system items trail m).Meets lax
      (fun i m' => m'.Furnished total scopes (y + .refs [.array i access]))
      fun m' => m'.Furnished total scopes y := by
  obtain ⟨present, held, σ, hb, equips⟩ := h
  refine (newArray_meets hb hv (.inr (present.outSupported _)) .system trail).mono
    (fun i m' created => ?_) fun m' ⟨hb', loses⟩ => ?_
  · refine ⟨created.present present, fun w hw => ?_, _,
      created.balanced _ (Stake.pointsTo_ref rfl rfl rfl), fun j hj => ?_, equips.distinct,
      fun w hw j hj => ?_⟩
    · simp [held w hw]
    · by_cases hji : j = i
      · subst hji
        rw [Function.update_self]
        exact .inl rfl
      · rw [Function.update_of_ne hji]
        exact equips.live j (created.lives j hji hj)
    · rw [Function.update_of_ne (created.handle_ne (held w hw) hj)]
      exact equips.scopes w hw j hj
  · exact equips.furnished present hb' loses held

/-- A name is bound in a scope. -/
theorem Furnished.define {i : Handle} {writable : Bool} {name : String}
    (h : m.Furnished total scopes y) (hi : .dictionary i writable ∈ scopes)
    (hv : (y + m.heap.stake).Knows v) :
    (Memory.define i name v m).Meets lax (fun _ m' => m'.Furnished total scopes y)
      fun m' => m'.Furnished total scopes y := by
  obtain ⟨present, held, σ, hb, equips⟩ := h
  have here := held _ hi
  obtain ⟨d, ho⟩ := hb.dictionary_of_known present ((Stake.knows_of_mem here).add_right _) rfl rfl
  have anchored : m.heap.Anchored y i :=
    Heap.anchored_of_holders (Stake.holders_pos_of_mem here rfl)
  have furnished (o : Object) (m' : Memory) (h : Modified total σ y m i o m') :
      m'.Furnished total scopes y :=
    ⟨h.present, held, σ, h.balanced, equips.of_lives h.alters.lives⟩
  exact (define_meets hb present ho (.inr anchored) hv).mono (fun _ => furnished _) (furnished _)

/-- The scopes take their places, and their creator gives them up. -/
theorem Furnished.openScopes {vs : List Value} {s : Sequence} (hs : s.items = [])
    (h : m.Furnished total vs.reverse (y + .refs vs + s.stake)) :
    ((s.exchange 0 vs).ensuring (releaseAll vs) m).Meets False
      (fun s' m' => (s'.items = vs.reverse ∧ s'.reserve.account = s.reserve.account ∧ s'.Sized) ∧
        m'.Furnished total vs.reverse (y + s'.stake)) fun _ => True := by
  obtain ⟨present, held, σ, hb, equips⟩ := h
  have known (v : Value) (hv : v ∈ vs) : (y + .refs vs + s.stake + m.heap.stake).Knows v :=
    (Stake.knows_of_mem (by simp [hv])).add_right _
  refine Action.meets_ensuring (B := fun s' m' => (s'.items = vs.reverse ∧
      s'.reserve.account = s.reserve.account ∧ s'.Sized) ∧
        m'.Balanced total σ (y + s'.stake + .refs vs) ∧ m.Loses (y + .refs vs) m')
    (M := fun m' => m'.Balanced total σ (y + s.stake + .refs vs) ∧ m'.heap.Present)
    ((Sequence.exchange_meets 0 vs hb known (.inr (present.outSupported _))).mono ?_ ?_) ?_ ?_
  · rintro s' m' ⟨⟨⟨⟨k, hreserve⟩, sized⟩, hitems⟩, hb', loses⟩
    refine ⟨⟨by simpa [hs] using hitems, by rw [hreserve]; rfl, sized⟩, ?_, loses⟩
    rwa [add_right_comm]
  · -- the stack could not grow: the scopes go with their creator
    rintro m' ⟨⟨hb', loses⟩, -⟩
    rw [add_right_comm] at hb'
    exact ⟨hb', present.sheds loses.sheds⟩
  · rintro s' m' ⟨⟨hitems, rest⟩, hb', loses⟩
    have present' := present.sheds loses.sheds
    refine (releaseAll_meets vs hb' (.inr (present'.outSupported _))).always ?_
    rintro _ m'' ⟨hb'', loses'⟩
    refine ⟨⟨hitems, rest⟩, (equips.of_lives loses.lives).furnished present' hb'' loses' ?_⟩
    exact fun v hv => by simp [hitems, List.mem_reverse.1 hv]
  · rintro m' ⟨hb', present'⟩
    exact (releaseAll_meets vs hb' (.inr (present'.outSupported _))).always fun _ _ _ => trivial

/-- References are given up, but for those to the scopes. -/
theorem Furnished.releaseAll {vs : List Value} (h : m.Furnished total scopes (y + .refs vs))
    (held : ∀ v ∈ scopes, v ∈ y.values) :
    (releaseAll vs m).Meets lax (fun _ m' => m'.Furnished total scopes y) fun _ => False := by
  obtain ⟨present, -, σ, hb, equips⟩ := h
  refine (releaseAll_meets vs hb (.inr (present.outSupported _))).mono ?_ fun _ => id
  exact fun _ m' ⟨hb', loses⟩ => equips.furnished present hb' loses held

end Memory

/-! ### Setups -/

/-- The setup passes on no containers but those it has built, which are `given` so far. -/
inductive Setup.SelfContained {α : Type} : List Value → Setup α → Prop
  | done (given : List Value) (a : α) : SelfContained given (.done a)
  | raise (given : List Value) (e : Exception) : SelfContained given (.raise e)
  | define {given : List Value} {name : String} {v : Value} {next : Unit → Setup α}
      {failed : Exception → Setup α} (hv : (Stake.refs given).Knows v)
      (hnext : SelfContained given (next ())) (hfailed : ∀ e, SelfContained given (failed e)) :
      SelfContained given (.ask (.define name v) next failed)
  | array {given : List Value} {access : Access} {items : List Value} {next : Value → Setup α}
      {failed : Exception → Setup α} (hv : ∀ v ∈ items, (Stake.refs given).Knows v)
      (hnext : ∀ i, SelfContained (.array i access :: given) (next (.array i access)))
      (hfailed : ∀ e, SelfContained given (failed e)) :
      SelfContained given (.ask (.array access items) next failed)

namespace Setup

variable {α : Type} {total : Option ℕ} {scope : Handle} {y : Stake} {given : List Value}
  {c : Construction} {setup : Setup α}

/-- A setup at work that has built `given`, which is held until its end. -/
structure Underway (total : Option ℕ) (scope : Handle) (y : Stake) (given : List Value)
    (c : Construction) : Prop where
  created : c.created = given
  place : c.scope = scope
  furnished : c.memory.Furnished total [.dictionary scope false] (y + .refs given)

theorem Underway.knows {v : Value} (_ : Underway total scope y given c)
    (hv : (Stake.refs given).Knows v) : (y + .refs given + c.memory.heap.stake).Knows v :=
  (hv.add_left y).add_right _

theorem define_meets {name : String} {v : Value} (h : Underway total scope y given c)
    (hv : (Stake.refs given).Knows v) :
    ((Provision.define name v).perform c).Meets False (fun _ => Underway total scope y given)
      (Underway total scope y given) := by
  change (Provision.onMemory (Memory.define c.scope name v) c).Meets _ _ _
  rw [h.place]
  exact Action.meets_zoom ((h.furnished.define List.mem_cons_self (h.knows hv)).mono
    (fun _ _ h' => ⟨h.created, h.place, h'⟩) fun _ h' => ⟨h.created, h.place, h'⟩)

theorem array_meets {access : Access} {items : List Value} (h : Underway total scope y given c)
    (hv : ∀ v ∈ items, (Stake.refs given).Knows v) :
    ((Provision.array access items).perform c).Meets False
      (fun v c' => ∃ i, v = .array i access ∧ Underway total scope y (v :: given) c')
      (Underway total scope y given) := by
  change ((Provision.onMemory (Memory.newArray .system items ["host scope"]) >>= _) c).Meets _ _ _
  refine Action.meets_bind (P := fun i c' => c'.created = given ∧ c'.scope = scope ∧
    c'.memory.Furnished total [.dictionary scope false] (y + .refs given + .refs [.array i access]))
    (Action.meets_zoom ((h.furnished.newArray (fun v hmem => h.knows (hv v hmem)) access _).mono
      (fun _ _ h' => ⟨h.created, h.place, h'⟩) fun _ h' => ⟨h.created, h.place, h'⟩)) ?_
  rintro i c' ⟨created, place, h'⟩
  refine ⟨i, rfl, congrArg _ created, place, ?_⟩
  rw [Stake.refs_cons, add_comm (Stake.refs [_]), ← add_assoc]
  exact h'

/-- Running a setup leaves the memory furnished. -/
theorem run_meets (hs : setup.SelfContained given) (h : Underway total scope y given c) :
    (setup.run Provision.perform c).Meets False
      (fun _ c' => ∃ given', Underway total scope y given' c')
      fun c' => ∃ given', Underway total scope y given' c' := by
  induction hs generalizing c with
  | done => exact ⟨_, h⟩
  | raise => exact ⟨_, h⟩
  | define hv _ _ ihnext ihfailed =>
    exact Program.meets_ask (define_meets h hv) (fun _ _ => ihnext) fun e _ => ihfailed e
  | array hv _ _ ihnext ihfailed =>
    refine Program.meets_ask (array_meets h hv) ?_ fun e _ => ihfailed e
    rintro _ c' ⟨i, rfl, h'⟩
    exact ihnext i h'

/-- A setup has been run, and then all that it has created is released. -/
theorem fill_meets_of_run {m : Memory} {P : Construction → Prop} {Q : Memory → Prop}
    (run : (setup.run Provision.perform { memory := m, scope := scope }).Meets False (fun _ => P) P)
    (released : ∀ c, P c → (Memory.releaseAll c.created.reverse c.memory).Meets False (fun _ => Q)
      fun _ => True) :
    (setup.fill scope m).Meets False (fun _ => Q) fun _ => True := by
  unfold fill
  cases hrun : setup.run Provision.perform { memory := m, scope := scope } with
  | done a c =>
    rw [hrun] at run
    exact Action.meets_bind (f := fun _ => Action.pure a) (released c run) fun _ _ => id
  | raised e c =>
    rw [hrun] at run
    exact Action.meets_bind (f := fun _ => Action.raise e) (released c run) fun _ _ _ => trivial
  | broken b =>
    rw [hrun] at run
    exact run

/-- The setup keeps nothing but what it has bound. -/
theorem fill_meets {m : Memory} (hs : setup.SelfContained [])
    (h : m.Furnished total [.dictionary scope false] y) :
    (setup.fill scope m).Meets False
      (fun _ m' => m'.Furnished total [.dictionary scope false] y) fun _ => True := by
  have run := run_meets (y := y) (c := { memory := m, scope := scope }) hs
    ⟨rfl, rfl, by rwa [Stake.refs_nil, add_zero]⟩
  refine fill_meets_of_run run ?_
  rintro c ⟨given, created, -, furnished⟩
  refine (Memory.Furnished.releaseAll ?_ h.held).always fun _ _ => id
  rwa [Stake.refs_reverse, created]

end Setup

/-! ### Machines -/

/-- References to four values, taken one after the other, are references to a list of them. -/
theorem Stake.add_refs_four (x y z : Stake) (v₁ v₂ v₃ v₄ : Value) :
    0 + x + y + z + .refs [v₁] + .refs [v₂] + .refs [v₃] + .refs [v₄] =
      x + y + .refs [v₁, v₂, v₃, v₄] + z := by
  rw [refs_cons v₁, refs_cons v₂, refs_cons v₃]
  abel

namespace Machine

variable {α : Type} {total : Option ℕ} {scopes : List Value} {y : Stake} {μ : Memory}
  {setup : Setup α} {options : Options}

theorem defineBuiltins_meets {scope : Handle} {writable : Bool} (builtins : List Builtin)
    (h : μ.Furnished total scopes y) (hs : .dictionary scope writable ∈ scopes) :
    (defineBuiltins scope builtins μ).Meets False (fun _ μ' => μ'.Furnished total scopes y)
      fun _ => True := by
  induction builtins generalizing μ with
  | nil => exact h
  | cons b rest ih =>
    refine Action.meets_bind ((h.define hs (Stake.knows_of_handle?_none rfl)).mono
      (fun _ _ => id) fun _ _ => trivial) ?_
    exact fun _ _ h' => ih h'

/-- What a host knows of a machine it has created: it is sound, it holds all there is, and the
arrays there are have been built by the setup and are charged to the machine itself. -/
structure Fresh (Γ : Charter) (options : Options) (m : Machine) : Prop where
  sound : m.Sound Γ 0 0
  total : Γ.total = options.maxMemory
  permanent : Γ.permanent = m.scopes.items
  built : ∀ i, Γ.built i ↔ ∃ s, m.memory.heap.object? i = some (.array s)
  charged : ∀ i s, m.memory.heap.object? i = some (.array s) → s.reserve.account = .system
  idle : m.calls.frames = []
  settings : m.options = options

/-- A machine whose scopes are all there is, but for the arrays of the setup. -/
theorem fresh_of_furnished {m : Machine} (supplies : Supply → Prop)
    (hsupplies : ∀ s v rest, supplies s → s.next? = some (v, rest) → supplies rest)
    (h : m.memory.Furnished m.options.maxMemory m.scopes.items m.stake)
    (four : m.scopes.items.length = permanentScopes) (idle : m.calls.frames = [])
    (sized : m.operands.Sized ∧ m.calls.reserve.Fits 0 ∧ m.scopes.Sized)
    (accounts : m.operands.reserve.account = .system ∧ m.calls.reserve.account = .system ∧
      m.scopes.reserve.account = .system)
    (dictionaries : ∀ v ∈ m.scopes.items, v.kind = .dictionary) :
    ∃ Γ : Charter, Γ.supplies = supplies ∧ m.Fresh Γ m.options := by
  obtain ⟨present, held, σ, hb, equips⟩ := h
  let Γ : Charter :=
    { total := m.options.maxMemory
      permanent := m.scopes.items
      four := four
      distinct := equips.distinct
      built := fun i => ∃ s, m.memory.heap.object? i = some (.array s)
      supplies := supplies
      supplies_next := hsupplies }
  have charged (i : Handle) (s : Sequence) (ho : m.memory.heap.object? i = some (.array s)) :
      s.reserve.account = .system := by
    obtain ⟨c, hc, -⟩ := Heap.exists_cell_of_object? ho
    have label := (hb.labelled i _ ho).label
    rcases equips.live i (by simp [hc]) with hl | ⟨hl, -⟩
    · exact congrArg Label.account (label.trans hl)
    · cases congrArg Label.kind (label.trans hl)
  refine ⟨Γ, rfl, ?_, rfl, rfl, fun _ => Iff.rfl, charged, idle, rfl⟩
  have classified : m.memory.Classified Γ σ (m.stake + 0) := by
    refine ⟨fun i hi => ?_, fun i hi hl => ?_, fun i hi hl => ?_, equips.scopes⟩
    · rcases equips.live i hi with hl | ⟨hl, -⟩
      · simp [hl]
      · simp [hl]
    · rcases equips.live i hi with hl' | ⟨-, hv⟩
      · rw [hl] at hl'
        cases hl'
      · exact .inr hv
    · obtain ⟨c, hc⟩ := Option.ne_none_iff_exists'.1 hi
      obtain ⟨o, ho⟩ := present.exists_object hc
      have label := (hb.labelled i o ho).label
      rw [hl] at label
      cases o with
      | array s => exact ⟨s, ho⟩
      | dictionary d => cases congrArg Label.kind label
  exact {
    memory := ⟨present, σ, by rwa [add_zero], classified⟩
    depth := Nat.zero_le _
    operands := sized.1
    calls := by simpa [CallStack.length, idle] using sized.2.1
    scopes := sized.2.2
    accounts := accounts
    dictionaries := dictionaries
    permanent := List.suffix_rfl
    supplied := by simp [idle] }

theorem assemble_meets (supplies : Supply → Prop)
    (hsupplies : ∀ s v rest, supplies s → s.next? = some (v, rest) → supplies rest)
    (hs : setup.SelfContained []) (h : μ.Furnished options.maxMemory [] 0) :
    (assemble options setup μ).Meets False
      (fun r _ => ∃ Γ : Charter, Γ.supplies = supplies ∧ r.1.Fresh Γ options) fun _ => True := by
  refine Action.meets_bind (h.sequence ..) ?_
  rintro operands μ₁ ⟨⟨-, account₁, sized₁⟩, h₁⟩
  refine Action.meets_bind h₁.callStack ?_
  rintro calls μ₂ ⟨⟨idle, account₂, fits₂⟩, h₂⟩
  refine Action.meets_bind (h₂.sequence ..) ?_
  rintro empty μ₃ ⟨⟨none, account₃, sized₃⟩, h₃⟩
  refine Action.meets_bind (h₃.newDictionary false _) ?_
  intro host μ₄ h₄
  refine Action.meets_bind (Setup.fill_meets hs h₄) ?_
  intro provided μ₅ h₅
  refine Action.meets_bind (h₅.newDictionary false _) ?_
  intro system μ₆ h₆
  refine Action.meets_bind (defineBuiltins_meets Builtin.all h₆ List.mem_cons_self) ?_
  intro _ μ₇ h₇
  refine Action.meets_bind (h₇.newDictionary true _) ?_
  intro common μ₈ h₈
  refine Action.meets_bind (h₈.newDictionary true _) ?_
  intro user μ₉ h₉
  -- from here on the four dictionaries are what the creator holds
  rw [Stake.add_refs_four] at h₉
  refine Action.meets_bind (Memory.Furnished.openScopes none h₉) ?_
  rintro scopes μ' ⟨⟨hitems, account, sized⟩, h'⟩
  let m : Machine :=
    { options := options, memory := μ', operands := operands, calls := calls, scopes := scopes }
  refine fresh_of_furnished (m := m) supplies hsupplies ?_ ?_ idle ⟨sized₁, fits₂, sized⟩
    ⟨account₁, account₂, account.trans account₃⟩ ?_
  · have : m.stake = operands.stake + calls.stake + scopes.stake := add_zero _
    rw [this]
    exact hitems ▸ h'
  · exact congrArg List.length hitems
  · change ∀ v ∈ scopes.items, v.kind = .dictionary
    rw [hitems]
    simp only [List.mem_reverse, List.forall_mem_cons]
    exact ⟨rfl, rfl, rfl, rfl, fun _ h => by cases h⟩

/-- A new machine has no work, no exception is pending, and its scopes are the user's, the global one,
the system's and the host's, from the top down. -/
theorem layout_of_create {m : Machine} {a : α} (hm : create options setup = .done (m, a) μ) :
    (m.calls.frames = [] ∧ m.pending = none) ∧ ∃ host system common user : Handle,
      m.scopes.items = [.dictionary user true, .dictionary common true, .dictionary system false,
        .dictionary host false] := by
  have any {β : Type} (x : Action Memory β) (μ : Memory) :
      (x μ).Meets True (fun _ _ => True) fun _ => True :=
    Outcome.meets_of_forall (fun _ _ => trivial) fun _ => trivial
  have created : (create options setup).Meets True
      (fun r _ => (r.1.calls.frames = [] ∧ r.1.pending = none) ∧
        ∃ host system common user : Handle, r.1.scopes.items = [.dictionary user true,
          .dictionary common true, .dictionary system false, .dictionary host false])
      fun _ => True := by
    refine Action.meets_bind (any _ _) fun operands μ _ => ?_
    refine Action.meets_bind (P := fun calls _ => calls.frames = []) ?_ fun calls μ hcalls => ?_
    · exact Action.meets_bind (any _ _) fun _ _ _ => rfl
    refine Action.meets_bind (P := fun empty _ => empty.items = []) ?_ fun empty μ hempty => ?_
    · exact Action.meets_bind (any _ _) fun _ _ _ => rfl
    refine Action.meets_bind (any _ _) fun host μ _ => ?_
    refine Action.meets_bind (any _ _) fun provided μ _ => ?_
    refine Action.meets_bind (any _ _) fun system μ _ => ?_
    refine Action.meets_bind (any _ _) fun _ μ _ => ?_
    refine Action.meets_bind (any _ _) fun common μ _ => ?_
    refine Action.meets_bind (any _ _) fun user μ _ => ?_
    refine Action.meets_bind (Action.meets_ensuring (empty.exchange_items 0 _ μ)
      (fun scopes μ items => (any _ μ).mono (fun _ _ _ => items) fun _ _ => trivial)
      fun μ _ => any _ μ) fun scopes μ items => ?_
    rw [hempty] at items
    exact ⟨⟨hcalls, rfl⟩, host, system, common, user, items⟩
  rw [hm] at created
  exact created

/-- A new machine has no work, and no exception is pending. -/
theorem idle_of_create {m : Machine} {a : α} (hm : create options setup = .done (m, a) μ) :
    m.calls.frames = [] ∧ m.pending = none := (layout_of_create hm).1

/-- **Creating a machine** violates no invariant, and a machine that has been created is sound. -/
theorem create_meets (supplies : Supply → Prop)
    (hsupplies : ∀ s v rest, supplies s → s.next? = some (v, rest) → supplies rest)
    (hcapacity : ∀ t, options.maxMemory = some t → t ≤ Size.limit) (hs : setup.SelfContained []) :
    (create options setup).Meets False
      (fun r _ => ∃ Γ : Charter, Γ.supplies = supplies ∧ r.1.Fresh Γ options) fun _ => True := by
  refine assemble_meets supplies hsupplies hs (Memory.furnished_empty ?_ _)
  cases hmax : options.maxMemory with
  | none => exact le_rfl
  | some t => exact hcapacity t hmax

end Machine

end StackScript
