import StackScript.Proofs.Comparison.Pacing
import StackScript.Proofs.Machine.Waiting

/-!
# Work that provides values

A text, a list of values and a supply are work that provides values, none of which refers to a container
(`Work.Provides`).  When such work is queued, its frame is the only one, and gives these values.  That of a
list is a block which has just been created, and all else is as it was (`Session.Queues`).

Work is *afforded* if no allocation is refused when it is queued, nor in any cycle after that
(`Session.Affords`).  Then queueing it is done, and leaves an unhindered session (`Unhindered.queues`).
-/

namespace StackScript

open StackScript.Action Cells

/-! ### What work provides -/

namespace Supply

variable {p : Supply}

/-- No container will be among the values, however long it is supplied. -/
def Harmless (p : Supply) : Prop :=
  (∀ v ∈ p.upcoming, v.handle? = none) ∧ ∀ v, p.forever = some v → v.handle? = none

theorem Harmless.of_next (h : p.Harmless) {v : Value} {later : Supply} (hp : p.next? = some (v, later)) :
    v.handle? = none ∧ later.Harmless := by
  unfold next? at hp
  cases hu : p.upcoming with
  | cons w rest =>
    rw [hu] at hp
    obtain ⟨rfl, rfl⟩ := Prod.mk.inj (Option.some.inj hp)
    obtain ⟨hw, hrest⟩ := List.forall_mem_cons.1 (hu ▸ h.1)
    exact ⟨hw, hrest, h.2⟩
  | nil =>
    rw [hu] at hp
    obtain ⟨w, hw, same⟩ := Option.map_eq_some_iff.1 hp
    obtain ⟨rfl, rfl⟩ := Prod.mk.inj same
    exact ⟨h.2 w hw, h⟩

theorem Harmless.plain (h : p.Harmless) : p.Plain := fun _ _ hp => (h.of_next hp).1

end Supply

/-- The data that work provides, one after the other, and the condition it fails for at the end, if for
any. -/
inductive Work.Provides : Work → List Datum → Option Condition → Prop
  | source {text : String} {ts : List Token} {k : Option Condition}
      (lexes : Text.Lexes 0 text.toList ts k) (origin : String) :
      Provides (.source text origin) (ts.map fun t => t.value.datum) k
  | values {vs : List Value} (plain : ∀ v ∈ vs, v.handle? = none) :
      Provides (.values vs) (vs.map Value.datum) none
  | supply {vs : List Value} (plain : ∀ v ∈ vs, v.handle? = none) :
      Provides (.supply { upcoming := vs }) (vs.map Value.datum) none

variable {σ τ : Cells} {work : Work} {ds : List Datum} {k : Option Condition}

/-! ### Queueing -/

namespace Machine

variable {m : Machine} {v : Value}

/-- The frame of the work has been queued, and the cells are as they were, but for that of a block made for
a list. -/
structure Enqueues (m : Machine) (work : Work) (σ : Cells) (ds : List Datum) (k : Option Condition)
    (f : Frame) (τ : Cells) (m' : Machine) : Prop where
  bare : f.Bare
  provides : f.Provides τ ds k
  becomes : m.Becomes { m.scene with frames := f :: m.calls.frames } m'
  has : m'.memory.Has τ
  thins : τ.Thins σ
  fresh : ∀ i, f.value.handle? = some i → σ i = none
  same : f.value.handle? = none → τ = σ
  plain : (∀ vs, work ≠ .values vs) → f.value.handle? = none

section

variable (growing : m.Growing) (hσ : σ.Counted) (h : m.memory.Has σ)
include growing hσ h

/-- A frame of a plain value is queued. -/
theorem pushFrame_enqueues {f : Frame} (bare : f.Bare) (hf : f.Provides σ ds k)
    (plain : f.value.handle? = none) :
    (onCalls (fun c => c.push f) m).Grants fun _ m' => m.Enqueues work σ ds k f σ m' :=
  ((pushFrame_grants growing f).also (pushFrame_has_plain hσ h plain)).mono
    fun _ _ ⟨becomes, has⟩ => {
      bare := bare
      provides := hf
      becomes := becomes.1
      has := has
      thins := .refl σ
      fresh := fun i hi => by rw [plain] at hi; cases hi
      same := fun _ => rfl
      plain := fun _ => plain }

/-- A block is made, and queued. -/
theorem execute_values_enqueues (hw : m.memory.heap.WellFormed) {vs : List Value}
    (plain : ∀ v ∈ vs, v.handle? = none) : (execute (.values vs) m).Grants fun _ m' =>
      ∃ f τ, m.Enqueues (.values vs) σ (vs.map Value.datum) none f τ m' := by
  refine grants_bind ((createArray_grants hw .block vs).also (createArray_builds hσ h .block vs)) ?_
  rintro block m₁ ⟨⟨i, hblock, creates⟩, -, q, hq, -, i', hi', empty, has⟩
  have hi : block.handle? = some i := by rw [hblock]; rfl
  obtain rfl := Option.some.inj (hi.symm.trans hi')
  -- the items are plain, so nothing is borrowed for them
  have items : ∀ v ∈ (Object.array q).values, v.handle? = none := by
    intro v hv
    rw [Object.values, hq] at hv
    exact plain v (List.mem_reverse.1 hv)
  have cells : σ.build i (.array q) = Function.update σ i (some ⟨1, some (.array q)⟩) := by
    rw [build, lend_plain items]
  rw [cells] at has
  have counted := hσ.update i (show 0 < (⟨1, some (.array q)⟩ : Cell).count from Nat.one_pos)
  have growing₁ := creates.becomes.growing growing
  refine grants_ensuring ((pushFrame_grants growing₁ { value := block }).also
    (pushFrame_has counted has { value := block })) (raises_release block) ?_
  rintro _ m₂ ⟨⟨becomes, -⟩, has₂⟩
  have released : (release block m₂).Meets True
      (fun _ m₃ => m₃.memory.Has (Function.update σ i (some ⟨1, some (.array q)⟩))) fun _ => False :=
    meets_onMemory (Memory.release_has counted has₂)
  have given : (release block m₂).Yields
      (fun _ m₃ => m₂.Becomes m₂.scene m₃ ∧ m₂.memory.Sheds m₃.memory) fun _ _ => True :=
    release_yields m₂ block
  refine (given.and released.yields).mono ?_ fun _ _ _ => trivial
  rintro _ m₃ ⟨⟨gone, -⟩, has₃⟩
  refine ⟨{ value := block }, _, ⟨rfl, rfl⟩, .block (congrArg Value.datum hblock) rfl
    (Function.update_self ..) items ?_, ⟨?_, ?_⟩, has₃, fun j c hc => ?_, fun j hj => ?_, fun none => ?_,
    fun other => absurd rfl (other vs)⟩
  · rw [List.drop_zero, Sequence.toList, hq, List.reverse_reverse]
  · rw [gone.scene, becomes.scene, creates.becomes.scene, creates.becomes.frames]
    rfl
  · exact gone.growth.trans (becomes.growth.trans creates.becomes.growth)
  · rwa [Function.update_of_ne]
    rintro rfl
    rw [empty] at hc
    cases hc
  · exact Option.some.inj (hj.symm.trans hi) ▸ empty
  · rw [hi] at none
    cases none

/-- **Work that provides values is queued.** -/
theorem execute_enqueues (hw : m.memory.heap.WellFormed) (provides : work.Provides ds k) :
    (execute work m).Grants fun _ m' => ∃ f τ, m.Enqueues work σ ds k f τ m' := by
  cases provides with
  | @source text ts k lexes origin =>
    have whole : ((Value.code text).withSource (some (Provenance.whole origin text))).datum =
        .string (String.ofList ([] ++ text.toList)) true := by
      rw [List.nil_append, String.ofList_toList]
      rfl
    have lexes : Text.Lexes (Text.byteLength []) text.toList ts k := lexes
    exact (pushFrame_enqueues growing hσ h ⟨rfl, rfl⟩ (.text whole rfl rfl lexes rfl) rfl).mono
      fun _ _ queued => ⟨_, _, queued⟩
  | values plain => exact execute_values_enqueues growing hσ h hw plain
  | supply plain =>
    exact (pushFrame_enqueues growing hσ h ⟨rfl, rfl⟩ (.supply rfl rfl plain rfl) rfl).mono
      fun _ _ queued => ⟨_, _, queued⟩

end

end Machine

/-! ### Sessions -/

namespace Session

variable {χ : Type} {s t : Session χ} {f : Frame}

/-- No allocation is refused while the work is done, however long that takes. -/
structure Affords (work : Work) (s : Session χ) : Prop where
  queued : (Machine.execute work s.machine).overflows = false
  granted : ∀ t, (onMachine (Machine.execute work) s).state? = some t → ∀ k, t.starvesWithin k = false

/-- Work with nothing else to do: its frame is the only one, and gives what it provides.  The cells are as
they were, but for that of a block made for it. -/
structure Queues (work : Work) (ds : List Datum) (k : Option Condition) (f : Frame) (s t : Session χ) :
    Prop where
  unhindered : t.Unhindered
  make : s.machine.SameMake t.machine
  host : t.host = s.host
  bare : f.Bare
  provides : f.Provides t.machine.memory.heap.cell? ds k
  scene : t.machine.scene = { s.machine.scene with frames := [f] }
  thins : Cells.Thins t.machine.memory.heap.cell? s.machine.memory.heap.cell?
  fresh : ∀ i, f.value.handle? = some i → s.machine.memory.heap.cell? i = none
  same : f.value.handle? = none → t.machine.memory.heap.cell? = s.machine.memory.heap.cell?
  plain : (∀ vs, work ≠ .values vs) → f.value.handle? = none

/-- A session in which no work is left is unhindered, if its machine is sound and its stacks can grow. -/
theorem unhindered_of_idle {Γ : Charter} {x : Stake} (sound : s.machine.Sound Γ 0 x)
    (growing : s.machine.Growing) (idle : s.machine.calls.frames = []) : s.Unhindered := by
  have unsupplied : ∀ f ∈ s.machine.calls.frames, f.supply = none := by simp [idle]
  obtain ⟨Γ', none, sound⟩ := sound.unsupplied unsupplied
  exact ⟨Γ', x, fun p hp => absurd hp (none p), sound, growing, fun refused => refused.ne idle⟩

/-- **Work that is afforded is queued.** -/
theorem Unhindered.queues (hs : s.Unhindered) (idle : s.machine.calls.frames = [])
    (provides : work.Provides ds k) (affords : s.Affords work) :
    ∃ f t, onMachine (Machine.execute work) s = .done () t ∧ Queues work ds k f s t := by
  obtain ⟨Γ, x, -, sound, growing, -⟩ := hs
  -- without frames no supply is at work, so that the charter may be changed
  obtain ⟨Γ', allowed, sound⟩ := sound.recharter (fun _ _ _ (h : Supply.Harmless _) hp => (h.of_next hp).2)
    fun f hf => by rw [idle] at hf; cases hf
  obtain ⟨-, σ, hb, -⟩ := sound.memory
  have known : (Machine.execute work s.machine).Meets False
      (fun _ m => m.Sound Γ' 0 x ∧ s.machine.Steady 0 m) fun m => m.Sound Γ' 0 x ∧ s.machine.Steady 0 m := by
    refine Machine.execute_meets sound ?_ ?_
    · rintro vs rfl v hv
      cases provides with
      | values plain => exact Machine.knows_of_handle?_none (plain v hv)
    · rintro p rfl
      rw [allowed]
      cases provides with
      | supply plain => exact ⟨plain, nofun⟩
  have make := Outcome.Meets.and
    (Action.Respects.respects (R := Machine.SameShape) (x := Machine.execute work) s.machine)
    (Action.Respects.respects (R := Machine.SameOptions) (x := Machine.execute work) s.machine)
  obtain ⟨⟨⟩, m, done, ⟨f, τ, queued⟩, sound', -⟩ :=
    (Machine.execute_enqueues growing hb.positive hb.has sound.wellFormed provides).done known
      affords.queued
  rw [done] at make
  have queue : onMachine (Machine.execute work) s = .done () { s with machine := m } := by
    unfold onMachine Action.zoom
    rw [done]
  have cells : m.memory.heap.cell? = τ := queued.has.cells
  refine ⟨f, { s with machine := m }, queue,
    ⟨Γ', x, fun p hp => by rw [allowed] at hp; exact hp.plain, sound', queued.becomes.growing growing,
      not_starvesBefore (affords.granted _ (by rw [queue]; rfl))⟩,
    ⟨make.1, make.2⟩, rfl, queued.bare, cells ▸ queued.provides, ?_, cells ▸ queued.thins, queued.fresh,
    fun plain => cells.trans (queued.same plain), queued.plain⟩
  rw [queued.becomes.scene, idle]

/-! ### What comes of the work -/

/-- The work is queued, and the run completes. -/
def Executes (work : Work) (s t : Session χ) : Prop :=
  ∃ u, onMachine (Machine.execute work) s = .done () u ∧ u.Completes t

/-- The work is queued, and the run goes on for ever. -/
def Diverges (work : Work) (s : Session χ) : Prop :=
  ∃ u, onMachine (Machine.execute work) s = .done () u ∧ u.RunsForever

/-- **Work comes to one end at most.** -/
theorem Executes.unique {u : Session χ} (h : s.Executes work t) (h' : s.Executes work u) : t = u := by
  obtain ⟨v, hv, completes⟩ := h
  obtain ⟨v', hv', completes'⟩ := h'
  obtain ⟨-, rfl⟩ := Outcome.done.inj (hv.symm.trans hv')
  exact completes.unique completes'

theorem Executes.not_diverges (h : s.Executes work t) : ¬ s.Diverges work := by
  rintro ⟨v', hv', forever⟩
  obtain ⟨v, hv, completes⟩ := h
  obtain ⟨-, rfl⟩ := Outcome.done.inj (hv.symm.trans hv')
  exact completes.not_runsForever forever

/-- The session the work has come to, if it has by then. -/
def outcome (work : Work) (budget : ℕ) (s : Session χ) : Option (Session χ) :=
  match onMachine (Machine.execute work) s with
  | .done _ t =>
    match runFrom Natives.none 0 budget t with
    | .done _ u => if u.machine.calls.isEmpty then some u else none
    | _ => none
  | _ => none

theorem executes_of_outcome {budget : ℕ} (h : s.outcome work budget = some t) : s.Executes work t := by
  unfold outcome at h
  cases hq : onMachine (Machine.execute work) s with
  | raised e u | broken b => rw [hq] at h; cases h
  | done a u =>
    rw [hq] at h
    dsimp only at h
    cases hr : runFrom Natives.none 0 budget u with
    | raised e v | broken b => rw [hr] at h; cases h
    | done n v =>
      rw [hr] at h
      dsimp only at h
      split at h
      · rename_i idle
        obtain rfl := Option.some.inj h
        exact ⟨u, hq, List.isEmpty_iff.1 idle, budget, n, hr⟩
      · cases h

/-- No work is left when it has been queued and so many cycles have been done, and nothing has been
refused. -/
def bears (work : Work) (budget : ℕ) (s : Session χ) : Bool :=
  match onMachine (Machine.execute work) s with
  | .done _ t => t.concludes budget
  | _ => false

theorem affords_of_bears {budget : ℕ} (h : s.bears work budget = true) : s.Affords work := by
  unfold bears at h
  cases hq : onMachine (Machine.execute work) s with
  | raised e u | broken b => rw [hq] at h; cases h
  | done a u =>
    rw [hq] at h
    refine ⟨?_, fun t ht => ?_⟩
    · unfold onMachine Action.zoom at hq
      cases hx : Machine.execute work s.machine with
      | done b m => rfl
      | raised e m | broken b => rw [hx] at hq; cases hq
    · rw [hq] at ht
      exact Option.some.inj ht ▸ granted_of_concludes h

/-! ### Sessions that set out together -/

variable {R : Renaming} {g : Frame} {below : List Frame} {es : List Datum} {l : Option Condition}
  {u v : Session χ}

theorem Queues.frames (h : Queues work ds k f s t) : t.machine.calls.frames = [f] :=
  congrArg Scene.frames h.scene

/-- **Sessions set out together**: work that gives some values, and work that gives these first, are queued
in one session. -/
theorem Queues.paces {work' : Work} (left : Queues work ds k f s t) (plain : f.value.handle? = none)
    (right : Queues work' (ds ++ es) l g s u) (hp : s.machine.pending = none) :
    ∃ R, Paces R f [g] ds es k l t u := by
  have empty : ∀ i, g.value.handle? = some i → ¬ t.machine.memory.heap.Live i := by
    intro i hi live
    exact live (left.same plain ▸ right.fresh i hi)
  refine Paces.exists_onward (R := Renaming.same)
    ((Machine.Kindred.refl s.machine).of_make left.make right.make) left.unhindered right.unhindered
    (left.host.trans right.host.symm) ?_ ?_ left.bare plain left.provides ?_
    ⟨[], [], left.frames, right.frames, fun _ => .nil⟩
  · rintro i _ hi - rfl
    obtain ⟨c, hc⟩ := Option.ne_none_iff_exists'.1 hi
    have kept : u.machine.memory.heap.cell? i = t.machine.memory.heap.cell? i := by
      rw [left.same plain] at hc ⊢
      rw [hc, right.thins i c hc]
    rw [kept]
    exact Renaming.cells_same _ i
  · rw [left.scene, right.scene]
    exact ⟨Renaming.all_values_same _, Renaming.all_values_same _,
      by rw [show s.machine.scene.pending = none from hp]; exact .none, rfl⟩
  · refine .frame right.bare right.provides fun j hj i ⟨hi, same⟩ => empty j hj ?_
    rwa [← show i = j from same]

/-- **The rest of a text is given by another one**, which is queued when the first session has completed
without an exception. -/
theorem Paces.continued (h : Paces R f below [] es none l s t) (rests : s.machine.calls.length = 1)
    (ended : s.Closes none u) (unraised : u.machine.pending = none) (queued : Queues work es k g u v)
    (plain : g.value.handle? = none) : ∃ R', Paces R' g below es [] k l v t := by
  have old := h.sessions.machine
  -- nothing is pending in the first session, and so in the second
  have calm : s.machine.condition = none := by
    have same := ended.condition
    rw [Machine.condition, Machine.exception, unraised] at same
    cases hc : s.machine.condition with
    | none => rfl
    | some c => rw [hc] at same; cases same
  have pending (m : Machine) (hm : m.condition = none) : m.pending = none :=
    Option.map_eq_none_iff.1 (Option.map_eq_none_iff.1 hm)
  have depth : u.machine.blockDepth = s.machine.blockDepth := by
    rw [ended.blockDepth, if_neg (by simp)]
  obtain ⟨-, hframes⟩ := h.bottom rests
  refine Paces.exists_onward (R := R)
    ((Renaming.kindred_of_machines old).of_make (ended.make.trans queued.make) (.refl _))
    queued.unhindered h.right ?_ ?_ ?_ queued.bare plain queued.provides ?_
    ⟨[], [], queued.frames, hframes, fun _ => .nil⟩
  · rw [queued.host, ended.host, h.sessions.host]
  · intro i j hi hj hij
    rw [Heap.Live, queued.same plain] at hi
    rw [queued.same plain]
    exact Renaming.cells_of_thins old.memory ended.thins (.refl _) hi hj hij
  · have alike := Renaming.scenes_of_machines old
    rw [queued.scene]
    refine ⟨?_, ?_, ?_, depth.trans alike.blockDepth⟩
    · rw [show u.machine.scene.operands = s.machine.scene.operands from ended.operands]
      exact alike.operands
    · rw [show u.machine.scene.scopes = s.machine.scene.scopes from ended.scopes]
      exact alike.scopes
    · rw [show u.machine.scene.pending = none from unraised,
        show t.machine.scene.pending = none from pending _ (old.condition ▸ calm)]
      exact .none
  · rw [List.append_nil]
    exact h.awaits.mono fun _ _ hij => hij.2

end Session

end StackScript
