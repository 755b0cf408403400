import StackScript.Proofs.Machine.Lifelines

/-!
# The continuation protocol is sound

Whatever the operators of a host are made of, and however the host drives the machine, the
continuation states of every call frame form a path of the protocol that begins with
`Continuation.unknown`, ends with `Continuation.pop` if it gets there, and carries steps in their
ranges only; a move the protocol does not have is refused, with an internal exception, and nothing
changes (`continuations_follow_protocol`).
-/

namespace StackScript

variable {χ : Type}

/-! ### Lifelines -/

/-- The continuation states of the frame that is last to have `k` frames below it, since it was
queued, the last one first. A state that stays from one moment to the next is listed once. -/
def lifeline (k : ℕ) : List Machine → List Continuation
  | [] => []
  | m :: earlier =>
    match m.calls.frame? k with
    | none => []
    | some f =>
      if (lifeline k earlier).head? = some f.state then lifeline k earlier
      else f.state :: lifeline k earlier

section Lifeline

variable {k : ℕ} {m : Machine} {earlier moments : List Machine} {c : Continuation}

theorem lifeline_of_frame?_none (h : m.calls.frame? k = none) :
    lifeline k (m :: earlier) = [] := by
  rw [lifeline, h]

theorem head?_lifeline (earlier : List Machine) {f : Frame} (h : m.calls.frame? k = some f) :
    (lifeline k (m :: earlier)).head? = some f.state := by
  rw [lifeline, h]
  dsimp only
  split
  · assumption
  · rfl

/-- A history of a machine: each moment follows the one before, and in the first there is no
work. -/
structure History (moments : List Machine) : Prop where
  chain : moments.IsChain fun later earlier => earlier.calls.Proceeds later.calls
  origin : ∀ m, moments.getLast? = some m → m.calls.frames = []

theorem History.tail (h : History (m :: earlier)) : History earlier where
  chain := h.chain.tail
  origin m' hm' := h.origin m' (by
    cases earlier with
    | nil => cases hm'
    | cons m₁ rest => rwa [List.getLast?_cons_cons])

/-- Up to an earlier moment. -/
theorem History.suffix {τ : List Machine} (h : History moments) (hτ : τ <:+ moments) :
    History τ := by
  obtain ⟨later, rfl⟩ := hτ
  induction later with
  | nil => exact h
  | cons m later ih => exact ih h.tail

/-- What is listed of a frame at a moment is a move from what was listed before, or the first
thing. -/
theorem History.lifeline_cons (h : History (m :: earlier)) {f : Frame}
    (hf : m.calls.frame? k = some f) :
    lifeline k (m :: earlier) = lifeline k earlier ∨
      (lifeline k earlier = [] ∧ f.state = .unknown ∨
        ∃ c before, lifeline k earlier = c :: before ∧ c.Moves f.state) ∧
      lifeline k (m :: earlier) = f.state :: lifeline k earlier := by
  -- the frame has just been queued, or it moves, or stays, from what it was at the moment before
  cases earlier with
  | nil =>
    have empty := h.origin m rfl
    rw [CallStack.frame?_eq_getElem?, empty] at hf
    cases hf
  | cons m' rest =>
    have proceeds := (List.isChain_cons_cons.1 h.chain).1 k f hf
    rw [lifeline, hf]
    dsimp only
    split
    · exact .inl rfl
    · rename_i hne
      refine .inr ⟨?_, rfl⟩
      cases hf' : m'.calls.frame? k with
      | none =>
        rw [hf'] at proceeds
        exact .inl ⟨lifeline_of_frame?_none hf', proceeds⟩
      | some f' =>
        rw [hf'] at proceeds
        have head := head?_lifeline rest hf'
        cases hl : lifeline k (m' :: rest) with
        | nil => rw [hl] at head; cases head
        | cons c before =>
          rw [hl] at head hne
          obtain rfl := Option.some.inj head
          refine .inr ⟨_, before, rfl, proceeds.resolve_left fun same => hne ?_⟩
          rw [same]
          rfl

/-- **A lifeline is a path of the protocol.** -/
theorem History.lifeline_isChain (h : History moments) (k : ℕ) :
    (lifeline k moments).IsChain fun later earlier => earlier.Moves later := by
  induction moments with
  | nil => exact .nil
  | cons m earlier ih =>
    cases hf : m.calls.frame? k with
    | none => rw [lifeline_of_frame?_none hf]; exact .nil
    | some f =>
      rcases h.lifeline_cons hf with same | ⟨step, hcons⟩
      · rw [same]; exact ih h.tail
      · rw [hcons]
        have path := ih h.tail
        rcases step with ⟨hnil, -⟩ | ⟨c, before, hc, moves⟩
        · rw [hnil]; exact List.isChain_singleton _
        · rw [hc] at path ⊢
          exact List.isChain_cons_cons.2 ⟨moves, path⟩

/-- It begins before the frame is dispatched. -/
theorem History.getLast?_lifeline (h : History moments) (hc : (lifeline k moments).getLast? = some c) :
    c = .unknown := by
  induction moments with
  | nil => cases hc
  | cons m earlier ih =>
    cases hf : m.calls.frame? k with
    | none => rw [lifeline_of_frame?_none hf] at hc; cases hc
    | some f =>
      rcases h.lifeline_cons hf with same | ⟨step, hcons⟩
      · exact ih h.tail (same ▸ hc)
      · rw [hcons] at hc
        rcases step with ⟨hnil, first⟩ | ⟨c', before, hc', -⟩
        · rw [hnil] at hc
          exact (Option.some.inj hc).symm.trans first
        · rw [hc', List.getLast?_cons_cons, ← hc'] at hc
          exact ih h.tail hc

/-- Nothing comes after the last state. -/
theorem History.pop_not_mem (h : History moments) (k : ℕ) :
    Continuation.pop ∉ (lifeline k moments).tail := by
  have path := h.lifeline_isChain k
  generalize lifeline k moments = states at path
  induction states with
  | nil => simp
  | cons later earlier ih =>
    cases earlier with
    | nil => simp
    | cons c before =>
      obtain ⟨moves, path⟩ := List.isChain_cons_cons.1 path
      rw [List.tail_cons]
      rintro (_ | ⟨_, hmem⟩)
      · exact moves.ne_pop rfl
      · exact ih path hmem

/-- Every continuation state of a history carries a step in its range. -/
theorem History.isValid (h : History moments) {f : Frame} (hm : m ∈ moments)
    (hf : f ∈ m.calls.frames) : f.state.isValid = true := by
  obtain ⟨k, hk⟩ := CallStack.mem_iff_frame?.1 hf
  obtain ⟨later, earlier, rfl⟩ := List.append_of_mem hm
  have h := h.suffix (List.suffix_append later (m :: earlier))
  -- the state is at the head of a path, so something moves to it, or it is the first
  have path := h.lifeline_isChain k
  have head := head?_lifeline earlier hk
  cases hl : lifeline k (m :: earlier) with
  | nil => rw [hl] at head; cases head
  | cons c before =>
    rw [hl] at head path
    obtain rfl := Option.some.inj head
    cases before with
    | nil =>
      have first := h.getLast?_lifeline (k := k) (c := f.state) (by rw [hl]; rfl)
      rw [first]
      rfl
    | cons c before => exact (List.isChain_cons_cons.1 path).1.isValid

end Lifeline

/-! ### The protocol -/

/-- The frames of a history keep to the protocol at every moment `τ`. -/
structure KeepsProtocol (moments : List Machine) : Prop where
  present : ∀ m earlier, m :: earlier <:+ moments → ∀ k f, m.calls.frame? k = some f →
    (lifeline k (m :: earlier)).head? = some f.state
  first : ∀ τ, τ <:+ moments → ∀ k c, (lifeline k τ).getLast? = some c → c = .unknown
  path : ∀ τ, τ <:+ moments → ∀ k,
    (lifeline k τ).IsChain fun later earlier => earlier.Moves later
  last : ∀ τ, τ <:+ moments → ∀ k, Continuation.pop ∉ (lifeline k τ).tail
  running : ∀ m ∈ moments, ∀ f ∈ m.calls.frames, ∀ step, f.state = .running step →
    0 < step.toInt
  popping : ∀ m ∈ moments, ∀ f ∈ m.calls.frames, ∀ step, f.state = .popping step →
    step.toInt < -1

theorem History.keepsProtocol {moments : List Machine} (h : History moments) :
    KeepsProtocol moments where
  present _ earlier _ _ _ hf := head?_lifeline earlier hf
  first _ hτ _ _ := (h.suffix hτ).getLast?_lifeline
  path _ hτ := (h.suffix hτ).lifeline_isChain
  last _ hτ := (h.suffix hτ).pop_not_mem
  running m hm f hf step hstep := by
    have valid := h.isValid hm hf
    rw [hstep] at valid
    exact of_decide_eq_true valid
  popping m hm f hf step hstep := by
    have valid := h.isValid hm hf
    rw [hstep] at valid
    exact of_decide_eq_true valid

/-- A new machine has no work. -/
theorem Machine.frames_of_create {α : Type} {options : Options} {setup : Setup α} {m : Machine}
    {a : α} {μ : Memory} (hm : Machine.create options setup = .done (m, a) μ) :
    m.calls.frames = [] := (idle_of_create hm).1

theorem Followed.faithful {natives : Natives χ} {m₀ : Machine} {w : Watched χ}
    (hm₀ : m₀.calls.frames = []) (h : Followed natives m₀ w) : w.Faithful := by
  induction h with
  | start host =>
    refine ⟨rfl, List.isChain_singleton m₀, fun m hm => Option.some.inj hm ▸ hm₀, ?_⟩
    intro f hf
    change f ∈ m₀.calls.frames at hf
    rw [hm₀] at hf
    cases hf
  | act c _ hc ih => exact (c.watch_faithful ih).of_state? hc

/-- A move that the protocol does not have is refused. -/
theorem Machine.setState_refuses {m : Machine} {k : ℕ} {f : Frame} {next : Continuation}
    (hf : m.calls.frame? k = some f) (h : ¬ f.state.Moves next) :
    Machine.setState k next m = .raised (Cause.illegalTransition f.state next).exception m := by
  rw [setState, Action.get_bind, frame_bind hf, if_neg (mt Continuation.canBecome_iff.1 h)]
  rfl

/-- **The continuation protocol is sound**, for every machine a host can create, all operators a
host can have, and all a host can do; and a request for a move the protocol does not have changes
nothing. -/
theorem continuations_follow_protocol {α : Type} {options : Options} {setup : Setup α}
    {m₀ : Machine} {a : α} {μ : Memory} (hm₀ : Machine.create options setup = .done (m₀, a) μ)
    (natives : Natives χ) :
    (∀ w, Followed natives m₀ w → w.moments.head? = some w.machine ∧ KeepsProtocol w.moments) ∧
      ∀ (m : Machine) (k : ℕ) (f : Frame) (next : Continuation), m.calls.frame? k = some f →
        ¬ f.state.Moves next → ∃ e, (Request.setState next).perform (some k) m = .raised e m ∧
          e.condition = .internal := by
  constructor
  · intro w h
    have faithful := h.faithful (Machine.frames_of_create hm₀)
    exact ⟨faithful.present, History.keepsProtocol ⟨faithful.chain, faithful.origin⟩⟩
  · intro m k f next hf h
    exact ⟨_, Machine.setState_refuses hf h, rfl⟩

/-- An operator that goes through every kind of state, tries a move it may not make, and fails on
its way out. -/
def Native.wanderer : Native Unit :=
  .stateless [] fun _ => do
    match ← Operation.state with
    | .firstCall => Operation.setState (.running (.ofInt 1))
    | .running _ => Operation.setState .callBeforePop
    | .callBeforePop =>
      let _ ← (Operation.setState (.running (.ofInt 5))).attempt
      Operation.setState Operation.finalizing
    | _ => Program.fail .stopping

/-- What a host sees that queues such an operator and does some cycles. -/
def Watched.wandering (budget : ℕ) : Option (Watched Unit) :=
  match Machine.create {} Setup.table with
  | .done (m, _) _ =>
    let natives : Natives Unit := fun _ => .wanderer
    let call := HostAct.request (.call (.operator (.native "wander" false)))
    ((call.watch natives { session := { machine := m, host := () }, moments := [m] }).state?).bind
      fun w => ((HostAct.run budget).watch natives w).state?
  | _ => none

/-- Its frame has gone through every kind of state when it has failed, and waits to be removed. -/
theorem continuations_follow_protocol_of_wanderer :
    ∃ w : Watched Unit, lifeline 0 w.moments =
      [.pop, .popping (.ofInt (-2)), .callBeforePop, .running (.ofInt 1), .firstCall, .unknown] ∧
        w.machine.condition = some .stop ∧ KeepsProtocol w.moments := by
  have facts : (Watched.wandering 4).map (fun w => (lifeline 0 w.moments, w.machine.condition)) =
      some ([.pop, .popping (.ofInt (-2)), .callBeforePop, .running (.ofInt 1), .firstCall,
        .unknown], some .stop) := by decide +kernel
  obtain ⟨w, hw, hfacts⟩ := Option.map_eq_some_iff.1 facts
  obtain ⟨hlifeline, hcondition⟩ := Prod.mk.inj hfacts
  refine ⟨w, hlifeline, hcondition, ?_⟩
  unfold Watched.wandering at hw
  split at hw
  · rename_i m a μ hm
    obtain ⟨w₁, hcall, hrun⟩ := Option.bind_eq_some_iff.1 hw
    exact ((continuations_follow_protocol hm _).1 w (.act _ (.act _ (.start ()) hcall) hrun)).2
  · cases hw

end StackScript
