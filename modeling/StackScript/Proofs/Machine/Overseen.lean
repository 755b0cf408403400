import StackScript.Proofs.Machine.Custody
import StackScript.Proofs.Machine.Watched
import StackScript.Proofs.Operator.Candid

/-!
# Watched sessions and permissions

A watched session of builtin operators is *overseen* if the machines it has passed through, with what
was held meanwhile, are a record (`Custody.Record`).  Each request of a builtin and each move of the
machine itself adds one custody to it (`Watched.note_overseen`), so a session stays overseen whatever
texts its host queues and however it drives the machine (`HostCall.watch_overseen`).
-/

namespace StackScript

variable {χ α : Type} {Γ : Charter} {n k i : ℕ} {held params : List Value}

namespace Custody

variable {c c' : Custody} {earlier : List Custody}

/-- The custody is sound, with `n` frames to be relied on, and comes from `c` by one move. -/
structure Succeeds (Γ : Charter) (n : ℕ) (c c' : Custody) : Prop where
  sound : c'.machine.Sound Γ n (.refs c'.held)
  moved : ∃ created, c.machine.Moves c.held created c'.machine ∧
    ∀ v ∈ c'.held, v ∈ created ∨ c.machine.Carries c.held v.datum

theorem Record.extend (h : Record Γ (c :: earlier)) (hc : c.Succeeds Γ n c') :
    Record Γ (c' :: c :: earlier) := by
  obtain ⟨created, moves, hheld⟩ := hc.moved
  have sound := h.sound c List.mem_cons_self
  have uniform := h.uniform c List.mem_cons_self
  have sound' : c'.Sound Γ := ⟨n, hc.sound⟩
  exact ⟨List.forall_mem_cons.2 ⟨sound', h.sound⟩,
    List.forall_mem_cons.2 ⟨uniform_of_moves moves hheld sound uniform, h.uniform⟩,
    List.isChain_cons_cons.2 ⟨hands_of_moves moves hheld sound sound' uniform, h.chain⟩⟩

theorem succeeds_of_drifts {m m' : Machine} (sound : m'.Sound Γ n (.refs held))
    (h : m.Drifts (m.Carries held) m') : Succeeds Γ n ⟨m, held⟩ ⟨m', held⟩ :=
  ⟨sound, [], h.moves, fun _ hv => .inr (Machine.carries_of_held hv)⟩

end Custody

/-! ### Sessions whose machines drift -/

namespace Session

variable {s : Session χ}

/-- The action writes to no container, and puts in places only what was in one, or is held. -/
def DriftsFrom (held : List Value) (s : Session χ) (x : Action (Session χ) α) : Prop :=
  (x s).Meets True (fun _ t => s.machine.Drifts (s.machine.Carries held) t.machine)
    fun t => s.machine.Drifts (s.machine.Carries held) t.machine

theorem driftsFrom_onMachine {x : Action Machine α}
    (hx : Action.Respects (Machine.Drifts (s.machine.Carries held)) x) :
    DriftsFrom held s (onMachine x) :=
  meets_onMachine (hx.respects s.machine)

theorem driftsFrom_popFrame : DriftsFrom held s popFrame := driftsFrom_onMachine inferInstance

theorem DriftsFrom.bind {x : Action (Session χ) α} {k : α → Action Machine Unit}
    (hx : DriftsFrom held s x)
    (hk : ∀ a, Action.Respects (Machine.Drifts (s.machine.Carries held)) (k a)) :
    DriftsFrom held s (x >>= fun a => onMachine (k a)) :=
  Action.meets_bind hx fun a t ht => meets_onMachine (((hk a).respects t.machine).mono
    (fun _ _ hm => trans_of (Machine.Drifts _) ht hm) fun _ hm => trans_of (Machine.Drifts _) ht hm)

theorem driftsFrom_fail (c : Cause) : DriftsFrom held s (Action.fail c : Action (Session χ) Unit) :=
  refl_of (Machine.Drifts _) s.machine

theorem driftsFrom_pushOperand {v : Value} (hv : s.machine.Carries held v.datum) :
    DriftsFrom held s (pushOperand v) :=
  driftsFrom_onMachine (Machine.drifts_exchangeOperands 0 (List.forall_mem_singleton.2 hv))

theorem driftsFrom_pushOperand_popFrame {v : Value} (hv : s.machine.Carries held v.datum) :
    DriftsFrom held s (pushOperand v >>= fun _ => popFrame) :=
  (driftsFrom_pushOperand hv).bind fun _ => inferInstance

theorem driftsFrom_call {v : Value} (hv : s.machine.Carries held v.datum) :
    DriftsFrom held s (onMachine (Machine.call v)) :=
  driftsFrom_onMachine (Machine.drifts_call hv)

theorem driftsFrom_replaceFrame {v : Value} (hv : s.machine.Carries held v.datum) :
    DriftsFrom held s (onMachine (Machine.replaceFrame v)) :=
  driftsFrom_onMachine (Machine.drifts_replaceFrame hv)

theorem driftsFrom_yieldItem {v : Value} (hv : s.machine.Carries held v.datum) :
    DriftsFrom held s (yieldItem v) := by
  unfold yieldItem
  split
  · exact driftsFrom_pushOperand hv
  · exact driftsFrom_call hv

theorem DriftsFrom.moveCursor {x : Action (Session χ) α} (hx : DriftsFrom held s x) (index : ℕ)
    (cursor : ℕ) : DriftsFrom held s (x >>= fun _ => onMachine
      (Machine.updateFrame index fun f => { f with cursor := cursor })) :=
  hx.bind fun _ => Machine.drifts_updateFrame index (fun _ => rfl) fun _ => rfl

theorem driftsFrom_stepName {token : Value} (name : String)
    (ht : s.machine.Carries held token.datum) : DriftsFrom held s (stepName token name) := by
  unfold DriftsFrom stepName
  rw [theMachine_bind]
  split
  · exact driftsFrom_pushOperand_popFrame ht
  · cases hfound : (s.machine.lookup name).run with
    | error b => trivial
    | ok found =>
      cases found with
      | error c => exact driftsFrom_fail c
      | ok v =>
        have place : s.machine.Carries held v.datum :=
          Machine.carries_of_place (Machine.mem_places_of_lookup hfound)
        exact driftsFrom_replaceFrame (v := v.withSource _) place

theorem driftsFrom_stepSource (index : ℕ) (f : Frame) (text : String) :
    DriftsFrom held s (stepSource index f text) := by
  unfold DriftsFrom stepSource
  cases hnext : Token.next text f.cursor with
  | error c => exact driftsFrom_fail c
  | ok next =>
    cases next with
    | none => exact driftsFrom_popFrame
    | some token =>
      set v := token.value.withSource (some (tokenSource f.value text token)) with hv
      have plain : s.machine.Carries held v.datum :=
        Machine.carries_of_handle?_none (v := v) (handle?_of_token hnext)
      change DriftsFrom held s (if v.isExecutable then onMachine (Machine.call v) >>= fun _ =>
        onMachine (Machine.updateFrame index _) else pushOperand v >>= fun _ =>
          onMachine (Machine.updateFrame index _))
      split
      · exact (driftsFrom_call plain).moveCursor index _
      · exact (driftsFrom_pushOperand plain).moveCursor index _

theorem driftsFrom_stepBlock (index : ℕ) (f : Frame) (handle : Handle) :
    DriftsFrom held s (stepBlock index f handle) := by
  unfold DriftsFrom stepBlock
  rw [theMachine_bind]
  cases hblock : s.machine.memory.array handle with
  | error b => trivial
  | ok block =>
    rw [read_bind]
    cases hitem : block.get? f.cursor with
    | none => exact driftsFrom_popFrame
    | some item =>
      have carried : s.machine.Carries held item.datum := by
        refine Machine.carries_of_place (Machine.mem_places_of_array hblock ?_)
        unfold Sequence.get? at hitem
        split at hitem
        · exact List.mem_of_getElem? hitem
        · cases hitem
      dsimp only
      split
      · split
        · exact driftsFrom_pushOperand_popFrame carried
        · exact driftsFrom_replaceFrame carried
      · exact (driftsFrom_yieldItem carried).moveCursor index _

/-- **A cycle without an operator** drifts, if nothing is supplied. -/
theorem driftsFrom_step {f : Frame} {rest : List Frame} (natives : Natives χ)
    (hframes : s.machine.calls.frames = f :: rest) (ho : s.machine.invoked? f = none)
    (hsupply : f.supply = none) : DriftsFrom held s (step natives rest.length f) := by
  have carried : s.machine.Carries held f.value.datum :=
    Machine.carries_of_place (Machine.mem_places_of_frame (by simp [hframes]))
  unfold DriftsFrom
  by_cases hpending : s.machine.pending.isSome
  · rw [step_of_unwound hpending ho]
    exact driftsFrom_popFrame
  · rw [step_of_not_pending hpending, advance, hsupply]
    rw [Machine.invoked?, if_neg hpending, if_neg (by rw [hsupply]; simp)] at ho
    change DriftsFrom held s _
    dsimp only
    split
    · rename_i o hd
      rw [toOperator?_eq_some hd] at ho
      cases ho
    · exact driftsFrom_stepName _ carried
    · exact driftsFrom_stepSource _ f _
    · exact driftsFrom_stepBlock _ f _
    · exact driftsFrom_pushOperand_popFrame carried

end Session

namespace Watched

variable {w : Watched χ}

/-- The machine is sound with what is held, and what it has passed through is a record. -/
structure Overseen (Γ : Charter) (n : ℕ) (held : List Value) (w : Watched χ) : Prop where
  sound : w.machine.Sound Γ n (.refs held)
  recorded : ∃ earlier : List Custody, w.moments = w.machine :: earlier.map Custody.machine ∧
    Custody.Record Γ (⟨w.machine, held⟩ :: earlier)

theorem Overseen.mono (h : w.Overseen Γ n held) (hk : k ≤ n) : w.Overseen Γ k held :=
  ⟨{ h.sound with depth := hk.trans h.sound.depth }, h.recorded⟩

/-- Overseen, whatever is held. -/
def Supervised (Γ : Charter) (w : Watched χ) : Prop := ∃ held, w.Overseen Γ 0 held

theorem Overseen.supervised (h : w.Overseen Γ n held) : w.Supervised Γ :=
  ⟨held, h.mono (Nat.zero_le n)⟩

/-! ### One more moment -/

/-- Noting what an action leaves that is a move. -/
theorem note_overseen {x : Action (Session χ) α} (heldAfter : α → List Value)
    (heldOnFailure : List Value) (h : w.Overseen Γ n held)
    (hx : (x w.session).Meets True
      (fun a t => Custody.Succeeds Γ k ⟨w.machine, held⟩ ⟨t.machine, heldAfter a⟩)
      fun t => Custody.Succeeds Γ k ⟨w.machine, held⟩ ⟨t.machine, heldOnFailure⟩) :
    (note x w).Meets True (fun a v => v.Overseen Γ k (heldAfter a))
      fun v => v.Overseen Γ k heldOnFailure := by
  obtain ⟨earlier, hmoments, record⟩ := h.recorded
  have noted (t : Session χ) (held' : List Value)
      (ht : Custody.Succeeds Γ k ⟨w.machine, held⟩ ⟨t.machine, held'⟩) :
      Overseen Γ k held' ⟨t, t.machine :: w.moments⟩ :=
    ⟨ht.sound, ⟨w.machine, held⟩ :: earlier, congrArg _ hmoments, record.extend ht⟩
  unfold note
  cases ho : x w.session with
  | done a t => rw [ho] at hx; exact noted t _ hx
  | raised e t => rw [ho] at hx; exact noted t _ hx
  | broken b => trivial

/-- Noting what an action leaves of the machine. -/
theorem note_onMachine (x : Action Machine α) (w : Watched χ) :
    note (Session.onMachine x) w = match x w.machine with
      | .done a m => .done a ⟨{ w.session with machine := m }, m :: w.moments⟩
      | .raised e m => .raised e ⟨{ w.session with machine := m }, m :: w.moments⟩
      | .broken b => .broken b := by
  unfold note Session.onMachine Action.zoom machine
  cases x w.session.machine <;> rfl

/-- Noting a move that writes to no container and after which the same is held. -/
theorem note_drifts {x : Action (Session χ) α} (h : w.Overseen Γ n held)
    (drifts : Session.DriftsFrom held w.session x)
    (hx : (x w.session).Meets True (fun _ t => t.machine.Sound Γ k (.refs held))
      fun t => t.machine.Sound Γ k (.refs held)) :
    (note x w).Meets True (fun _ v => v.Overseen Γ k held) fun v => v.Overseen Γ k held :=
  note_overseen _ _ h ((hx.and drifts).mono
    (fun _ _ ht => Custody.succeeds_of_drifts ht.1 ht.2)
    fun _ ht => Custody.succeeds_of_drifts ht.1 ht.2)

/-! ### Operators -/

theorem note_request {owned rest : List Value} {r : Request}
    (h : w.Overseen Γ (i + 1) (params ++ owned)) (hgives : owned.Perm (r.surrendered ++ rest))
    (hpasses : ∀ v ∈ r.passed, w.machine.Carries (params ++ owned) v.datum) :
    (note (Session.onMachine (r.perform (some i))) w).Meets True
      (fun a v => v.Overseen Γ (i + 1) (params ++ (r.handedOut a ++ rest)))
      fun v => v.Overseen Γ (i + 1) (params ++ rest) := by
  have kept (v : Value) (hv : v ∈ params ++ rest) : v ∈ params ++ owned := by
    refine List.mem_append.2 ((List.mem_append.1 hv).imp_right fun hv => ?_)
    exact hgives.mem_iff.2 (List.mem_append_right _ hv)
  have carried (v : Value) (hv : v ∈ params ++ rest) : w.machine.Carries (params ++ owned) v.datum :=
    Machine.carries_of_held (kept v hv)
  have sum : (.refs (params ++ owned) : Stake) = .refs (params ++ rest) + .refs r.surrendered := by
    rw [Stake.refs_append, Stake.refs_perm hgives, Stake.refs_append, Stake.refs_append, add_assoc,
      add_comm (Stake.refs rest)]
  have gives : r.surrendered ⊆ params ++ owned := fun v hv =>
    List.mem_append_right _ (hgives.mem_iff.2 (List.mem_append_left _ hv))
  have known (v : Value) (hv : v ∈ r.passed) : w.machine.Knows (.refs (params ++ owned)) v :=
    Machine.knows_of_carries (hpasses v hv)
  obtain ⟨-, σ, hb, -⟩ := h.sound.memory
  have served : (r.perform (some i) w.machine).Meets True _ _ :=
    r.perform_serves (by rintro _ ⟨⟩; exact Nat.lt_succ_self i) (sum ▸ h.sound) (sum ▸ known)
      (.inl trivial)
  refine note_overseen _ _ h (Session.meets_onMachine
    ((served.and (r.perform_moves (some i) hb.heap gives hpasses)).mono ?_ ?_))
  · rintro a m ⟨⟨⟨sound, -⟩, -⟩, moves⟩
    have order : (.refs (params ++ (r.handedOut a ++ rest)) : Stake) =
        .refs (params ++ rest) + .refs (r.handedOut a) := by
      rw [Stake.refs_append, Stake.refs_append, Stake.refs_append, add_assoc,
        add_comm (Stake.refs rest)]
    refine ⟨order ▸ sound, _, moves, fun v hv => ?_⟩
    rcases List.mem_append.1 hv with param | hv
    · exact .inr (carried v (List.mem_append_left _ param))
    · exact (List.mem_append.1 hv).imp_right fun hv => carried v (List.mem_append_right _ hv)
  · exact fun m hm => ⟨hm.1.1, [], hm.2, fun v hv => .inr (carried v hv)⟩

/-- **A candid operation** is overseen. -/
theorem runOn_overseen {p : Operation α} {Q : α → List Value → Machine → Prop} {owned : List Value}
    (hp : p.Candid Γ i params Q owned w.machine) (h : w.Overseen Γ (i + 1) (params ++ owned)) :
    (runOn (some i) p w).Meets True (fun _ v => ∃ owned, v.Overseen Γ (i + 1) (params ++ owned))
      fun v => ∃ owned, v.Overseen Γ (i + 1) (params ++ owned) := by
  induction p generalizing w owned with
  | done a => exact ⟨owned, h⟩
  | raise e => exact ⟨owned, h⟩
  | broken b => trivial
  | ask r next failed ihn ihf =>
    obtain ⟨rest, hgives, hpasses, hnext, hfailed⟩ := hp
    have noted := note_request h hgives hpasses
    rw [note_onMachine] at noted
    rw [runOn_ask, note_onMachine]
    cases hr : r.perform (some i) w.machine with
    | done a m =>
      rw [hr] at noted
      exact ihn a (hnext a m hr noted.sound) noted
    | raised e m =>
      rw [hr] at noted
      exact ihf e (hfailed e m hr) noted
    | broken b => trivial

theorem invoke_overseen (o : Operator) (h : w.Overseen Γ (i + 1) (params ++ held)) :
    (invoke Natives.none o i params w).Meets True
      (fun _ v => ∃ held, v.Overseen Γ (i + 1) (params ++ held))
      fun v => ∃ held, v.Overseen Γ (i + 1) (params ++ held) := by
  cases o with
  | builtin b => exact runOn_overseen (b.operation_candid h.sound) h
  | native name looping => exact ⟨held, h⟩

theorem popFrame_supervised (h : w.Overseen Γ (i + 1) held) :
    (note Session.popFrame w).Meets True (fun _ v => v.Supervised Γ) fun v => v.Supervised Γ := by
  have popped : (Machine.popFrame w.machine).Meets True _ _ := Machine.popFrame_meets h.sound
  exact (note_drifts h Session.driftsFrom_popFrame (Session.meets_onMachine (popped.mono
    (fun _ _ hm => hm.1) fun _ hm => hm.1))).mono (fun _ _ hv => ⟨held, hv⟩)
      fun _ hv => ⟨held, hv⟩

theorem setState_overseen (next : Continuation) (h : w.Overseen Γ (i + 1) held) :
    (note (Session.onMachine (Machine.setState i next)) w).Meets True
      (fun _ v => v.Overseen Γ (i + 1) held ∧ v.machine.operands = w.machine.operands)
      fun v => v.Overseen Γ (i + 1) held := by
  have moved : (Machine.setState i next w.machine).Meets True _ _ :=
    Machine.setState_meets h.sound (Nat.lt_succ_self i)
  have noted := note_drifts h (Session.driftsFrom_onMachine inferInstance)
    (Session.meets_onMachine (moved.mono (fun _ _ hm => hm.1) fun _ hm => hm.1))
  rw [note_onMachine] at noted ⊢
  cases hm : Machine.setState i next w.machine with
  | done a m => rw [hm] at moved noted; exact ⟨noted, moved.2.2⟩
  | raised e m => rw [hm] at noted; exact noted
  | broken b => trivial

theorem settle_supervised (invokedIn : Continuation) (h : w.Overseen Γ (i + 1) held) :
    (settle i invokedIn w).Meets True (fun _ v => v.Supervised Γ) fun v => v.Supervised Γ := by
  have last (p : Prop) [Decidable p] (v : Watched χ) (hv : v.Overseen Γ (i + 1) held) :
      ((theMachine >>= fun m => if p ∧ m.calls.length = i + 1 then
        note Session.popFrame else (pure () : Action (Watched χ) Unit)) v).Meets True
        (fun _ v => v.Supervised Γ) fun v => v.Supervised Γ := by
    rw [theMachine_bind]
    split
    · exact popFrame_supervised hv
    · exact hv.supervised
  obtain ⟨f, hf⟩ := h.sound.exists_frame (Nat.lt_succ_self i)
  unfold settle
  rw [theMachine_bind, Machine.frame_of_frame? hf, read_bind]
  dsimp only
  split
  · exact Action.meets_bind ((setState_overseen .pop h).mono (fun _ _ hv => hv.1)
      fun _ hv => hv.supervised) fun _ v hv => last _ v hv
  · exact last _ w h

/-- The operands are held on to, invoked with and let go of. -/
theorem dispatch_supervised {signature : List Param} {o : Operator} (h : w.Overseen Γ (i + 1) held) :
    (dispatch i signature (invoke Natives.none o i) w).Meets True (fun _ v => v.Supervised Γ)
      fun v => v.Supervised Γ := by
  unfold dispatch
  rw [theMachine_bind]
  refine Action.meets_bind (P := fun params v => w = v ∧ ∀ v ∈ params, v ∈ w.machine.operands.items)
    (Action.meets_ofExcept (fun params hp => ⟨rfl, fun v => Machine.mem_of_matchOperands hp⟩)
      h.supervised) ?_
  rintro params _ ⟨rfl, operand⟩
  refine Action.meets_bind ((setState_overseen .firstCall h).mono (fun _ _ => id)
    fun _ hv => hv.supervised) ?_
  rintro _ v₁ ⟨h₁, operands⟩
  refine Action.meets_bind (P := fun _ v => v.Overseen Γ (i + 1) (params ++ held)) ?_
    fun _ v₂ h₂ => ?_
  · -- what is held from here on is still among the operands
    have operand₁ (v : Value) (hv : v ∈ params) : v ∈ v₁.machine.operands.items :=
      operands ▸ operand v hv
    have pinned : (Machine.onMemory (Memory.retainAll params) v₁.machine).Meets True _ _ :=
      Machine.retainAll_meets h₁.sound fun v hv => Machine.knows_of_operand (operand₁ v hv)
    have drifts := Action.Respects.respects (R := Machine.Drifts (v₁.machine.Carries held))
      (x := Machine.onMemory (Memory.retainAll params)) v₁.machine
    refine (note_overseen (fun _ => params ++ held) held h₁
      (Session.meets_onMachine ((pinned.and drifts).mono ?_ ?_))).mono (fun _ _ => id)
        fun _ hv => hv.supervised
    · rintro _ m ⟨⟨sound, -⟩, drifted⟩
      rw [add_comm (Stake.refs held), ← Stake.refs_append] at sound
      refine ⟨sound, [], drifted.moves, fun v hv => .inr ?_⟩
      rcases List.mem_append.1 hv with param | hv
      · exact Machine.carries_of_place (Machine.mem_places_of_operand (operand₁ v param))
      · exact Machine.carries_of_held hv
    · exact fun m hm => Custody.succeeds_of_drifts hm.1.1 hm.2
  have released (v : Watched χ) (hv : ∃ held, v.Overseen Γ (i + 1) (params ++ held)) :
      (note (Session.onMachine (Machine.onMemory (Memory.releaseAll params))) v).Meets True
        (fun _ v => ∃ held, v.Overseen Γ (i + 1) held) fun v => v.Supervised Γ := by
    obtain ⟨held, hv⟩ := hv
    have unpinned : (Machine.onMemory (Memory.releaseAll params) v.machine).Meets True _ _ :=
      Machine.releaseAll_meets (by rw [add_comm, ← Stake.refs_append]; exact hv.sound)
    have drifts := Action.Respects.respects (R := Machine.Drifts (v.machine.Carries (params ++ held)))
      (x := Machine.onMemory (Memory.releaseAll params)) v.machine
    refine (note_overseen (fun _ => held) held hv
      (Session.meets_onMachine ((unpinned.and drifts).mono ?_ fun _ hm => hm.1.elim))).mono
        (fun _ _ hv => ⟨held, hv⟩) fun _ hv => hv.supervised
    rintro _ m ⟨⟨sound, -⟩, drifted⟩
    exact ⟨sound, [], drifted.moves, fun v hv =>
      .inr (Machine.carries_of_held (List.mem_append_right _ hv))⟩
  refine Action.meets_bind (Action.meets_ensuring (invoke_overseen o h₂) (fun _ => released)
    fun v hv => (released v hv).mono (fun _ _ ⟨_, hv⟩ => hv.supervised) fun _ => id) ?_
  rintro _ v ⟨held, hv⟩
  exact settle_supervised _ hv

theorem resume_supervised {state : Continuation} {o : Operator} (h : w.Overseen Γ (i + 1) held) :
    (resume i state (invoke Natives.none o i) w).Meets True (fun _ v => v.Supervised Γ)
      fun v => v.Supervised Γ := by
  have invoked : (invoke Natives.none o i [] w).Meets True _ _ := invoke_overseen o h
  refine Action.meets_bind (Action.meets_onRaise invoked ?_) fun _ v ⟨held, hv⟩ =>
    settle_supervised state hv
  rintro v ⟨held, hv⟩
  split
  · -- the frame is marked as done, and goes with the next cycle
    have drifts : Action.Respects (Machine.Drifts (v.machine.Carries held))
        (Machine.updateFrame i fun f => { f with state := .pop }) :=
      Machine.drifts_updateFrame i (fun _ => rfl) fun _ => rfl
    have abandoned : (Session.abandon i v.session).Meets True _ fun _ => False :=
      Session.abandon_meets hv.sound
    exact (note_drifts hv (Session.driftsFrom_onMachine drifts) (abandoned.mono
      (fun _ _ ht => ht.1) fun _ ht => ht.elim)).mono (fun _ _ hv => hv.supervised)
        fun _ hv => hv.supervised
  · exact hv.supervised

/-! ### The cycle -/

section

variable (hΓ : ∀ p, ¬ Γ.supplies p)

theorem stepOperator_supervised {f : Frame} {rest : List Frame} (o : Operator)
    (hframes : w.machine.calls.frames = f :: rest) (h : w.Overseen Γ (rest.length + 1) held) :
    (stepOperator Natives.none rest.length o w).Meets True (fun _ v => v.Supervised Γ)
      fun v => v.Supervised Γ := by
  unfold stepOperator
  have works := Behaviour.works_none (χ := χ) Γ o
  cases hb : Behaviour.ofOperator (Natives.none : Natives χ) o with
  | constant v =>
    rw [hb] at works
    have advanced : ((Session.pushOperand v >>= fun _ => Session.popFrame) w.session).Meets True _ _ :=
      (Session.pushOperand_popFrame_advances h.sound (Machine.knows_of_handle?_none works)).weaken
    exact (note_drifts h (Session.driftsFrom_pushOperand_popFrame
      (Machine.carries_of_handle?_none works)) (advanced.mono (fun _ _ ht => ht.1)
        fun _ ht => ht.1)).mono (fun _ _ hv => hv.supervised) fun _ hv => hv.supervised
  | function signature _ =>
    dsimp only
    rw [theMachine_bind, Machine.frame_of_frame? (CallStack.frame?_length_of_frames hframes),
      read_bind]
    cases f.state with
    | pop => exact popFrame_supervised h
    | unknown => exact dispatch_supervised h
    | firstCall | running | callBeforePop | popping => exact resume_supervised h

include hΓ

theorem step_supervised {f : Frame} {rest : List Frame}
    (hframes : w.machine.calls.frames = f :: rest) (h : w.Overseen Γ 0 held) :
    (step Natives.none rest.length f w).Meets True (fun _ v => v.Supervised Γ)
      fun v => v.Supervised Γ := by
  have depth : rest.length + 1 ≤ w.machine.calls.length := by simp [CallStack.length, hframes]
  rw [step, theMachine_bind]
  cases ho : w.machine.invoked? f with
  | some o => exact stepOperator_supervised o hframes ⟨{ h.sound with depth := depth }, h.recorded⟩
  | none =>
    have unsupplied : f.supply = none := Option.eq_none_iff_forall_ne_some.2 fun p hp =>
      hΓ p (h.sound.supplied f (by simp [hframes]) p hp)
    have advanced : (Session.step Natives.none rest.length f w.session).Meets True _ _ :=
      (Session.step_advances (Behaviour.works_none Γ) h.sound (h.sound.fed hΓ) hframes).weaken
    exact (note_drifts h (Session.driftsFrom_step _ hframes ho unsupplied) (advanced.mono
      (fun _ _ ht => ht.1) fun _ ht => ht.1)).mono (fun _ _ hv => hv.supervised)
        fun _ hv => hv.supervised

/-- **A cycle of a builtin** is overseen. -/
theorem cycle_supervised (h : w.Supervised Γ) :
    (cycle Natives.none w).Meets True (fun _ v => v.Supervised Γ) fun v => v.Supervised Γ := by
  obtain ⟨held, h⟩ := h
  unfold cycle
  rw [theMachine_bind]
  cases hframes : w.machine.calls.frames with
  | nil => exact h.supervised
  | cons f rest =>
    refine Action.meets_bind (P := fun _ v => v.Supervised Γ) (Action.meets_attempt
      ((step_supervised hΓ hframes h).mono (fun _ _ => id) fun _ hv _ => hv)) fun result v hv => ?_
    cases result with
    | ok _ => exact hv
    | error e =>
      obtain ⟨held, hv⟩ := hv
      have raised : (Machine.raise e v.machine).Meets True _ fun _ => False :=
        Machine.raise_meets hv.sound e
      exact Action.meets_bind ((note_drifts hv (Session.driftsFrom_onMachine inferInstance)
        (Session.meets_onMachine (raised.mono (fun _ _ hm => hm.1) fun _ => False.elim))).mono
          (fun _ _ hv => hv.supervised) fun _ hv => hv.supervised) fun _ _ hv => hv

/-! ### Runs -/

theorem runFrom_supervised (budget count : ℕ) (h : w.Supervised Γ) :
    (runFrom Natives.none count budget w).Meets True (fun _ v => v.Supervised Γ)
      fun v => v.Supervised Γ := by
  induction budget generalizing count w with
  | zero => exact h
  | succ budget ih =>
    rw [runFrom, theMachine_bind]
    split
    · exact h
    · exact Action.meets_bind (cycle_supervised hΓ h) fun _ v hv => ih (count + 1) hv

theorem run_supervised (budget : ℕ) (h : w.Supervised Γ) :
    (run Natives.none budget w).Meets True (fun _ v => v.Supervised Γ) fun v => v.Supervised Γ := by
  refine Action.meets_bind (runFrom_supervised hΓ budget 0 h) fun count v hv => ?_
  rw [theMachine_bind]
  cases v.machine.exception with
  | none => exact hv
  | some e =>
    dsimp only
    split
    · exact hv
    · exact hv

theorem runToCompletion_supervised (h : w.Supervised Γ) :
    (runToCompletion Natives.none w).Meets True (fun _ v => v.Supervised Γ)
      fun v => v.Supervised Γ := by
  unfold runToCompletion
  rw [theMachine_bind]
  refine Action.meets_bind (run_supervised hΓ _ h) fun count v hv => ?_
  rw [theMachine_bind]
  split
  · exact hv
  · exact hv

end

/-! ### Watching forgets nothing -/

/-- The moments there were are still there. -/
def ForgetsNothing (w w' : Watched χ) : Prop := w.moments <:+ w'.moments

instance : IsPreorder (Watched χ) ForgetsNothing where
  refl w := List.suffix_refl w.moments
  trans _ _ _ := List.IsSuffix.trans

variable {natives : Natives χ}

instance : Action.Respects ForgetsNothing (theMachine : Action (Watched χ) Machine) :=
  ⟨fun w => List.suffix_refl w.moments⟩

instance (x : Action (Session χ) α) : Action.Respects ForgetsNothing (note x) where
  respects w := by
    unfold note
    cases x w.session with
    | done a s => exact List.suffix_cons s.machine w.moments
    | raised e s => exact List.suffix_cons s.machine w.moments
    | broken b => trivial

instance (own : Option ℕ) (p : Operation α) :
    Action.Respects ForgetsNothing (runOn own p : Action (Watched χ) α) where
  respects w := by
    induction p generalizing w with
    | done a => exact List.suffix_refl w.moments
    | raise e => exact List.suffix_refl w.moments
    | broken b => trivial
    | ask r next failed ihn ihf =>
      have noted := Action.Respects.respects (R := ForgetsNothing)
        (x := note (Session.onMachine (r.perform own))) w
      exact Program.meets_ask noted
        (fun a v hv => (ihn a v).mono (fun _ _ => hv.trans) fun _ => hv.trans)
        fun e v hv => (ihf e v).mono (fun _ _ => hv.trans) fun _ => hv.trans

instance (own : Option ℕ) (p : χ → Operation (χ × Except Exception Unit)) :
    Action.Respects ForgetsNothing (runKeeping own p) where
  respects w := by
    have ran := Action.Respects.respects (R := ForgetsNothing) (x := runOn own (p w.session.host)) w
    unfold runKeeping
    cases ho : runOn own (p w.session.host) w with
    | done r v =>
      rw [ho] at ran
      obtain ⟨host, result⟩ := r
      cases result <;> exact ran
    | raised e v => rw [ho] at ran; exact ran
    | broken b => trivial

instance (o : Operator) (index : ℕ) (params : List Value) :
    Action.Respects ForgetsNothing (invoke natives o index params) := by
  unfold invoke
  cases o with
  | builtin b => infer_instance
  | native name looping =>
    dsimp only
    cases natives name <;> infer_instance

instance (index : ℕ) (invokedIn : Continuation) :
    Action.Respects ForgetsNothing (settle index invokedIn : Action (Watched χ) Unit) := by
  unfold settle
  infer_instance

instance (index : ℕ) (o : Operator) :
    Action.Respects ForgetsNothing (stepOperator natives index o) := by
  unfold stepOperator
  cases Behaviour.ofOperator natives o with
  | constant v => infer_instance
  | function signature _ =>
    refine .bind inferInstance fun m => .bind inferInstance fun f => ?_
    unfold dispatch resume
    cases f.state <;> infer_instance

instance : Action.Respects ForgetsNothing (cycle natives) := by
  refine .bind inferInstance fun m => ?_
  cases m.calls.frames with
  | nil => infer_instance
  | cons f rest =>
    have : Action.Respects ForgetsNothing (step natives rest.length f) := by
      refine .bind inferInstance fun m => ?_
      cases m.invoked? f <;> infer_instance
    refine .bind inferInstance fun result => ?_
    cases result <;> infer_instance

instance (count budget : ℕ) : Action.Respects ForgetsNothing (runFrom natives count budget) := by
  induction budget generalizing count with
  | zero => exact inferInstanceAs (Action.Respects _ (pure count))
  | succ budget ih =>
    unfold runFrom
    infer_instance

instance (budget : ℕ) : Action.Respects ForgetsNothing (run natives budget) := by
  refine .bind inferInstance fun count => .bind inferInstance fun m => ?_
  cases m.exception <;> infer_instance

instance : Action.Respects ForgetsNothing (runToCompletion natives) := by
  unfold runToCompletion
  infer_instance

end Watched

theorem HostAct.forgetsNothing_watch (natives : Natives χ) (c : HostAct) :
    Action.Respects Watched.ForgetsNothing (c.watch natives) := by
  unfold HostAct.watch
  cases c <;> infer_instance

end StackScript
