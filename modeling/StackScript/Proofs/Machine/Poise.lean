import StackScript.Proofs.Machine.Steps
import StackScript.Proofs.Operator.Resume
import StackScript.Proofs.Text.Cursor

/-!
# Every frame can go on

A call frame is poised if its operator can go on from the state it is in (`Machine.Poised`).  The
frame of an operator that has failed in its first call need not be: but then an exception is pending,
and no frame from there on up is invoked on its way out, so the frame is removed before any operator
takes the exception away (`Machine.Sinking`).

A machine is sane if each of its frames is in one of these two situations, no internal exception is
pending or set aside, and every text is cut at a boundary (`Machine.Sane`).  The work of a cycle of a
sane machine raises ordinary exceptions only, and leaves a sane machine once its exception, if any, is
pending (`Session.step_sane`).
-/

namespace StackScript

/-! ### Frames -/

namespace CallStack

variable {c : CallStack} {above rest : List Frame} {f g : Frame} {k : ℕ}

/-- A frame is one of the frames below another, that frame, or one of those above it. -/
theorem frame?_cases (h : c.frames = above ++ f :: rest) (hk : c.frame? k = some g) :
    (k < rest.length ∧ rest.reverse[k]? = some g) ∨ (k = rest.length ∧ g = f) ∨
      rest.length < k ∧ g ∈ above := by
  rcases Nat.lt_trichotomy k rest.length with hlt | rfl | hlt
  · refine .inl ⟨hlt, ?_⟩
    have h' : c.frames = (above ++ [f]) ++ rest := by simp [h]
    rw [← frame?_of_append h' hlt, hk]
  · rw [frame?_above h] at hk
    exact .inr (.inl ⟨rfl, (Option.some.inj hk).symm⟩)
  · refine .inr (.inr ⟨hlt, ?_⟩)
    rw [frame?_eq_getElem?, h, List.reverse_append, List.reverse_cons,
      List.getElem?_append_right (by simpa using Nat.succ_le_of_lt hlt)] at hk
    exact List.mem_reverse.1 (List.mem_of_getElem? hk)

end CallStack

/-! ### Operators -/

namespace Operator

/-- The operator in the frame with `k` frames below it may go on from a state. -/
def Ready (m : Machine) (k : ℕ) (c : Continuation) : Operator → Prop
  | .builtin b => b.Ready m k c
  | .native .. => True

theorem ready_unknown (m : Machine) (k : ℕ) (o : Operator) : o.Ready m k .unknown := by
  cases o with
  | builtin b => exact .fresh b
  | native => trivial

theorem ready_pop (m : Machine) (k : ℕ) (o : Operator) : o.Ready m k .pop := by
  cases o with
  | builtin b => exact .done b
  | native => trivial

theorem Ready.of_steady {m m' : Machine} {n k : ℕ} {c : Continuation} {o : Operator}
    (h : o.Ready m k c) (steady : m.Steady n m') (hk : k < n) : o.Ready m' k c := by
  cases o with
  | builtin b => exact Builtin.Ready.of_steady h steady hk
  | native => trivial

end Operator

namespace Machine

variable {m m' : Machine} {k : ℕ} {f g : Frame} {rest : List Frame} {o : Operator}
  {raising raising' : Prop}

/-- The frame with `k` frames below it can go on from its state. -/
def Poised (m : Machine) (k : ℕ) (f : Frame) : Prop :=
  ∀ o, f.value.toOperator? = some o → o.Ready m k f.state

/-- The operator of the frame with `k` frames below it has failed in its first call, and no frame from
there on up is invoked on its way out. -/
def Sinking (m : Machine) (k : ℕ) (f : Frame) : Prop :=
  f.state = .firstCall ∧
    ∀ j g, k ≤ j → m.calls.frame? j = some g → g.state.isPopping = false

/-- Frames are poised, or sinking if an exception is being raised; no exception is internal, and
texts are cut at boundaries. -/
structure Sane (raising : Prop) (m : Machine) : Prop where
  civil : m.Civil
  poised : ∀ k f, m.calls.frame? k = some f → m.Poised k f ∨ raising ∧ m.Sinking k f
  cursors : ∀ f ∈ m.calls.frames, ∀ text, f.value.datum = .string text true →
    Text.Boundary text f.cursor

theorem Sane.mono (h : m.Sane raising) (hr : raising → raising') : m.Sane raising' :=
  { h with poised := fun k f hf => (h.poised k f hf).imp_right fun h => ⟨hr h.1, h.2⟩ }

theorem poised_of_fresh (m : Machine) (k : ℕ) (v : Value) : m.Poised k { value := v } :=
  fun o _ => o.ready_unknown m k

/-- The other frames hold what they held. -/
theorem Recorded.of_stashes {R : PendingException → Prop} (h : m.Recorded R)
    (hp : m'.pending = m.pending)
    (hs : ∀ f ∈ m'.calls.frames, f.stash = none ∨ ∃ g ∈ m.calls.frames, f.stash = g.stash) :
    m'.Recorded R := by
  refine ⟨fun p h' => h.pending p (hp ▸ h'), fun f hf p h' => ?_⟩
  rcases hs f hf with hnone | ⟨g, hg, hstash⟩
  · rw [hnone] at h'
    cases h'
  · exact h.stashed g hg p (hstash ▸ h')

/-! ### After an invocation -/

/-- After an invocation of `o`, which executes `v` above `rest`: its frame is gone, or it is there and
can go on, or it has failed in its first call. -/
structure Landed (o : Operator) (v : Value) (rest : List Frame) (raising : Prop) (m m' : Machine) :
    Prop where
  steady : m.Steady rest.length m'
  civil : m'.Civil
  frame : m'.calls.frames = rest ∨ m'.calls.Above v rest ∧ ∃ c, m'.StateIs rest.length c ∧
    (o.Ready m' rest.length c ∨ raising ∧ c = .firstCall)

theorem Landed.mono {v : Value} (h : m.Landed o v rest raising m') (hr : raising → raising') :
    m.Landed o v rest raising' m' :=
  { h with
    frame := h.frame.imp_right fun ⟨above, c, hc, hready⟩ =>
      ⟨above, c, hc, hready.imp_right fun h => ⟨hr h.1, h.2⟩⟩ }

/-- The frames of a sane machine after one of its operators was invoked. -/
theorem Sane.of_landed (h : m.Sane raising') (hframes : m.calls.frames = f :: rest)
    (hbelow : ∀ k g, k < rest.length → m.calls.frame? k = some g → m.Poised k g)
    (ho : f.value.toOperator? = some o) (landed : m.Landed o f.value rest raising m') :
    m'.Sane raising := by
  obtain ⟨steady, civil, landed⟩ := landed
  have frame?_below (k : ℕ) (hk : k < rest.length) : m.calls.frame? k = rest.reverse[k]? :=
    CallStack.frame?_below hframes hk
  have below (k : ℕ) (g : Frame) (hk : k < rest.length) (hg : rest.reverse[k]? = some g) :
      m'.Poised k g := fun o ho =>
    (hbelow k g hk ((frame?_below k hk).trans hg) o ho).of_steady steady hk
  have cursor (g : Frame) (hg : g ∈ rest) := h.cursors g (by rw [hframes]; exact .tail f hg)
  rcases landed with gone | ⟨⟨vs, f', hframes', hvalue⟩, c, ⟨f'', hf'', rfl⟩, hready⟩
  · refine ⟨civil, fun k g hg => .inl ?_, fun g hg => cursor g (gone ▸ hg)⟩
    rw [CallStack.frame?_eq_getElem?, gone] at hg
    exact below k g (by simpa using (List.getElem?_eq_some_iff.1 hg).1) hg
  · rw [CallStack.frame?_above hframes'] at hf''
    obtain rfl := Option.some.inj hf''
    refine ⟨civil, fun k g hg => ?_, fun g hg text hd => ?_⟩
    · rcases CallStack.frame?_cases hframes' hg with ⟨hk, hg⟩ | ⟨rfl, rfl⟩ | ⟨hk, hg⟩
      · exact .inl (below k g hk hg)
      · refine hready.imp (fun hready o' ho' => ?_) fun ⟨hr, hfirst⟩ =>
          ⟨hr, hfirst, fun j g hj hg => ?_⟩
        · rw [hvalue, ho] at ho'
          exact Option.some.inj ho' ▸ hready
        · rcases CallStack.frame?_cases hframes' hg with ⟨hlt, -⟩ | ⟨-, rfl⟩ | ⟨-, hg⟩
          · exact absurd hj (Nat.not_le.2 hlt)
          · rw [hfirst]
            rfl
          · obtain ⟨v, -, rfl⟩ := Frame.mem_queued.1 hg
            rfl
      · obtain ⟨v, -, rfl⟩ := Frame.mem_queued.1 hg
        exact .inl (poised_of_fresh m' k v)
    · rw [hframes'] at hg
      rcases List.mem_append.1 hg with hg | hg
      · obtain ⟨v, -, rfl⟩ := Frame.mem_queued.1 hg
        exact Text.boundary_zero text
      · rcases List.mem_cons.1 hg with rfl | hg
        · have none := Session.toOperator?_eq_none (v := g.value)
            fun o ho => by rw [hd] at ho; cases ho
          rw [hvalue, ho] at none
          cases none
        · exact cursor g hg text hd

/-! ### After a cycle without an operator -/

/-- The top frame of a sane machine has gone, or one that can go on has taken its place, below frames
that have just been queued. -/
theorem Sane.of_top {above : List Frame} (h : m.Sane m.pending.isSome)
    (hframes : m.calls.frames = f :: rest) (steady : m.Steady rest.length m')
    (hpending : m'.pending = m.pending) (hframes' : m'.calls.frames = above ++ rest)
    (hstash : ∀ g ∈ above, g.stash = none ∨ g.stash = f.stash)
    (hcursor : ∀ g ∈ above, ∀ text, g.value.datum = .string text true →
      Text.Boundary text g.cursor)
    (htop : ∀ g ∈ above, g.value.toOperator? = none ∨ g.state = .unknown)
    (hstate : ∀ g ∈ above, g.state = .unknown ∨ g.state = f.state) :
    m'.Sane m'.pending.isSome := by
  have frame?_below (k : ℕ) (g : Frame) (hk : k < rest.length) :
      m'.calls.frame? k = some g ↔ m.calls.frame? k = some g := by
    rw [CallStack.frame?_of_append hframes' hk,
      CallStack.frame?_below hframes hk]
  have mem_above (k : ℕ) (g : Frame) (hk : rest.length ≤ k) (hg : m'.calls.frame? k = some g) :
      g ∈ above := by
    rw [CallStack.frame?_eq_getElem?, hframes', List.reverse_append,
      List.getElem?_append_right (by simpa using hk)] at hg
    exact List.mem_reverse.1 (List.mem_of_getElem? hg)
  have sinking (k : ℕ) (g : Frame) (hk : k < rest.length) (hs : m.Sinking k g) : m'.Sinking k g := by
    refine ⟨hs.1, fun j g hj hg => ?_⟩
    by_cases hlt : j < rest.length
    · exact hs.2 j g hj ((frame?_below j g hlt).1 hg)
    · rcases hstate g (mem_above j g (Nat.not_lt.1 hlt) hg) with hstate | hstate
      · rw [hstate]
        rfl
      · rw [hstate]
        exact hs.2 rest.length f hk.le (CallStack.frame?_head hframes)
  refine ⟨h.civil.of_stashes hpending fun g hg => ?_, fun k g hg => ?_, fun g hg => ?_⟩
  · rw [hframes'] at hg
    rw [hframes]
    rcases List.mem_append.1 hg with hg | hg
    · exact (hstash g hg).imp_right fun h => ⟨f, .head rest, h⟩
    · exact .inr ⟨g, .tail f hg, rfl⟩
  · by_cases hlt : k < rest.length
    · refine (h.poised k g ((frame?_below k g hlt).1 hg)).imp (fun hready o ho => ?_) fun hs => ?_
      · exact (hready o ho).of_steady steady hlt
      · rw [hpending]
        exact ⟨hs.1, sinking k g hlt hs.2⟩
    · refine .inl fun o ho => ?_
      rcases htop g (mem_above k g (Nat.not_lt.1 hlt) hg) with hnone | hfresh
      · rw [hnone] at ho
        cases ho
      · rw [hfresh]
        exact o.ready_unknown m' k
  · rw [hframes'] at hg
    rcases List.mem_append.1 hg with hg | hg
    · exact hcursor g hg
    · exact h.cursors g (by rw [hframes]; exact .tail f hg)

/-- The top frame of a sane machine has been removed. -/
theorem Sane.of_popped (h : m.Sane m.pending.isSome) (hframes : m.calls.frames = f :: rest)
    (steady : m.Steady rest.length m') (hpending : m'.pending = m.pending)
    (hframes' : m'.calls.frames = rest) : m'.Sane m'.pending.isSome :=
  h.of_top hframes steady hpending (show m'.calls.frames = [] ++ rest from hframes') (by simp)
    (by simp) (by simp) (by simp)

/-- The top frame of a sane machine, which executes no operator, has been turned. -/
theorem Sane.of_turned (h : m.Sane m.pending.isSome) (hframes : m.calls.frames = f :: rest)
    (hsupply : f.supply = none) (hvalue : f.value.toOperator? = none)
    (steady : m.Steady rest.length m') (hpending : m'.pending = m.pending)
    (turned : f.Turned rest m'.calls.frames) : m'.Sane m'.pending.isSome := by
  have cursor (text : String) := h.cursors f (by rw [hframes]; exact .head rest) text
  -- a frame in the place of the top one, below fresh ones
  have replaced (vs : List Value) (f' : Frame)
      (hframes' : m'.calls.frames = Frame.queued vs ++ f' :: rest)
      (hstash : f'.stash = none ∨ f'.stash = f.stash)
      (hcursor : ∀ text, f'.value.datum = .string text true → Text.Boundary text f'.cursor)
      (htop : f'.value.toOperator? = none ∨ f'.state = .unknown)
      (hstate : f'.state = .unknown ∨ f'.state = f.state) : m'.Sane m'.pending.isSome := by
    have hframes'' : m'.calls.frames = (Frame.queued vs ++ [f']) ++ rest := by simp [hframes']
    have above (g : Frame) (hg : g ∈ Frame.queued vs ++ [f']) :
        (∃ v, g = { value := v }) ∨ g = f' := by
      rcases List.mem_append.1 hg with hg | hg
      · obtain ⟨v, -, rfl⟩ := Frame.mem_queued.1 hg
        exact .inl ⟨v, rfl⟩
      · exact .inr (List.mem_singleton.1 hg)
    refine h.of_top hframes steady hpending hframes'' (fun g hg => ?_) (fun g hg => ?_)
      (fun g hg => ?_) fun g hg => ?_
    · rcases above g hg with ⟨v, rfl⟩ | rfl
      · exact .inl rfl
      · exact hstash
    · rcases above g hg with ⟨v, rfl⟩ | rfl
      · exact fun text _ => Text.boundary_zero text
      · exact hcursor
    · rcases above g hg with ⟨v, rfl⟩ | rfl
      · exact .inr rfl
      · exact htop
    · rcases above g hg with ⟨v, rfl⟩ | rfl
      · exact .inl rfl
      · exact hstate
  generalize hl : m'.calls.frames = l at turned
  cases turned with
  | kept => exact replaced [] f hl (.inr rfl) cursor (.inl hvalue) (.inr rfl)
  | removed => exact h.of_popped hframes steady hpending hl
  | replaced v =>
    exact replaced [] { value := v } hl (.inl rfl) (fun text _ => Text.boundary_zero text)
      (.inr rfl) (.inl rfl)
  | advanced cursor' supply queued hcursor =>
    refine replaced queued.toList { f with cursor := cursor', supply := supply } hl (.inr rfl) ?_
      (.inl hvalue) (.inr rfl)
    intro text hd
    rcases hcursor text hsupply hd with rfl | ⟨token, hnext, rfl⟩
    · exact cursor text hd
    · exact Token.boundary_of_next hnext

/-! ### Between cycles -/

/-- Frames have been queued, perhaps, and the others are as they were. -/
theorem Sane.of_queued {vs : List Value} (h : m.Sane raising) (hr : raising → raising')
    (hcivil : m'.Civil) (hframes : m'.calls.frames = Frame.queued vs ++ m.calls.frames)
    (steady : m.Steady m.calls.length m') : m'.Sane raising' := by
  have cases (k : ℕ) (g : Frame) (hg : m'.calls.frame? k = some g) :
      m.calls.frame? k = some g ∨ ∃ v, g = { value := v } := by
    by_cases hk : k < m.calls.length
    · rw [CallStack.frame?_of_append hframes hk] at hg
      exact .inl ((CallStack.frame?_eq_getElem? _ k).trans hg)
    · rw [CallStack.frame?_eq_getElem?, hframes, List.reverse_append,
        List.getElem?_append_right (by simpa [CallStack.length] using hk)] at hg
      obtain ⟨v, -, rfl⟩ := Frame.mem_queued.1 (List.mem_reverse.1 (List.mem_of_getElem? hg))
      exact .inr ⟨v, rfl⟩
  refine ⟨hcivil, fun k f hf => ?_, fun f hf text hd => ?_⟩
  · rcases cases k f hf with hf | ⟨v, rfl⟩
    · refine (h.poised k f hf).imp (fun hready o ho => ?_) fun hs => ⟨hr hs.1, hs.2.1, ?_⟩
      · exact (hready o ho).of_steady steady (lt_length_of_frame? hf)
      · intro j g hj hg
        rcases cases j g hg with hg | ⟨v, rfl⟩
        · exact hs.2.2 j g hj hg
        · rfl
    · exact .inl (poised_of_fresh m' k v)
  · rw [hframes] at hf
    rcases List.mem_append.1 hf with hf | hf
    · obtain ⟨v, -, rfl⟩ := Frame.mem_queued.1 hf
      exact Text.boundary_zero text
    · exact h.cursors f hf text hd

variable {Γ : Charter} {n : ℕ} {x : Stake}

/-- Work is queued. -/
theorem call_sane {v : Value} (h : m.Sound Γ n x) (hs : m.Sane m.pending.isSome)
    (hv : m.Knows x v) :
    (call v m).Fair (fun _ m' => m'.Sound Γ 0 x ∧ m'.Sane m'.pending.isSome)
      fun m' => m'.Sound Γ 0 x ∧ m'.Sane m'.pending.isSome := by
  have called : (call v m).Meets False _ _ := call_meets h.framed hv
  have sane (m' : Machine) (steady : m.Steady m.calls.length m') (hq : m.Queues m') :
      m'.Sane m'.pending.isSome := by
    obtain ⟨vs, hvs⟩ := hq.frames
    exact hs.of_queued (hq.pending ▸ id) (hs.civil.of_queues hq) hvs steady
  exact ((ordinary_call v).fair (called.and (call_queues v))).mono
    (fun _ m' ⟨⟨sound, steady⟩, hq⟩ => ⟨sound.unframed, sane m' steady hq⟩)
    fun m' ⟨⟨sound, steady⟩, hq⟩ => ⟨sound.unframed, sane m' steady hq⟩

/-- Once an ordinary exception is pending. -/
theorem raise_sane {e : Exception} (h : m.Sound Γ n x) (hs : m.Sane True) (he : e.Ordinary) :
    (raise e m).Meets False (fun _ m' => m'.Sound Γ 0 x ∧ m'.Sane m'.pending.isSome)
      fun _ => False := by
  have calls : Spares Machine.calls (raise e) := spares_raise (fun _ _ _ _ => rfl) e
  have raised : (raise e m).Meets False (fun _ m' => m'.Sound Γ m.calls.length x ∧
      m.Steady m.calls.length m') fun _ => False := raise_meets h.framed e
  refine (raised.and ((calls m).and (raise_civil hs.civil he))).mono
    (fun _ m' ⟨⟨sound, steady⟩, hcalls, hcivil, hpending⟩ => ?_) fun _ => And.left
  have hframes : m'.calls.frames = Frame.queued [] ++ m.calls.frames := by rw [hcalls]; rfl
  exact ⟨sound.unframed, hs.of_queued (fun _ => hpending) hcivil hframes steady⟩

/-- Taking away the pending exception, where every frame is poised. -/
theorem intercept_sane (h : m.Sound Γ n x) (hs : m.Sane False) :
    (intercept m).Meets False (fun _ m' => m'.Sound Γ 0 x ∧ m'.Sane m'.pending.isSome)
      fun _ => False := by
  have calls : Spares Machine.calls intercept := spares_intercept fun _ _ _ => rfl
  have taken : (intercept m).Meets False (fun _ m' => m'.Sound Γ m.calls.length x ∧
      m.Steady m.calls.length m') fun _ => False := intercept_meets h.framed
  refine (taken.and ((calls m).and (intercept_recorded hs.civil))).mono
    (fun _ m' ⟨⟨sound, steady⟩, hcalls, hcivil⟩ => ?_) fun _ => And.left
  have hframes : m'.calls.frames = Frame.queued [] ++ m.calls.frames := by rw [hcalls]; rfl
  exact ⟨sound.unframed, hs.of_queued False.elim hcivil hframes steady⟩

end Machine

end StackScript
