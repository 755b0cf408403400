import StackScript.Proofs.Guarantees.Protocol
import StackScript.Proofs.Machine.Unwinding

/-!
# The pop-time hook always fires

An operator that asks for another invocation on its way out gets it.  Whatever happens above its
frame, the frame waits until it is the top one, and the next cycle invokes the operator then, with
an exception pending or not.  After an invocation in `Continuation.callBeforePop` it is in another
state; one that succeeds and stays in a popping state waits again; one that fails is the last
(`pop_time_hook_fires`).
-/

namespace StackScript

open Relation (ReflTransGen)

namespace Session

variable {χ : Type} {natives : Natives χ} {s t u v : Session χ} {k : ℕ} {f g : Frame}
  {rest : List Frame} {c : Continuation}

/-! ### After a failure -/

/-- **An operator that is done is not invoked again**: for as long as its frame is there, it is in
this state, and a cycle that meets it as the top frame only removes it. -/
theorem spent_lasts (h : Engaged natives s) (hf : s.machine.calls.frame? k = some f)
    (hstate : f.state = .pop) (hlasts : Lasts natives k s t) :
    t.machine.calls.frame? k = some f ∧ ∀ rest, t.machine.calls.frames = f :: rest →
      rest.length = k → step natives k f t = popFrame t := by
  have stays : t.machine.calls.frame? k = some f ∧ Engaged natives t := by
    induction hlasts with
    | refl => exact ⟨hf, h⟩
    | @tail u t _ step ih =>
      obtain ⟨hu, engaged⟩ := ih
      refine ⟨?_, step.1.engaged engaged⟩
      rcases step.1.waits hu with stays | ⟨rest, hframes, rfl, ht⟩
      · exact stays
      · obtain ⟨w, hw, hcalls⟩ := exists_step_of_cycle hframes ht
        rw [step_of_spent engaged hframes hstate] at hw
        have top : u.machine.calls.length = rest.length + 1 := by simp [CallStack.length, hframes]
        have vacated : (popFrame u).Meets True
            (fun _ w => w.machine.calls.length = rest.length ∨ w.machine.calls = u.machine.calls)
            fun w => w.machine.calls.length = rest.length ∨ w.machine.calls = u.machine.calls :=
          (popFrame_vacates top).mono (fun _ _ => Or.inl) fun _ => Or.inr
        rcases vacated.of_state? hw with gone | same
        · have := step.2
          rw [hcalls, gone] at this
          exact absurd this (lt_irrefl _)
        · rw [hcalls, same]
          exact hu
  refine ⟨stays.1, fun rest hframes hk => ?_⟩
  rw [← hk]
  exact step_of_spent stays.2 hframes hstate

/-! ### The hook -/

/-- What becomes of the frame `f`, on its way out and the top one, when its operator is invoked. -/
structure HookFires (natives : Natives χ) (k : ℕ) (f : Frame) (s : Session χ)
    (invoke : List Value → Action (Session χ) Unit) (t : Session χ) : Prop where
  /-- One invocation in `callBeforePop` is all there is before the operator moves on. -/
  once : f.state = .callBeforePop → ∀ g, t.machine.calls.frame? k = some g →
    g.state ≠ .callBeforePop
  /-- An operator that stays in a popping step stays. -/
  again : ∀ u g n, invoke [] s = .done () u → u.machine.calls.frame? k = some g →
    g.state = .popping n → t.machine.calls.frame? k = some g
  /-- An operator that fails is not invoked any more. -/
  last : ∀ e u, invoke [] s = .raised e u → ∃ g, t.machine.calls.frame? k = some g ∧
    g.state = .pop ∧ ∀ v, Lasts natives k t v → v.machine.calls.frame? k = some g ∧
      ∀ rest, v.machine.calls.frames = g :: rest → rest.length = k →
        step natives k g v = popFrame v

/-- The operator of the top frame, on its way out, is invoked in the next cycle. -/
theorem hook_fires (h : Engaged natives s) (hframes : s.machine.calls.frames = f :: rest)
    (hf : f.state.isPopping = true) :
    ∃ o signature invoke, f.value.toOperator? = some o ∧
      Behaviour.ofOperator natives o = .function signature invoke ∧
      step natives rest.length f s = resume rest.length f.state (invoke rest.length) s ∧
      ∀ t, (cycle natives s).state? = some t →
        HookFires natives rest.length f s (invoke rest.length) t := by
  obtain ⟨o, signature, invoke, ho, hinvoke, hstep⟩ := step_of_popping h hframes hf
  refine ⟨o, signature, invoke, ho, hinvoke, hstep, fun t ht => ?_⟩
  obtain ⟨w, hw, hcalls⟩ := exists_step_of_cycle hframes ht
  rw [hstep] at hw
  have worked : Works f rest s (invoke rest.length []) :=
    invoke_works hinvoke [] (Frame.worked_of_frames hframes)
  -- an invocation that fails leaves the frame done
  have abandoned (e : Exception) (u : Session χ)
      (hinvoked : invoke rest.length [] s = .raised e u) :
      ∃ g, t.machine.calls.frame? rest.length = some g ∧ g.state = .pop := by
    unfold Works at worked
    rw [hinvoked] at worked
    obtain ⟨vs, g, hu, -⟩ := worked
    have hg : u.machine.calls.frame? rest.length = some g := CallStack.frame?_above hu
    rw [resume_of_raised hf hinvoked hg] at hw
    obtain rfl := Option.some.inj hw
    exact ⟨_, by rw [hcalls]; exact Machine.frame?_withFrame hg _, rfl⟩
  have finished (u : Session χ) (hinvoked : invoke rest.length [] s = .done () u) :
      (settle rest.length f.state u).state? = some w := by
    rwa [resume_of_done hinvoked] at hw
  refine ⟨fun hstate g hg => ?_, fun u g n hinvoked hg hstate => ?_, fun e u hinvoked => ?_⟩
  · cases hinvoked : invoke rest.length [] s with
    | done a u =>
      unfold Works at worked
      rw [hinvoked] at worked
      obtain ⟨vs, g₁, hu, -⟩ := worked
      have left := (settle_leaves (CallStack.frame?_above hu) f.state).of_state?
        (finished u hinvoked) g (hcalls ▸ hg)
      rcases left with ⟨rfl, moved⟩ | gone
      · exact hstate ▸ moved hstate
      · rw [gone]
        simp
    | raised e u =>
      obtain ⟨g', hg', gone⟩ := abandoned e u hinvoked
      obtain rfl := Option.some.inj (hg.symm.trans hg')
      rw [gone]
      simp
    | broken b =>
      rw [resume, Action.bind_apply, Action.onRaise, hinvoked] at hw
      cases hw
  · have settled := finished u hinvoked
    rw [settle_of_popping hg hstate] at settled
    rw [hcalls, ← Option.some.inj settled]
    exact hg
  · obtain ⟨g, hg, hstate⟩ := abandoned e u hinvoked
    exact ⟨g, hg, hstate, fun v hv => spent_lasts ((Goes.cycle ht).engaged h) hg hstate hv⟩

end Session

/-- **The pop-time hook always fires**, for every machine a host can create, all operators a host
can have, and every course.  A frame on its way out waits until it is the top one in a cycle, and
the first such cycle invokes its operator; an invocation in `callBeforePop` is not repeated, one that
stays in a popping step is, and after one that fails the operator is not invoked again. -/
theorem pop_time_hook_fires {χ α : Type} {options : Options} {setup : Setup α} {m₀ : Machine} {a : α}
    {μ : Memory} (hm₀ : Machine.create options setup = .done (m₀, a) μ) (natives : Natives χ)
    (host : χ) {s : Session χ} (hs : ReflTransGen (Session.Goes natives) ⟨m₀, host⟩ s) {k : ℕ}
    {f : Frame} (hk : s.machine.calls.frame? k = some f) (hf : f.state.isPopping = true) :
    (∀ t, ReflTransGen (Session.Goes natives) s t →
      Session.Waits natives k f s t ∨ ∃ u v rest, Session.Waits natives k f s u ∧
        u.machine.calls.frames = f :: rest ∧ rest.length = k ∧
        (Session.cycle natives u).state? = some v ∧ ReflTransGen (Session.Goes natives) v t) ∧
      ∀ rest, s.machine.calls.frames = f :: rest → rest.length = k →
        ∃ o signature invoke, f.value.toOperator? = some o ∧
          Behaviour.ofOperator natives o = .function signature invoke ∧
          Session.step natives k f s = Session.resume k f.state (invoke k) s ∧
          ∀ t, (Session.cycle natives s).state? = some t →
            Session.HookFires natives k f s (invoke k) t := by
  have engaged : Session.Engaged natives s :=
    Session.engaged_of_goes (Machine.frames_of_create hm₀) hs
  refine ⟨fun t ht => Session.waits_of_goes hk ht, ?_⟩
  rintro rest hframes rfl
  exact Session.hook_fires engaged hframes hf

/-- What becomes of a host that calls the wanderer and runs some cycles. -/
def Session.wandering (budget : ℕ) : Option (Session Unit) :=
  match Machine.create {} Setup.table with
  | .done (m, _) _ =>
    let call := HostAct.request (.call (.operator (.native "wander" false)))
    ((call.perform (fun _ => Native.wanderer) ⟨m, ()⟩).state?).bind fun s =>
      ((HostAct.run budget).perform (fun _ => Native.wanderer) s).state?
  | _ => none

/-- The wanderer asks for another invocation in the round in which it is told to go, gets it, and
moves on to a popping step; the next invocation fails. -/
theorem pop_time_hook_fires_of_wanderer :
    ∃ (s : Session Unit) (f : Frame), s.machine.calls.frames = [f] ∧ f.state = .callBeforePop ∧
      ∃ (o : Operator) (signature : List Param)
        (invoke : ℕ → List Value → Action (Session Unit) Unit),
        Behaviour.ofOperator (fun _ => Native.wanderer) o = .function signature invoke ∧
          Session.step (fun _ => Native.wanderer) 0 f s =
            Session.resume 0 .callBeforePop (invoke 0) s ∧
          ∀ t, (Session.cycle (fun _ => Native.wanderer) s).state? = some t →
            Session.HookFires (fun _ => Native.wanderer) 0 f s (invoke 0) t := by
  have facts : (Session.wandering 2).map (fun s => s.machine.calls.frames.map (·.state)) =
      some [.callBeforePop] := by decide +kernel
  obtain ⟨s, hs, hstates⟩ := Option.map_eq_some_iff.1 facts
  obtain ⟨f, hframes, hstate⟩ := List.map_eq_singleton_iff.1 hstates
  unfold Session.wandering at hs
  split at hs
  · rename_i m a μ hm
    obtain ⟨s₁, hcall, hrun⟩ := Option.bind_eq_some_iff.1 hs
    obtain ⟨o, signature, invoke, -, hinvoke, hstep, hfires⟩ :=
      (pop_time_hook_fires hm (fun _ => Native.wanderer) () ((HostAct.goes _ hcall).trans
        (HostAct.goes _ hrun)) (CallStack.frame?_head hframes) (by rw [hstate]; rfl)).2
        [] hframes rfl
    refine ⟨s, f, hframes, hstate, o, signature, invoke, hinvoke, ?_, hfires⟩
    rw [← hstate]
    exact hstep
  · cases hs

end StackScript
