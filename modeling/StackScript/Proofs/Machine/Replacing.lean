import StackScript.Proofs.Guarantees.Protocol
import StackScript.Proofs.Machine.Arriving
import StackScript.Proofs.Machine.Dispatching

/-!
# Frames that give way to others

A fresh frame takes the place of the top one, as that of the last item of a block does, and that of what
a name stands for.  Nothing is refused if it executes no string (`Machine.replaceFrame_done`).  The cells
are as before, but for the references to the values of the two frames.

Names stand for what they stood for after that (`Machine.resolution?_of_sheds`), and as many frames take
as many slots (`Served.reserve_eq`).
-/

namespace StackScript

open StackScript.Action
open Memory (Has)
open Cells

namespace Machine

variable {Γ Δ : Charter} {n k : ℕ} {x y : Stake} {m m' : Machine} {f : Frame} {rest : List Frame}
  {v : Value} {τ : Cells}

/-- The same number of frames needs the same slots. -/
theorem replaceFrame_sure (sound : m.Sound Γ n x) (hframes : m.calls.frames = f :: rest)
    (hv : v.string? = none) :
    (replaceFrame v m).Meets True (fun _ _ => True) fun _ => False := by
  refine meets_onCalls ?_
  rw [CallStack.replaceTop, hframes]
  have fits : m.calls.reserve.capacityFor (m.calls.length - [f.value].length + [v].length) =
      .ok m.calls.reserve.capacity := by
    rw [List.length_singleton, List.length_singleton,
      Nat.sub_add_cancel (by rw [CallStack.length, hframes]; exact Nat.succ_pos _)]
    exact sound.calls
  have exchanged : (m.calls.reserve.exchange m.calls.length [f.value] [v] m.memory).Meets True
      (fun _ _ => True) fun _ => False :=
    Reserve.exchange_granted fits (fun grows => absurd grows (lt_irrefl _)) (by simp [hv])
  exact meets_bind exchanged fun r μ _ =>
    meets_bind ((Frame.raises_dispose f).sure μ) fun _ _ _ => trivial

/-- The reference to what the one frame has executed goes, and that to what the other one executes comes. -/
theorem replaceFrame_swaps (sound : m.Sound Γ n x) (hτ : τ.Counted)
    (hframes : m.calls.frames = f :: rest) (hlocals : f.locals = none)
    (same : lend m.memory.heap.cell? [v] = τ.lend [f.value]) :
    (replaceFrame v m).Meets True (fun _ m' => m'.memory.heap.cell? = τ) fun _ => True := by
  obtain ⟨-, _, hb, -⟩ := sound.memory
  have counted : Counted m.memory.heap.cell? := hb.positive
  refine meets_onCalls ?_
  rw [CallStack.replaceTop, hframes]
  refine meets_bind (m.calls.reserve.exchange_swaps counted hτ hb.has same _) fun r μ hμ => ?_
  have disposed : (f.dispose μ).Meets True (fun _ μ' => μ'.Has τ) fun _ => True := by
    rw [Frame.dispose, hlocals]
    cases f.stash with
    | none => exact hμ
    | some stashed => exact (Memory.has_onLedger hμ _).mono (fun _ _ h => h) fun _ _ => trivial
  exact meets_bind disposed fun _ μ' hμ' => hμ'.cells

/-- **A frame gives way to another one.** -/
theorem replaceFrame_done (sound : m.Sound Γ 0 x) (growing : m.Growing)
    (hframes : m.calls.frames = f :: rest) (hlocals : f.locals = none) (hv : m.Knows x v)
    (htext : v.string? = none) :
    ∃ m', replaceFrame v m = .done () m' ∧
      m'.scene = { m.scene with frames := { value := v } :: rest } ∧ m.memory.Sheds m'.memory ∧
        ∀ τ : Cells, τ.Counted → lend m.memory.heap.cell? [v] = τ.lend [f.value] →
          m'.memory.heap.cell? = τ := by
  have kept : (replaceFrame v m).Meets False _ _ := replaceFrame_meets sound hv
  have granted := replaceFrame_grants growing hframes v
  have sure := replaceFrame_sure sound hframes htext
  have swaps (τ : Cells) (hτ : τ.Counted) (same : lend m.memory.heap.cell? [v] = τ.lend [f.value]) :=
    replaceFrame_swaps sound hτ hframes hlocals same
  cases hrun : replaceFrame v m with
  | done a m' =>
    rw [hrun] at granted
    simp only [hrun] at swaps
    exact ⟨m', rfl, granted.1.scene, granted.2, swaps⟩
  | raised e m' => rw [hrun] at sure; exact sure.elim
  | broken b => rw [hrun] at kept; exact kept.elim

/-- Names stand for what they stood for. -/
theorem resolution?_of_sheds (sound : m.Sound Γ n x) (sound' : m'.Sound Δ k y)
    (scopes : m'.scopes.items = m.scopes.items) (sheds : m.memory.Sheds m'.memory) (name : String) :
    m'.resolution? name = m.resolution? name := by
  have drifts : m.memory.heap.Drifts (fun _ => False) m'.memory.heap := Heap.Sheds.drifts sheds _
  have opened (i : Handle) (h : ∃ v ∈ m.scopes.items, v.handle? = some i) : m'.scene.Holds i := by
    rw [← scopes] at h
    exact .inr (.inr h)
  have retains := drifts.retains_of_unused (R := fun i => ∃ v ∈ m.scopes.items, v.handle? = some i)
    (fun _ => False.elim) sound.closed sound'.closed (fun i h => sound.live (.inl (.inr (.inr h))))
    fun i h => sound'.live (.inl (opened i h))
  exact resolution?_of_retains scopes retains (fun v hv i hi => ⟨v, hv, hi⟩) name

/-- What a name stands for is known. -/
theorem Sound.knows_of_resolution? {name : String} {scope : Value} (sound : m.Sound Γ n x)
    (h : m.resolution? name = some (scope, v)) : m.Knows x v := by
  obtain ⟨r, hr, known⟩ := sound.lookup_ok name
  rw [sound.lookup_eq, h] at hr
  exact known v (Except.ok.inj hr).symm

end Machine

variable {χ : Type} {natives : Natives χ} {options : Options} {m₀ : Machine}
  {owned owned' owned₁ owned₂ : List Value} {s t u : Session χ} {f : Frame} {base rest : List Frame}
  {v : Value} {k : ℕ}

namespace Session

/-- What a host gets to is determined by the number of cycles. -/
theorem Spans.unique (h : Spans natives base k owned s owned₁ t)
    (h' : Spans natives base k owned' s owned₂ u) : t = u := by
  induction h generalizing owned' with
  | refl => cases h'; rfl
  | cycle _ hs _ ih =>
    cases h' with
    | cycle _ hs' h' =>
      obtain rfl := Option.some.inj (hs.leads.symm.trans hs'.leads)
      exact ih h'

/-- A cycle of the top frame, and others after it. -/
theorem Spans.after (hframes : s.machine.calls.frames = f :: rest)
    (conducts : Conducts natives owned s owned₁ t) (h : Spans natives rest k owned₁ t owned₂ u) :
    Spans natives rest (k + 1) owned s owned₂ u :=
  .cycle (show s.machine.calls.frames = f :: ([] ++ rest) from hframes) conducts h

/-- What is no operator is none of the host's. -/
theorem alone_of_not_operator (hframes : s.machine.calls.frames = f :: rest)
    (hf : f.value.toOperator? = none) : s.Alone := by
  intro g rest' name looping hframes' ho
  obtain ⟨rfl, -⟩ := List.cons.inj (hframes.symm.trans hframes')
  rw [Machine.toOperator?_of_invoked? ho] at hf
  cases hf

end Session

namespace Served

/-- Frames of operators only have locals. -/
theorem locals_eq_none (hm₀ : m₀.Created options) (h : Served natives m₀ owned s)
    (hframes : s.machine.calls.frames = f :: rest) (hf : f.value.toOperator? = none) :
    f.locals = none := by
  obtain ⟨-, α, setup, a, μ, -, created⟩ := hm₀
  obtain ⟨w, hw, rfl⟩ := h.followed
  have orderly := (hw.faithful (Machine.idle_of_create created).1).orderly f (hframes ▸ .head rest)
  exact orderly.bare (orderly.idle hf)

/-- **As many frames** take as many slots. -/
theorem reserve_eq (hm₀ : m₀.Created options) (h : Served natives m₀ owned s)
    (h' : Served natives m₀ owned' t) (length : t.machine.calls.length = s.machine.calls.length) :
    t.machine.calls.reserve = s.machine.calls.reserve := by
  obtain ⟨Γ, -, sound⟩ := exists_charter hm₀
  have shape : t.machine.calls.reserve.shape = s.machine.calls.reserve.shape :=
    congrArg (fun p => p.2.1) (h'.shape_eq.trans h.shape_eq.symm)
  exact (sound h).calls.unique (length ▸ (sound h').calls) shape

/-- **The top frame gives way to another one**, if that is what its step is. -/
theorem replaces (hm₀ : m₀.Created options) (h : Served natives m₀ owned s)
    (hframes : s.machine.calls.frames = f :: rest) (hsupply : f.supply = none)
    (hf : f.value.toOperator? = none) (hv : s.machine.Knows (.refs owned) v) (htext : v.string? = none)
    (hstep : Session.step Natives.none rest.length f s = Session.onMachine (Machine.replaceFrame v) s) :
    ∃ t, Session.EndsIn natives owned rest
      { s.machine.scene with frames := { value := v } :: rest } s t ∧
        s.machine.memory.Sheds t.machine.memory ∧
        ∀ τ : Cells, τ.Counted → lend s.machine.memory.heap.cell? [v] = τ.lend [f.value] →
          t.machine.memory.heap.cell? = τ := by
  obtain ⟨Γ, -, sound⟩ := h.sound hm₀
  obtain ⟨m, replaced, scene, sheds, swaps⟩ := Machine.replaceFrame_done sound (h.growing hm₀) hframes
    (h.locals_eq_none hm₀ hframes hf) hv htext
  refine ⟨{ s with machine := m }, h.endsIn_of_done hm₀ (Session.alone_of_not_operator hframes hf)
    (Session.fed_of_no_supply hframes hsupply) hframes ?_ scene, sheds, swaps⟩
  rw [hstep, Session.onMachine_done replaced]

end Served

end StackScript
