import StackScript.Proofs.Operator.Honest
import StackScript.Proofs.Guarantees.Protocol

/-!
# Call frames are isolated

A cycle touches one of the call frames that are there, the top one.  Every frame below it keeps its
value, its continuation state, its cursor, its supply, the exception set aside in it, and the
dictionary of its locals, whatever the operator of the top frame asks for; and an operator keeps
addressing its own frame when it has queued work above it (`call_frames_isolated`).

What the locals of the frames below are bound to stays too, as long as references are counted right:
an operator that keeps a value whose reference it has given up may find the locals of a frame in its
place (`stale_reference_reaches_locals`).
-/

namespace StackScript

variable {χ : Type}

/-- The bindings of the locals are as they were where the dictionaries are. -/
theorem Machine.Sound.localOf_of_steady {Γ : Charter} {n k : ℕ} {x y : Stake} {m m' : Machine}
    {f : Frame} (h : m.Sound Γ 0 x) (h' : m'.Sound Γ 0 y) (steady : m.Steady n m') (hk : k < n)
    (hf : m.calls.frame? k = some f) (hf' : m'.calls.frame? k = some f) (name : String) :
    m'.localOf f name = m.localOf f name := by
  obtain ⟨r, hr, bound⟩ := h.localOf_ok hf name
  obtain ⟨r', hr', bound'⟩ := h'.localOf_ok hf' name
  have same (v : Value) : m'.LocalIs k name v ↔ m.LocalIs k name v := by
    rw [Machine.LocalIs, Machine.LocalIs, steady k hk]
  rw [hr, hr']
  exact congrArg Except.ok (Option.ext fun v => (bound' v).trans ((same v).trans (bound v).symm))

/-- **Call frames are isolated.**  Whatever the operators of a host are made of, a cycle removes,
replaces or updates the top frame and queues frames above it, and leaves the frames below as they
are.  If references are counted right and the operator keeps to what it holds, the locals of those
frames are bound as they were, and references are counted right again.  At any time, an operator
addresses its own frame. -/
theorem call_frames_isolated (natives : Natives χ) :
    (∀ (s t : Session χ) (f : Frame) (rest : List Frame), s.machine.calls.frames = f :: rest →
      (Session.cycle natives s).state? = some t →
        f.Handled rest t.machine.calls.frames ∧
        (∀ k < rest.length, t.machine.calls.frame? k = s.machine.calls.frame? k) ∧
        ∀ Γ owned, s.machine.Sound Γ 0 (.refs owned) → s.machine.Fed (.refs owned) →
          s.Minds natives owned →
          (∃ owned, t.machine.Sound Γ 0 (.refs owned)) ∧
          ∀ k < rest.length, ∀ g, s.machine.calls.frame? k = some g → ∀ name,
            t.machine.localOf g name = s.machine.localOf g name) ∧
      ∀ (m : Machine) (above : List Frame) (f : Frame) (rest : List Frame),
        m.calls.frames = above ++ f :: rest → m.Addresses above f rest := by
  refine ⟨fun s t f rest hframes ht => ?_, fun m above f rest => Machine.addresses⟩
  have handled : f.Handled rest t.machine.calls.frames :=
    (Session.cycle_handles hframes).of_state? ht
  have below (k : ℕ) (hk : k < rest.length) :
      t.machine.calls.frame? k = s.machine.calls.frame? k := handled.frame? hframes hk
  refine ⟨handled, below, fun Γ owned h hfed minds => ?_⟩
  obtain ⟨⟨owned', sound⟩, steady⟩ : s.machine.Intact Γ 0 rest.length 0 t.machine :=
    (Session.cycle_preserves hframes minds h hfed).of_state? ht
  rw [zero_add] at sound
  refine ⟨⟨owned', sound⟩, fun k hk g hg name => ?_⟩
  exact h.localOf_of_steady sound steady hk hg ((below k hk).trans hg) name

/-- An operator that counts in a local of its own. -/
def Native.tally : Native Unit :=
  .stateless [] fun _ => Operation.setLocal "count" (.integer (.ofInt 7))

/-- It passes on nothing but an integer. -/
theorem Session.minds_tally (s : Session Unit) : s.Minds (fun _ => .tally) [] := by
  intro f rest name looping _ _ params t _
  refine ⟨[], .rfl, fun v hv => ?_, fun _ _ _ => trivial, fun _ _ _ => trivial⟩
  rw [List.mem_singleton.1 hv]
  exact Machine.knows_of_handle?_none rfl

/-- A host that queues this operator while a loop executes its block. -/
def Session.tallying : Option (Session Unit) :=
  (Session.trial {} "2 { 1 2 } repeat" 12).bind fun s =>
    match (Request.call (.operator (.native "tally" false))).perform none s.machine with
    | .done _ m => some { s with machine := m }
    | _ => none

/-- The operator counts, and the loop below keeps the count it had; the loop addresses its own frame
all the while. -/
theorem call_frames_isolated_in_loop :
    ∃ (s t : Session Unit) (f g : Frame) (rest : List Frame),
      s.machine.calls.frames = f :: rest ∧ f.value = .operator (.native "tally" false) ∧
        (Session.cycle (fun _ => .tally) s).state? = some t ∧
        s.machine.calls.frame? 1 = some g ∧ t.machine.calls.frame? 1 = some g ∧
        s.machine.localOf g "count" = .ok (some (.integer (.ofInt 1))) ∧
        t.machine.localOf g "count" = .ok (some (.integer (.ofInt 1))) ∧
        s.machine.Addresses (s.machine.calls.frames.take 2) g (s.machine.calls.frames.drop 3) := by
  have facts : Session.tallying.bind (fun s => (Session.cycle (fun _ => .tally) s).state?.bind
      fun _ => s.machine.calls.frames.head?.bind fun f => (s.machine.calls.frame? 1).map fun g =>
        (f.value, s.machine.calls.frames.length, s.machine.offered?,
          s.machine.localOf g "count" == .ok (some (.integer (.ofInt 1))))) =
      some (.operator (.native "tally" false), 4, none, true) := by decide +kernel
  obtain ⟨s, hs, facts⟩ := Option.bind_eq_some_iff.1 facts
  obtain ⟨t, ht, facts⟩ := Option.bind_eq_some_iff.1 facts
  obtain ⟨f, hf, facts⟩ := Option.bind_eq_some_iff.1 facts
  obtain ⟨g, hg, facts⟩ := Option.map_eq_some_iff.1 facts
  simp only [Prod.mk.injEq, beq_iff_eq] at facts
  obtain ⟨hvalue, hlength, hoffered, hlocal⟩ := facts
  -- the host has got there with the builtins
  obtain ⟨m₀, created, reached⟩ : ∃ m₀ : Machine, m₀.Created {} ∧ Reached m₀ [] s := by
    obtain ⟨s₀, hs₀, hcall⟩ := Option.bind_eq_some_iff.1 hs
    obtain ⟨m₀, created, reached⟩ := Reached.of_trial (by rintro t ⟨⟩) hs₀
    refine ⟨m₀, created, ?_⟩
    split at hcall
    · rename_i u m hm
      obtain rfl := Option.some.inj hcall
      refine reached.answered (r := .call _) .rfl (fun v hv => ?_) hm
      rw [List.mem_singleton.1 hv]
      exact Machine.knows_of_handle?_none rfl
    · cases hcall
  obtain ⟨Γ, -, kept⟩ := reached.sound created
  have fed : s.machine.Fed (.refs []) := fun v hv => by rw [hoffered] at hv; cases hv
  obtain ⟨rest, hframes⟩ : ∃ rest, s.machine.calls.frames = f :: rest := by
    cases hframes : s.machine.calls.frames with
    | nil => rw [hframes] at hf; cases hf
    | cons f' rest => rw [hframes] at hf; exact ⟨rest, by rw [Option.some.inj hf]⟩
  have hrest : 1 < rest.length := by
    rw [hframes, List.length_cons] at hlength
    omega
  obtain ⟨-, below, locals⟩ :=
    (call_frames_isolated (fun _ => Native.tally)).1 s t f rest hframes ht
  have kept := (locals Γ [] kept.sound fed s.minds_tally).2 1 hrest g hg "count"
  have split : s.machine.calls.frames =
      s.machine.calls.frames.take 2 ++ g :: s.machine.calls.frames.drop 3 := by
    rw [CallStack.frame?, CallStack.length, hlength] at hg
    obtain ⟨_, hget⟩ := List.getElem?_eq_some_iff.1 (show s.machine.calls.frames[2]? = some g from hg)
    rw [← hget, ← List.drop_eq_getElem_cons, List.take_append_drop]
  exact ⟨s, t, f, g, rest, hframes, hvalue, ht, hg, (below 1 hrest).trans hg, hlocal,
    kept.trans hlocal, (call_frames_isolated (fun _ => Native.tally)).2 _ _ _ _ split⟩

/-! ### An operator that keeps a stale reference -/

/-- An operator that creates a dictionary, gives its reference up, and keeps the value. -/
def Native.grabber : Native (Option Value) := .function [] fun _ _ => do
  let v ← Operation.createDictionary
  Operation.release v
  return (some v, .ok ())

/-- An operator that binds a name in the dictionary that has been kept. -/
def Native.poker : Native (Option Value) := .function [] fun _ kept => do
  if let some v := kept then Operation.define v "count" (.integer (.ofInt 0))
  return (kept, .ok ())

/-- Both of them. -/
def Natives.meddlers : Natives (Option Value) := fun name =>
  if name = "grab" then .grabber else .poker

/-- A host scope with these operators. -/
def Setup.meddlers : Setup Unit := do
  Setup.define "grab" (.operator (.native "grab" false))
  Setup.define "poke" (.operator (.native "poke" false))

/-- What becomes of a host that creates a machine with them and runs a text on it, with the machine
it has created. -/
def Session.meddled (text : String) (budget : ℕ) : Option (Machine × Session (Option Value)) :=
  match Machine.create {} Setup.meddlers with
  | .done (m, _) _ =>
    ((HostAct.execute (.source text "-")).perform Natives.meddlers ⟨m, none⟩).state?.bind fun s =>
      ((HostAct.run budget).perform Natives.meddlers s).state?.map (m, ·)
  | _ => none

/-- **A stale reference reaches the locals of another frame.**  The dictionary whose reference has
been given up is gone, the loop binds its locals in the cell that got free, and the operator in its
block, through the value that was kept, binds the count of the loop below. -/
theorem stale_reference_reaches_locals :
    ∃ (m₀ : Machine) (a : Unit) (μ : Memory) (w : Watched (Option Value))
      (t : Session (Option Value)) (f : Frame),
      Machine.create {} Setup.meddlers = .done (m₀, a) μ ∧ Followed Natives.meddlers m₀ w ∧
        (Session.cycle Natives.meddlers w.session).state? = some t ∧
        w.machine.calls.length = 3 ∧ w.machine.calls.frame? 1 = some f ∧
        t.machine.calls.frame? 1 = some f ∧
        w.machine.localOf f "count" = .ok (some (.integer (.ofInt 1))) ∧
        t.machine.localOf f "count" = .ok (some (.integer (.ofInt 0))) := by
  have facts : (Session.meddled "2 { 1 poke } grab repeat" 19).bind (fun r =>
      (Session.cycle Natives.meddlers r.2).state?.bind fun t => (r.2.machine.calls.frame? 1).map
        fun f => (r.2.machine.calls.length, t.machine.calls.frame? 1 == some f,
          r.2.machine.localOf f "count" == .ok (some (.integer (.ofInt 1))),
          t.machine.localOf f "count" == .ok (some (.integer (.ofInt 0))))) =
      some (3, true, true, true) := by decide +kernel
  obtain ⟨⟨m, s⟩, hs, facts⟩ := Option.bind_eq_some_iff.1 facts
  obtain ⟨t, ht, facts⟩ := Option.bind_eq_some_iff.1 facts
  obtain ⟨f, hf, facts⟩ := Option.map_eq_some_iff.1 facts
  simp only [Prod.mk.injEq, beq_iff_eq] at facts
  obtain ⟨hlength, hf', hbefore, hafter⟩ := facts
  unfold Session.meddled at hs
  split at hs
  · rename_i m₀ a μ hm₀
    obtain ⟨s₁, hexecute, hrun⟩ := Option.bind_eq_some_iff.1 hs
    obtain ⟨s₂, hran, hpair⟩ := Option.map_eq_some_iff.1 hrun
    obtain ⟨rfl, rfl⟩ := Prod.mk.inj hpair
    have start : Followed Natives.meddlers m₀ ⟨⟨m₀, none⟩, [m₀]⟩ := .start none
    obtain ⟨w₁, h₁, rfl⟩ := start.exists_act _ hexecute
    obtain ⟨w, h, rfl⟩ := h₁.exists_act _ hran
    exact ⟨m₀, a, μ, w, t, f, hm₀, h, ht, hlength, hf, hf', hbefore, hafter⟩
  · cases hs

end StackScript
