import StackScript.Proofs.Machine.Arriving

/-!
# Runs that complete, and runs that go on for ever

A run *completes* if it comes to a session in which no work is left, and it *goes on for ever* if there
is work left whatever its budget (`Session.Completes`, `Session.RunsForever`).  It does one of the two at
most, and completes in one way only.  Both can be told from any session the run comes to, so many cycles
later (`Session.After`).

A session is *unhindered* if it is ample, whatever it is under, and takes no containers from a host.  It
stays so, and no cycle of it fails (`Session.Unhindered.next`).
-/

namespace StackScript

/-- No container is among the values. -/
def Supply.Plain (p : Supply) : Prop := ∀ v rest, p.next? = some (v, rest) → v.handle? = none

namespace Session

open Relation (ReflTransGen)

variable {χ : Type} {s t u : Session χ} {f : Frame} {rest : List Frame} {n k : ℕ}

/-! ### Cycles, one after the other -/

/-- So many cycles lead from the one session to the other, and there was work for each. -/
def After : ℕ → Session χ → Session χ → Prop
  | 0, s, t => s = t
  | n + 1, s, t =>
    s.machine.calls.frames ≠ [] ∧ ∃ more u, cycle Natives.none s = .done more u ∧ After n u t

/-- A run comes to a session in which no work is left. -/
def Completes (s t : Session χ) : Prop :=
  t.machine.calls.frames = [] ∧ ∃ budget count, runFrom Natives.none 0 budget s = .done count t

/-- A run uses up its budget, whatever it is, and work is left. -/
def RunsForever (s : Session χ) : Prop :=
  ∀ budget, ∃ t, runFrom Natives.none 0 budget s = .done budget t ∧ t.machine.calls.frames ≠ []

theorem runFrom_of_idle (hs : s.machine.calls.frames = []) (count budget : ℕ) :
    runFrom Natives.none count budget s = .done count s := by
  cases budget with
  | zero => rfl
  | succ budget => rw [runFrom, if_pos (by simp [CallStack.isEmpty, hs])]

theorem runFrom_of_work (hs : s.machine.calls.frames ≠ []) {more : Bool}
    (hu : cycle Natives.none s = .done more u) (count budget : ℕ) :
    runFrom Natives.none count (budget + 1) s = runFrom Natives.none (count + 1) budget u := by
  rw [runFrom, if_neg (by simp [CallStack.isEmpty, hs]), hu]

/-- Cycles done before are counted, and matter to nothing else. -/
theorem runFrom_add {count budget m : ℕ} (h : runFrom Natives.none count budget s = .done m t)
    (k : ℕ) : runFrom Natives.none (count + k) budget s = .done (m + k) t := by
  induction budget generalizing count s with
  | zero =>
    obtain ⟨rfl, rfl⟩ := Outcome.done.inj h
    rfl
  | succ budget ih =>
    by_cases hs : s.machine.calls.frames = []
    · rw [runFrom_of_idle hs] at h ⊢
      obtain ⟨rfl, rfl⟩ := Outcome.done.inj h
      rfl
    · cases hc : cycle Natives.none s with
      | done more u =>
        rw [runFrom_of_work hs hc] at h ⊢
        rw [Nat.add_right_comm]
        exact ih h
      | raised e u | broken b =>
        rw [runFrom, if_neg (by simp [CallStack.isEmpty, hs]), hc] at h
        cases h

/-! ### After some cycles -/

theorem After.trans {m : ℕ} (h : After m s t) (h' : After n t u) : After (m + n) s u := by
  induction m generalizing s with
  | zero =>
    cases h
    rwa [Nat.zero_add]
  | succ m ih =>
    obtain ⟨work, more, v, hv, h⟩ := h
    rw [Nat.add_right_comm]
    exact ⟨work, more, v, hv, ih h⟩

theorem After.runFrom (h : After n s t) : Session.runFrom Natives.none 0 n s = .done n t := by
  induction n generalizing s with
  | zero =>
    cases h
    rfl
  | succ n ih =>
    obtain ⟨work, more, u, hu, h⟩ := h
    rw [runFrom_of_work work hu]
    exact runFrom_add (ih h) 1

theorem After.completes (h : After n s t) (ht : t.machine.calls.frames = []) : Completes s t :=
  ⟨ht, n, n, h.runFrom⟩

/-- A run that completes has done so after some cycles. -/
theorem Completes.exists_after (h : Completes s t) : ∃ n, After n s t := by
  obtain ⟨ht, budget, count, h⟩ := h
  generalize 0 = first at h
  induction budget generalizing first s with
  | zero =>
    obtain ⟨-, rfl⟩ := Outcome.done.inj h
    exact ⟨0, rfl⟩
  | succ budget ih =>
    by_cases hs : s.machine.calls.frames = []
    · rw [runFrom_of_idle hs] at h
      obtain ⟨-, rfl⟩ := Outcome.done.inj h
      exact ⟨0, rfl⟩
    · cases hc : cycle Natives.none s with
      | done more u =>
        rw [runFrom_of_work hs hc] at h
        obtain ⟨n, hn⟩ := ih (first + 1) h
        exact ⟨n + 1, hs, more, u, hc, hn⟩
      | raised e u | broken b =>
        rw [Session.runFrom, if_neg (by simp [CallStack.isEmpty, hs]), hc] at h
        cases h

/-- What completes later completes. -/
theorem After.completes_of (h : After n s t) (ht : Completes t u) : Completes s u := by
  obtain ⟨m, hm⟩ := ht.exists_after
  exact (h.trans hm).completes ht.1

theorem runsForever_of_after (h : ∀ n, ∃ t, After n s t ∧ t.machine.calls.frames ≠ []) :
    RunsForever s := by
  intro budget
  obtain ⟨t, ht, work⟩ := h budget
  exact ⟨t, ht.runFrom, work⟩

/-- What goes on for ever later does so from the start. -/
theorem After.runsForever (h : After n s t) (ht : RunsForever t) : RunsForever s := by
  induction n generalizing s with
  | zero => exact (h : s = t) ▸ ht
  | succ n ih =>
    obtain ⟨work, more, u, hu, h⟩ := h
    intro budget
    cases budget with
    | zero => exact ⟨s, rfl, work⟩
    | succ budget =>
      obtain ⟨v, hv, later⟩ := ih h budget
      exact ⟨v, by rw [runFrom_of_work work hu]; exact runFrom_add hv 1, later⟩

theorem After.unique {m : ℕ} (h : After m s t) (ht : t.machine.calls.frames = []) (h' : After n s u)
    (hu : u.machine.calls.frames = []) : t = u := by
  induction m generalizing n s with
  | zero =>
    cases h
    cases n with
    | zero => exact h'
    | succ n => exact absurd ht h'.1
  | succ m ih =>
    obtain ⟨work, more, v, hv, h⟩ := h
    cases n with
    | zero => exact absurd ((h' : s = u) ▸ hu) work
    | succ n =>
      obtain ⟨-, more', v', hv', h'⟩ := h'
      obtain ⟨-, rfl⟩ := Outcome.done.inj (hv.symm.trans hv')
      exact ih h h'

/-- **A run completes in one way.** -/
theorem Completes.unique (h : Completes s t) (h' : Completes s u) : t = u := by
  obtain ⟨m, hm⟩ := h.exists_after
  obtain ⟨n, hn⟩ := h'.exists_after
  exact hm.unique h.1 hn h'.1

/-- **A run that completes does not go on for ever.** -/
theorem Completes.not_runsForever (h : Completes s t) : ¬ RunsForever s := by
  intro forever
  obtain ⟨n, hn⟩ := h.exists_after
  obtain ⟨u, hu, work⟩ := forever n
  obtain ⟨-, rfl⟩ := Outcome.done.inj (hn.runFrom.symm.trans hu)
  exact work h.1

/-! ### Sessions that are unhindered -/

/-- The session is ample, and no container is among what it takes from its host. -/
def Unhindered (s : Session χ) : Prop :=
  ∃ Γ x, (∀ p, Charter.supplies Γ p → p.Plain) ∧ s.Ample Γ x []

/-- What a session takes is known if it is no container. -/
theorem Ample.fed {Γ : Charter} {x : Stake} (h : s.Ample Γ x []) (hΓ : ∀ p, Γ.supplies p → p.Plain) :
    s.machine.Fed x := by
  intro v hv
  unfold Machine.offered? at hv
  split at hv
  · cases hv
  · obtain ⟨f, hf, hv⟩ := Option.bind_eq_some_iff.1 hv
    obtain ⟨p, hp, hv⟩ := Option.bind_eq_some_iff.1 hv
    obtain ⟨⟨w, later⟩, hnext, rfl⟩ := Option.map_eq_some_iff.1 hv
    exact Machine.knows_of_handle?_none
      (hΓ p (h.sound.supplied f (List.mem_of_head? hf) p hp) w later hnext)

/-- **A cycle of an unhindered session** is done, and the session is unhindered after it. -/
theorem Unhindered.next (h : s.Unhindered) (hs : s.machine.calls.frames ≠ []) :
    ∃ more t, cycle Natives.none s = .done more t ∧ t.Unhindered := by
  obtain ⟨Γ, x, hΓ, ample⟩ := h
  obtain ⟨f, rest, hframes⟩ := List.exists_cons_of_ne_nil hs
  have ends := cycle_meets (Behaviour.works_none Γ) ample.sound (ample.fed hΓ)
  cases hc : cycle Natives.none s with
  | done more t =>
    refine ⟨more, t, rfl, Γ, x, hΓ, (ample.of_next hframes (List.cons_ne_nil _ _) (ample.fed hΓ) ?_).1⟩
    rw [Next, hc]
    rfl
  | raised e t => rw [hc] at ends; exact ends.elim
  | broken b => rw [hc] at ends; exact ends.elim

/-- **Cycles that leave no work** make a run that completes. -/
theorem Cycles.completes (h : Cycles s t) (hs : s.Unhindered) (idle : t.machine.calls.frames = []) :
    s.Completes t := by
  induction h using ReflTransGen.head_induction_on with
  | refl => exact ⟨idle, 0, 0, rfl⟩
  | @head s u next _ ih =>
    by_cases work : s.machine.calls.frames = []
    · obtain rfl := eq_of_idle work next
      exact ih hs
    · obtain ⟨more, v, hv, unhindered⟩ := hs.next work
      rw [Next, hv] at next
      obtain rfl := Option.some.inj next
      have one : After 1 s v := ⟨work, more, v, hv, rfl⟩
      exact one.completes_of (ih unhindered)

end Session

end StackScript
