import StackScript.Proofs.Machine.Moves
import StackScript.Proofs.Memory.Remains
import StackScript.Proofs.Memory.Restoration
import StackScript.Proofs.Operator.Honest

/-!
# Operands that are pinned

An operator that is invoked for the first time gets its operands with a reference taken on each, so
it may do whatever it likes with the places they came from.

* `Memory.retainAll_referenced`: taking further references cannot fail, and costs nothing;
* `Machine.Sound.exists_begun` and `Machine.Sound.exists_pinned`: nor can what comes before the
  operator works;
* `Program.Comes`: what a program is up to after some of its requests;
* `Operation.Honest.comes`: an honest operation is honest, and its machine sound, at any such point;
* `Machine.Contains`: values that are referred to have their containers and texts.
-/

namespace StackScript

/-! ### Further references -/

namespace Memory

variable {total : Option ℕ} {σ : ℕ → Label} {x : Stake} {m m' m'' : Memory} {v : Value}

/-- Of the ledger, nothing but the table of strings is different. -/
def SameCounters (m m' : Memory) : Prop :=
  m'.ledger = m.ledger.withStrings m'.ledger.strings

theorem SameCounters.trans (h : m.SameCounters m') (h' : m'.SameCounters m'') :
    m.SameCounters m'' := by
  rw [SameCounters, h', h]
  rfl

/-- A further reference to a value is granted, and costs nothing. -/
theorem retain_referenced (hb : m.Balanced total σ x) (hv : v ∈ x.values) :
    ∃ m', retain v m = .done () m' ∧ m'.Balanced total σ (x + .refs [v]) ∧ m.SameObjects m' ∧
      m.SameCounters m' := by
  have known : (x + m.heap.stake).Knows v := Stake.knows_of_mem (by simp [hv])
  have meets : (retain v m).Meets False
      (fun _ m' => m'.Balanced total σ (x + .refs [v]) ∧ m.SameObjects m') fun _ => False :=
    (retain_meets hb known).mono (fun _ _ => id) fun _ h => h.2 hv
  obtain ⟨_, m', retained, balanced, same⟩ := meets.exists_done
  refine ⟨m', retained, balanced, same, ?_⟩
  have onCells (i : Handle) (h : onHeap (Heap.retain i) m = .done () m') : m.SameCounters m' := by
    unfold onHeap Action.zoom at h
    cases hr : Heap.retain i m.heap <;> rw [hr] at h <;> cases h
    rfl
  obtain ⟨datum, source⟩ := v
  cases datum with
  | string text executable =>
    have referred : 0 < m.ledger.references text := by
      rw [hb.mentions, Stake.mentions_add]
      exact Nat.add_pos_left (Stake.mentions_pos_iff.2 ⟨_, hv, rfl⟩) _
    obtain ⟨n, hn⟩ : ∃ n, m.ledger.strings.find? text = some n := by
      refine Option.ne_none_iff_exists'.1 fun hnone => ?_
      simp [Ledger.references, hnone] at referred
    change onLedger (Ledger.addReference text) m = _ at retained
    simp only [onLedger, Action.zoom, Ledger.addReference_apply, hn, Outcome.done.injEq,
      true_and] at retained
    rw [← retained]
    rfl
  | array i access => exact onCells i retained
  | dictionary i writable => exact onCells i retained
  | null | boolean | integer | name | mark | operator =>
    obtain rfl : m = m' := by simpa [retain] using retained
    rfl

/-- **Values that are referred to can be pinned**, and that costs nothing. -/
theorem retainAll_referenced {vs : List Value} (hb : m.Balanced total σ x)
    (hv : ∀ v ∈ vs, v ∈ x.values) :
    ∃ m', retainAll vs m = .done () m' ∧ m'.Balanced total σ (x + .refs vs) ∧ m.SameObjects m' ∧
      m.SameCounters m' := by
  induction vs generalizing x m with
  | nil => exact ⟨m, rfl, by simpa using hb, .refl m, rfl⟩
  | cons v rest ih =>
    obtain ⟨m₁, first, balanced₁, same₁, counters₁⟩ := retain_referenced hb (hv v List.mem_cons_self)
    obtain ⟨m₂, others, balanced₂, same₂, counters₂⟩ := ih balanced₁ fun w hw =>
      Multiset.mem_add.2 (.inl (hv w (List.mem_cons_of_mem v hw)))
    refine ⟨m₂, ?_, ?_, same₁.trans same₂, counters₁.trans counters₂⟩
    · rw [retainAll, Action.bind_done first, Action.onRaise, others]
    · rwa [Stake.refs_cons, ← add_assoc]

/-- In `m'` each of the values has been referred to once more, and nothing else is different: nothing
is charged for that. -/
structure Pinned (vs : List Value) (m m' : Memory) : Prop where
  counters : m.SameCounters m'
  contents : ∀ i, m'.heap.content? i = m.heap.content? i
  counts : ∀ i, m'.heap.countAt i = m.heap.countAt i + vs.countP fun v => v.handle? = some i
  texts : ∀ t, m'.ledger.references t = m.ledger.references t + vs.countP fun v => v.string? = some t

theorem exists_pinned {vs : List Value} (hb : m.Balanced total σ x) (hvs : ∀ v ∈ vs, v ∈ x.values) :
    ∃ m', retainAll vs m = .done () m' ∧ Pinned vs m m' := by
  obtain ⟨m', retained, balanced, same, counters⟩ := retainAll_referenced hb hvs
  have sum : x + .refs vs + m'.heap.stake = x + m.heap.stake + .refs vs := by
    rw [same.stake, add_right_comm]
  refine ⟨m', retained, counters, same.content, fun i => ?_, fun t => ?_⟩
  · rw [balanced.holders, hb.holders, sum, Stake.holders_add, Stake.holders_refs]
  · rw [balanced.mentions, hb.mentions, sum, Stake.mentions_add, Stake.mentions_refs]

end Memory

/-! ### Operators that are invoked for the first time -/

namespace Machine

variable {Γ : Charter} {n i : ℕ} {x : Stake} {m : Machine} {f : Frame} {vs : List Value}

/-- The frame of an operator that has been queued can be moved to its first call. -/
theorem Sound.exists_begun (h : m.Sound Γ (i + 1) x) (hf : m.calls.frame? i = some f)
    (hfirst : f.state = .unknown) :
    ∃ m', setState i .firstCall m = .done () m' ∧ m'.memory = m.memory ∧
      m'.operands = m.operands ∧ m'.StateIs i .firstCall ∧ m'.Sound Γ (i + 1) x := by
  have moved : setState i .firstCall m = _ := setState_eq hf (by rw [hfirst]; rfl)
  have meets : (setState i .firstCall m).Meets False
      (fun _ m' => m'.Sound Γ (i + 1) x ∧ m.Steady (i + 1) m' ∧ m'.operands = m.operands) _ :=
    setState_meets h (Nat.lt_succ_self i)
  rw [moved] at meets
  exact ⟨_, moved, rfl, rfl, ⟨_, frame?_withFrame hf _, rfl⟩, meets.1⟩

/-- Its operands can be pinned then. -/
theorem Sound.exists_pinned (h : m.Sound Γ n x) (hvs : ∀ v ∈ vs, v ∈ m.operands.items) :
    ∃ μ, onMemory (Memory.retainAll vs) m = .done () { m with memory := μ } ∧
      Memory.Pinned vs m.memory μ ∧
        ({ m with memory := μ } : Machine).Sound Γ n (.refs vs + x) := by
  obtain ⟨-, σ, hb, -⟩ := h.memory
  have owned (v : Value) (hv : v ∈ vs) : v ∈ (m.stake + x).values := by
    simp [Machine.stake, Sequence.stake, hvs v hv]
  obtain ⟨μ, retained, pins⟩ := Memory.exists_pinned hb owned
  have pinned : onMemory (Memory.retainAll vs) m = .done () { m with memory := μ } :=
    Action.zoom_done retained
  have meets : (onMemory (Memory.retainAll vs) m).Meets False
      (fun _ m' => m'.Sound Γ n (x + .refs vs) ∧ m.Steady n m') _ :=
    retainAll_meets h fun v hv => knows_of_operand (hvs v hv)
  rw [pinned] at meets
  exact ⟨μ, pinned, pins, add_comm x _ ▸ meets.1⟩

end Machine

/-! ### Halfway through a program -/

/-- Run from `s`, the program comes to what is left of it, `q`, at `t`. -/
inductive Program.Comes {R : Type} {Answer : R → Type} {α σ : Type}
    (perform : (r : R) → Action σ (Answer r)) :
    Program Answer α → σ → Program Answer α → σ → Prop
  | refl (p : Program Answer α) (s : σ) : Comes perform p s p s
  | answered {r : R} {next : Answer r → Program Answer α} {failed : Exception → Program Answer α}
      {a : Answer r} {s t u : σ} {q : Program Answer α} (done : perform r s = .done a t)
      (after : Comes perform (next a) t q u) : Comes perform (.ask r next failed) s q u
  | refused {r : R} {next : Answer r → Program Answer α} {failed : Exception → Program Answer α}
      {e : Exception} {s t u : σ} {q : Program Answer α} (raised : perform r s = .raised e t)
      (after : Comes perform (failed e) t q u) : Comes perform (.ask r next failed) s q u

/-- The state a program leaves is one it comes to. -/
theorem Program.comes_of_run {R : Type} {Answer : R → Type} {α σ : Type}
    {perform : (r : R) → Action σ (Answer r)} {p : Program Answer α} {s t : σ}
    (h : (p.run perform s).state? = some t) : ∃ q, p.Comes perform s q t := by
  induction p generalizing s with
  | done a =>
    obtain rfl : s = t := Option.some.inj h
    exact ⟨_, .refl _ s⟩
  | raise e =>
    obtain rfl : s = t := Option.some.inj h
    exact ⟨_, .refl _ s⟩
  | broken b => cases h
  | ask r next failed ihn ihf =>
    simp only [run] at h
    cases hr : perform r s with
    | done a u =>
      rw [hr] at h
      obtain ⟨q, after⟩ := ihn a h
      exact ⟨q, .answered hr after⟩
    | raised e u =>
      rw [hr] at h
      obtain ⟨q, after⟩ := ihf e h
      exact ⟨q, .refused hr after⟩
    | broken b => rw [hr] at h; cases h

/-- What comes first has been done. -/
theorem Program.comes_bind {R : Type} {Answer : R → Type} {α β σ : Type}
    {perform : (r : R) → Action σ (Answer r)} {p : Program Answer α} {f : α → Program Answer β}
    {q : Program Answer β} {a : α} {s t u : σ} (h : p.run perform s = .done a t)
    (after : (f a).Comes perform t q u) : (p >>= f).Comes perform s q u := by
  induction p generalizing s with
  | done b =>
    obtain ⟨rfl, rfl⟩ := Outcome.done.inj h
    exact after
  | raise e => cases h
  | broken b => cases h
  | ask r next failed ihn ihf =>
    simp only [run] at h
    cases hr : perform r s with
    | done b v =>
      rw [hr] at h
      exact .answered hr (ihn b h)
    | raised e v =>
      rw [hr] at h
      exact .refused hr (ihf e h)
    | broken b => rw [hr] at h; cases h

/-- **Halfway through** an honest operation the machine is sound, and what is left is honest. -/
theorem Operation.Honest.comes {α : Type} {Γ : Charter} {i : ℕ} {x : Stake} {p q : Operation α}
    {owned : List Value} {m t : Machine} (hq : Program.Comes (Request.perform (some i)) p m q t)
    (hp : p.Honest i x owned m) (h : m.Sound Γ (i + 1) (x + .refs owned)) :
    ∃ owned', q.Honest i x owned' t ∧ t.Sound Γ (i + 1) (x + .refs owned') := by
  have serves {r : Request} {owned rest : List Value} {m : Machine}
      (hgives : owned.Perm (r.surrendered ++ rest)) (h : m.Sound Γ (i + 1) (x + .refs owned))
      (hpasses : ∀ v ∈ r.passed, m.Knows (x + .refs owned) v) :
      (r.perform (some i) m).Meets True
        (fun a m' => m'.Sound Γ (i + 1) (x + .refs (r.handedOut a ++ rest)))
        fun m' => m'.Sound Γ (i + 1) (x + .refs rest) := by
    have sum : x + .refs owned = x + .refs rest + .refs r.surrendered := by
      rw [Stake.refs_perm hgives, Stake.refs_append, add_assoc, add_comm (Stake.refs rest)]
    have own (j : ℕ) (hj : some i = some j) : j < i + 1 := Option.some.inj hj ▸ Nat.lt_succ_self i
    refine (r.perform_serves own (sum ▸ h) (fun v hv => sum ▸ hpasses v hv) (.inl trivial)).mono
      (fun a m' served => ?_) fun _ served => served.1
    rw [Stake.refs_append, add_comm (Stake.refs (r.handedOut a)), ← add_assoc]
    exact served.1.1
  induction hq generalizing owned with
  | refl p m => exact ⟨owned, hp, h⟩
  | answered done after ih =>
    obtain ⟨rest, hgives, hpasses, hnext, -⟩ := hp
    have served := serves hgives h hpasses
    rw [done] at served
    exact ih (hnext _ _ done) served
  | refused raised after ih =>
    obtain ⟨rest, hgives, hpasses, -, hfailed⟩ := hp
    have served := serves hgives h hpasses
    rw [raised] at served
    exact ih (hfailed _ _ raised) served

/-! ### Values whose containers and texts are there -/

namespace Machine

/-- What the values refer to is there: their containers are live and of their kinds, and their texts
are among those that are paid for. -/
structure Contains (vs : List Value) (m : Machine) : Prop where
  live : ∀ v ∈ vs, ∀ i, v.handle? = some i →
    ∃ o, m.memory.heap.object? i = some o ∧ o.label.kind = v.kind
  charged : ∀ v ∈ vs, ∀ t, v.string? = some t → ∃ n, m.memory.ledger.strings.find? t = some n
  paid : m.memory.ledger.textUnits ≤ m.memory.ledger.string
  /-- None of the containers is that of a frame's locals. -/
  apart : ∀ v ∈ vs, ∀ i, v.handle? = some i → i ∉ m.localDictionaries

variable {Γ : Charter} {n : ℕ} {x : Stake} {m : Machine} {vs : List Value}

theorem Sound.contains (h : m.Sound Γ n x) (hvs : ∀ v ∈ vs, v ∈ (m.stake + x).values) :
    m.Contains vs := by
  obtain ⟨present, σ, hb, -⟩ := h.memory
  have known (v : Value) (hv : v ∈ vs) : (m.stake + x + m.memory.heap.stake).Knows v :=
    Stake.knows_of_mem (Multiset.mem_add.2 (.inl (hvs v hv)))
  refine ⟨fun v hv i hi => hb.object_of_known present (known v hv) hi, fun v hv t ht => ?_, ?_,
    fun v hv i hi hlocal => ?_⟩
  · refine Option.ne_none_iff_exists'.1 fun hnone => ?_
    have none := (hb.tabled.references_eq_zero_iff t).2 hnone
    rw [hb.mentions, Stake.mentions_add] at none
    have := Stake.mentions_pos_iff.2 ⟨v, hvs v hv, ht⟩
    omega
  · have held := hb.units .string
    simp only [Ledger.held, Ledger.textShare, if_true] at held
    omega
  · refine hb.not_mem_locals_of_known (known v hv) hi ?_
    rw [Stake.locals_add, m.locals_eq_localDictionaries]
    exact Multiset.mem_add.2 (.inl hlocal)

/-- Pinned values are counted once for each time they are pinned. -/
theorem Sound.countP_le (h : m.Sound Γ n (.refs vs + x)) (i : Handle) :
    vs.countP (fun v => v.handle? = some i) ≤ m.memory.heap.countAt i := by
  obtain ⟨-, σ, hb, -⟩ := h.memory
  rw [hb.holders, Stake.holders_add, Stake.holders_add, Stake.holders_add, Stake.holders_refs]
  omega

theorem Sound.countP_le_references (h : m.Sound Γ n (.refs vs + x)) (t : String) :
    vs.countP (fun v => v.string? = some t) ≤ m.memory.ledger.references t := by
  obtain ⟨-, σ, hb, -⟩ := h.memory
  rw [hb.mentions, Stake.mentions_add, Stake.mentions_add, Stake.mentions_add, Stake.mentions_refs]
  omega

end Machine

end StackScript
