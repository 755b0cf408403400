import StackScript.Operator.Registry
import StackScript.Proofs.Machine.Own

/-!
# What operators read

A step of an operator that only looks at the machine leaves it as it is and violates no invariant
(`Operation.Reads`).  What it reads is known: operands, scopes and frames belong to the machine, and
what a container that is known holds is known too.

In every statement `x` is the stake of others: the operands the operator holds on to, and what it
has created.
-/

namespace StackScript

/-- What a program meets that begins with a request follows from what the request does. -/
theorem Program.meets_ask {R σ α : Type} {Answer : R → Type} {s : σ} {lax : Prop}
    {perform : (r : R) → Action σ (Answer r)} {r : R} {next : Answer r → Program Answer α}
    {failed : Exception → Program Answer α} {P : α → σ → Prop} {F M : σ → Prop}
    {B : Answer r → σ → Prop} (hr : (perform r s).Meets lax B M)
    (hn : ∀ a t, B a t → ((next a).run perform t).Meets lax P F)
    (hf : ∀ e t, M t → ((failed e).run perform t).Meets lax P F) :
    ((Program.ask r next failed).run perform s).Meets lax P F := by
  simp only [run]
  cases h : perform r s with
  | done a t => rw [h] at hr; exact hn a t hr
  | raised e t => rw [h] at hr; exact hf e t hr
  | broken b => rw [h] at hr; exact hr

namespace Machine

variable {Γ : Charter} {n : ℕ} {x : Stake} {m : Machine} {v : Value}

/-! ### Containers -/

theorem Sound.items_ok (h : m.Sound Γ n x) (hv : m.Knows x v) :
    ∃ r, (m.items v).run = .ok r ∧ ∀ vs, r = .ok vs → ∀ w ∈ vs, m.Knows x w := by
  obtain ⟨present, σ, hb, -⟩ := h.memory
  unfold items
  cases hd : v.datum with
  | array i access =>
    obtain ⟨s, ho⟩ := hb.array_of_known present hv hd
    refine ⟨.ok s.toList, ?_, ?_⟩
    · dsimp only
      rw [Memory.array_of_object? ho]
      rfl
    · rintro _ ⟨⟩ w hw
      exact knows_of_item ho (List.mem_reverse.1 hw)
  | null | boolean | integer | string | name | mark | operator | dictionary =>
    exact ⟨.error _, rfl, fun _ h => by cases h⟩

theorem Sound.entry?_ok (h : m.Sound Γ n x) (hv : m.Knows x v) (name : String) :
    ∃ r, ( m.entry? v name).run = .ok r ∧ ∀ w, r = .ok (some w) → m.Knows x w := by
  obtain ⟨present, σ, hb, -⟩ := h.memory
  unfold entry?
  cases hd : v.datum with
  | dictionary i writable =>
    obtain ⟨d, ho⟩ := hb.dictionary_of_known present hv (i := i) (by rw [Value.kind, hd]; rfl)
      (by rw [Value.handle?, hd])
    refine ⟨.ok (d.get? name), ?_, ?_⟩
    · dsimp only
      rw [Memory.dictionary_of_object? ho]
      rfl
    · intro w hw
      exact knows_of_item ho (Dictionary.mem_values_of_get? (Except.ok.inj hw))
  | null | boolean | integer | string | name | mark | operator | array =>
    exact ⟨.error _, rfl, fun _ h => by cases h⟩

theorem Sound.names_ok (h : m.Sound Γ n x) (hv : m.Knows x v) :
    ∃ r, (m.names v).run = .ok r := by
  obtain ⟨present, σ, hb, -⟩ := h.memory
  unfold names
  cases hd : v.datum with
  | dictionary i writable =>
    obtain ⟨d, ho⟩ := hb.dictionary_of_known present hv (i := i) (by rw [Value.kind, hd]; rfl)
      (by rw [Value.handle?, hd])
    refine ⟨.ok d.names, ?_⟩
    dsimp only
    rw [Memory.dictionary_of_object? ho]
    rfl
  | null | boolean | integer | string | name | mark | operator | array =>
    exact ⟨.error _, rfl⟩

/-! ### Scopes -/

/-- Looking a name up from some scopes on. -/
theorem Sound.locateIn_ok (h : m.Sound Γ n x) (name : String) (scopes : List Value)
    (hs : ∀ v ∈ scopes, v ∈ m.scopes.items) :
    ∃ r, m.locateIn name scopes = .ok r ∧
      ∀ scope v, r = some (scope, v) → scope ∈ m.scopes.items ∧ m.Knows x v := by
  induction scopes with
  | nil => exact ⟨none, rfl, fun _ _ h => by cases h⟩
  | cons scope rest ih =>
    obtain ⟨hscope, hrest⟩ := List.forall_mem_cons.1 hs
    obtain ⟨r, hr, hfound⟩ := ih hrest
    unfold locateIn
    cases hi : scope.handle? with
    | none => exact ⟨r, hr, hfound⟩
    | some i =>
      obtain ⟨present, σ, hb, -⟩ := h.memory
      obtain ⟨d, ho⟩ := hb.dictionary_of_known present (knows_of_scope hscope)
        (h.dictionaries scope hscope) hi
      dsimp only
      rw [bind_of_ok (Memory.dictionary_of_object? ho)]
      cases hv : d.get? name with
      | none => exact ⟨r, hr, hfound⟩
      | some v =>
        refine ⟨some (scope, v), rfl, ?_⟩
        rintro _ _ ⟨⟩
        exact ⟨hscope, knows_of_item ho (Dictionary.mem_values_of_get? hv)⟩

theorem Sound.locate_ok (h : m.Sound Γ n x) (name : String) :
    ∃ r, m.locate name = .ok r ∧
      ∀ scope v, r = some (scope, v) → scope ∈ m.scopes.items ∧ m.Knows x v :=
  h.locateIn_ok name m.scopes.items fun _ => id

theorem Sound.lookup_ok (h : m.Sound Γ n x) (name : String) :
    ∃ r, (m.lookup name).run = .ok r ∧ ∀ v, r = .ok v → m.Knows x v := by
  obtain ⟨r, hr, hfound⟩ := h.locate_ok name
  unfold lookup
  cases r with
  | none => exact ⟨.error (.unbound name), by rw [hr]; rfl, fun _ h => by cases h⟩
  | some found =>
    refine ⟨.ok found.2, by rw [hr]; rfl, ?_⟩
    rintro _ ⟨⟩
    exact (hfound found.1 found.2 rfl).2

end Machine

namespace Operation

variable {α β : Type} {Γ : Charter} {n i : ℕ} {x : Stake} {m : Machine} {v : Value}
  {own : Option ℕ} {lax : Prop} {p : Operation α} {f : α → Operation β} {P : α → Prop}
  {R : β → Machine → Prop} {F : Machine → Prop}

/-! ### Steps -/

theorem meets_bind {M : α → Machine → Prop} (hp : (p.runOn own m).Meets lax M F)
    (hf : ∀ a m', M a m' → ((f a).runOn own m').Meets lax R F) :
    ((p >>= f).runOn own m).Meets lax R F := by
  rw [runOn, Program.run_bind]
  exact Action.meets_bind hp hf

/-- The step looks at the machine, and what it finds is in `P`. -/
def Reads (own : Option ℕ) (m : Machine) (p : Operation α) (P : α → Prop) : Prop :=
  (p.runOn own m).Meets False (fun a m' => m' = m ∧ P a) fun m' => m' = m

theorem Reads.step (hp : p.Reads own m P) (hfail : F m)
    (hf : ∀ a, P a → ((f a).runOn own m).Meets lax R F) :
    ((p >>= f).runOn own m).Meets lax R F := by
  refine meets_bind (M := fun a m' => m' = m ∧ P a) ?_ ?_
  · refine (Outcome.Meets.weaken hp).mono (fun _ _ => id) ?_
    rintro _ rfl
    exact hfail
  · rintro a _ ⟨rfl, ha⟩
    exact hf a ha

theorem Reads.bind {Q : β → Prop} (hp : p.Reads own m P)
    (hf : ∀ a, P a → (f a).Reads own m Q) : (p >>= f).Reads own m Q :=
  Reads.step hp rfl hf

theorem reads_pure {a : α} (ha : P a) : Reads own m (pure a) P := ⟨rfl, ha⟩

theorem reads_fail (c : Cause) : Reads own m (Program.fail c) P := rfl

theorem reads_ofOption {c : Cause} {o : Option α} (h : ∀ a, o = some a → P a) :
    Reads own m (Program.ofOption c o) P := by
  cases o with
  | none => rfl
  | some a => exact ⟨rfl, h a rfl⟩

theorem reads_ofExcept {r : Except Cause α} (h : ∀ a, r = .ok a → P a) :
    Reads own m (Program.ofExcept r) P := by
  cases r with
  | error c => rfl
  | ok a => exact ⟨rfl, h a rfl⟩

theorem reads_ofSound {r : Except Breach α} {a : α} (hr : r = .ok a) (ha : P a) :
    Reads own m (Program.ofSound r) P := by
  subst hr
  exact ⟨rfl, ha⟩

/-! ### Looking at the machine -/

theorem reads_machine : machine.Reads own m fun m' => m' = m := ⟨rfl, rfl⟩

theorem reads_read {g : Machine → Reading α} {r : Except Cause α} (hr : (g m).run = .ok r)
    (h : ∀ a, r = .ok a → P a) : (read g).Reads own m P := by
  refine reads_machine.bind ?_
  rintro _ rfl
  refine (reads_ofSound (P := fun a => a = r) hr rfl).bind ?_
  rintro _ rfl
  exact reads_ofExcept h

theorem reads_items (h : m.Sound Γ n x) (hv : m.Knows x v) :
    (items v).Reads own m fun vs => ∀ w ∈ vs, m.Knows x w := by
  obtain ⟨r, hr, hvs⟩ := h.items_ok hv
  exact reads_read hr hvs

theorem reads_entry (h : m.Sound Γ n x) (hv : m.Knows x v) (name : String) :
    ( entry? v name).Reads own m fun r => ∀ w, r = some w → m.Knows x w := by
  obtain ⟨r, hr, hw⟩ := h.entry?_ok hv name
  refine reads_read hr ?_
  rintro o rfl w rfl
  exact hw w rfl

theorem reads_names (h : m.Sound Γ n x) (hv : m.Knows x v) :
    (names v).Reads own m fun _ => True := by
  obtain ⟨r, hr⟩ := h.names_ok hv
  exact reads_read hr fun _ _ => trivial

theorem reads_lookup (h : m.Sound Γ n x) (name : String) :
    (lookup name).Reads own m fun v => m.Knows x v := by
  obtain ⟨r, hr, hv⟩ := h.lookup_ok name
  exact reads_read hr hv

theorem reads_locate (h : m.Sound Γ n x) (name : String) :
    (locate name).Reads own m fun r =>
      ∀ scope v, r = some (scope, v) → scope ∈ m.scopes.items ∧ m.Knows x v := by
  obtain ⟨r, hr, hfound⟩ := h.locate_ok name
  refine reads_machine.bind ?_
  rintro _ rfl
  exact reads_ofSound hr hfound

theorem reads_currentScope : currentScope.Reads own m fun v => v ∈ m.scopes.items := by
  refine reads_machine.bind ?_
  rintro _ rfl
  refine reads_ofExcept fun v hv => ?_
  unfold Machine.currentScope at hv
  split at hv
  · rename_i scope hscope
    obtain rfl := Except.ok.inj hv
    exact List.mem_of_head? hscope
  · cases hv

theorem reads_markDepth : markDepth.Reads own m fun _ => True := by
  refine reads_machine.bind ?_
  rintro _ rfl
  exact reads_ofExcept fun _ _ => trivial

theorem reads_operandCount : operandCount.Reads own m fun _ => True :=
  reads_machine.bind fun _ _ => reads_pure trivial

theorem reads_condition : condition.Reads own m fun _ => True :=
  reads_machine.bind fun _ _ => reads_pure trivial

theorem reads_inLoop : inLoop.Reads own m fun _ => True := ⟨rfl, trivial⟩

/-! ### The frame of the operator -/

theorem reads_ownFrame (h : m.Sound Γ n x) (hi : i < n) :
    ownFrame.Reads (some i) m fun f => m.calls.frame? i = some f := by
  obtain ⟨f, hf⟩ := h.exists_frame hi
  have : ownIndex.Reads (some i) m fun k => k = i := ⟨rfl, rfl⟩
  refine this.bind ?_
  rintro _ rfl
  refine reads_machine.bind ?_
  rintro _ rfl
  exact reads_ofSound (Machine.frame_of_frame? hf) hf

theorem reads_state (h : m.Sound Γ n x) (hi : i < n) : state.Reads (some i) m fun _ => True :=
  (reads_ownFrame h hi).bind fun _ _ => reads_pure trivial

theorem reads_currentOperator :
    currentOperator.Reads (some i) m fun v => ∃ f ∈ m.calls.frames, f.value = v := by
  have : ownIndex.Reads (some i) m fun k => k = i := ⟨rfl, rfl⟩
  refine this.bind ?_
  rintro _ rfl
  refine reads_machine.bind ?_
  rintro _ rfl
  split
  · rename_i f hf
    exact reads_pure ⟨f, CallStack.mem_frames_of_frame? hf, rfl⟩
  · exact reads_fail _

theorem reads_local? (h : m.Sound Γ n x) (hi : i < n) (name : String) :
    (local? name).Reads (some i) m fun r => ∀ v, r = some v ↔ m.LocalIs i name v := by
  refine (reads_ownFrame h hi).bind fun f hf => ?_
  obtain ⟨r, hr, hv⟩ := h.localOf_ok hf name
  refine reads_machine.bind ?_
  rintro _ rfl
  exact reads_ofSound hr hv

theorem reads_expectLocal (h : m.Sound Γ n x) (hi : i < n) (name : String) :
    (expectLocal name).Reads (some i) m fun v => m.LocalIs i name v :=
  (reads_local? h hi name).bind fun _ hr => reads_ofOption fun v hv => (hr v).1 hv

/-! ### Operands -/

variable {params : List Value}

theorem reads_matched (k : ℕ) : (matched params k).Reads own m fun v => v ∈ params :=
  reads_ofOption fun _ hv => List.mem_of_getElem? hv

theorem reads_matchedWord (k : ℕ) : (matchedWord params k).Reads own m fun _ => True :=
  (reads_matched k).bind fun _ _ => reads_ofOption fun _ _ => trivial

theorem reads_matchedBoolean (k : ℕ) : (matchedBoolean params k).Reads own m fun _ => True :=
  (reads_matched k).bind fun _ _ => reads_ofOption fun _ _ => trivial

theorem reads_matchedName (k : ℕ) : (matchedName params k).Reads own m fun _ => True :=
  (reads_matched k).bind fun _ _ => reads_ofOption fun _ _ => trivial

theorem reads_toIndex (w : Word) : (toIndex w).Reads own m fun _ => True :=
  reads_ofOption fun _ _ => trivial

theorem reads_aboveMark : aboveMark.Reads own m fun vs => ∀ v ∈ vs, v ∈ m.operands.items := by
  refine reads_markDepth.bind fun depth _ => reads_machine.bind ?_
  rintro _ rfl
  exact reads_pure fun v hv => List.mem_of_mem_take (List.mem_reverse.1 hv)

end Operation

end StackScript
