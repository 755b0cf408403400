import Mathlib.Data.List.Forall2
import StackScript.Proofs.Ordinary
import StackScript.Proofs.Peaks

/-!
# Comparing two runs

Two runs of the same actions are compared, side by side.  What counts as alike is the matter of a
`Likeness`: which handles of the one run stand for which handles of the other, whether the texts of
exceptions, the sources of values and the trails of allocations are compared too, and when a
comparison is given up as lost, because one of the runs has met a limit the other has not.

Actions are *parallel* if from states that are alike they end alike, or are lost
(`Likeness.Parallel`).  There is one rule for each way of putting actions together.
-/

namespace StackScript

open Metered (peak)

/-! ### How far a run has come -/

/-- What of an outcome matters once a comparison is given up. -/
inductive Fate where
  | done (peak : ℕ)
  | raised (condition : Condition) (peak : ℕ)
  | broken

/-- What may come of it: more may be done, but what has been raised goes on being raised. -/
inductive Fate.Leads : Fate → Fate → Prop
  | done {p q : ℕ} (h : p ≤ q) : Leads (.done p) (.done q)
  | raises {p q : ℕ} {c : Condition} (h : p ≤ q) : Leads (.done p) (.raised c q)
  | stays {p q : ℕ} {c : Condition} (h : p ≤ q) : Leads (.raised c p) (.raised c q)
  | breaks (f : Fate) : Leads f .broken

theorem Fate.Leads.refl (f : Fate) : f.Leads f := by
  cases f with
  | done p => exact .done le_rfl
  | raised c p => exact .stays le_rfl
  | broken => exact .breaks _

namespace Outcome

variable {σ τ α β : Type} [Metered σ] [Metered τ]

/-- How far a run has come. -/
def fate : Outcome σ α → Fate
  | .done _ s => .done (peak s)
  | .raised e s => .raised e.condition (peak s)
  | .broken _ => .broken

omit [Metered τ] in
theorem fate_eq_broken {o : Outcome σ α} (h : o.fate = .broken) : ∃ b, o = .broken b := by
  cases o with
  | broken b => exact ⟨b, rfl⟩
  | _ => cases h

end Outcome

namespace Action

variable {σ τ α β : Type} [Metered σ] [Metered τ] {x : Action σ α} {s : σ}

theorem Rising.leads (x : Action σ α) [Rising x] (s : σ) : (Fate.done (peak s)).Leads (x s).fate := by
  have h := Rising.rises (x := x) s
  cases hs : x s with
  | done a t => rw [hs] at h; exact .done h
  | raised e t => rw [hs] at h; exact .raises h
  | broken b => exact .breaks _

theorem leads_bind (x : Action σ α) (f : α → Action σ β) [∀ a, Rising (f a)] (s : σ) :
    (x s).fate.Leads ((x >>= f) s).fate := by
  rw [bind_apply]
  cases x s with
  | done a t => exact Rising.leads (f a) t
  | raised e t => exact .refl _
  | broken b => exact .refl _

/-- What has been raised goes on, when something is cleaned up that raises nothing. -/
theorem leads_clean {clean : Action σ Unit} [Rising clean] (hc : clean.Raises fun _ => False)
    (e : Exception) (t : σ) : (Fate.raised e.condition (peak t)).Leads
      ((clean.bind fun _ => raise e : Action σ α) t).fate := by
  have h := Rising.rises (x := clean) t
  change Fate.Leads _ (((clean >>= fun _ => raise e) : Action σ α) t).fate
  rw [bind_apply]
  cases ht : clean t with
  | done a u => rw [ht] at h; exact .stays h
  | raised e' u => exact (hc t e' u ht).elim
  | broken b => exact .breaks _

theorem leads_onRaise (x : Action σ α) {clean : Action σ Unit} [Rising clean]
    (hc : clean.Raises fun _ => False) (s : σ) : (x s).fate.Leads (x.onRaise clean s).fate := by
  unfold onRaise
  cases x s with
  | done a t => exact .refl _
  | raised e t => exact leads_clean hc e t
  | broken b => exact .refl _

theorem leads_ensuring (x : Action σ α) {clean : Action σ Unit} [Rising clean]
    (hc : clean.Raises fun _ => False) (s : σ) : (x s).fate.Leads (x.ensuring clean s).fate := by
  unfold ensuring
  cases x s with
  | done a t => exact Rising.leads (clean >>= fun _ => pure a) t
  | raised e t => exact leads_clean hc e t
  | broken b => exact .refl _

theorem leads_unfailing (x : Action σ α) (breach : Exception → Breach) (s : σ) :
    (x s).fate.Leads (x.unfailing breach s).fate := by
  unfold unfailing
  cases x s with
  | done a t => exact .refl _
  | raised e t => exact .breaks _
  | broken b => exact .refl _

end Action

/-! ### Likeness -/

/-- What counts as alike in two runs. -/
structure Likeness where
  /-- Texts of exceptions, call trails and sources of values are compared as well. -/
  exact : Prop
  /-- The trails of allocations are, too. -/
  traced : Prop
  traces : traced → exact
  /-- Which handle of the one run stands for which handle of the other. -/
  handles : Handle → Handle → Prop
  unique {i i' j j' : Handle} : handles i j → handles i' j' → (i = i' ↔ j = j')
  /-- The comparison is given up. -/
  lost : Fate → Fate → Prop
  leads {f f' g g' : Fate} : lost f g → f.Leads f' → g.Leads g' → lost f' g'
  broken : lost .broken .broken
  /-- Unless the trails of allocations are compared, a breach ends the comparison. -/
  breached {f : Fate} : ¬ traced → lost .broken f ∧ lost f .broken

namespace Likeness

variable (C : Likeness)

/-- Data that are alike. -/
inductive Data : Datum → Datum → Prop
  | null : Data .null .null
  | boolean (b : Bool) : Data (.boolean b) (.boolean b)
  | integer (n : Word) : Data (.integer n) (.integer n)
  | string (text : String) (executable : Bool) : Data (.string text executable) (.string text executable)
  | name (text : String) (executable : Bool) : Data (.name text executable) (.name text executable)
  | mark : Data .mark .mark
  | operator (o : Operator) : Data (.operator o) (.operator o)
  | array {i j : Handle} (h : C.handles i j) (access : Access) : Data (.array i access) (.array j access)
  | dictionary {i j : Handle} (h : C.handles i j) (writable : Bool) :
    Data (.dictionary i writable) (.dictionary j writable)

/-- Values that are alike. -/
structure Values (v w : Value) : Prop where
  datum : C.Data v.datum w.datum
  source : C.exact → v.source = w.source

/-- Exceptions that are alike. -/
structure Exceptions (e e' : Exception) : Prop where
  condition : e.condition = e'.condition
  whole : C.exact → e = e'

theorem Exceptions.refl (e : Exception) : C.Exceptions e e := ⟨rfl, fun _ => rfl⟩

/-- Sequences that are alike. -/
structure Sequences (s t : Sequence) : Prop where
  reserve : s.reserve = t.reserve
  items : List.Forall₂ C.Values s.items t.items

/-- Dictionaries that are alike. -/
structure Dictionaries (d e : Dictionary) : Prop where
  account : d.account = e.account
  entries : List.Forall₂ (fun a b => a.1 = b.1 ∧ C.Values a.2 b.2) d.entries e.entries

/-- Objects that are alike. -/
inductive Objects : Object → Object → Prop
  | array {s t : Sequence} (h : C.Sequences s t) : Objects (.array s) (.array t)
  | dictionary {d e : Dictionary} (h : C.Dictionaries d e) : Objects (.dictionary d) (.dictionary e)

/-- Records of exceptions that are alike. -/
structure Pendings (p q : PendingException) : Prop where
  exception : C.Exceptions p.exception q.exception
  charge : C.exact → p.charge = q.charge

variable {C} in
theorem values_array {i j : Handle} (h : C.handles i j) (access : Access) :
    C.Values (.array i access) (.array j access) := ⟨.array h access, fun _ => rfl⟩

variable {C} in
theorem values_dictionary {i j : Handle} (h : C.handles i j) (writable : Bool) :
    C.Values (.dictionary i writable) (.dictionary j writable) :=
  ⟨.dictionary h writable, fun _ => rfl⟩

/-! ### Outcomes that are alike -/

section

variable {σ α β : Type} [Metered σ]

/-- Two outcomes are alike, or the comparison is lost. -/
inductive Agree (A : α → β → Prop) (R : σ → σ → Prop) : Outcome σ α → Outcome σ β → Prop
  | done {a : α} {b : β} {s t : σ} (ha : A a b) (h : R s t) : Agree A R (.done a s) (.done b t)
  | raised {e e' : Exception} {s t : σ} (he : C.Exceptions e e') (h : R s t) :
    Agree A R (.raised e s) (.raised e' t)
  | lost {o : Outcome σ α} {p : Outcome σ β} (h : C.lost o.fate p.fate) : Agree A R o p

/-- From states that are alike two actions end alike, or the comparison is lost. -/
def Parallel (R : σ → σ → Prop) (A : α → β → Prop) (x : Action σ α) (y : Action σ β) : Prop :=
  ∀ ⦃s t⦄, R s t → C.Agree A R (x s) (y t)

end

variable {C}

variable {σ τ α β γ δ : Type} [Metered σ] [Metered τ] {R : σ → σ → Prop} {A A' : α → β → Prop}
  {B : γ → δ → Prop} {x : Action σ α} {y : Action σ β} {f : α → Action σ γ} {g : β → Action σ δ}
  {o : Outcome σ α} {p : Outcome σ β}

theorem Agree.mono {R' : σ → σ → Prop} (h : C.Agree A R o p) (ha : ∀ a b, A a b → A' a b)
    (hr : ∀ s t, R s t → R' s t) : C.Agree A' R' o p := by
  cases h with
  | done h h' => exact .done (ha _ _ h) (hr _ _ h')
  | raised he h => exact .raised he (hr _ _ h)
  | lost h => exact .lost h

/-- What is known of the results when it is known how the actions end. -/
theorem Agree.of_eq (h : C.Agree A R o p)
    (hA : ∀ a b s t, o = .done a s → p = .done b t → A a b → R s t → A' a b) : C.Agree A' R o p := by
  cases h with
  | done h h' => exact .done (hA _ _ _ _ rfl rfl h h') h'
  | raised he h => exact .raised he h
  | lost h => exact .lost h

theorem agree_broken (b b' : Breach) : C.Agree A R (.broken b) (.broken b') := .lost C.broken

theorem Parallel.mono (h : C.Parallel R A x y) (ha : ∀ a b, A a b → A' a b) : C.Parallel R A' x y :=
  fun _ _ hst => (h hst).mono ha fun _ _ => id

theorem parallel_pure {a : α} {b : β} (h : A a b) :
    C.Parallel R A (pure a) (pure b) := fun _ _ hst => .done h hst

theorem parallel_raise {e e' : Exception} (h : C.Exceptions e e') :
    C.Parallel R A (Action.raise e) (Action.raise e') := fun _ _ hst => .raised h hst

theorem parallel_fail (c : Cause) : C.Parallel R A (Action.fail c) (Action.fail c) :=
  parallel_raise (.refl C _)

theorem parallel_breach (b b' : Breach) : C.Parallel R A (Action.breach b) (Action.breach b') :=
  fun _ _ _ => agree_broken b b'

/-- Looking at the states. -/
theorem parallel_get_bind {f : σ → Action σ α} {g : σ → Action σ β}
    (h : ∀ s t, R s t → C.Parallel R A (f s) (g t)) :
    C.Parallel R A ((get : Action σ σ) >>= f) ((get : Action σ σ) >>= g) :=
  fun s t hst => h s t hst hst

/-- Looking at the states, which are known. -/
theorem agree_get_bind {f : σ → Action σ α} {g : σ → Action σ β} {s t : σ}
    (h : C.Agree A R (f s s) (g t t)) :
    C.Agree A R (((get : Action σ σ) >>= f) s) (((get : Action σ σ) >>= g) t) := h

theorem parallel_modify {u v : σ → σ} (h : ∀ s t, R s t → R (u s) (v t)) :
    C.Parallel R (fun _ _ => True) (modify u : Action σ PUnit) (modify v) :=
  fun s t hst => .done trivial (h s t hst)

/-- What is known of the one outcome besides. -/
theorem Agree.meets {lax : Prop} {P : σ → Prop} (h : C.Agree A R o p)
    (ho : o.Meets lax (fun _ s => P s) P) : C.Agree A (fun s t => R s t ∧ P s) o p := by
  cases h with
  | done ha h => exact .done ha ⟨h, ho⟩
  | raised he h => exact .raised he ⟨h, ho⟩
  | lost h => exact .lost h

/-- One action after the other. -/
theorem Agree.bind {Q : σ → σ → Prop} [∀ a, Action.Rising (f a)] [∀ b, Action.Rising (g b)] {s t : σ}
    (hx : C.Agree A Q (x s) (y t)) (hQ : ∀ u v, Q u v → R u v)
    (hf : ∀ a b u v, A a b → Q u v → C.Agree B R (f a u) (g b v)) :
    C.Agree B R ((x >>= f) s) ((y >>= g) t) := by
  have left := Action.leads_bind x f s
  have right := Action.leads_bind y g t
  rw [Action.bind_apply, Action.bind_apply] at *
  generalize x s = o at *
  generalize y t = p at *
  cases hx with
  | done ha h => exact hf _ _ _ _ ha h
  | raised he h => exact .raised he (hQ _ _ h)
  | lost h => exact .lost (C.leads h left right)

/-- One action after the other, when it is known how the first ends. -/
theorem Agree.bind_of_eq [∀ a, Action.Rising (f a)] [∀ b, Action.Rising (g b)] {s t : σ}
    (hx : C.Agree A R (x s) (y t))
    (hf : ∀ a b u v, x s = .done a u → y t = .done b v → A a b → R u v →
      C.Agree B R (f a u) (g b v)) :
    C.Agree B R ((x >>= f) s) ((y >>= g) t) := by
  have left := Action.leads_bind x f s
  have right := Action.leads_bind y g t
  rw [Action.bind_apply, Action.bind_apply] at *
  generalize x s = o at *
  generalize y t = p at *
  cases hx with
  | done ha h => exact hf _ _ _ _ rfl rfl ha h
  | raised he h => exact .raised he h
  | lost h => exact .lost (C.leads h left right)

theorem Parallel.bind [∀ a, Action.Rising (f a)] [∀ b, Action.Rising (g b)]
    (hx : C.Parallel R A x y) (hf : ∀ a b, A a b → C.Parallel R B (f a) (g b)) :
    C.Parallel R B (x >>= f) (y >>= g) :=
  fun _ _ hst => (hx hst).bind (fun _ _ => id) fun a b _ _ ha h => hf a b ha h

/-- Something is cleaned up, and what was raised goes on. -/
theorem agree_clean {clean clean' : Action σ Unit}
    (hc : C.Parallel R (fun _ _ => True) clean clean') {e e' : Exception}
    (he : C.Exceptions e e') {s t : σ} (h : R s t) :
    C.Agree A R ((clean.bind fun _ => Action.raise e) s)
      ((clean'.bind fun _ => Action.raise e') t) :=
  hc.bind (f := fun _ => Action.raise e) (g := fun _ => Action.raise e')
    (fun _ _ _ => parallel_raise he) h

section cleaning

variable {clean clean' : Action σ Unit} [Action.Rising clean] [Action.Rising clean']

theorem Parallel.onRaise (hx : C.Parallel R A x y)
    (hc : C.Parallel R (fun _ _ => True) clean clean') (hr : clean.Raises fun _ => False)
    (hr' : clean'.Raises fun _ => False) :
    C.Parallel R A (x.onRaise clean) (y.onRaise clean') := by
  intro s t hst
  have left := Action.leads_onRaise x hr s
  have right := Action.leads_onRaise y hr' t
  have h := hx hst
  unfold Action.onRaise at *
  generalize x s = o at *
  generalize y t = p at *
  cases h with
  | done ha h => exact .done ha h
  | raised he h => exact agree_clean hc he h
  | lost h => exact .lost (C.leads h left right)

theorem Parallel.ensuring (hx : C.Parallel R A x y)
    (hc : C.Parallel R (fun _ _ => True) clean clean') (hr : clean.Raises fun _ => False)
    (hr' : clean'.Raises fun _ => False) :
    C.Parallel R A (x.ensuring clean) (y.ensuring clean') := by
  intro s t hst
  have left := Action.leads_ensuring x hr s
  have right := Action.leads_ensuring y hr' t
  have h := hx hst
  unfold Action.ensuring at *
  generalize x s = o at *
  generalize y t = p at *
  cases h with
  | @done a b u v ha h =>
    exact hc.bind (f := fun _ => (pure a : Action σ α)) (g := fun _ => (pure b : Action σ β))
      (fun _ _ _ => parallel_pure ha) h
  | raised he h => exact agree_clean hc he h
  | lost h => exact .lost (C.leads h left right)

end cleaning

theorem Parallel.unfailing (hx : C.Parallel R A x y) (breach breach' : Exception → Breach) :
    C.Parallel R A (x.unfailing breach) (y.unfailing breach') := by
  intro s t hst
  have left := Action.leads_unfailing x breach s
  have right := Action.leads_unfailing y breach' t
  have h := hx hst
  unfold Action.unfailing at *
  generalize x s = o at *
  generalize y t = p at *
  cases h with
  | done ha h => exact .done ha h
  | raised he h => exact agree_broken _ _
  | lost h => exact .lost (C.leads h left right)

/-- An action on a part of the state. -/
theorem Agree.zoom {Q : τ → τ → Prop} {get : τ → σ} {put : σ → τ → τ} {s t : τ}
    (hx : C.Agree A R (x (get s)) (y (get t))) (hpeak : ∀ s t, peak (put s t) = peak s)
    (hput : ∀ u v, R u v → Q (put u s) (put v t)) :
    C.Agree A Q (x.zoom get put s) (y.zoom get put t) := by
  have fate {α : Type} (x : Action σ α) (s : τ) : (x.zoom get put s).fate = (x (get s)).fate := by
    unfold Action.zoom
    cases x (get s) with
    | done a u => exact congrArg Fate.done (hpeak u s)
    | raised e u => exact congrArg (Fate.raised e.condition) (hpeak u s)
    | broken b => rfl
  have left := fate x s
  have right := fate y t
  unfold Action.zoom at *
  generalize x (get s) = o at *
  generalize y (get t) = p at *
  cases hx with
  | done ha h => exact .done ha (hput _ _ h)
  | raised he h => exact .raised he (hput _ _ h)
  | lost h => exact .lost (left ▸ right ▸ h)

theorem Parallel.zoom {Q : τ → τ → Prop} {get : τ → σ} {put : σ → τ → τ} (hx : C.Parallel R A x y)
    (hpeak : ∀ s t, peak (put s t) = peak s)
    (hget : ∀ s t, Q s t → R (get s) (get t))
    (hput : ∀ s t u v, Q s t → R u v → Q (put u s) (put v t)) :
    C.Parallel Q A (x.zoom get put) (y.zoom get put) :=
  fun s t hst => (hx (hget s t hst)).zoom hpeak fun u v => hput s t u v hst

/-! ### Readings that are alike -/

/-- Two readings give what is alike, or both fail. -/
inductive Results {ε : Type} (E : ε → ε → Prop) (A : α → β → Prop) :
    Except ε α → Except ε β → Prop
  | ok {a : α} {b : β} (h : A a b) : Results E A (.ok a) (.ok b)
  | error {e e' : ε} (h : E e e') : Results E A (.error e) (.error e')

theorem parallel_ofExcept {r : Except Cause α} {r' : Except Cause β} (h : Results Eq A r r') :
    C.Parallel R A (Action.ofExcept r) (Action.ofExcept r') := by
  cases h with
  | ok h => exact parallel_pure h
  | error h => exact h ▸ parallel_fail _

/-- What is decided already. -/
theorem parallel_ofExcept_bind {r : Except Cause α} {r' : Except Cause β} (h : Results Eq A r r')
    (hf : ∀ a b, A a b → C.Parallel R B (f a) (g b)) :
    C.Parallel R B (Action.ofExcept r >>= f) (Action.ofExcept r' >>= g) := by
  cases h with
  | ok h => exact hf _ _ h
  | error h => exact h ▸ fun _ _ hst => .raised (.refl C _) hst

theorem parallel_ofSound_bind {r : Except Breach α} {r' : Except Breach β}
    (h : Results (fun _ _ => True) A r r') (hf : ∀ a b, A a b → C.Parallel R B (f a) (g b)) :
    C.Parallel R B (Action.ofSound r >>= f) (Action.ofSound r' >>= g) := by
  cases h with
  | ok h => exact hf _ _ h
  | error h => exact fun _ _ _ => agree_broken _ _

theorem parallel_ofSound {r : Except Breach α} {r' : Except Breach β}
    (h : Results (fun _ _ => True) A r r') :
    C.Parallel R A (Action.ofSound r) (Action.ofSound r') := by
  cases h with
  | ok h => exact parallel_pure h
  | error h => exact parallel_breach _ _

/-- Something that is compared only if the trails of allocations are. -/
theorem parallel_ofSound_traced {r r' : Except Breach α} (h : C.traced → r = r') :
    C.Parallel R (fun a b => C.traced → a = b) (Action.ofSound r) (Action.ofSound r') := by
  by_cases htraced : C.traced
  · cases h htraced
    exact parallel_ofSound (by cases r <;> constructor <;> simp)
  · intro s t hst
    cases r with
    | error b => exact .lost (C.breached htraced).1
    | ok a =>
      cases r' with
      | error b => exact .lost (C.breached htraced).2
      | ok b => exact .done (fun h => absurd h htraced) hst

/-! ### What can be observed of values that are alike -/

section observations

variable {v w v' w' : Value}

/-- What does not depend on the handle of a container. -/
theorem Values.congr {γ : Type} (f : Datum → γ) (h : C.Values v w)
    (harray : ∀ i j access, f (.array i access) = f (.array j access))
    (hdictionary : ∀ i j writable, f (.dictionary i writable) = f (.dictionary j writable)) :
    f v.datum = f w.datum := by
  have hd := h.datum
  generalize v.datum = d at hd
  generalize w.datum = e at hd
  cases hd with
  | array h access => exact harray _ _ access
  | dictionary h writable => exact hdictionary _ _ writable
  | _ => rfl

theorem Values.kind (h : C.Values v w) : v.kind = w.kind :=
  h.congr Datum.kind (fun _ _ _ => rfl) fun _ _ _ => rfl

theorem Values.isExecutable (h : C.Values v w) : v.isExecutable = w.isExecutable :=
  h.congr Datum.isExecutable (fun _ _ _ => rfl) fun _ _ _ => rfl

theorem Values.isReadOnly (h : C.Values v w) : v.isReadOnly = w.isReadOnly :=
  h.congr Datum.isReadOnly (fun _ _ _ => rfl) fun _ _ _ => rfl

theorem Values.access? (h : C.Values v w) : v.access? = w.access? :=
  h.congr (fun d => Value.access? ⟨d, none⟩) (fun _ _ _ => rfl) fun _ _ _ => rfl

theorem Values.isInert (h : C.Values v w) : v.isInert = w.isInert := by
  unfold Value.isInert Value.isBlock
  rw [h.isExecutable, h.access?]

theorem Values.isMark (h : C.Values v w) : v.isMark = w.isMark :=
  h.congr (fun d => d == .mark) (fun _ _ _ => rfl) fun _ _ _ => rfl

theorem Values.toBoolean? (h : C.Values v w) : v.toBoolean? = w.toBoolean? :=
  h.congr (fun d => Value.toBoolean? ⟨d, none⟩) (fun _ _ _ => rfl) fun _ _ _ => rfl

theorem Values.toWord? (h : C.Values v w) : v.toWord? = w.toWord? :=
  h.congr (fun d => Value.toWord? ⟨d, none⟩) (fun _ _ _ => rfl) fun _ _ _ => rfl

theorem Values.toText? (h : C.Values v w) : v.toText? = w.toText? :=
  h.congr (fun d => Value.toText? ⟨d, none⟩) (fun _ _ _ => rfl) fun _ _ _ => rfl

theorem Values.toName? (h : C.Values v w) : v.toName? = w.toName? :=
  h.congr (fun d => Value.toName? ⟨d, none⟩) (fun _ _ _ => rfl) fun _ _ _ => rfl

theorem Values.toOperator? (h : C.Values v w) : v.toOperator? = w.toOperator? :=
  h.congr (fun d => Value.toOperator? ⟨d, none⟩) (fun _ _ _ => rfl) fun _ _ _ => rfl

theorem Values.handle? (h : C.Values v w) : Option.Rel C.handles v.handle? w.handle? := by
  have hd := h.datum
  unfold Value.handle?
  generalize v.datum = d at hd
  generalize w.datum = e at hd
  cases hd with
  | array h access => exact .some h
  | dictionary h writable => exact .some h
  | _ => exact .none

theorem Values.accepts (h : C.Values v w) (p : Param) : p.accepts v = p.accepts w := by
  cases p <;> simp only [Param.accepts, h.kind, h.access?, h.isReadOnly]

theorem Values.same (h : C.Values v w) (h' : C.Values v' w') : v.same v' = w.same w' := by
  have hd := h.datum
  have hd' := h'.datum
  unfold Value.same
  generalize v.datum = d at hd
  generalize w.datum = e at hd
  generalize v'.datum = d' at hd'
  generalize w'.datum = e' at hd'
  cases hd with
  | array h access =>
    cases hd' with
    | array h' access' => exact beq_eq_beq.2 (C.unique h h')
    | _ => rfl
  | dictionary h writable =>
    cases hd' with
    | dictionary h' writable' => exact beq_eq_beq.2 (C.unique h h')
    | _ => rfl
  | _ => cases hd' <;> rfl

theorem Values.withSource (h : C.Values v w) {p q : Option Provenance} (hp : C.exact → p = q) :
    C.Values (v.withSource p) (w.withSource q) := ⟨h.datum, hp⟩

theorem Values.of_plain (v : Value) (h : v.handle? = none) : C.Values v v := by
  obtain ⟨d, s⟩ := v
  refine ⟨?_, fun _ => rfl⟩
  cases d with
  | array => cases h
  | dictionary => cases h
  | _ => constructor

end observations

/-! ### Lists of what is alike -/

section lists

variable {α β : Type} {R : α → β → Prop} {l : List α} {k : List β} {a : α} {b : β}

theorem rel_getElem? (h : List.Forall₂ R l k) (n : ℕ) : Option.Rel R l[n]? k[n]? := by
  induction h generalizing n with
  | nil => exact .none
  | cons h _ ih =>
    cases n with
    | zero => exact .some h
    | succ n => exact ih n

theorem rel_head? (h : List.Forall₂ R l k) : Option.Rel R l.head? k.head? := by
  cases h with
  | nil => exact .none
  | cons h _ => exact .some h

theorem rel_set (h : List.Forall₂ R l k) (n : ℕ) (hab : R a b) :
    List.Forall₂ R (l.set n a) (k.set n b) := by
  induction h generalizing n with
  | nil => exact .nil
  | cons h hrest ih =>
    cases n with
    | zero => exact .cons hab hrest
    | succ n => exact .cons h (ih n)

theorem modify_append_left {n : ℕ} (h : n < l.length) (l' : List α) (f : α → α) :
    (l ++ l').modify n f = l.modify n f ++ l' := by
  induction l generalizing n with
  | nil => cases h
  | cons a l ih =>
    cases n with
    | zero => rfl
    | succ n => exact congrArg (a :: ·) (ih (Nat.lt_of_succ_lt_succ h))

theorem rel_modify {f : α → α} {g : β → β} (h : List.Forall₂ R l k) (n : ℕ)
    (hfg : ∀ a b, R a b → R (f a) (g b)) : List.Forall₂ R (l.modify n f) (k.modify n g) := by
  induction h generalizing n with
  | nil => cases n <;> exact .nil
  | cons h hrest ih =>
    cases n with
    | zero => exact .cons (hfg _ _ h) hrest
    | succ n => exact .cons h (ih n)

theorem rel_replicate (n : ℕ) (hab : R a b) :
    List.Forall₂ R (List.replicate n a) (List.replicate n b) := by
  induction n with
  | zero => exact .nil
  | succ n ih => exact .cons hab ih

theorem rel_findIdx? {p : α → Bool} {q : β → Bool} (h : List.Forall₂ R l k)
    (hpq : ∀ a b, R a b → p a = q b) : l.findIdx? p = k.findIdx? q := by
  induction h with
  | nil => rfl
  | cons hab _ ih => rw [List.findIdx?_cons, List.findIdx?_cons, hpq _ _ hab, ih]

end lists

end Likeness

end StackScript
