import StackScript.Action

/-!
# Judging how an action ends

`o.Meets lax P F` says that the outcome `o` is a value and a state in `P`, or an exception with a
state in `F`, or else a breach, which is there only if `lax` holds.  With `False` for `lax` it is
total: no invariant is violated.

There is one rule for each way of putting actions together, so what a compound action meets is read
off its parts without opening them.
-/

namespace StackScript

variable {σ τ α β : Type} {lax : Prop}

namespace Outcome

/-- The outcome is in `P`, is an exception in `F`, or is a breach if `lax` allows one. -/
def Meets (o : Outcome σ α) (lax : Prop) (P : α → σ → Prop) (F : σ → Prop) : Prop :=
  match o with
  | .done a s => P a s
  | .raised _ s => F s
  | .broken _ => lax

variable {o : Outcome σ α} {P P' : α → σ → Prop} {F F' : σ → Prop}

@[simp] theorem meets_done {a : α} {s : σ} :
    (Outcome.done a s).Meets lax P F ↔ P a s := Iff.rfl

@[simp] theorem meets_raised {e : Exception} {s : σ} :
    (Outcome.raised e s : Outcome σ α).Meets lax P F ↔ F s := Iff.rfl

@[simp] theorem meets_broken {b : Breach} :
    (Outcome.broken b : Outcome σ α).Meets lax P F ↔ lax := Iff.rfl

theorem Meets.mono (h : o.Meets lax P F) (hp : ∀ a s, P a s → P' a s)
    (hf : ∀ s, F s → F' s) : o.Meets lax P' F' := by
  cases o with
  | done a s => exact hp a s h
  | raised e s => exact hf s h
  | broken b => exact h

/-- An action that does not raise meets any condition on what it leaves if it raises. -/
theorem Meets.always (h : o.Meets lax P fun _ => False) (hp : ∀ a s, P a s → P' a s) :
    o.Meets lax P' F :=
  h.mono hp fun _ h => h.elim

theorem meets_of_forall (hp : ∀ a s, P a s) (hf : ∀ s, F s) : o.Meets True P F := by
  cases o with
  | done a s => exact hp a s
  | raised e s => exact hf s
  | broken b => trivial

theorem Meets.and {lax' : Prop} (h : o.Meets lax P F) (h' : o.Meets lax' P' F') :
    o.Meets lax (fun a s => P a s ∧ P' a s) fun s => F s ∧ F' s := by
  cases o with
  | done a s => exact ⟨h, h'⟩
  | raised e s => exact ⟨h, h'⟩
  | broken b => exact h

theorem Meets.weaken (h : o.Meets False P F) : o.Meets lax P F := by
  cases o with
  | done a s => exact h
  | raised e s => exact h
  | broken b => exact h.elim

/-- An action that neither raises nor breaks anything is done. -/
theorem Meets.exists_done (h : o.Meets False P fun _ => False) : ∃ a s, o = .done a s ∧ P a s := by
  cases o with
  | done a s => exact ⟨a, s, rfl, h⟩
  | raised e s => exact h.elim
  | broken b => exact h.elim

theorem Meets.not_broken (h : o.Meets False P F) (b : Breach) : o ≠ .broken b := by
  rintro rfl
  exact h

end Outcome

namespace Action

variable {x : Action σ α} {s : σ} {P : α → σ → Prop} {F M : σ → Prop}

theorem meets_bind {f : α → Action σ β} {Q : β → σ → Prop}
    (hx : (x s).Meets lax P F) (hf : ∀ a t, P a t → (f a t).Meets lax Q F) :
    ((x >>= f) s).Meets lax Q F := by
  rw [bind_apply]
  cases h : x s with
  | done a t => rw [h] at hx; exact hf a t hx
  | raised e t => rw [h] at hx; exact hx
  | broken b => rw [h] at hx; exact hx

theorem meets_attempt {Q : Except Exception α → σ → Prop}
    (hx : (x s).Meets lax (fun a t => Q (.ok a) t) fun t => ∀ e, Q (.error e) t) :
    (x.attempt s).Meets lax Q F := by
  unfold attempt
  cases h : x s with
  | done a t => rw [h] at hx; exact hx
  | raised e t => rw [h] at hx; exact hx e
  | broken b => rw [h] at hx; exact hx

theorem meets_onRaise {clean : Action σ Unit} (hx : (x s).Meets lax P M)
    (hc : ∀ t, M t → (clean t).Meets lax (fun _ u => F u) F) :
    (x.onRaise clean s).Meets lax P F := by
  unfold onRaise
  cases h : x s with
  | done a t => rw [h] at hx; exact hx
  | raised e t =>
    rw [h] at hx
    exact meets_bind (f := fun _ => raise e) (hc t hx) fun _ u hu => hu
  | broken b => rw [h] at hx; exact hx

theorem meets_ensuring {clean : Action σ Unit} {B : α → σ → Prop}
    (hx : (x s).Meets lax B M)
    (hd : ∀ a t, B a t → (clean t).Meets lax (fun _ u => P a u) F)
    (hr : ∀ t, M t → (clean t).Meets lax (fun _ u => F u) F) :
    (x.ensuring clean s).Meets lax P F := by
  unfold ensuring
  cases h : x s with
  | done a t =>
    rw [h] at hx
    exact meets_bind (f := fun _ => Action.pure a) (hd a t hx) fun _ u hu => hu
  | raised e t =>
    rw [h] at hx
    exact meets_bind (f := fun _ => raise e) (hr t hx) fun _ u hu => hu
  | broken b => rw [h] at hx; exact hx

theorem meets_unfailing {breach : Exception → Breach} (hx : (x s).Meets lax P fun _ => False) :
    (x.unfailing breach s).Meets lax P F := by
  unfold unfailing
  cases h : x s with
  | done a t => rw [h] at hx; exact hx
  | raised e t => rw [h] at hx; exact hx.elim
  | broken b => rw [h] at hx; exact hx

theorem meets_zoom {get : τ → σ} {put : σ → τ → τ} {t : τ} {Q : α → τ → Prop} {E : τ → Prop}
    (hx : (x (get t)).Meets lax (fun a s => Q a (put s t)) fun s => E (put s t)) :
    (x.zoom get put t).Meets lax Q E := by
  unfold zoom
  cases h : x (get t) with
  | done a s => rw [h] at hx; exact hx
  | raised e s => rw [h] at hx; exact hx
  | broken b => rw [h] at hx; exact hx

theorem meets_ofExcept {c : Except Cause α} (hd : ∀ a, c = .ok a → P a s) (hf : F s) :
    (ofExcept c s).Meets lax P F := by
  cases c with
  | ok a => exact hd a rfl
  | error c => exact hf

theorem meets_ofSound {c : Except Breach α} {a : α} (hc : c = .ok a) (h : P a s) :
    (ofSound c s).Meets lax P F := by
  subst hc
  exact h

theorem meets_modify {f : σ → σ} {Q : PUnit → σ → Prop} (h : Q ⟨⟩ (f s)) :
    ((modify f : Action σ PUnit) s).Meets lax Q F := h

theorem get_bind (f : σ → Action σ α) (s : σ) : ((get : Action σ σ) >>= f) s = f s s := rfl

theorem modify_bind (f : σ → σ) (k : PUnit → Action σ α) (s : σ) :
    ((modify f : Action σ PUnit) >>= k) s = k ⟨⟩ (f s) := rfl

end Action

/-! ### Looking at what is raised -/

namespace Outcome

variable {o : Outcome σ α} {P P' : α → σ → Prop} {E E' : Exception → σ → Prop}

/-- The outcome is in `P`, is an exception in `E`, or is a breach. -/
def Yields (o : Outcome σ α) (P : α → σ → Prop) (E : Exception → σ → Prop) : Prop :=
  match o with
  | .done a s => P a s
  | .raised e s => E e s
  | .broken _ => True

theorem Yields.mono (h : o.Yields P E) (hp : ∀ a s, P a s → P' a s)
    (he : ∀ e s, E e s → E' e s) : o.Yields P' E' := by
  cases o with
  | done a s => exact hp a s h
  | raised e s => exact he e s h
  | broken b => trivial

theorem Yields.and (h : o.Yields P E) (h' : o.Yields P' E') :
    o.Yields (fun a s => P a s ∧ P' a s) fun e s => E e s ∧ E' e s := by
  cases o with
  | done a s => exact ⟨h, h'⟩
  | raised e s => exact ⟨h, h'⟩
  | broken b => trivial

theorem Meets.yields {F : σ → Prop} (h : o.Meets lax P F) : o.Yields P fun _ => F := by
  cases o with
  | done a s => exact h
  | raised e s => exact h
  | broken b => trivial

theorem Yields.meets {F : σ → Prop} (h : o.Yields P fun _ => F) : o.Meets True P F := by
  cases o with
  | done a s => exact h
  | raised e s => exact h
  | broken b => trivial

end Outcome

namespace Action

variable {x : Action σ α} {s : σ} {P : α → σ → Prop} {E M : Exception → σ → Prop}

theorem yields_bind {f : α → Action σ β} {Q : β → σ → Prop} (hx : (x s).Yields P E)
    (hf : ∀ a t, P a t → (f a t).Yields Q E) : ((x >>= f) s).Yields Q E := by
  rw [bind_apply]
  cases h : x s with
  | done a t => rw [h] at hx; exact hf a t hx
  | raised e t => rw [h] at hx; exact hx
  | broken b => trivial

theorem yields_onRaise {clean : Action σ Unit} (hx : (x s).Yields P M)
    (hc : ∀ e t, M e t → (clean t).Yields (fun _ u => E e u) E) :
    (x.onRaise clean s).Yields P E := by
  unfold onRaise
  cases h : x s with
  | done a t => rw [h] at hx; exact hx
  | raised e t =>
    rw [h] at hx
    exact yields_bind (f := fun _ => raise e) (hc e t hx) fun _ u hu => hu
  | broken b => trivial

theorem yields_ensuring {clean : Action σ Unit} {B : α → σ → Prop} (hx : (x s).Yields B M)
    (hd : ∀ a t, B a t → (clean t).Yields (fun _ u => P a u) E)
    (hr : ∀ e t, M e t → (clean t).Yields (fun _ u => E e u) E) :
    (x.ensuring clean s).Yields P E := by
  unfold ensuring
  cases h : x s with
  | done a t =>
    rw [h] at hx
    exact yields_bind (f := fun _ => Action.pure a) (hd a t hx) fun _ u hu => hu
  | raised e t =>
    rw [h] at hx
    exact yields_bind (f := fun _ => raise e) (hr e t hx) fun _ u hu => hu
  | broken b => trivial

theorem yields_zoom {get : τ → σ} {put : σ → τ → τ} {t : τ} {Q : α → τ → Prop}
    {D : Exception → τ → Prop}
    (hx : (x (get t)).Yields (fun a s => Q a (put s t)) fun e s => D e (put s t)) :
    (x.zoom get put t).Yields Q D := by
  unfold zoom
  cases h : x (get t) with
  | done a s => rw [h] at hx; exact hx
  | raised e s => rw [h] at hx; exact hx
  | broken b => trivial

end Action

end StackScript
