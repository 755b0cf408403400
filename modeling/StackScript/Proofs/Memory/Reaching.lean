import StackScript.Proofs.Memory.Contents
import StackScript.Proofs.Memory.Remains

/-!
# What handles reach

A handle reaches the containers that are held by the one it refers to, and what these hold in turn
(`Heap.Reaches`).

While a heap is worked on, cells go and are used again for others, and objects change; apart from these,
what is there has been there before (`Heap.Drifts`).  What handles in use on either side reach without
meeting any of these is not concerned: it goes on to be reached, and stays as it was
(`Heap.Drifts.retains`).
-/

namespace StackScript

open Relation (ReflTransGen)

namespace Heap

variable {h h₁ h₂ h₃ : Heap} {R R' N N' : Handle → Prop} {i j : Handle} {o : Object}

/-- Something is in the cell of the handle. -/
def Live (h : Heap) (i : Handle) : Prop := h.cell? i ≠ none

/-- What containers hold is there. -/
def Closed (h : Heap) : Prop := ∀ i j, h.Holds i j → h.Live j

/-- One of the handles leads to the container. -/
def Reaches (h : Heap) (R : Handle → Prop) (j : Handle) : Prop :=
  ∃ i, R i ∧ ReflTransGen h.Holds i j

/-- What the handles reach is there, and stays as it is. -/
def Retains (R : Handle → Prop) (h₁ h₂ : Heap) : Prop :=
  ∀ j, h₁.Reaches R j → h₁.Live j ∧ h₂.content? j = h₁.content? j

/-- Apart from some handles, what is there has been there, and is what it was. -/
def Drifts (N : Handle → Prop) (h₁ h₂ : Heap) : Prop :=
  ∀ i, h₂.Live i → ¬ N i → h₁.Live i ∧ h₂.content? i = h₁.content? i

theorem live_of_object? (ho : h.object? i = some o) : h.Live i := by
  obtain ⟨c, hc, -⟩ := exists_cell_of_object? ho
  simp [Live, hc]

theorem live_iff_content? : h.Live i ↔ h.content? i ≠ none := content?_eq_none_iff.not.symm

theorem live_iff_of_content? (hc : h₂.content? i = h₁.content? i) : h₂.Live i ↔ h₁.Live i := by
  rw [live_iff_content?, live_iff_content?, hc]

theorem object?_of_content? (hc : h₂.content? i = h₁.content? i) : h₂.object? i = h₁.object? i := by
  rw [object?_eq_join, object?_eq_join, hc]

/-! ### Reaching -/

theorem reaches_of_root (hi : R i) : h.Reaches R i := ⟨i, hi, .refl⟩

theorem Reaches.step (hi : h.Reaches R i) (hij : h.Holds i j) : h.Reaches R j :=
  let ⟨r, hr, hri⟩ := hi
  ⟨r, hr, hri.tail hij⟩

theorem Reaches.mono (hi : h.Reaches R i) (hR : ∀ i, R i → R' i) : h.Reaches R' i :=
  let ⟨r, hr, hri⟩ := hi
  ⟨r, hR r hr, hri⟩

theorem Reaches.live (hi : h.Reaches R i) (hc : h.Closed) (hR : ∀ i, R i → h.Live i) :
    h.Live i := by
  obtain ⟨r, hr, hri⟩ := hi
  rcases hri.cases_tail with rfl | ⟨g, -, hg⟩
  · exact hR _ hr
  · exact hc g i hg

/-! ### Retaining -/

theorem Retains.refl (hc : h.Closed) (hR : ∀ i, R i → h.Live i) : Retains R h h :=
  fun _ hj => ⟨hj.live hc hR, rfl⟩

theorem Retains.mono (hr : Retains R h₁ h₂) (hR : ∀ i, R' i → R i) : Retains R' h₁ h₂ :=
  fun j hj => hr j (hj.mono hR)

theorem Retains.object? (hr : Retains R h₁ h₂) (hj : h₁.Reaches R j) :
    h₂.object? j = h₁.object? j :=
  object?_of_content? (hr j hj).2

/-- What is reached goes on to be reached. -/
theorem Retains.reaches (hr : Retains R h₁ h₂) (hj : h₁.Reaches R j) : h₂.Reaches R j := by
  obtain ⟨r, hroot, path⟩ := hj
  induction path with
  | refl => exact reaches_of_root hroot
  | tail path step ih =>
    obtain ⟨o, ho, hv⟩ := step
    exact ih.step ⟨o, (hr.object? ⟨r, hroot, path⟩).trans ho, hv⟩

theorem Retains.trans (h₁₂ : Retains R h₁ h₂) (h₂₃ : Retains R h₂ h₃) : Retains R h₁ h₃ :=
  fun j hj => ⟨(h₁₂ j hj).1, (h₂₃ j (h₁₂.reaches hj)).2.trans (h₁₂ j hj).2⟩

/-! ### Drifting -/

theorem Drifts.refl (N : Handle → Prop) (h : Heap) : h.Drifts N h := fun _ hi _ => ⟨hi, rfl⟩

theorem Drifts.mono (hd : h₁.Drifts N h₂) (hN : ∀ i, N i → N' i) : h₁.Drifts N' h₂ :=
  fun i hi hni => hd i hi fun hn => hni (hN i hn)

theorem Drifts.trans (h₁₂ : h₁.Drifts N h₂) (h₂₃ : h₂.Drifts N h₃) : h₁.Drifts N h₃ := by
  intro i hi hn
  obtain ⟨hi₂, same₂⟩ := h₂₃ i hi hn
  obtain ⟨hi₁, same₁⟩ := h₁₂ i hi₂ hn
  exact ⟨hi₁, same₂.trans same₁⟩

theorem Sheds.drifts (hs : h₁.Sheds h₂) (N : Handle → Prop) : h₁.Drifts N h₂ := by
  intro i hi _
  have same := (hs i).resolve_left (live_iff_content?.1 hi)
  exact ⟨(live_iff_of_content? same).1 hi, same⟩

theorem Stores.drifts (hs : h₁.Stores i o h₂) : h₁.Drifts (· = i) h₂ := by
  intro j hj hne
  have same := (hs.content j).trans (if_neg hne)
  exact ⟨(live_iff_of_content? same).1 hj, same⟩

/-- What is held has been held before. -/
theorem Drifts.holds (hd : h₁.Drifts N h₂) (hi : ¬ N i) (hij : h₂.Holds i j) : h₁.Holds i j := by
  obtain ⟨o, ho, hv⟩ := hij
  exact ⟨o, (object?_of_content? (hd i (live_of_object? ho) hi).2).symm.trans ho, hv⟩

/-- **What handles in use reach** stays as it is if it is none of the handles that are set apart. -/
theorem Drifts.retains (hd : h₁.Drifts N h₂) (hc₁ : h₁.Closed) (hc₂ : h₂.Closed)
    (hR₁ : ∀ i, R i → h₁.Live i) (hR₂ : ∀ i, R i → h₂.Live i)
    (hN : ∀ i, h₁.Reaches R i → ¬ N i) : Retains R h₁ h₂ := by
  rintro j ⟨r, hroot, path⟩
  induction path with
  | refl => exact ⟨hR₁ r hroot, (hd r (hR₂ r hroot) (hN r (reaches_of_root hroot))).2⟩
  | @tail i j path step ih =>
    have reached : h₁.Reaches R j := ⟨r, hroot, path.tail step⟩
    obtain ⟨o, ho, hv⟩ := id step
    have held : h₂.Holds i j := ⟨o, (object?_of_content? ih.2).trans ho, hv⟩
    exact ⟨hc₁ i j step, (hd j (hc₂ i j held) (hN j reached)).2⟩

/-- If none of these was in use, nothing that is still in use has changed. -/
theorem Drifts.retains_of_unused (hd : h₁.Drifts N h₂) (hN : ∀ i, N i → ¬ h₁.Live i)
    (hc₁ : h₁.Closed) (hc₂ : h₂.Closed) (hR₁ : ∀ i, R i → h₁.Live i)
    (hR₂ : ∀ i, R i → h₂.Live i) : Retains R h₁ h₂ :=
  hd.retains hc₁ hc₂ hR₁ hR₂ fun i hi hn => hN i hn (hi.live hc₁ hR₁)

end Heap

namespace Memory

variable {total : Option ℕ} {σ : ℕ → Label} {x : Stake} {m : Memory} {i : Handle}

theorem Balanced.closed (hb : m.Balanced total σ x) : m.heap.Closed := by
  rintro i j ⟨o, ho, v, hv, hj⟩
  obtain ⟨c, hc⟩ := hb.exists_cell_of_holders (i := j) (by
    rw [Stake.holders_add]
    exact Nat.add_pos_right _ (Heap.holders_stake_pos ho hv hj))
  simp [Heap.Live, hc]

theorem Balanced.live (hb : m.Balanced total σ x) (hi : 0 < x.holders i) : m.heap.Live i := by
  obtain ⟨c, hc⟩ := hb.exists_cell_of_holders (i := i) (by
    rw [Stake.holders_add]
    exact Nat.add_pos_left hi _)
  simp [Heap.Live, hc]

end Memory

end StackScript
