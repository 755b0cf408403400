import Mathlib.Data.List.Chain
import StackScript.Proofs.Machine.Moves

/-!
# Permissions along a history

A machine and the values held besides by whoever works on it are a *custody*.  It is uniform if all
values that refer to one container are the same datum, so that they grant the same permission.

What a move may make of a machine (`Machine.Moves`) keeps custodies uniform: a value refers to a
container by a datum that was there before, or to a container that is new.  And what nobody has leave
to write to is not written to (`Custody.hands_of_moves`).  So for as long as a container is there,
its permission stays, and its content too if that permission is to read (`Custody.Record.frozen`).
-/

namespace StackScript

/-- The handle is that of a container. -/
def Machine.Lives (m : Machine) (i : Handle) : Prop := m.memory.heap.cell? i ≠ none

/-- Values in places that refer to the same container are the same datum: they are of one kind, and
grant one permission. -/
def Machine.Uniform (m : Machine) : Prop :=
  ∀ v ∈ m.places, ∀ u ∈ m.places, ∀ i, v.handle? = some i → u.handle? = some i → v.datum = u.datum

/-- A machine, and the values that are held besides by whoever works on it. -/
structure Custody where
  machine : Machine
  held : List Value

namespace Custody

variable {Γ : Charter} {c c' : Custody} {i : Handle} {d : Datum}

/-- The data of all the values there are. -/
def data (c : Custody) : List Datum := (c.machine.places ++ c.held).map Value.datum

/-- Data that refer to the same container are the same. -/
def Uniform (c : Custody) : Prop :=
  ∀ d ∈ c.data, ∀ e ∈ c.data, ∀ i, d.handle? = some i → e.handle? = some i → d = e

/-- What is held is what the machine is sound with. -/
def Sound (Γ : Charter) (c : Custody) : Prop := ∃ n, c.machine.Sound Γ n (.refs c.held)

/-! ### Who refers to a container -/

theorem mem_data_of_place {v : Value} (hv : v ∈ c.machine.places) : v.datum ∈ c.data :=
  List.mem_map_of_mem (List.mem_append_left _ hv)

theorem Uniform.places (h : c.Uniform) : c.machine.Uniform := fun v hv u hu i =>
  h v.datum (mem_data_of_place hv) u.datum (mem_data_of_place hu) i

theorem values_eq (c : Custody) :
    (c.machine.stake + .refs c.held + c.machine.memory.heap.stake).values =
      (c.machine.places ++ c.held : List Value) := by
  rw [add_right_comm, Stake.values_add, c.machine.values_eq_places, Stake.values_refs,
    Multiset.coe_add]

theorem locals_eq (c : Custody) :
    (c.machine.stake + .refs c.held).locals = c.machine.localDictionaries := by
  rw [Stake.locals_add, Stake.locals_refs, add_zero, Machine.locals_eq_localDictionaries]

theorem knows_of_mem_data (hd : d ∈ c.data) :
    ∃ v : Value, v.datum = d ∧
      (c.machine.stake + .refs c.held + c.machine.memory.heap.stake).Knows v := by
  obtain ⟨v, hv, rfl⟩ := List.mem_map.1 hd
  exact ⟨v, rfl, Stake.knows_of_mem (by rw [c.values_eq]; exact hv)⟩

theorem Sound.lives (h : c.Sound Γ) (hd : d ∈ c.data) (hi : d.handle? = some i) :
    c.machine.Lives i := by
  obtain ⟨n, h⟩ := h
  obtain ⟨-, σ, hb, -⟩ := h.memory
  obtain ⟨v, rfl, known⟩ := knows_of_mem_data hd
  obtain ⟨cell, hcell⟩ := hb.exists_cell_of_known known hi
  rw [Machine.Lives, hcell]
  exact Option.some_ne_none cell

theorem Sound.exists_object (h : c.Sound Γ) (hi : c.machine.Lives i) :
    ∃ o, c.machine.memory.heap.object? i = some o := by
  obtain ⟨n, h⟩ := h
  obtain ⟨cell, hcell⟩ := Option.ne_none_iff_exists'.1 hi
  exact h.memory.present.exists_object hcell

/-- The locals of frames are referred to by no value. -/
theorem Sound.not_local (h : c.Sound Γ) (hd : d ∈ c.data) (hi : d.handle? = some i) :
    i ∉ c.machine.localDictionaries := by
  obtain ⟨n, h⟩ := h
  obtain ⟨-, σ, hb, -⟩ := h.memory
  obtain ⟨v, rfl, known⟩ := knows_of_mem_data hd
  have apart := hb.not_mem_locals_of_known known hi
  rwa [c.locals_eq, Multiset.mem_coe] at apart

/-- A container is there because a value refers to it, or because it has the locals of a frame. -/
theorem Sound.referred (h : c.Sound Γ) (hi : c.machine.Lives i) :
    (∃ d ∈ c.data, d.handle? = some i) ∨ i ∈ c.machine.localDictionaries := by
  obtain ⟨n, h⟩ := h
  obtain ⟨-, σ, hb, -⟩ := h.memory
  obtain ⟨cell, hcell⟩ := Option.ne_none_iff_exists'.1 hi
  have counted := hb.positive i cell hcell
  rw [← Heap.countAt_of_cell? hcell, hb.holders, Stake.holders_pos_iff, c.values_eq,
    Stake.locals_add, c.locals_eq, Heap.locals_stake, add_zero] at counted
  refine counted.imp (fun ⟨v, hv, hvi⟩ => ⟨v.datum, List.mem_map_of_mem hv, hvi⟩) fun hl => ?_
  exact Multiset.mem_coe.1 hl

/-! ### One move -/

/-- What becomes of the containers that are there before and after: they are referred to by the same
data, and only those that may be written to have another content. -/
structure Hands (c c' : Custody) : Prop where
  data : ∀ i, c.machine.Lives i → c'.machine.Lives i → ∀ d : Datum, d.handle? = some i →
    (d ∈ c.data ↔ d ∈ c'.data)
  content : ∀ i, c.machine.Lives i → c'.machine.Lives i → ∀ d ∈ c.data, d.handle? = some i →
    d.isReadOnly → c'.machine.memory.heap.content? i = c.machine.memory.heap.content? i
  label : ∀ i, c.machine.Lives i → c'.machine.Lives i → (c'.machine.memory.heap.object? i).map
    Object.label = (c.machine.memory.heap.object? i).map Object.label

variable {created : List Value}

theorem mem_data_of_carries (h : c.machine.Carries c.held d) (hi : d.handle? = some i) :
    d ∈ c.data := by
  obtain ⟨w, hw, hd⟩ := h (by rw [hi]; rfl)
  exact List.mem_map.2 ⟨w, hw, hd⟩

section

variable (moves : c.machine.Moves c.held created c'.machine)
  (hheld : ∀ v ∈ c'.held, v ∈ created ∨ c.machine.Carries c.held v.datum)
include moves hheld

/-- What is there after a move refers to a container that is new, or did so before. -/
theorem mem_data_of_moves (hd : d ∈ c'.data) (hi : d.handle? = some i) :
    (∃ v ∈ created, v.datum = d) ∨ d ∈ c.data := by
  obtain ⟨v, hv, rfl⟩ := List.mem_map.1 hd
  rcases List.mem_append.1 hv with place | held
  · exact .inr (mem_data_of_carries (Machine.within_iff.1 moves.within v place) hi)
  · exact (hheld v held).imp (fun new => ⟨v, new, rfl⟩) fun old => mem_data_of_carries old hi

theorem uniform_of_moves (h : c.Sound Γ) (uniform : c.Uniform) : c'.Uniform := by
  -- a new container is not one that was referred to before
  have apart {v : Value} {e : Datum} {i : Handle} (hv : v ∈ created) (hvi : v.handle? = some i)
      (he : e ∈ c.data) (hei : e.handle? = some i) : False :=
    h.lives he hei (moves.unused v hv i hvi)
  intro d hd e he i hdi hei
  rcases mem_data_of_moves moves hheld hd hdi with ⟨v, hv, rfl⟩ | hd <;>
    rcases mem_data_of_moves moves hheld he hei with ⟨w, hw, rfl⟩ | he
  · rw [moves.single v hv w hw]
  · exact (apart hv hdi he hei).elim
  · exact (apart hw hei hd hdi).elim
  · exact uniform d hd e he i hdi hei

/-- **A move** hands the containers on with the permissions they have. -/
theorem hands_of_moves (h : c.Sound Γ) (h' : c'.Sound Γ) (uniform : c.Uniform) : c.Hands c' := by
  have back (i : Handle) (hi : c.machine.Lives i) (d : Datum) (hdi : d.handle? = some i)
      (hd : d ∈ c'.data) : d ∈ c.data :=
    (mem_data_of_moves moves hheld hd hdi).resolve_left fun ⟨v, hv, hvd⟩ =>
      hi (moves.unused v hv i (by rw [← v.handle?_datum, hvd, hdi]))
  refine ⟨fun i hi hi' d hdi => ⟨fun hd => ?_, back i hi d hdi⟩, fun i hi hi' d hd hdi hread => ?_,
    fun i hi hi' => ?_⟩
  · rcases h'.referred hi' with ⟨e, he, hei⟩ | hlocal
    · exact uniform e (back i hi e hei he) d hd i hei hdi ▸ he
    · rcases moves.locals i hlocal with before | unused
      · exact (h.not_local hd hdi before).elim
      · exact (hi unused).elim
  · rcases moves.contents i with gone | gone | kept | hlocal | ⟨w, hw, hwi, writable⟩
    · exact (hi (Heap.content?_eq_none_iff.1 gone)).elim
    · exact (hi' (Heap.content?_eq_none_iff.1 gone)).elim
    · exact kept
    · exact (h.not_local hd hdi hlocal).elim
    · rw [uniform d hd w.datum (List.mem_map_of_mem hw) i hdi hwi] at hread
      rw [Value.isReadOnly, hread] at writable
      cases writable
  · obtain ⟨o, ho⟩ := h.exists_object hi
    obtain ⟨o', ho'⟩ := h'.exists_object hi'
    rw [ho, ho', Option.map_some, Option.map_some, moves.labels i o o' ho ho']

end

/-! ### Histories -/

/-- A history of sound and uniform custodies, the last one first. -/
structure Record (Γ : Charter) (history : List Custody) : Prop where
  sound : ∀ c ∈ history, c.Sound Γ
  uniform : ∀ c ∈ history, c.Uniform
  chain : history.IsChain fun later earlier => earlier.Hands later

variable {history stretch : List Custody}

theorem Record.infix (h : Record Γ history) (hs : stretch <:+: history) : Record Γ stretch where
  sound c hc := h.sound c (hs.subset hc)
  uniform c hc := h.uniform c (hs.subset hc)
  chain := h.chain.infix hs

/-- In both custodies the container is referred to by the same data, and if one of them does not let
it be modified, its content is the same.  Its kind and its account are. -/
structure Agrees (i : Handle) (c c' : Custody) : Prop where
  data : ∀ d : Datum, d.handle? = some i → (d ∈ c.data ↔ d ∈ c'.data)
  content : ∀ d ∈ c.data, d.handle? = some i → d.isReadOnly →
    c'.machine.memory.heap.content? i = c.machine.memory.heap.content? i
  label : (c'.machine.memory.heap.object? i).map Object.label =
    (c.machine.memory.heap.object? i).map Object.label

theorem Agrees.refl (i : Handle) (c : Custody) : c.Agrees i c :=
  ⟨fun _ _ => .rfl, fun _ _ _ _ => rfl, rfl⟩

theorem Agrees.symm (h : c.Agrees i c') : c'.Agrees i c where
  data d hi := (h.data d hi).symm
  content d hd hi hread := (h.content d ((h.data d hi).2 hd) hi hread).symm
  label := h.label.symm

theorem Agrees.trans {c'' : Custody} (h : c.Agrees i c') (h' : c'.Agrees i c'') :
    c.Agrees i c'' where
  data d hi := (h.data d hi).trans (h'.data d hi)
  content d hd hi hread :=
    (h'.content d ((h.data d hi).1 hd) hi hread).trans (h.content d hd hi hread)
  label := h'.label.trans h.label

theorem Hands.agrees (h : c.Hands c') (hi : c.machine.Lives i) (hi' : c'.machine.Lives i) :
    c.Agrees i c' := ⟨h.data i hi hi', h.content i hi hi', h.label i hi hi'⟩

/-- **Along a stretch of a history** in which a container is there all the time, the data that refer
to it stay, and its content too if they do not let it be modified.  In any case it stays charged to
the same account. -/
theorem Record.frozen (h : Record Γ stretch) (lives : ∀ c ∈ stretch, c.machine.Lives i)
    (hc : c ∈ stretch) (hc' : c' ∈ stretch) : c.Agrees i c' := by
  have chain : stretch.IsChain (Agrees i) := h.chain.imp_of_mem_imp fun later earlier hl he handed =>
    (handed.agrees (lives earlier he) (lives later hl)).symm
  have : Trans (Agrees i) (Agrees i) (Agrees i) := ⟨Agrees.trans⟩
  have : Std.Symm (Agrees i) := ⟨fun _ _ => Agrees.symm⟩
  exact (List.isChain_iff_pairwise.1 chain).forall_of_forall (fun c _ => .refl i c) hc hc'

/-- What some value gives only read access to is the same object all the time, and all values that
refer to it give the same access. -/
theorem Record.read_only {moments : List Machine} {m : Machine} {v : Value} (h : Record Γ history)
    (hs : moments <:+: history.map Custody.machine) (lives : ∀ m ∈ moments, m.Lives i)
    (hm : m ∈ moments) (hv : v ∈ m.places) (hi : v.handle? = some i) (read : v.isReadOnly) :
    ∃ o, ∀ m' ∈ moments, m'.memory.heap.object? i = some o ∧
      ∀ u ∈ m'.places, u.handle? = some i → u.datum = v.datum := by
  obtain ⟨stretch, hstretch, rfl⟩ := List.infix_map_iff.1 hs
  have record := h.infix hstretch
  have lives (c : Custody) (hc : c ∈ stretch) : c.machine.Lives i :=
    lives c.machine (List.mem_map_of_mem hc)
  obtain ⟨c, hc, rfl⟩ := List.mem_map.1 hm
  obtain ⟨o, ho⟩ := (record.sound c hc).exists_object (lives c hc)
  have here : v.datum ∈ c.data := mem_data_of_place hv
  refine ⟨o, fun m' hm' => ?_⟩
  obtain ⟨c', hc', rfl⟩ := List.mem_map.1 hm'
  have agrees := record.frozen lives hc hc'
  refine ⟨?_, fun u hu hui => ?_⟩
  · rw [Heap.object?_eq_join] at ho ⊢
    rw [agrees.content v.datum here hi read, ho]
  · exact record.uniform c' hc' u.datum (mem_data_of_place hu) v.datum
      ((agrees.data v.datum hi).1 here) i hui hi

end Custody

end StackScript
