import StackScript.Memory.Display
import StackScript.Proofs.Memory.Modification

/-!
# Reading containers

In a balanced memory in which no object is checked out, a container that is known is there, and it
is of the kind the value says (`Memory.Balanced.array_of_known`,
`Memory.Balanced.dictionary_of_known`).  What it holds is known as well, so a value can be shown
however deep it is nested (`Memory.Balanced.format_ok`).
-/

namespace StackScript

/-- Reading every item succeeds if reading each does. -/
theorem exists_mapM_ok {α β ε : Type} {f : α → Except ε β} (l : List α)
    (h : ∀ a ∈ l, ∃ b, f a = .ok b) : ∃ bs, l.mapM f = .ok bs := by
  induction l with
  | nil => exact ⟨[], rfl⟩
  | cons a rest ih =>
    obtain ⟨b, hb⟩ := h a List.mem_cons_self
    obtain ⟨bs, hbs⟩ := ih fun a ha => h a (List.mem_cons_of_mem _ ha)
    refine ⟨b :: bs, ?_⟩
    rw [List.mapM_cons, hb, hbs]
    rfl

theorem bind_of_ok {α β ε : Type} {x : Except ε α} {a : α} (h : x = .ok a)
    (f : α → Except ε β) : (x >>= f) = f a := by
  rw [h]
  rfl

theorem exists_bind_ok {α β ε : Type} {x : Except ε α} {f : α → Except ε β} (hx : ∃ a, x = .ok a)
    (hf : ∀ a, ∃ b, f a = .ok b) : ∃ b, (x >>= f) = .ok b := by
  obtain ⟨a, rfl⟩ := hx
  exact hf a

namespace TextMap

variable {α : Type} {m : TextMap α} {key : String} {a : α}

theorem mem_of_find? (h : m.find? key = some a) : (key, a) ∈ m := by
  obtain ⟨l, r, rfl, -⟩ := exists_split h
  simp

end TextMap

namespace Dictionary

theorem mem_values_of_get? {d : Dictionary} {name : String} {v : Value}
    (h : d.get? name = some v) : v ∈ d.values :=
  List.mem_map.2 ⟨(name, v), TextMap.mem_of_find? h, rfl⟩

end Dictionary

namespace Memory

variable {total : Option ℕ} {σ : ℕ → Label} {x : Stake} {m : Memory} {v : Value} {i : ℕ}
  {o : Object} {s : Sequence} {d : Dictionary}

theorem get_of_object? {h : Heap} (ho : h.object? i = some o) : h.get i = .ok o := by
  obtain ⟨c, hc, hco⟩ := Heap.exists_cell_of_object? ho
  rw [Heap.get, hc]
  dsimp only
  rw [hco]

theorem array_of_object? (ho : m.heap.object? i = some (.array s)) : m.array i = .ok s := by
  rw [array, get_of_object? ho]
  rfl

theorem dictionary_of_object? (ho : m.heap.object? i = some (.dictionary d)) :
    m.dictionary i = .ok d := by
  rw [dictionary, get_of_object? ho]
  rfl

theorem object?_of_get {h : Heap} (hi : h.get i = .ok o) : h.object? i = some o := by
  unfold Heap.get at hi
  rw [Heap.object?]
  cases hc : h.cell? i with
  | none => simp [hc] at hi
  | some cell =>
    cases ho : cell.object with
    | none => simp [hc, ho] at hi
    | some o' => simpa [hc, ho] using hi

theorem object?_of_array (h : m.array i = .ok s) :
    m.heap.object? i = some (.array s) := by
  unfold array at h
  cases ho : m.heap.get i with
  | error b => rw [ho] at h; cases h
  | ok o =>
    rw [ho] at h
    cases o with
    | array s' => obtain rfl : s' = s := Except.ok.inj h; exact object?_of_get ho
    | dictionary d => cases h

theorem object?_of_dictionary (h : m.dictionary i = .ok d) :
    m.heap.object? i = some (.dictionary d) := by
  unfold dictionary at h
  cases ho : m.heap.get i with
  | error b => rw [ho] at h; cases h
  | ok o =>
    rw [ho] at h
    cases o with
    | dictionary d' => obtain rfl : d' = d := Except.ok.inj h; exact object?_of_get ho
    | array s => cases h

theorem knows_of_mem_values (ho : m.heap.object? i = some o) (hv : v ∈ o.values) :
    (x + m.heap.stake).Knows v :=
  (Stake.knows_of_mem (Heap.mem_values_stake.2 ⟨i, o, ho, hv⟩)).add_left x

theorem knows_of_get? {name : String} (ho : m.heap.object? i = some (.dictionary d))
    (hv : d.get? name = some v) : (x + m.heap.stake).Knows v :=
  knows_of_mem_values ho (Dictionary.mem_values_of_get? hv)

/-! ### What is known is there -/

theorem Balanced.object_of_known (hb : m.Balanced total σ x) (hp : m.heap.Present)
    (hv : (x + m.heap.stake).Knows v) (hi : v.handle? = some i) :
    ∃ o, m.heap.object? i = some o ∧ o.label.kind = v.kind := by
  obtain ⟨c, hc⟩ := hb.exists_cell_of_known hv hi
  obtain ⟨o, ho⟩ := hp.exists_object hc
  exact ⟨o, ho, by rw [(hb.labelled i o ho).label, hb.kind_of_known hv hi]⟩

theorem Balanced.array_of_known (hb : m.Balanced total σ x) (hp : m.heap.Present)
    (hv : (x + m.heap.stake).Knows v) {access : Access} (hd : v.datum = .array i access) :
    ∃ s, m.heap.object? i = some (.array s) := by
  obtain ⟨o, ho, hk⟩ := hb.object_of_known hp hv (i := i) (by rw [Value.handle?, hd])
  rw [Value.kind, hd] at hk
  cases o with
  | array s => exact ⟨s, ho⟩
  | dictionary d => cases hk

theorem Balanced.dictionary_of_known (hb : m.Balanced total σ x) (hp : m.heap.Present)
    (hv : (x + m.heap.stake).Knows v) (hk : v.kind = .dictionary) (hi : v.handle? = some i) :
    ∃ d, m.heap.object? i = some (.dictionary d) := by
  obtain ⟨o, ho, hko⟩ := hb.object_of_known hp hv hi
  rw [hk] at hko
  cases o with
  | array s => cases hko
  | dictionary d => exact ⟨d, ho⟩

theorem Balanced.dictionary_of_locals (hb : m.Balanced total σ x) (hp : m.heap.Present)
    (hi : i ∈ x.locals) : ∃ d, m.heap.object? i = some (.dictionary d) := by
  obtain ⟨hlabel, hone⟩ := hb.locals i hi
  obtain ⟨c, hc⟩ := Heap.exists_cell_of_countAt_pos (h := m.heap) (i := i) (by omega)
  obtain ⟨o, ho⟩ := hp.exists_object hc
  have hk := (hb.labelled i o ho).label
  rw [hlabel] at hk
  cases o with
  | array s => cases hk
  | dictionary d => exact ⟨d, ho⟩

/-! ### Text -/

/-- **Showing a known value violates no invariant**, whatever it holds. -/
theorem Balanced.formatTo_ok (hb : m.Balanced total σ x) (hp : m.heap.Present) (levels : ℕ)
    (v : Value) (hv : (x + m.heap.stake).Knows v) : ∃ text, m.formatTo levels v = .ok text := by
  induction levels generalizing v with
  | zero =>
    unfold formatTo
    split <;> exact ⟨_, rfl⟩
  | succ levels ih =>
    unfold formatTo
    split
    · rename_i i access hd
      obtain ⟨s, ho⟩ := hb.array_of_known hp hv hd
      rw [bind_of_ok (array_of_object? ho)]
      exact exists_bind_ok (exists_mapM_ok s.toList fun w hw =>
        ih w (knows_of_mem_values ho (List.mem_reverse.1 hw))) fun _ => ⟨_, rfl⟩
    · rename_i i writable hd
      obtain ⟨d, ho⟩ := hb.dictionary_of_known hp hv (i := i) (by rw [Value.kind, hd]; rfl)
        (by rw [Value.handle?, hd])
      rw [bind_of_ok (dictionary_of_object? ho)]
      refine exists_bind_ok (exists_mapM_ok d.names fun name _ => ?_) fun _ => ⟨_, rfl⟩
      split
      · exact ⟨_, rfl⟩
      · rename_i item hitem
        exact exists_bind_ok (ih item (knows_of_get? ho hitem)) fun _ => ⟨_, rfl⟩
    · exact ⟨_, rfl⟩

theorem Balanced.format_ok (hb : m.Balanced total σ x) (hp : m.heap.Present)
    (hv : (x + m.heap.stake).Knows v) : ∃ text, m.format v = .ok text :=
  hb.formatTo_ok hp maxDepth v hv

end Memory

end StackScript
