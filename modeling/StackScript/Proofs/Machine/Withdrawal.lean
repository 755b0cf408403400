import StackScript.Proofs.Machine.Effects
import StackScript.Proofs.Memory.Loans

/-!
# What a refused request leaves

A request that is refused leaves the stacks and the cells of a machine as they were
(`Request.perform_refused`).  Two requests do more than one thing.  One that lets a value just created
take the place of operands disposes of the value if it fails (`Machine.Built.adopt`).  One that
binds a local of a frame may have created the dictionary of the locals by the time it fails, and
nothing else (`Machine.setLocal_lodges`).

Some requests are never refused: operands that are there can be removed
(`Machine.exchangeOperands_sure`), and an operator can move as the protocol permits.
-/

namespace StackScript

open StackScript.Action
open Memory (Has)
open Cells

/-! ### What is not refused -/

namespace Memory

variable {m : Memory} {v : Value}

/-- A reference is refused to a string only, if nothing refers to it yet.  Otherwise nothing is charged
for it, and what is referred to stays so. -/
theorem retain_sure (hv : ∀ text, v.string? = some text →
    m.ledger.strings.find? text ≠ none) :
    (retain v m).Meets True (fun _ m' =>
      (∀ text, m.ledger.strings.find? text ≠ none → m'.ledger.strings.find? text ≠ none) ∧
        m'.ledger = { m.ledger with strings := m'.ledger.strings }) fun _ => False := by
  have container (i : Handle) : (onHeap (Heap.retain i) m).Meets True (fun _ m' =>
      (∀ text, m.ledger.strings.find? text ≠ none → m'.ledger.strings.find? text ≠ none) ∧
        m'.ledger = { m.ledger with strings := m'.ledger.strings }) fun _ => False := by
    refine meets_zoom ?_
    unfold Heap.retain
    cases m.heap.cell? i with
    | none => trivial
    | some c => exact ⟨fun _ => id, rfl⟩
  unfold retain
  cases hd : v.datum with
  | string text executable =>
    have found := hv text (by rw [Value.string?, hd])
    refine meets_zoom ?_
    unfold Ledger.addReference
    rw [get_bind]
    cases hfind : m.ledger.strings.find? text with
    | none => exact absurd hfind found
    | some count =>
      refine ⟨fun other hother => ?_, rfl⟩
      change (m.ledger.strings.put text (count + 1)).find? other ≠ none
      by_cases h : text = other
      · rw [h, TextMap.find?_put_self]
        exact Option.some_ne_none _
      · rw [TextMap.find?_put_ne _ h]
        exact hother
  | array i access => exact container i
  | dictionary i writable => exact container i
  | _ => exact ⟨fun _ => id, rfl⟩

/-- **No reference is refused** to containers, nor to texts that are referred to already. -/
theorem retainAll_sure {vs : List Value} (hvs : ∀ v ∈ vs, ∀ text, v.string? = some text →
    m.ledger.strings.find? text ≠ none) :
    (retainAll vs m).Meets True
      (fun _ m' => m'.ledger = { m.ledger with strings := m'.ledger.strings }) fun _ => False := by
  induction vs generalizing m with
  | nil => exact rfl
  | cons v rest ih =>
    obtain ⟨hv, hrest⟩ := List.forall_mem_cons.1 hvs
    refine meets_bind (retain_sure hv) fun _ m₁ ⟨kept, same⟩ => ?_
    refine meets_onRaise ((ih fun w hw text htext => kept text (hrest w hw text htext)).mono
      (fun _ m' h => ?_) fun _ => id) fun _ h => h.elim
    rw [h, same]

end Memory

/-- Values can take the place of others if the ledger grants the slots they need besides. -/
theorem Reserve.exchange_granted {r : Reserve} {length c : ℕ} {removed added : List Value}
    (hcap : r.capacityFor (length - removed.length + added.length) = .ok c) {m : Memory}
    (hc : r.capacity < c → m.ledger.check (r.slot.times (c - r.capacity)) = .ok ())
    (hv : ∀ v ∈ added, ∀ text, v.string? = some text → m.ledger.strings.find? text ≠ none) :
    (r.exchange length removed added m).Meets True (fun _ _ => True) fun _ => False := by
  rw [exchange, hcap]
  have shrunk (m₁ : Memory) : (Memory.onLedger (Ledger.release
      (r.slot.times (r.capacity - c)) r.account) m₁).Meets True
        (fun _ _ => True) fun _ => False := (Ledger.raises_release _ _).zoom.sure m₁
  have resized (m₁ : Memory)
      (h₁ : m₁.ledger = { m.ledger with strings := m₁.ledger.strings }) :
      (r.resize c m₁).Meets True (fun _ _ => True) fun _ => False := by
    unfold Reserve.resize
    split
    · rename_i grows
      have granted : m₁.ledger.check (r.slot.times (c - r.capacity)) = .ok () := by
        rw [h₁]
        exact hc grows
      rw [if_neg (Nat.lt_asymm grows)]
      refine meets_bind (P := fun _ _ => True) (meets_zoom ?_) fun _ _ _ => trivial
      rw [Ledger.allocate, granted]
      trivial
    · split
      · exact meets_bind (shrunk m₁) fun _ _ _ => trivial
      · trivial
  refine meets_bind (P := fun a m₁ => a = c ∧ m₁ = m) ⟨rfl, rfl⟩ ?_
  rintro _ _ ⟨rfl, rfl⟩
  refine meets_bind (Memory.retainAll_sure hv) fun _ m₁ h₁ => ?_
  refine meets_bind (meets_onRaise (resized m₁ h₁) fun _ h => h.elim) fun _ m₂ _ => ?_
  exact meets_bind ((Memory.raises_releaseAll _).sure m₂) fun _ _ _ => trivial

/-- Items can take the place of others if the ledger grants the slots they need besides. -/
theorem Sequence.exchange_granted {s : Sequence} {drop c : ℕ} {values : List Value}
    (hdrop : drop ≤ s.length)
    (hcap : s.reserve.capacityFor (s.length - drop + values.length) = .ok c) {m : Memory}
    (hc : s.reserve.capacity < c →
      m.ledger.check (s.reserve.slot.times (c - s.reserve.capacity)) = .ok ())
    (hv : ∀ v ∈ values, ∀ text, v.string? = some text → m.ledger.strings.find? text ≠ none) :
    (s.exchange drop values m).Meets True (fun _ _ => True) fun _ => False := by
  rw [exchange, if_neg (Nat.not_lt.2 hdrop)]
  rw [← length_removed hdrop] at hcap
  exact meets_bind (Reserve.exchange_granted hcap hc hv) fun _ _ _ => trivial

/-- Items that need no more slots than there are can take the place of others. -/
theorem Sequence.exchange_sure {s : Sequence} (hs : s.Sized) {drop : ℕ} {values : List Value}
    (hdrop : drop ≤ s.length) (hvalues : values.length ≤ drop) {m : Memory}
    (hv : ∀ v ∈ values, ∀ text, v.string? = some text → m.ledger.strings.find? text ≠ none) :
    (s.exchange drop values m).Meets True (fun _ _ => True) fun _ => False := by
  obtain ⟨c, hc, hcap⟩ := Reserve.Fits.exists_le (k := s.length - drop + values.length) hs (by omega)
  exact exchange_granted hdrop hcap (fun grows => absurd hc (Nat.not_le.2 grows)) hv

namespace Memory

variable {m : Memory} {i : Handle} {v : Value}

/-- A modification ends as what it does to the object. -/
theorem modifyObject_yields {o : Object} {f : Object → Action Memory Object} {A : Prop}
    {X : Exception → Prop} (ho : m.heap.object? i = some o)
    (hf : ∀ m₁ : Memory, m₁.ledger = m.ledger → (f o m₁).Yields (fun _ _ => A) fun e _ => X e) :
    (modifyObject i f m).Yields (fun _ _ => A) fun e _ => X e := by
  obtain ⟨c, hc, hco⟩ := Heap.exists_cell_of_object? ho
  have out : (onHeap (Heap.checkOut i) m).Yields
      (fun o' m₁ => o' = o ∧ m₁.ledger = m.ledger) fun e _ => X e := by
    refine yields_zoom ?_
    rw [Heap.checkOut, hc]
    dsimp only
    rw [hco]
    exact ⟨rfl, rfl⟩
  have back (o' : Object) (m₂ : Memory) : (onHeap (Heap.checkIn i o') m₂).Yields
      (fun _ _ => True) fun _ _ => False := by
    have sure : (onHeap (Heap.checkIn i o') m₂).Meets True (fun _ _ => True) fun _ => False :=
      (Heap.raises_checkIn i o').zoom.sure m₂
    exact sure.yields
  refine yields_bind out ?_
  rintro _ m₁ ⟨rfl, h₁⟩
  refine yields_bind (yields_onRaise (hf m₁ h₁) fun e m₂ he => ?_) fun o' m₂ ha => ?_
  · exact (back _ m₂).mono (fun _ _ _ => he) fun _ _ => False.elim
  · exact (back o' m₂).mono (fun _ _ _ => ha) fun _ _ => False.elim

/-- A text that is referred to already can take the place of an item. -/
theorem setItem_sure {s : Sequence} {index : ℕ} (ho : m.heap.object? i = some (.array s))
    (hindex : index < s.length)
    (hv : ∀ text, v.string? = some text → m.ledger.strings.find? text ≠ none) :
    (setItem i index v m).Meets True (fun _ _ => True) fun _ => False := by
  refine (modifyObject_yields ho fun m₁ h₁ => ?_).meets
  have stored : index < s.toList.length := by rwa [Sequence.toList, List.length_reverse]
  refine yields_bind (P := fun _ _ => True) ?_ fun _ _ _ => trivial
  rw [Sequence.set, Sequence.get?_eq_getElem?, List.getElem?_eq_getElem stored]
  refine yields_bind (retain_sure (h₁ ▸ hv)).yields fun _ m₂ _ => ?_
  exact yields_bind ((raises_release _).sure m₂).yields fun _ _ _ => trivial

/-- A text that is referred to already can be bound, if there is room for a new entry. -/
theorem define_sure {d : Dictionary} {name : String}
    (ho : m.heap.object? i = some (.dictionary d))
    (hroom : d.get? name = none → m.ledger.check (Dictionary.entrySize name) = .ok ())
    (hv : ∀ text, v.string? = some text → m.ledger.strings.find? text ≠ none) :
    (define i name v m).Meets True (fun _ _ => True) fun _ => False := by
  refine (modifyObject_yields ho fun m₁ h₁ => ?_).meets
  refine yields_bind (P := fun _ _ => True) ?_ fun _ _ _ => trivial
  unfold Dictionary.define
  cases hn : d.get? name with
  | some previous =>
    refine yields_bind (retain_sure (h₁ ▸ hv)).yields fun _ m₂ _ => ?_
    exact yields_bind ((raises_release _).sure m₂).yields fun _ _ _ => trivial
  | none =>
    have granted : (onLedger (Ledger.allocate (Dictionary.entrySize name) d.account) m₁).Yields
        (fun _ m₂ => m₂.ledger.strings = m.ledger.strings) fun _ _ => False := by
      refine yields_zoom ?_
      rw [Ledger.allocate, h₁, hroom hn]
      cases d.account <;> rfl
    refine yields_bind granted fun _ m₂ h₂ => yields_bind (yields_onRaise
      (retain_sure (h₂ ▸ hv)).yields fun _ _ => False.elim) fun _ _ _ => trivial

/-- Without that room a new entry is refused. -/
theorem define_overflows {d : Dictionary} {name : String} {c : Cause}
    (ho : m.heap.object? i = some (.dictionary d)) (hn : d.get? name = none)
    (hc : m.ledger.check (Dictionary.entrySize name) = .error c) :
    (define i name v m).Yields (fun _ _ => False) fun e _ => e = c.exception := by
  refine modifyObject_yields ho fun m₁ h₁ => ?_
  refine yields_bind (P := fun _ _ => False) ?_ fun _ _ => False.elim
  have refused : (onLedger (Ledger.allocate (Dictionary.entrySize name) d.account) m₁).Yields
      (fun _ _ => False) fun e _ => e = c.exception := by
    refine yields_zoom ?_
    rw [Ledger.allocate, h₁, hc]
    rfl
  unfold Dictionary.define
  rw [hn]
  exact yields_bind refused fun _ _ => False.elim

end Memory

/-- There is a cell for what the value refers to. -/
def Cells.Houses (σ : Cells) (v : Value) : Prop := ∀ i, v.handle? = some i → σ i ≠ none

theorem Cells.Houses.ne {σ : Cells} {v : Value} {i : Handle} (h : σ.Houses v) (hi : σ i = none) :
    v.handle? ≠ some i := fun hv => h i hv hi

theorem Cells.houses_lend {σ : Cells} {v : Value} {vs : List Value} :
    (σ.lend vs).Houses v ↔ σ.Houses v := by
  simp [Houses]

theorem Cells.houses_of_handle?_none {σ : Cells} {v : Value} (hv : v.handle? = none) :
    σ.Houses v := by
  simp [Houses, hv]

namespace Machine

variable {σ : Cells} {m m' m'' : Machine} {index : ℕ} {f : Frame} {v : Value} {i : Handle}
  {o : Object} {entries : TextMap Value}

/-- **Operands that are there** can be removed, and replaced by as many values that cost nothing. -/
theorem exchangeOperands_sure (hs : m.operands.Sized) {drop : ℕ} {values : List Value}
    (hdrop : drop ≤ m.operands.length) (hvalues : values.length ≤ drop)
    (hv : ∀ v ∈ values, ∀ text, v.string? = some text →
      m.memory.ledger.strings.find? text ≠ none) :
    (exchangeOperands drop values m).Meets True (fun _ _ => True) fun _ => False :=
  meets_onOperands ((Sequence.exchange_sure hs hdrop hvalues hv).mono
    (fun _ _ => id) fun _ => id)

/-! ### What is left -/

/-- Nothing has happened to the stacks, and these are still the cells. -/
structure Unscathed (σ : Cells) (m m' : Machine) : Prop where
  same : m.SameStacks m'
  cells : m'.memory.Has σ

theorem unscathed_self (h : m.memory.Has σ) : m.Unscathed σ m := ⟨rfl, h⟩

theorem onMemory_refused {α : Type} {x : Action Memory α}
    (hx : (x m.memory).Meets True (fun _ _ => True) (Has σ)) :
    (onMemory x m).Meets True (fun _ _ => True) (m.Unscathed σ) :=
  meets_onMemory (hx.mono (fun _ _ _ => trivial) fun _ h => ⟨rfl, h⟩)

theorem onOperands_refused {x : Sequence → Action Memory Sequence}
    (hx : (x m.operands m.memory).Meets True (fun _ _ => True) (Has σ)) :
    (onOperands x m).Meets True (fun _ _ => True) (m.Unscathed σ) :=
  meets_onOperands (hx.mono (fun _ _ _ => trivial) fun _ h => ⟨rfl, h⟩)

theorem onScopes_refused {x : Sequence → Action Memory Sequence}
    (hx : (x m.scopes m.memory).Meets True (fun _ _ => True) (Has σ)) :
    (onScopes x m).Meets True (fun _ _ => True) (m.Unscathed σ) :=
  meets_onScopes (hx.mono (fun _ _ _ => trivial) fun _ h => ⟨rfl, h⟩)

theorem onCalls_refused {x : CallStack → Action Memory CallStack}
    (hx : (x m.calls m.memory).Meets True (fun _ _ => True) (Has σ)) :
    (onCalls x m).Meets True (fun _ _ => True) (m.Unscathed σ) :=
  meets_onCalls (hx.mono (fun _ _ _ => trivial) fun _ h => ⟨rfl, h⟩)

/-- Creating a container asks for the call trail first. -/
theorem creation_meets {F : Machine → Prop} {P : Value → Machine → Prop} {v : Handle → Value}
    {new : List String → Action Memory Handle}
    (h : ∀ trail, (new trail m.memory).Meets True (fun i μ => P (v i) { m with memory := μ })
      fun μ => F { m with memory := μ }) :
    (((get : Action Machine Machine) >>= fun m₁ => liftM m₁.allocationTrail >>= fun trail =>
      onMemory (new trail) >>= fun i => pure (v i)) m).Meets True P F := by
  rw [get_bind]
  cases m.allocationTrail with
  | error b => trivial
  | ok trail => exact meets_onMemory_bind ((h trail).mono (fun _ _ h => h) fun _ h => h)

/-! ### Containers just created -/

/-- The value has just been created, with `o` in its cell, and nothing else has happened. -/
structure Built (σ : Cells) (m : Machine) (v : Value) (o : Object) (m' : Machine) : Prop where
  same : m.SameStacks m'
  fresh : ∃ i, v.handle? = some i ∧ σ i = none ∧ m'.memory.Has (σ.build i o)

theorem createArray_builds (hσ : σ.Counted) (h : m.memory.Has σ) (access : Access)
    (items : List Value) :
    (createArray access items m).Meets True (fun v m' => (∃ i, v = .array i access) ∧
      ∃ s : Sequence, s.items = items.reverse ∧ m.Built σ v (.array s) m') (m.Unscathed σ) := by
  refine creation_meets fun trail => (Memory.newArray_has hσ h _ items trail).mono ?_
    fun _ h => ⟨rfl, h⟩
  rintro i μ ⟨s, hs, hi, hμ⟩
  exact ⟨⟨i, rfl⟩, s, hs, rfl, i, rfl, hi, hμ⟩

theorem createFilledArray_builds (hσ : σ.Counted) (h : m.memory.Has σ) (access : Access)
    (length : ℕ) (w : Value) :
    (createFilledArray access length w m).Meets True
      (fun v m' => ∃ o, m.Built σ v o m') (m.Unscathed σ) := by
  refine creation_meets fun trail => (Memory.newFilledArray_has hσ h _ length w trail).mono ?_
    fun _ h => ⟨rfl, h⟩
  rintro i μ ⟨s, -, hi, hμ⟩
  exact ⟨.array s, rfl, i, rfl, hi, hμ⟩

theorem createDictionary_builds (h : m.memory.Has σ) :
    (createDictionary m).Meets True (fun v m' => (∃ i, v = .dictionary i true) ∧
      ∃ d : Dictionary, d.values = [] ∧ m.Built σ v (.dictionary d) m') (m.Unscathed σ) := by
  refine creation_meets fun trail => (Memory.newDictionary_has h _ trail).mono ?_
    fun _ h => ⟨rfl, h⟩
  rintro i μ ⟨d, hd, hi, hμ⟩
  exact ⟨⟨i, rfl⟩, d, hd, rfl, i, rfl, hi, hμ⟩

/-- It is disposed of when its creator gives it up. -/
theorem Built.release (hσ : σ.Counted) (h : m.Built σ v o m') :
    (release v m').Meets True (fun _ m'' => m.Unscathed σ m'') fun _ => False := by
  obtain ⟨i, hv, hi, cells⟩ := h.fresh
  refine meets_onMemory ((Memory.release_built hσ hi cells hv).mono (fun _ μ hμ => ?_) fun _ => id)
  have same := h.same
  unfold SameStacks at same
  exact ⟨by rw [same]; rfl, hμ⟩

/-- A container just created that does not get its place among the operands is disposed of. -/
theorem Built.adopt (hσ : σ.Counted) (h : m.Built σ v o m') (drop : ℕ) :
    (adopt drop v m').Meets True (fun _ _ => True) (m.Unscathed σ) := by
  obtain ⟨i, hv, hi, cells⟩ := h.fresh
  have counted : (σ.build i o).Counted := (hσ.lend _).update i Nat.one_pos
  refine meets_ensuring (onOperands_refused (x := fun s => s.exchange drop [v])
    (m'.operands.exchange_refused counted cells drop [v]))
    (fun _ m₁ _ => (raises_release v).sure m₁) fun m₁ h₁ => ?_
  have built : m.Built σ v o m₁ := by
    have first := h.same
    have second := h₁.same
    unfold SameStacks at first second
    exact ⟨by rw [second, first]; rfl, i, hv, hi, h₁.cells⟩
  exact (built.release hσ).always fun _ _ => id

/-- A name is bound in a dictionary just created. -/
theorem Built.define {d : Dictionary} (hσ : σ.Counted) (h : m.Built σ (.dictionary i true)
    (.dictionary d) m') (name : String) {w : Value} (hw : σ.Houses w)
    (hd : ∀ u ∈ d.values, σ.Houses u) :
    (define (.dictionary i true) name w m').Meets True
      (fun _ m'' => m.Built σ (.dictionary i true)
        (.dictionary { d with entries := d.entries.put name w }) m'')
      (m.Built σ (.dictionary i true) (.dictionary d)) := by
  obtain ⟨_, ⟨⟩, hi, cells⟩ := h.fresh
  have same := h.same
  unfold SameStacks at same
  refine meets_onMemory ((Memory.define_built hσ cells name w (hw.ne hi)
    fun u hu => (hd u hu).ne hi).mono (fun _ μ hμ => ?_) fun μ hμ => ?_)
  · exact ⟨by rw [same]; rfl, i, rfl, hi, hμ⟩
  · exact ⟨by rw [same]; rfl, i, rfl, hi, hμ⟩

end Machine

/-! ### Refused requests -/

/-- Of its failure the request leaves no trace. -/
def Request.Single : Request → Prop
  | .adopt .. | .setLocal .. | .intercept | .stash | .restore => False
  | _ => True

open Machine in
/-- **A request that is refused** leaves the machine as it was. -/
theorem Request.perform_refused {σ : Cells} {m : Machine} (own : Option ℕ) {r : Request}
    (hσ : σ.Counted) (h : m.memory.Has σ) (hr : r.Single) :
    (r.perform own m).Meets True (fun _ _ => True) (m.Unscathed σ) := by
  have refused {α : Type} (c : Cause) :
      (Action.fail c m : Outcome Machine α).Meets True (fun _ _ => True) (m.Unscathed σ) :=
    unscathed_self h
  cases r with
  | observe => trivial
  | exchange drop values =>
    exact onOperands_refused (x := fun s => s.exchange drop values)
      (m.operands.exchange_refused hσ h drop values)
  | adopt | setLocal | intercept | stash | restore => exact hr.elim
  | release v => exact (Machine.raises_release v).sure m
  | clearOperands =>
    exact onOperands_refused (x := Sequence.clear) ((raises_unfailing _ _).sure m.memory)
  | createArray access items =>
    exact (createArray_builds hσ h access items).mono (fun _ _ _ => trivial) fun _ => id
  | createFilledArray access length v =>
    exact (createFilledArray_builds hσ h access length v).mono (fun _ _ _ => trivial) fun _ => id
  | createDictionary =>
    exact (createDictionary_builds h).mono (fun _ _ _ => trivial) fun _ => id
  | setItem container index v =>
    change (Machine.setItem container index v m).Meets True _ _
    unfold Machine.setItem
    cases container.datum with
    | array i access =>
      cases access with
      | mutable => exact onMemory_refused (Memory.setItem_refused h i index v)
      | block | literal => exact refused _
    | _ => exact refused _
  | define container name v =>
    change (Machine.define container name v m).Meets True _ _
    unfold Machine.define
    cases container.datum with
    | dictionary i writable =>
      cases writable with
      | true => exact onMemory_refused (Memory.define_refused h i name v)
      | false => exact refused _
    | _ => exact refused _
  | openScope v =>
    change (Machine.openScope v m).Meets True _ _
    unfold Machine.openScope
    split
    · exact onScopes_refused (x := fun s => s.push v) (m.scopes.exchange_refused hσ h 0 [v])
    · exact refused _
  | closeScope =>
    change (Machine.closeScope m).Meets True _ _
    unfold Machine.closeScope
    rw [get_bind]
    split
    · exact refused _
    · exact onScopes_refused (x := fun s => s.pop 1) (m.scopes.exchange_refused hσ h 1 [])
  | call v =>
    exact onCalls_refused (x := fun c => c.push { value := v })
      (meets_bind (m.calls.reserve.exchange_refused hσ h _ [] [v]) fun _ _ _ => trivial)
  | setState next =>
    cases own with
    | none => exact refused _
    | some i =>
      change (Machine.setState i next m).Meets True _ _
      unfold Machine.setState
      rw [get_bind]
      refine meets_frame fun f hf => ?_
      split
      · exact (raises_updateFrame _ _).sure m
      · exact refused _
  | openBlock => trivial
  | closeBlock => trivial

namespace Machine

variable {σ : Cells} {m m' : Machine} {index : ℕ} {f : Frame} {v : Value} {i : Handle} {o : Object}
  {entries : TextMap Value}

/-! ### Locals -/

/-- The machine is as it was, but a frame has got a dictionary for its locals, with these entries. -/
structure Lodged (σ : Cells) (index : ℕ) (entries : TextMap Value) (m m' : Machine) : Prop where
  operands : m'.operands = m.operands
  scopes : m'.scopes = m.scopes
  housed : ∀ w ∈ entries.map Prod.snd, σ.Houses w
  lodging : ∃ i account, σ i = none ∧
    m'.calls = m.calls.update index (fun f => { f with locals := some i }) ∧
    m'.memory.Has (σ.build i (.dictionary { account := account, entries := entries }))

/-- A frame that has a dictionary for its locals keeps it. -/
theorem ensureLocals_of_some (hf : m.calls.frame? index = some f) (hl : f.locals = some i) :
    ensureLocals index m = .done i m := by
  rw [ensureLocals, get_bind, frame_bind hf, hl]
  rfl

theorem frame?_lodged (hf : m.calls.frame? index = some f)
    (calls : m'.calls = m.calls.update index fun f => { f with locals := some i }) :
    m'.calls.frame? index = some { f with locals := some i } := by
  rw [calls, CallStack.frame?_update (lt_length_of_frame? hf), if_pos rfl, hf]
  rfl

/-- Binding a local of a frame that has some already. -/
theorem Lodged.setLocal (hσ : σ.Counted) (h : m.Lodged σ index entries m')
    (hf : m.calls.frame? index = some f) (name : String) (hv : σ.Houses v) :
    (setLocal index name v m').Meets True
      (fun _ m'' => m.Lodged σ index (entries.put name v) m'') (m.Lodged σ index entries) := by
  obtain ⟨i, account, hi, calls, cells⟩ := h.lodging
  have housed : ∀ w ∈ (entries.put name v).map Prod.snd, σ.Houses w := by
    intro w hw
    rcases List.mem_cons.1 (Dictionary.values_put { account := account, entries := entries }
      name v hw) with rfl | hw
    · exact hv
    · exact h.housed w hw
  unfold Machine.setLocal
  rw [bind_done (ensureLocals_of_some (frame?_lodged hf calls) rfl)]
  exact meets_onMemory ((Memory.define_built hσ cells name v (hv.ne hi)
    fun w hw => (h.housed w hw).ne hi).mono
    (fun _ μ hμ => ⟨h.operands, h.scopes, housed, i, account, hi, calls, hμ⟩)
    fun μ hμ => ⟨h.operands, h.scopes, h.housed, i, account, hi, calls, hμ⟩)

/-- **Binding the first local of a frame** may fail with a dictionary created for it. -/
theorem setLocal_lodges (hσ : σ.Counted) (h : m.memory.Has σ)
    (hf : m.calls.frame? index = some f) (hl : f.locals = none) (name : String)
    (hv : σ.Houses v) :
    (setLocal index name v m).Meets True (fun _ m' => m.Lodged σ index [(name, v)] m')
      fun m' => m.Unscathed σ m' ∨ m.Lodged σ index [] m' := by
  have created : (ensureLocals index m).Meets True
      (fun i m' => m.Lodged σ index [] m' ∧ ensureLocals index m' = .done i m')
      (m.Unscathed σ) := by
    unfold ensureLocals
    rw [get_bind, frame_bind hf, hl]
    refine meets_onMemory_bind ((Memory.newDictionary_has h .system _).mono ?_
      fun μ hμ => ⟨rfl, hμ⟩)
    rintro i μ ⟨d, hd, hi, hμ⟩
    have hf' : CallStack.frame? (Machine.calls { m with memory := μ }) index = some f := hf
    rw [bind_done (updateFrame_eq hf' _)]
    have empty : d.entries = [] := List.map_eq_nil_iff.1 hd
    refine ⟨⟨rfl, rfl, nofun, i, d.account, hi, rfl, empty ▸ hμ⟩, ?_⟩
    exact ensureLocals_of_some (frame?_withFrame hf' _) rfl
  refine meets_bind (created.mono (fun _ _ => id) fun _ => .inl) fun i m₁ ⟨lodged, same⟩ => ?_
  have bound := lodged.setLocal hσ hf name hv
  unfold Machine.setLocal at bound
  rw [bind_done same] at bound
  exact bound.mono (fun _ _ h => h) fun _ => .inr

/-! ### Operands that have been moved to the locals -/

/-- Operands are removed that are held otherwise too. -/
theorem Lodged.exchangeOperands {k : ℕ} (hσ : σ.Counted)
    (h : m.Lodged (σ.lend (m.operands.items.take k)) index entries m')
    (hk : ∀ v ∈ m.operands.items.take k, σ.Houses v) :
    (exchangeOperands k [] m').Meets True
      (fun _ m'' => m''.operands.items = m.operands.items.drop k ∧
        Lodged σ index entries { m with operands := m''.operands } m'') fun _ => True := by
  obtain ⟨i, account, hi, calls, cells⟩ := h.lodging
  rw [lend_eq_none] at hi
  have apart : ∀ v ∈ m.operands.items.take k, v.handle? ≠ some i := fun v hv => (hk v hv).ne hi
  rw [build, lend_lend, lend_perm List.perm_append_comm, ← lend_lend, ← lend_update apart,
    ← h.operands] at cells
  have counted := (hσ.lend (entries.map Prod.snd)).update i (c := ⟨1,
    some (.dictionary { account := account, entries := entries })⟩) Nat.one_pos
  refine meets_onOperands ((Sequence.exchange_has counted m'.operands cells []).mono ?_
    fun _ _ => trivial)
  rintro s μ ⟨hs, hμ⟩
  rw [lend_nil] at hμ
  refine ⟨by simpa [h.operands] using hs, rfl, h.scopes, fun w hw => ?_, i, account, hi,
    calls, hμ⟩
  exact houses_lend.1 (h.housed w hw)

/-! ### What is left when the operands are given back -/

/-- What was in the cells is still there, and no other cell is in use but that of the locals, if
there are any. -/
def Spared (σ : Cells) (locals : Option Handle) (m : Machine) : Prop :=
  ∀ i, (∀ c, σ i = some c → m.memory.heap.content? i = some c.object) ∧
    (σ i = none → m.memory.heap.cell? i ≠ none → locals = some i)

theorem spared_of_has (h : m.memory.Has σ) (locals : Option Handle) : m.Spared σ locals := by
  intro i
  refine ⟨fun c hc => ?_, fun hi hcell => ?_⟩
  · rw [Heap.content?, h.cells, hc]
    rfl
  · rw [h.cells] at hcell
    exact absurd hi hcell

theorem spared_of_has_update {c : Cell} {vs : List Value} (hi : σ i = none)
    (h : m.memory.Has (Function.update (σ.lend vs) i (some c))) : m.Spared σ (some i) := by
  intro j
  have cells := congrFun h.cells j
  by_cases hj : j = i
  · subst hj
    exact ⟨fun c hc => absurd (hi.symm.trans hc) nofun, fun _ _ => rfl⟩
  · rw [Function.update_of_ne hj] at cells
    refine ⟨fun c hc => ?_, fun hj hcell => ?_⟩
    · rw [Heap.content?, cells, lend, hc]
      rfl
    · rw [cells, ne_eq, lend_eq_none] at hcell
      exact absurd hj hcell

end Machine

end StackScript
