import StackScript.Proofs.Memory.Addressing
import StackScript.Proofs.Operator.Storing

/-!
# Reading and storing by keys

`get` reads a container where a key addresses it, `put` stores a value there, and `def` binds a name in
the innermost scope, which is the same as storing at the name (`Operation.bindName_runOn`).

What `get` finds depends on nothing but what is in the container (`Operation.itemAt_runOn`).  A value is
stored if the key addresses a place for it (`Object.Takes`), the container is writable, and there is room
for the entry if the name has been unbound (`Operation.storeAt_stores`).  Otherwise the operator fails
before anything has changed.
-/

namespace StackScript

open StackScript.Action

/-! ### Values that refer to containers -/

/-- Why nothing can be stored in a container that is read-only. -/
def Object.lock : Object → Cause
  | .array _ => .arrayReadOnly
  | .dictionary _ => .dictionaryReadOnly

theorem Object.condition_lock (o : Object) : o.lock.condition = .invalidAccess := by
  cases o <;> rfl

/-- The value is a handle of such an object. -/
def Value.RefersTo (v : Value) (i : Handle) : Object → Prop
  | .array _ => ∃ access, v.datum = .array i access
  | .dictionary _ => ∃ writable, v.datum = .dictionary i writable

theorem Param.accepts_of_toName? {v : Value} {text : String} (h : v.toName? = some text) :
    Param.accepts .name v = true := by
  unfold Value.toName? at h
  split at h
  · rename_i hd
    simp [accepts, Value.kind, hd, Datum.kind]
  · cases h

/-- **Handles do not dangle**, and an array does not turn into a dictionary. -/
theorem Machine.Sound.refersTo {Γ : Charter} {n : ℕ} {x : Stake} {m : Machine} {v : Value} {i : Handle}
    (h : m.Sound Γ n x) (hv : m.Knows x v) (hi : v.handle? = some i) :
    ∃ o, m.memory.heap.object? i = some o ∧ v.RefersTo i o := by
  obtain ⟨present, _, hb, -⟩ := h.memory
  unfold Value.handle? at hi
  split at hi
  · rename_i j access hd
    obtain rfl := Option.some.inj hi
    obtain ⟨s, ho⟩ := hb.array_of_known present hv hd
    exact ⟨_, ho, access, hd⟩
  · rename_i j writable hd
    obtain rfl := Option.some.inj hi
    obtain ⟨d, ho⟩ := hb.dictionary_of_known present hv (by rw [Value.kind, hd]; rfl)
      (by rw [Value.handle?, hd])
    exact ⟨_, ho, writable, hd⟩
  · cases hi

/-! ### Memory -/

namespace Memory

variable {m : Memory} {i : Handle} {o : Object} {k : Key} {v : Value} {text : String} {c : Cause}

/-- Store a value in a container. -/
def assign (i : Handle) (k : Key) (v : Value) : Action Memory Unit :=
  match k with
  | .position index => setItem i index v
  | .name text => define i text v

/-- **The object is replaced** by the one that has the value. -/
theorem assign_grants (ho : m.heap.object? i = some o) (h : o.Takes k) :
    (assign i k v m).Grants fun _ m' => m.heap.Replaces i (· = o.stored k v) m'.heap := by
  cases o with
  | array s =>
    cases k with
    | position index =>
      have shows : m.heap.Shows i fun o => ∃ q, o = .array q ∧ q = s := fun o ho' =>
        ⟨s, Option.some.inj (ho'.symm.trans ho), rfl⟩
      refine (setItem_replaces shows fun q hq => hq ▸ h).mono fun _ m' replaced => replaced.mono ?_
      rintro _ ⟨_, rfl, rfl⟩
      rfl
    | name text => exact h.elim
  | dictionary d =>
    cases k with
    | position index => exact h.elim
    | name text =>
      have shows : m.heap.Shows i fun o => ∃ q, o = .dictionary q ∧ q = d := fun o ho' =>
        ⟨d, Option.some.inj (ho'.symm.trans ho), rfl⟩
      refine (define_grants shows).mono fun _ m' replaced => replaced.mono ?_
      rintro _ ⟨_, rfl, rfl⟩
      rfl

/-- Without room for it, a new entry is refused. -/
theorem assign_overflows (ho : m.heap.object? i = some o) (h : o.Takes (.name text))
    (hn : o.at? (.name text) = none) (hc : m.ledger.check (Dictionary.entrySize text) = .error c) :
    (assign i (.name text) v m).Yields (fun _ _ => False) fun e _ => e = c.exception := by
  cases o with
  | array s => exact h.elim
  | dictionary d => exact define_overflows ho hn hc

/-- A text that is referred to already is stored, if there is room for a new entry. -/
theorem assign_sure (ho : m.heap.object? i = some o) (h : o.Takes k)
    (room : ∀ text, k = .name text → o.at? k = none →
      m.ledger.check (Dictionary.entrySize text) = .ok ())
    (hv : ∀ text, v.string? = some text → m.ledger.strings.find? text ≠ none) :
    (assign i k v m).Meets True (fun _ _ => True) fun _ => False := by
  cases o with
  | array s =>
    cases k with
    | position index => exact setItem_sure ho h hv
    | name text => exact h.elim
  | dictionary d =>
    cases k with
    | position index => exact h.elim
    | name text => exact define_sure ho (room text rfl) hv

end Memory

/-! ### Machines -/

namespace Machine

variable {m : Machine} {container : Value} {i : Handle}

theorem setItem_eq {access : Access} (hd : container.datum = .array i access) (index : ℕ) (v : Value) :
    setItem container index v m =
      if container.isReadOnly then .raised Cause.arrayReadOnly.exception m
      else onMemory (Memory.setItem i index v) m := by
  rw [setItem, Value.isReadOnly, hd]
  cases access <;> rfl

theorem define_eq {writable : Bool} (hd : container.datum = .dictionary i writable) (name : String)
    (v : Value) : define container name v m =
      if container.isReadOnly then .raised Cause.dictionaryReadOnly.exception m
      else onMemory (Memory.define i name v) m := by
  rw [define, Value.isReadOnly, hd]
  cases writable <;> rfl

end Machine

/-! ### Operations -/

namespace Operation

variable {own : Option ℕ} {m : Machine} {container key v scope : Value} {i : Handle} {o : Object} {k : Key}
  {outer : List Value}

theorem ask_runOn (own : Option ℕ) (r : Request) (m : Machine) :
    (ask r).runOn own m = r.perform own m := by
  rw [runOn, ask, Program.run_request]

theorem runOn_raised {α β : Type} {p : Operation α} {e : Exception} {m' : Machine}
    (hp : p.runOn own m = .raised e m') (f : α → Operation β) :
    (p >>= f).runOn own m = .raised e m' := by
  rw [runOn, Program.run_bind]
  exact Action.bind_raised hp _

/-- **What reading gives** depends on what is in the container only. -/
theorem itemAt_runOn (hr : container.RefersTo i o) (ho : m.memory.heap.object? i = some o) :
    (itemAt container key).runOn own m = match o.read key with
      | .ok v => .done v m
      | .error c => .raised c.exception m := by
  cases o with
  | array s =>
    obtain ⟨access, hd⟩ := hr
    rw [itemAt, hd]
    dsimp only
    cases hw : key.toWord? with
    | none =>
      have unaddressed : key.key?.bind (Object.array s).at? = none :=
        Option.bind_eq_none_iff.2 fun k hk => by
          cases k with
          | position index =>
            obtain ⟨w, hw', -⟩ := Value.toWord?_of_key? hk
            rw [hw] at hw'
            cases hw'
          | name text => rfl
      rw [Object.read, unaddressed, Object.fault, hw]
      rfl
    | some w =>
      have addressed : key.key?.bind (Object.array s).at? = w.index?.bind (s.toList[·]?) := by
        rw [Value.key?_of_toWord? hw]
        cases w.index? with
        | none => rfl
        | some index => exact Sequence.get?_eq_getElem? s index
      rw [ofOption_runOn rfl, items_runOn hd ho, Object.read, addressed, Object.fault, hw,
        Sequence.toList, List.length_reverse]
      cases w.index?.bind (s.items.reverse[·]?) <;> rfl
  | dictionary d =>
    obtain ⟨writable, hd⟩ := hr
    rw [itemAt, hd]
    dsimp only
    cases hn : key.toName? with
    | none =>
      have unaddressed : key.key?.bind (Object.dictionary d).at? = none :=
        Option.bind_eq_none_iff.2 fun k hk => by
          cases k with
          | position index => rfl
          | name text =>
            rw [Value.toName?_of_key? hk] at hn
            cases hn
      rw [Object.read, unaddressed, Object.fault, hn]
      rfl
    | some text =>
      have addressed : key.key?.bind (Object.dictionary d).at? = d.get? text := by
        rw [Value.key?_of_toName? hn]
        rfl
      rw [ofOption_runOn rfl, entry_runOn hd ho, Object.read, addressed, Object.fault, hn]
      cases d.get? text <;> rfl

/-- **A value is stored** where the key addresses a place for it, unless the container is read-only. -/
theorem storeAt_runOn (hr : container.RefersTo i o) (ho : m.memory.heap.object? i = some o)
    (hk : key.key? = some k) (h : o.Takes k) : (storeAt container key v).runOn own m =
      if container.isReadOnly then .raised o.lock.exception m
      else Machine.onMemory (Memory.assign i k v) m := by
  cases o with
  | array s =>
    cases k with
    | position index =>
      obtain ⟨access, hd⟩ := hr
      obtain ⟨w, hw, hi⟩ := Value.toWord?_of_key? hk
      have length : s.toList.length = s.length := List.length_reverse
      have inside : w.index?.filter (· < s.toList.length) = some index := by
        rw [hi, length]
        exact if_pos (decide_eq_true (show index < s.length from h))
      rw [storeAt, hd]
      dsimp only
      rw [ofOption_runOn hw, items_runOn hd ho, toPosition, ofOption_runOn inside]
      exact (ask_runOn own (.setItem container index v) m).trans (Machine.setItem_eq hd index v)
    | name text => exact h.elim
  | dictionary d =>
    cases k with
    | position index => exact h.elim
    | name text =>
      obtain ⟨writable, hd⟩ := hr
      rw [storeAt, hd]
      dsimp only
      rw [ofOption_runOn (Value.toName?_of_key? hk)]
      exact (ask_runOn own (.define container text v) m).trans (Machine.define_eq hd text v)

/-- A key that addresses no place for a value. -/
theorem storeAt_astray (hr : container.RefersTo i o) (ho : m.memory.heap.object? i = some o)
    (hk : ∀ k, key.key? = some k → ¬ o.Takes k) :
    (storeAt container key v).runOn own m = .raised (o.fault key).exception m := by
  cases o with
  | array s =>
    obtain ⟨access, hd⟩ := hr
    rw [storeAt, hd]
    dsimp only
    cases hw : key.toWord? with
    | none =>
      rw [Object.fault, hw]
      rfl
    | some w =>
      have length : s.toList.length = s.length := List.length_reverse
      have outside : w.index?.filter (· < s.toList.length) = none := by
        refine Option.filter_eq_none_iff.2 fun index hi inside => ?_
        have addressed : key.key? = some (.position index) := by
          rw [Value.key?_of_toWord? hw, hi]
          rfl
        exact hk _ addressed (show index < s.length from length ▸ of_decide_eq_true inside)
      rw [ofOption_runOn rfl, items_runOn hd ho, toPosition, ofOption_raised outside, Object.fault, hw,
        length]
  | dictionary d =>
    obtain ⟨writable, hd⟩ := hr
    rw [storeAt, hd]
    dsimp only
    cases hn : key.toName? with
    | none =>
      rw [Object.fault, hn]
      rfl
    | some text => exact absurd trivial (hk _ (Value.key?_of_toName? hn))

/-- Strings are read-only. -/
theorem storeAt_string (hv : container.kind = .string) :
    (storeAt container key v).runOn own m = .raised Cause.stringReadOnly.exception m := by
  unfold storeAt
  cases hd : container.datum <;> rw [Value.kind, hd] at hv <;> first | rfl | cases hv

/-- Nothing is stored in what is no container. -/
theorem storeAt_other (hi : container.handle? = none) (hv : container.kind ≠ .string) :
    (storeAt container key v).runOn own m =
      .raised (Cause.notWritable container.kind).exception m := by
  unfold storeAt
  cases hd : container.datum with
  | array | dictionary => rw [Value.handle?, hd] at hi; cases hi
  | string => exact absurd (by rw [Value.kind, hd]; rfl) hv
  | _ => rfl

theorem getItem_runOn (container key : Value) : (getItem [key, container]).runOn own m =
    (itemAt container key >>= fun v => exchange 2 [v]).runOn own m := by
  rw [getItem, matched_runOn rfl, matched_runOn rfl]

theorem putItem_runOn (container key v : Value) : (putItem [v, key, container]).runOn own m =
    (storeAt container key v >>= fun _ => pop 3).runOn own m := by
  rw [putItem, matched_runOn rfl, matched_runOn rfl, matched_runOn rfl]

/-- **Binding a name** is storing at it in the innermost scope. -/
theorem bindName_runOn {writable : Bool} {text : String} (hscopes : m.scopes.items = scope :: outer)
    (hd : scope.datum = .dictionary i writable) (hkey : key.toName? = some text) :
    (bindName [v, key]).runOn own m = (storeAt scope key v >>= fun _ => pop 2).runOn own m := by
  have innermost : currentScope.runOn own m = .done scope m := by
    rw [currentScope, machine_bind_runOn, Machine.currentScope, hscopes]
    rfl
  have named : matchedName [v, key] 1 = Program.ofOption (.operandNotName 1) key.toName? := rfl
  rw [bindName, matched_runOn rfl, named, ofOption_runOn hkey, runOn_bind innermost, storeAt, hd]
  dsimp only
  rw [hkey]
  rfl

/-! ### What storing leaves -/

section

variable {Γ : Charter} {x : Stake} {j n : ℕ} {σ : Cells}

/-- **What is stored, and nothing else.**  The operands are removed. -/
theorem storeAt_stores (sound : m.Sound Γ (j + 1) x) (growing : m.Growing) (ready : m.Ready j n)
    (hv : v ∈ m.operands.items) (hr : container.RefersTo i o)
    (ho : m.memory.heap.object? i = some o) (hk : key.key? = some k) (h : o.Takes k)
    (writable : container.isReadOnly = false)
    (room : ∀ text, k = .name text → o.at? k = none →
      m.memory.ledger.check (Dictionary.entrySize text) = .ok ()) :
    ((storeAt container key v >>= fun _ => pop n).runOn (some j) m).Meets True (fun _ m' =>
      m'.scene = { m.scene with operands := m.operands.items.drop n } ∧
        m.memory.heap.Replaces i (· = o.stored k v) m'.memory.heap) fun _ => False := by
  have stored : ((storeAt container key v).runOn (some j) m).Meets True (fun _ m' => m'.Ready j n ∧
      m.Becomes m.scene m' ∧ m.memory.heap.Replaces i (· = o.stored k v) m'.memory.heap)
      fun _ => False := by
    have still := runOn_ready (storeAt_aside container key v) (some j) ready
    have run : (storeAt container key v).runOn (some j) m = _ := storeAt_runOn hr ho hk h
    rw [writable, if_neg Bool.false_ne_true] at run
    rw [run] at still ⊢
    have sure : (Machine.onMemory (Memory.assign i k v) m).Meets True (fun _ _ => True)
        fun _ => False :=
      Machine.meets_onMemory (Memory.assign_sure ho h room (sound.referenced hv))
    have granted : (Machine.onMemory (Memory.assign i k v) m).Grants fun _ m' =>
        m.Becomes m.scene m' ∧ m.memory.heap.Replaces i (· = o.stored k v) m'.memory.heap :=
      Machine.grants_onMemory ((Memory.assign_grants ho h).mono
        fun _ μ replaced => ⟨⟨rfl, rfl⟩, replaced⟩)
    exact ((sure.granted granted).and still).mono (fun _ _ ⟨⟨_, h⟩, ready⟩ => ⟨ready, h⟩)
      fun _ h => h.1
  refine meets_bind stored fun _ m₁ ⟨ready₁, becomes, replaced⟩ => ?_
  have granted : (Machine.exchangeOperands n [] m₁).Grants _ :=
    Machine.exchangeOperands_grants (becomes.growing growing) ready₁.enough
  have sure : (Machine.exchangeOperands n [] m₁).Meets True _ _ :=
    Machine.exchangeOperands_sure ready₁.sized ready₁.enough (Nat.zero_le n) nofun
  refine meets_ask ((sure.granted granted).mono (fun _ m₂ ⟨_, h₂, sheds⟩ => ⟨?_, replaced.sheds sheds⟩)
    fun _ => id)
  rw [h₂.scene, becomes.operands, becomes.scene]
  rfl

/-- **Without room for a new entry** nothing changes. -/
theorem storeAt_overflows {text : String} {c : Cause} (hσ : σ.Counted) (has : m.memory.Has σ)
    (ready : m.Ready j n) (hr : container.RefersTo i o) (ho : m.memory.heap.object? i = some o)
    (hk : key.key? = some (.name text)) (h : o.Takes (.name text))
    (writable : container.isReadOnly = false) (hn : o.at? (.name text) = none)
    (hc : m.memory.ledger.check (Dictionary.entrySize text) = .error c) :
    ((storeAt container key v >>= fun _ => pop n).runOn (some j) m).Yields (fun _ _ => False)
      fun e m' => e = c.exception ∧ m.Unscathed σ m' := by
  have unscathed : ((storeAt container key v >>= fun _ => pop n).runOn (some j) m).Meets True
      (fun _ _ => True) (m.Unscathed σ) :=
    fails_pop (fails_of_withdraws hσ has) (storeAt_aside container key v) ready
  have refused : ((storeAt container key v >>= fun _ => pop n).runOn (some j) m).Yields
      (fun _ _ => False) fun e _ => e = c.exception := by
    have run : (storeAt container key v).runOn (some j) m = _ := storeAt_runOn hr ho hk h
    rw [writable, if_neg Bool.false_ne_true] at run
    rw [runOn, Program.run_bind]
    refine yields_bind (P := fun _ _ => False) ?_ fun _ _ => False.elim
    change ((storeAt container key v).runOn (some j) m).Yields _ _
    rw [run]
    exact yields_zoom (Memory.assign_overflows ho h hn hc)
  exact (refused.and unscathed.yields).mono (fun _ _ h => h.1) fun _ _ => id

end

end Operation

end StackScript
