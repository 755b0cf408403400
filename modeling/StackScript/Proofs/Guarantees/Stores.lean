import StackScript.Proofs.Machine.Regaining
import StackScript.Proofs.Operator.Writing

/-!
# Containers are stores

`get` gives what has last been stored at a key, by whatever handle of the container.  `put` and `def`
change nothing but that (`storing_is_read_back`): other keys and other containers keep what they have, a
dictionary becomes longer by one if the name has been unbound, and storing the old value again restores
what was there (`Session.Recalls`).

Reading is `Served.gets`, storing is `Served.stores`.  There are seven reasons why a value can be refused
(`Session.StoresAt`), and nothing changes then.
-/

namespace StackScript

open Memory (Has)
open Cells

variable {χ : Type} {natives : Natives χ} {options : Options} {m₀ : Machine} {owned : List Value}
  {s t u : Session χ} {rest : List Frame} {b : Builtin} {params below : List Value}
  {container key v w : Value} {i : Handle} {o : Object} {k : Key} {c : Cause}

namespace Session

/-- The next cycle fails for this cause, of this condition, and everything stays as it is. -/
def Refuses (natives : Natives χ) (owned : List Value) (rest : List Frame) (c : Cause)
    (condition : Condition) (s : Session χ) : Prop :=
  c.condition = condition ∧ ∃ t, Declines natives owned rest c.exception s t

/-- The next cycle leaves what has been read on top of the operands `below`, or fails.  What is in the
containers stays as it is. -/
def Gets (natives : Natives χ) (owned : List Value) (rest : List Frame) (below : List Value)
    (s : Session χ) : Except Cause Value → Prop
  | .ok v => ∃ t, EndsIn natives owned rest
      { s.machine.scene with operands := v :: below, frames := rest } s t ∧
        s.machine.memory.heap.Sheds t.machine.memory.heap
  | .error c => ∃ t, Declines natives owned rest c.exception s t

/-- The next cycle replaces the object of a container by the one that has the value. -/
def Stores (natives : Natives χ) (owned : List Value) (rest : List Frame) (below : List Value)
    (i : Handle) (o : Object) (s t : Session χ) : Prop :=
  EndsIn natives owned rest { s.machine.scene with operands := below, frames := rest } s t ∧
    s.machine.memory.heap.Replaces i (· = o) t.machine.memory.heap

/-- The next cycle invokes a builtin that stores a value in a container and removes its operands. -/
structure Writes (b : Builtin) (rest : List Frame) (params below : List Value)
    (container key v : Value) (s : Session χ) : Prop where
  dispatches : s.Dispatches b rest
  proper : b.constant? = none
  operands : s.machine.operands.items = params ++ below
  accepts : List.Forall₂ (fun p v => Param.accepts p v = true) b.signature params
  operand : v ∈ params
  held : container ∈ s.machine.operands.items ∨ container ∈ s.machine.scopes.items
  runs : ∀ own m, s.machine.SameView m → (b.operation params).runOn own m =
    (Operation.storeAt container key v >>= fun _ => Operation.pop params.length).runOn own m

/-- From `s` to `t` the value `v` has been stored where `k` addresses the object `o` of a container.  Later
reading gives it back, whatever the handle; elsewhere it gives what it has given before, as long as the
container that is read stays as it is in `t`. -/
structure Recalls (natives : Natives χ) (m₀ : Machine) (i : Handle) (o : Object) (k : Key) (v : Value)
    (s t : Session χ) : Prop where
  gets : ∀ {owned u rest container key below j o'}, Served natives m₀ owned u →
    u.Dispatches .get rest → u.machine.operands.items = key :: container :: below →
    container.handle? = some j →
    u.machine.memory.heap.object? j = t.machine.memory.heap.object? j →
    s.machine.memory.heap.object? j = some o' →
      u.Gets natives owned rest below
        (if j = i ∧ key.key? = some k then .ok v else o'.read key)
  /-- Only a name that was unbound makes a container longer. -/
  length : ∀ o', t.machine.memory.heap.object? i = some o' →
    o'.length = o.length + if o.at? k = none then 1 else 0
  /-- Storing the old value restores what was there. -/
  restores : ∀ {owned u rest container key below w}, o.at? k = some w → Served natives m₀ owned u →
    u.Dispatches .put rest → u.machine.operands.items = w :: key :: container :: below →
    container.handle? = some i → container.isReadOnly = false → key.key? = some k →
    u.machine.memory.heap.object? i = t.machine.memory.heap.object? i →
      ∃ t', u.Stores natives owned rest below i o t'

/-- The next cycle stores a value where a key addresses a container, or says why it does not. -/
structure StoresAt (natives : Natives χ) (m₀ : Machine) (owned : List Value) (rest : List Frame)
    (container key v : Value) (below : List Value) (s : Session χ) : Prop where
  /-- Handles do not dangle. -/
  object : ∀ {i}, container.handle? = some i → ∃ o, s.machine.memory.heap.object? i = some o
  string : container.kind = .string →
    s.Refuses natives owned rest .stringReadOnly .invalidAccess
  other : container.handle? = none → container.kind ≠ .string →
    s.Refuses natives owned rest (.notWritable container.kind) .typeCheck
  index : ∀ {i q}, container.handle? = some i → s.machine.memory.heap.object? i = some (.array q) →
    key.toWord? = none → s.Refuses natives owned rest .arrayIndexKind .typeCheck
  range : ∀ {i q n}, container.handle? = some i → s.machine.memory.heap.object? i = some (.array q) →
    key.toWord? = some n → ¬ (0 ≤ n.toInt ∧ n.toInt < q.length) →
      s.Refuses natives owned rest (.indexRange n q.length) .rangeCheck
  name : ∀ {i q}, container.handle? = some i →
    s.machine.memory.heap.object? i = some (.dictionary q) →
    key.toName? = none → s.Refuses natives owned rest .keyKind .typeCheck
  locked : ∀ {i o k}, container.handle? = some i → s.machine.memory.heap.object? i = some o →
    key.key? = some k → o.Takes k → container.isReadOnly = true →
      s.Refuses natives owned rest o.lock .invalidAccess
  entry : ∀ {i q text c}, container.handle? = some i →
    s.machine.memory.heap.object? i = some (.dictionary q) → key.toName? = some text →
    container.isReadOnly = false → q.get? text = none →
    s.machine.memory.ledger.check (Dictionary.entrySize text) = .error c →
      s.Refuses natives owned rest c .memoryOverflow
  stores : ∀ {i o k}, container.handle? = some i → s.machine.memory.heap.object? i = some o →
    key.key? = some k → o.Takes k → container.isReadOnly = false →
    (∀ text, k = .name text → o.at? k = none →
      s.machine.memory.ledger.check (Dictionary.entrySize text) = .ok ()) →
      ∃ t, s.Stores natives owned rest below i (o.stored k v) t ∧ s.Recalls natives m₀ i o k v t

end Session

namespace Served

/-- **What `get` gives** is what the object of the container has. -/
theorem gets (hm₀ : m₀.Created options) (h : Served natives m₀ owned s) (d : s.Dispatches .get rest)
    (hoperands : s.machine.operands.items = key :: container :: below)
    (hi : container.handle? = some i) (ho : s.machine.memory.heap.object? i = some o) :
    s.Gets natives owned rest below (o.read key) := by
  obtain ⟨Γ, -, sound⟩ := h.sound hm₀
  obtain ⟨_, ho', refers⟩ := sound.refersTo (Machine.knows_of_operand (by simp [hoperands])) hi
  obtain rfl := Option.some.inj (ho.symm.trans ho')
  have operands_eq : s.machine.operands.items = [key, container] ++ below := hoperands
  have accepts : List.Forall₂ (fun p v => Param.accepts p v = true) Builtin.get.signature
      [key, container] := .cons rfl (.cons rfl .nil)
  have reads (own : Option ℕ) (m : Machine) (view : s.machine.SameView m) :
      (Operation.itemAt container key).runOn own m = _ :=
    Operation.itemAt_runOn refers ((view.object? i).trans ho)
  cases hread : o.read key with
  | ok v =>
    obtain ⟨t, μ, ends, sheds, freed⟩ := h.performs
      (E := fun μ => s.machine.memory.heap.Sheds μ.heap) hm₀ d rfl operands_eq accepts (v :: below)
      fun Γ' _ m engages sound' growing => by
        have view := engages.sameView
        have enough : 2 ≤ m.operands.length := by
          simp [Sequence.length, engages.operands, hoperands]
        have found : (Operation.itemAt container key).runOn (some rest.length) m = .done v m := by
          rw [reads _ m view, hread]
        have run : (Operation.getItem [key, container]).runOn (some rest.length) m =
            Machine.exchangeOperands 2 [v] m := by
          rw [Operation.getItem_runOn, Operation.runOn_bind found]
          exact congrFun (Machine.runOn_exchange _ _ _) m
        have granted : (Machine.exchangeOperands 2 [v] m).Grants _ :=
          Machine.exchangeOperands_grants growing enough
        have sure : (Machine.exchangeOperands 2 [v] m).Meets True _ _ :=
          Machine.exchangeOperands_sure sound'.operands enough (by simp) fun w hw => by
            rw [List.mem_singleton.1 hw]
            exact fun text => sound'.referenced_of_item ((view.object? i).trans ho)
              (Object.mem_values_of_read hread)
        change ((Operation.getItem [key, container]).runOn (some rest.length) m).Meets True _ _
        rw [run]
        refine (sure.granted granted).mono (fun _ m' ⟨_, becomes, sheds⟩ => ⟨?_, fun j => ?_⟩)
          fun _ => id
        · rw [becomes.scene, engages.operands, hoperands]
          rfl
        · rw [← view.contents j]
          exact sheds j
    exact ⟨t, ends, sheds.trans freed.sheds⟩
  | error c =>
    have cause : c.exception.condition ≠ .internal := by
      unfold Object.read at hread
      split at hread
      · cases hread
      · cases hread
        exact o.fault_ne_internal key
    refine h.declines_at_once hm₀ d rfl operands_eq accepts cause fun own m view => ?_
    change (Operation.getItem [key, container]).runOn own m = _
    rw [Operation.getItem_runOn]
    exact Operation.runOn_raised (by rw [reads own m view, hread]) _

/-! ### Storing -/

section

variable (hm₀ : m₀.Created options) (h : Served natives m₀ owned s)
  (ws : s.Writes b rest params below container key v)
include hm₀ h ws

theorem exists_object_of_writes (hi : container.handle? = some i) :
    ∃ o, s.machine.memory.heap.object? i = some o ∧ container.RefersTo i o := by
  obtain ⟨Γ, -, sound⟩ := h.sound hm₀
  exact sound.refersTo (ws.held.elim Machine.knows_of_operand Machine.knows_of_scope) hi

theorem refersTo_of_writes (hi : container.handle? = some i)
    (ho : s.machine.memory.heap.object? i = some o) : container.RefersTo i o := by
  obtain ⟨_, ho', refers⟩ := h.exists_object_of_writes hm₀ ws hi
  rwa [Option.some.inj (ho.symm.trans ho')]

/-- Faults that are found before memory is asked. -/
theorem refuses (hc : c.condition ≠ .internal)
    (fails : ∀ own m, s.machine.SameView m →
      (Operation.storeAt container key v).runOn own m = .raised c.exception m) :
    s.Refuses natives owned rest c c.condition :=
  ⟨rfl, h.declines_at_once hm₀ ws.dispatches ws.proper ws.operands ws.accepts hc fun own m view => by
    rw [ws.runs own m view]
    exact Operation.runOn_raised (fails own m view) _⟩

variable (hi : container.handle? = some i) (ho : s.machine.memory.heap.object? i = some o)
include hi ho

/-- **A value is stored** where the key addresses a place for it. -/
theorem stores (hk : key.key? = some k) (takes : o.Takes k) (writable : container.isReadOnly = false)
    (room : ∀ text, k = .name text → o.at? k = none →
      s.machine.memory.ledger.check (Dictionary.entrySize text) = .ok ()) :
    ∃ t, s.Stores natives owned rest below i (o.stored k v) t := by
  have refers := h.refersTo_of_writes hm₀ ws hi ho
  obtain ⟨t, μ, ends, replaced, freed⟩ := h.performs
    (E := fun μ => s.machine.memory.heap.Replaces i (· = o.stored k v) μ.heap) hm₀ ws.dispatches
    ws.proper ws.operands ws.accepts below fun Γ _ m engages sound growing => by
      have view := engages.sameView
      have ready : m.Ready rest.length params.length :=
        engages.ready sound (by simp [Sequence.length, ws.operands])
      have operand : v ∈ m.operands.items := by
        rw [engages.operands, ws.operands]
        exact List.mem_append_left _ ws.operand
      rw [ws.runs _ m view]
      refine (Operation.storeAt_stores sound growing ready operand refers ((view.object? i).trans ho) hk
        takes writable fun text hn hbound => ?_).mono (fun _ m' ⟨scene, replaced⟩ =>
          ⟨scene.trans ?_, replaced.of_content view.contents⟩) fun _ => id
      · rw [engages.ledger]
        exact room text hn hbound
      · rw [engages.operands, ws.operands, List.drop_left]
  exact ⟨t, ends, replaced.sheds freed.sheds⟩

/-- A key that addresses no place for a value. -/
theorem refuses_astray (hk : ∀ k, key.key? = some k → ¬ o.Takes k) :
    s.Refuses natives owned rest (o.fault key) (o.fault key).condition :=
  h.refuses hm₀ ws (o.fault_ne_internal key) fun _ _ view =>
    Operation.storeAt_astray (h.refersTo_of_writes hm₀ ws hi ho) ((view.object? i).trans ho) hk

/-- **A new entry the ledger has no room for** is refused. -/
theorem refuses_entry {text : String} (hk : key.key? = some (.name text))
    (takes : o.Takes (.name text)) (writable : container.isReadOnly = false)
    (unbound : o.at? (.name text) = none)
    (hc : s.machine.memory.ledger.check (Dictionary.entrySize text) = .error c) :
    s.Refuses natives owned rest c .memoryOverflow := by
  obtain ⟨Γ, -, sound⟩ := h.sound hm₀
  obtain ⟨-, _, hb, -⟩ := sound.memory
  have counted : Counted s.machine.memory.heap.cell? := hb.positive
  have refers := h.refersTo_of_writes hm₀ ws hi ho
  have overflow : c.condition = .memoryOverflow := by
    unfold Ledger.check at hc
    split at hc <;> cases hc
    rfl
  refine ⟨overflow, h.declines hm₀ ws.dispatches ws.proper ws.operands ws.accepts
    (by rw [show c.exception.condition = _ from overflow]; decide) fun Γ _ m engages sound _ => ?_⟩
  have view := engages.sameView
  have ready : m.Ready rest.length params.length :=
    engages.ready sound (by simp [Sequence.length, ws.operands])
  rw [ws.runs _ m view]
  exact Operation.storeAt_overflows (counted.lend params) engages.cells ready refers
    ((view.object? i).trans ho) hk takes writable unbound (by rwa [engages.ledger])

end

/-- `put` stores the top. -/
theorem writes_of_put (d : s.Dispatches .put rest)
    (hoperands : s.machine.operands.items = v :: key :: container :: below) :
    s.Writes .put rest [v, key, container] below container key v where
  dispatches := d
  proper := rfl
  operands := hoperands
  accepts := .cons rfl (.cons rfl (.cons rfl .nil))
  operand := .head _
  held := .inl (by simp [hoperands])
  runs _ m _ := Operation.putItem_runOn container key v

/-- `def` stores the top in the innermost scope. -/
theorem exists_writes_of_define (hm₀ : m₀.Created options) (h : Served natives m₀ owned s)
    (d : s.Dispatches .define rest) (hoperands : s.machine.operands.items = v :: key :: below)
    {text : String} (hkey : key.toName? = some text) :
    ∃ scope outer, s.machine.scopes.items = scope :: outer ∧
      s.Writes .define rest [v, key] below scope key v := by
  obtain ⟨Γ, -, sound⟩ := h.sound hm₀
  obtain ⟨scope, outer, hscopes⟩ : ∃ scope outer, s.machine.scopes.items = scope :: outer := by
    refine List.exists_cons_of_ne_nil fun none => ?_
    have four := sound.isScoped
    rw [Machine.Scoped, Sequence.length, none] at four
    exact absurd four (by decide)
  have opened : scope ∈ s.machine.scopes.items := hscopes ▸ .head _
  obtain ⟨i, writable, hd⟩ := Machine.exists_dictionary (sound.dictionaries scope opened)
  exact ⟨scope, outer, hscopes,
    { dispatches := d
      proper := rfl
      operands := hoperands
      accepts := .cons rfl (.cons (Param.accepts_of_toName? hkey) .nil)
      operand := .head _
      held := .inr opened
      runs := fun _ m view =>
        Operation.bindName_runOn (view.scopes.trans hscopes) hd hkey }⟩

/-- **What has been stored is recalled.** -/
theorem recalls (hm₀ : m₀.Created options) (ho : s.machine.memory.heap.object? i = some o) (takes : o.Takes k)
    (stores : s.Stores natives owned rest below i (o.stored k v) t) :
    s.Recalls natives m₀ i o k v t where
  gets {_ u _ container key _ j o'} hu d hoperands hj same ho' := by
    obtain ⟨Γ, -, sound⟩ := hu.sound hm₀
    obtain ⟨o'', ho'', -⟩ :=
      sound.refersTo (Machine.knows_of_operand (by simp [hoperands])) hj
    have found : o''.read key = if j = i ∧ key.key? = some k then .ok v else o'.read key := by
      by_cases hji : j = i
      · subst hji
        obtain rfl := Option.some.inj (ho.symm.trans ho')
        obtain rfl := stores.2.shows o'' (same ▸ ho'')
        by_cases hk : key.key? = some k
        · rw [if_pos ⟨rfl, hk⟩, Object.read_stored hk takes]
        · rw [if_neg fun both => hk both.2, Object.read_stored_of_ne hk]
      · have kept := stores.2.object?_of_ne hji (same ▸ ho'')
        rw [if_neg fun both => hji both.1, Option.some.inj (kept.symm.trans ho')]
    exact found ▸ hu.gets hm₀ d hoperands hj ho''
  length o' ho' := by
    rw [stores.2.shows o' ho']
    exact Object.length_stored takes v
  restores {_ u _ container key _ w} hw hu d hoperands hi writable hk same := by
    obtain ⟨Γ, -, sound⟩ := hu.sound hm₀
    obtain ⟨o', ho', -⟩ :=
      sound.refersTo (Machine.knows_of_operand (by simp [hoperands])) hi
    obtain rfl := stores.2.shows o' (same ▸ ho')
    have bound : (o.stored k v).at? k = some v := Object.at?_stored takes v
    have restored := hu.stores hm₀ (writes_of_put d hoperands) hi ho' hk (Object.takes_of_at? bound)
      writable fun text hn unbound => absurd (bound.symm.trans unbound) nofun
    rwa [Object.stored_stored, Object.stored_self hw] at restored

/-- **A value is stored, or it is refused for one of seven reasons.** -/
theorem storesAt (hm₀ : m₀.Created options) (h : Served natives m₀ owned s)
    (ws : s.Writes b rest params below container key v) :
    s.StoresAt natives m₀ owned rest container key v below where
  object hi := (h.exists_object_of_writes hm₀ ws hi).imp fun _ h => h.1
  string hv := h.refuses hm₀ ws nofun fun _ _ _ => Operation.storeAt_string hv
  other hi hv := h.refuses hm₀ ws nofun fun _ _ _ => Operation.storeAt_other hi hv
  index hi ho hw := by
    have refused := h.refuses_astray hm₀ ws hi ho fun k hk takes => by
      cases k with
      | position index =>
        obtain ⟨n, hn, -⟩ := Value.toWord?_of_key? hk
        cases hw.symm.trans hn
      | name text => exact takes
    rwa [Object.fault, hw] at refused
  range {i q n} hi ho hn outside := by
    have refused := h.refuses_astray hm₀ ws hi ho fun k hk takes => by
      cases k with
      | position index =>
        obtain ⟨n', hn', hindex⟩ := Value.toWord?_of_key? hk
        obtain rfl := Option.some.inj (hn.symm.trans hn')
        have inside : index < q.length := takes
        unfold Word.index? at hindex
        split at hindex
        · rename_i positive
          obtain rfl := Option.some.inj hindex
          exact outside ⟨positive, by omega⟩
        · cases hindex
      | name text => exact takes
    rwa [Object.fault, hn] at refused
  name hi ho hn := by
    have refused := h.refuses_astray hm₀ ws hi ho fun k hk takes => by
      cases k with
      | position index => exact takes
      | name text => cases hn.symm.trans (Value.toName?_of_key? hk)
    rwa [Object.fault, hn] at refused
  locked {i o k} hi ho hk takes locked := by
    have refers := h.refersTo_of_writes hm₀ ws hi ho
    have refused := h.refuses (c := o.lock) hm₀ ws (by rw [o.condition_lock]; decide)
      fun own m view => by
        rw [Operation.storeAt_runOn refers ((view.object? i).trans ho) hk takes, if_pos locked]
    rwa [o.condition_lock] at refused
  entry hi ho hn writable unbound hc :=
    h.refuses_entry hm₀ ws hi ho (Value.key?_of_toName? hn) trivial writable unbound hc
  stores hi ho hk takes writable room := by
    obtain ⟨t, stores⟩ := h.stores hm₀ ws hi ho hk takes writable room
    exact ⟨t, stores, recalls hm₀ ho takes stores⟩

end Served

/-! ### The guarantee -/

/-- **Containers are stores.**  `get` gives what the object of the container has, whatever the handle.
`put` stores the top at a key of a container, and `def` at a name of the innermost scope.  What has been
stored is read back and nothing else has changed, or it is refused and nothing has changed at all. -/
theorem storing_is_read_back (hm₀ : m₀.Created options) (h : Served natives m₀ owned s) :
    (s.Dispatches .get rest → s.machine.operands.items = key :: container :: below →
      ∀ i o, container.handle? = some i → s.machine.memory.heap.object? i = some o →
        s.Gets natives owned rest below (o.read key)) ∧
    (s.Dispatches .put rest → s.machine.operands.items = v :: key :: container :: below →
      s.StoresAt natives m₀ owned rest container key v below) ∧
    (s.Dispatches .define rest → s.machine.operands.items = v :: key :: below →
      key.toName?.isSome → ∃ scope outer, s.machine.scopes.items = scope :: outer ∧
        s.StoresAt natives m₀ owned rest scope key v below) := by
  refine ⟨fun d hoperands _ _ => h.gets hm₀ d hoperands, fun d hoperands =>
    h.storesAt hm₀ (Served.writes_of_put d hoperands), fun d hoperands hkey => ?_⟩
  obtain ⟨text, htext⟩ := Option.isSome_iff_exists.1 hkey
  obtain ⟨scope, outer, hscopes, ws⟩ := h.exists_writes_of_define hm₀ d hoperands htext
  exact ⟨scope, outer, hscopes, h.storesAt hm₀ ws⟩

/-- `put` and `get` by two handles of a dictionary. -/
theorem get_follows_put : ∃ (m₀ : Machine) (p u : Session Unit), m₀.Created {} ∧
    Served Natives.none m₀ [] p ∧ p.dispatching? = some .put ∧ u.dispatching? = some .get ∧
      u.machine.operands.items.map Value.datum = [.name "a" false, .dictionary 5 true] ∧
      (∃ o t, p.Stores Natives.none [] p.machine.calls.frames.tail p.machine.operands.items.tail.tail.tail
        5 o t) ∧
      ∃ v t, v.toWord? = some (.ofInt 5) ∧ Session.EndsIn Natives.none [] u.machine.calls.frames.tail
        { u.machine.scene with operands := [v], frames := u.machine.calls.frames.tail } u t := by
  let next (s : Session Unit) := (Session.cycle Natives.none s).state?
  have facts : (Session.trial {} "1 dict dup /a 5 put /a get" 11).bind (fun p => (next p).bind fun p' =>
      (p'.traverse 0 3).map fun u => decide (p.dispatching? = some .put ∧ u.dispatching? = some .get ∧
        p.machine.operands.items.map Value.datum =
          [.integer (.ofInt 5), .name "a" false, .dictionary 5 true, .dictionary 5 true] ∧
        (p.machine.memory.heap.object? 5).map
          (fun o => decide (o.Takes (.name "a") ∧ o.at? (.name "a") = none)) = some true ∧
        (p.machine.memory.ledger.check (Dictionary.entrySize "a")).toOption = some () ∧
        u.machine.operands.items.map Value.datum = [.name "a" false, .dictionary 5 true] ∧
        u.machine.memory.heap.object? 5 = p'.machine.memory.heap.object? 5)) = some true := by
    decide +kernel
  obtain ⟨p, hp, facts⟩ := Option.bind_eq_some_iff.1 facts
  obtain ⟨p', hp', facts⟩ := Option.bind_eq_some_iff.1 facts
  obtain ⟨u, hu, facts⟩ := Option.map_eq_some_iff.1 facts
  obtain ⟨putting, getting, data, unbound, room, data', same⟩ := of_decide_eq_true facts
  obtain ⟨m₀, created, reached⟩ := Reached.of_trial (by rintro t ⟨⟩) hp
  have served := reached.served
  obtain ⟨v, _, hoperands, hv, data⟩ := List.map_eq_cons_iff.1 data
  obtain ⟨key, _, rfl, hkey, data⟩ := List.map_eq_cons_iff.1 data
  obtain ⟨container, below, rfl, hcontainer, -⟩ := List.map_eq_cons_iff.1 data
  obtain ⟨key', _, hoperands', hkey', data''⟩ := List.map_eq_cons_iff.1 data'
  obtain ⟨container', _, rfl, hcontainer', none⟩ := List.map_eq_cons_iff.1 data''
  obtain rfl := List.map_eq_nil_iff.1 none
  obtain ⟨o, ho, unbound⟩ := Option.map_eq_some_iff.1 unbound
  obtain ⟨takes, unbound⟩ := of_decide_eq_true unbound
  have room : p.machine.memory.ledger.check (Dictionary.entrySize "a") = .ok () := by
    cases hc : p.machine.memory.ledger.check (Dictionary.entrySize "a") with
    | ok => rfl
    | error c => rw [hc] at room; cases room
  -- the value is stored
  obtain ⟨t, stores, recalls⟩ := ((storing_is_read_back created served).2.1
    (Session.dispatches_of_dispatching? putting) hoperands).stores (k := .name "a")
      (by rw [Value.handle?, hcontainer]) ho (by rw [Value.key?, hkey]) takes
      (by rw [Value.isReadOnly, hcontainer]; rfl) (by rintro _ ⟨⟩ -; exact room)
  obtain rfl : p' = t := Option.some.inj (hp'.symm.trans stores.1.conducts.leads)
  have served' := (served.cycle stores.1.conducts).spans
    (.of_traverse [] [] hu ⟨_, (List.append_nil _).symm⟩)
  -- and read by the other handle
  have got := recalls.gets served' (Session.dispatches_of_dispatching? getting) hoperands'
    (by rw [Value.handle?, hcontainer']) same ho
  rw [if_pos ⟨rfl, by rw [Value.key?, hkey']⟩] at got
  obtain ⟨t', ends, -⟩ := got
  exact ⟨m₀, p, u, created, served, putting, getting, data', ⟨_, _, by rwa [hoperands]⟩, v, t',
    by rw [Value.toWord?, hv], ends⟩

end StackScript
