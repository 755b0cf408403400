import StackScript.Proofs.Comparison.Containers
import StackScript.Proofs.Machine.Isolation

/-!
# Comparing what is done to machines

Machines are alike if their memories, operands, scopes and pending exceptions are, and their call
frames too, down to some frames at the bottom that each machine has for itself (`Setting`).  An
operator's frame is addressed in both machines by its distance from there.

Whatever an operator can ask of a machine is parallel.
-/

namespace StackScript

open Metered (peak)

/-- Supplies that are alike. -/
structure Likeness.Supplies (C : Likeness) (p q : Supply) : Prop where
  upcoming : List.Forall₂ C.Values p.upcoming q.upcoming
  forever : Option.Rel C.Values p.forever q.forever

/-- Call frames that are alike. -/
structure Likeness.Frames (C : Likeness) (f g : Frame) : Prop where
  value : C.Values f.value g.value
  state : f.state = g.state
  cursor : f.cursor = g.cursor
  locals : Option.Rel C.handles f.locals g.locals
  stash : Option.Rel C.Pendings f.stash g.stash
  supply : Option.Rel C.Supplies f.supply g.supply

/-- What is compared of two machines, besides their memories. -/
structure Setting extends Comparison where
  /-- The frames at the bottom of the one machine, -/
  below : List Frame
  /-- and of the other. -/
  below' : List Frame
  idle : ∀ f ∈ below, f.value.toOperator? = none
  idle' : ∀ f ∈ below', f.value.toOperator? = none
  /-- Slots of the call frames that are alike. -/
  reserves : Reserve → Reserve → Prop
  exchange {r r' : Reserve} {vs ws vs' ws' : List Value} (n : ℕ) (h : reserves r r')
    (hremoved : List.Forall₂ toLikeness.Values vs ws) (hadded : List.Forall₂ toLikeness.Values vs' ws') :
    toLikeness.Parallel memories reserves (r.exchange (n + below.length) vs vs')
      (r'.exchange (n + below'.length) ws ws')
  exactly : exact → below = below' ∧ (∀ i j, handles i j → i = j) ∧
    ∀ μ ν, memories μ ν → ∀ v, μ.format v = ν.format v
  debugged : traced → ∀ μ ν, memories μ ν → μ.debug = ν.debug

namespace Setting

open Likeness

variable (S : Setting)

/-- Call stacks that are alike. -/
structure Stacks (c d : CallStack) : Prop where
  reserve : S.reserves c.reserve d.reserve
  frames : ∃ l k, c.frames = l ++ S.below ∧ d.frames = k ++ S.below' ∧ List.Forall₂ S.Frames l k

/-- Machines that are alike. -/
structure Machines (m n : Machine) : Prop where
  memory : S.memories m.memory n.memory
  operands : S.Sequences m.operands n.operands
  calls : S.Stacks m.calls n.calls
  scopes : S.Sequences m.scopes n.scopes
  pending : Option.Rel S.Pendings m.pending n.pending
  blockDepth : m.blockDepth = n.blockDepth
  throws : m.options.throwOnException = n.options.throwOnException
  budget : m.options.defaultMaxCycles = n.options.defaultMaxCycles

/-- Addresses of frames, from the frames at the bottom. -/
structure Places (i j : ℕ) : Prop where
  place : ∃ k, i = k + S.below.length ∧ j = k + S.below'.length

variable {S}

/-- Two actions on the machine that are parallel. -/
abbrev Beside {α β : Type} (S : Setting) (A : α → β → Prop) (x : Action Machine α)
    (y : Action Machine β) : Prop := S.toLikeness.Parallel S.Machines A x y

variable {m n : Machine} {i j : ℕ} {v w : Value} {vs ws : List Value} {c d : CallStack}
  {f g : Frame}

/-! ### What is equal if everything is compared -/

theorem eq_of_data (hexact : S.exact) {d e : Datum} (h : S.Data d e) : d = e := by
  cases h with
  | array h access => rw [(S.exactly hexact).2.1 _ _ h]
  | dictionary h writable => rw [(S.exactly hexact).2.1 _ _ h]
  | _ => rfl

theorem eq_of_values (hexact : S.exact) (h : S.Values v w) : v = w := by
  obtain ⟨d, s⟩ := v
  obtain ⟨d', s'⟩ := w
  obtain rfl : d = d' := eq_of_data hexact h.datum
  obtain rfl : s = s' := h.source hexact
  rfl

theorem eq_of_pendings (hexact : S.exact) {p q : PendingException} (h : S.Pendings p q) : p = q := by
  obtain ⟨e, s⟩ := p
  obtain ⟨e', s'⟩ := q
  obtain rfl : e = e' := h.exception.whole hexact
  obtain rfl : s = s' := h.charge hexact
  rfl

theorem eq_of_option {α : Type} {R : α → α → Prop} {o p : Option α} (hR : ∀ a b, R a b → a = b)
    (h : Option.Rel R o p) : o = p := by
  cases h with
  | none => rfl
  | some h => rw [hR _ _ h]

theorem eq_of_forall {α : Type} {R : α → α → Prop} {l k : List α} (hR : ∀ a b, R a b → a = b)
    (h : List.Forall₂ R l k) : l = k :=
  List.forall₂_eq_eq_eq ▸ h.imp hR

theorem eq_of_supplies (hexact : S.exact) {p q : Supply} (h : S.Supplies p q) : p = q := by
  obtain ⟨hu, hf⟩ := h
  cases p
  cases q
  simp only at hu hf
  rw [eq_of_forall (fun _ _ => eq_of_values hexact) hu, eq_of_option (fun _ _ => eq_of_values hexact) hf]

theorem eq_of_frames (hexact : S.exact) (h : S.Frames f g) : f = g := by
  obtain ⟨hv, hstate, hcursor, hlocals, hstash, hsupply⟩ := h
  cases f
  cases g
  simp only at hv hstate hcursor hlocals hstash hsupply
  rw [eq_of_values hexact hv, hstate, hcursor, eq_of_option (S.exactly hexact).2.1 hlocals,
    eq_of_option (fun _ _ => eq_of_pendings hexact) hstash,
    eq_of_option (fun _ _ => eq_of_supplies hexact) hsupply]

theorem Stacks.frames_eq (hexact : S.exact) (h : S.Stacks c d) : c.frames = d.frames := by
  obtain ⟨l, k, hc, hd, hlk⟩ := h.frames
  rw [hc, hd, (S.exactly hexact).1]
  congr 1
  exact eq_of_forall (fun _ _ => eq_of_frames hexact) hlk

/-- Trails are compared only if everything is. -/
theorem Machines.trail (h : S.Machines m n) (hexact : S.exact) : m.trail = n.trail := by
  have described : m.describe = n.describe := by
    funext f
    unfold Machine.describe
    simp only [(S.exactly hexact).2.2 _ _ h.memory]
  rw [Machine.trail, Machine.trail, described, h.calls.frames_eq hexact]

theorem Machines.allocationTrail (h : S.Machines m n) (htraced : S.traced) :
    m.allocationTrail = n.allocationTrail := by
  unfold Machine.allocationTrail
  rw [S.debugged htraced _ _ h.memory, h.trail (S.traces htraced)]

/-! ### The call stack -/

theorem Stacks.frame? (h : S.Stacks c d) (hij : S.Places i j) :
    Option.Rel S.Frames (c.frame? i) (d.frame? j) := by
  obtain ⟨l, k, hc, hd, hlk⟩ := h.frames
  obtain ⟨p, rfl, rfl⟩ := hij.place
  have above {l : List Frame} {b : List Frame} (c : CallStack) (hc : c.frames = l ++ b) :
      c.frame? (p + b.length) = l.reverse[p]? := by
    rw [CallStack.frame?_eq_getElem?, hc, List.reverse_append,
      List.getElem?_append_right (by simp), List.length_reverse, Nat.add_sub_cancel]
  rw [above c hc, above d hd]
  exact rel_getElem? (List.rel_reverse hlk) p

theorem Stacks.update (h : S.Stacks c d) (hij : S.Places i j) {u u' : Frame → Frame}
    (hu : ∀ f g, S.Frames f g → S.Frames (u f) (u' g)) :
    S.Stacks (c.update i u) (d.update j u') := by
  obtain ⟨l, k, hc, hd, hlk⟩ := h.frames
  obtain ⟨p, rfl, rfl⟩ := hij.place
  have updated {l b : List Frame} (c : CallStack) (u : Frame → Frame) (hc : c.frames = l ++ b) :
      (c.update (p + b.length) u).reserve = c.reserve ∧ (c.update (p + b.length) u).frames =
        (if p < l.length then l.modify (l.length - 1 - p) u else l) ++ b := by
    have length : c.length = l.length + b.length := by
      rw [CallStack.length, hc, List.length_append]
    unfold CallStack.update
    rw [length]
    by_cases hp : p < l.length
    · rw [if_pos (by omega), if_pos hp, hc, show l.length + b.length - 1 - (p + b.length) =
        l.length - 1 - p by omega, modify_append_left (by omega)]
      exact ⟨rfl, rfl⟩
    · rw [if_neg (by omega), if_neg hp]
      exact ⟨rfl, hc⟩
  obtain ⟨hr, hl⟩ := updated c u hc
  obtain ⟨hr', hk⟩ := updated d u' hd
  refine ⟨hr ▸ hr' ▸ h.reserve, _, _, hl, hk, ?_⟩
  rw [hlk.length_eq]
  split
  · exact rel_modify hlk _ hu
  · exact hlk

/-- A frame is pushed. -/
theorem push (h : S.Stacks c d) (hfg : S.Frames f g) :
    S.toLikeness.Parallel S.memories S.Stacks (c.push f) (d.push g) := by
  obtain ⟨l, k, hc, hd, hlk⟩ := h.frames
  unfold CallStack.push
  rw [CallStack.length, CallStack.length, hc, hd, List.length_append, List.length_append,
    hlk.length_eq]
  exact (S.exchange k.length h.reserve .nil (.cons hfg.value .nil)).bind fun _ _ hr =>
    parallel_pure ⟨hr, f :: l, g :: k, rfl, rfl, .cons hfg hlk⟩

theorem rising_stashed (o : Option PendingException) :
    Action.Rising (if let some p := o then p.discharge else pure ()) := by
  cases o <;> infer_instance

/-- An exception that was set aside is given up. -/
theorem stashed {o o' : Option PendingException} (h : Option.Rel S.Pendings o o') :
    S.toLikeness.Parallel S.memories (fun _ _ => True)
      (if let some p := o then p.discharge else pure ())
      (if let some p := o' then p.discharge else pure ()) := by
  cases h with
  | none => exact parallel_pure trivial
  | some h => exact S.discharge h

/-- What a frame holds is given up. -/
theorem dispose (h : S.Frames f g) :
    S.toLikeness.Parallel S.memories (fun _ _ => True) f.dispose g.dispose := by
  have hlocals := h.locals
  unfold Frame.dispose
  generalize f.locals = o at hlocals
  generalize g.locals = p at hlocals
  cases hlocals with
  | none => exact stashed h.stash
  | some hij =>
    have rising := rising_stashed
    exact (S.release (values_dictionary hij true)).bind fun _ _ _ => stashed h.stash

/-- The top frame goes. -/
theorem pop {l k : List Frame} (hr : S.reserves c.reserve d.reserve)
    (hc : c.frames = f :: l ++ S.below) (hd : d.frames = g :: k ++ S.below') (hfg : S.Frames f g)
    (hlk : List.Forall₂ S.Frames l k) :
    S.toLikeness.Parallel S.memories S.Stacks c.pop d.pop := by
  unfold CallStack.pop
  rw [hc, hd]
  dsimp only [List.cons_append]
  rw [CallStack.length, CallStack.length, hc, hd, List.length_append, List.length_append,
    List.length_cons, List.length_cons, hlk.length_eq]
  refine (S.exchange (k.length + 1) hr (.cons hfg.value .nil) .nil).bind fun _ _ hr => ?_
  exact (dispose hfg).bind fun _ _ _ => parallel_pure ⟨hr, l, k, rfl, rfl, hlk⟩

/-- A fresh frame takes the place of the top one. -/
theorem replaceTop {l k : List Frame} (hr : S.reserves c.reserve d.reserve)
    (hc : c.frames = f :: l ++ S.below) (hd : d.frames = g :: k ++ S.below') (hfg : S.Frames f g)
    (hlk : List.Forall₂ S.Frames l k) (hv : S.Values v w) :
    S.toLikeness.Parallel S.memories S.Stacks (c.replaceTop v) (d.replaceTop w) := by
  unfold CallStack.replaceTop
  rw [hc, hd]
  dsimp only [List.cons_append]
  rw [CallStack.length, CallStack.length, hc, hd, List.length_append, List.length_append,
    List.length_cons, List.length_cons, hlk.length_eq]
  refine (S.exchange (k.length + 1) hr (.cons hfg.value .nil) (.cons hv .nil)).bind fun _ _ hr => ?_
  exact (dispose hfg).bind fun _ _ _ =>
    parallel_pure ⟨hr, { value := v } :: l, { value := w } :: k, rfl, rfl,
      .cons ⟨hv, rfl, rfl, .none, .none, .none⟩ hlk⟩

/-! ### Operands, containers and scopes -/

section

variable {α β : Type} {A : α → β → Prop}

theorem onMemory {x : Action Memory α} {y : Action Memory β}
    (h : S.toLikeness.Parallel S.memories A x y) :
    S.Beside A (Machine.onMemory x) (Machine.onMemory y) :=
  h.zoom (fun _ _ => rfl) (fun _ _ h => h.memory) fun _ _ _ _ h hm => { h with memory := hm }

theorem onOperands {x y : Sequence → Action Memory Sequence} (_ : ∀ s, Action.Rising (x s))
    (_ : ∀ s, Action.Rising (y s)) (h : ∀ s t, S.Sequences s t →
      S.toLikeness.Parallel S.memories S.Sequences (x s) (y t)) :
    S.Beside (fun _ _ => True) (Machine.onOperands x) (Machine.onOperands y) := by
  have rising (s : Sequence) : Action.Rising
    (modify fun m => { m with operands := s } : Action Machine PUnit) :=
      Action.rising_modify fun _ => rfl
  exact parallel_get_bind fun m n hmn => (onMemory (h _ _ hmn.operands)).bind fun _ _ hst =>
    parallel_modify fun _ _ h => { h with operands := hst }

theorem onScopes {x y : Sequence → Action Memory Sequence} (_ : ∀ s, Action.Rising (x s))
    (_ : ∀ s, Action.Rising (y s)) (h : ∀ s t, S.Sequences s t →
      S.toLikeness.Parallel S.memories S.Sequences (x s) (y t)) :
    S.Beside (fun _ _ => True) (Machine.onScopes x) (Machine.onScopes y) := by
  have rising (s : Sequence) : Action.Rising
    (modify fun m => { m with scopes := s } : Action Machine PUnit) :=
      Action.rising_modify fun _ => rfl
  exact parallel_get_bind fun m n hmn => (onMemory (h _ _ hmn.scopes)).bind fun _ _ hst =>
    parallel_modify fun _ _ h => { h with scopes := hst }

/-- What is done to call stacks of machines that are alike. -/
theorem onCalls {x y : CallStack → Action Memory CallStack}
    (_ : ∀ c, Action.Rising (x c)) (_ : ∀ c, Action.Rising (y c)) (hmn : S.Machines m n)
    (h : S.toLikeness.Parallel S.memories S.Stacks (x m.calls) (y n.calls)) :
    S.toLikeness.Agree (fun _ _ => True) S.Machines (Machine.onCalls x m)
      (Machine.onCalls y n) := by
  have rising (c : CallStack) : Action.Rising
    (modify fun m => { m with calls := c } : Action Machine PUnit) :=
      Action.rising_modify fun _ => rfl
  exact (onMemory h hmn).bind (f := fun c => modify fun m => { m with calls := c })
    (g := fun c => modify fun m => { m with calls := c }) (fun _ _ => id)
    fun _ _ _ _ hcd h => parallel_modify (fun _ _ h => { h with calls := hcd }) h

end

theorem exchangeOperands (drop : ℕ) (h : List.Forall₂ S.Values vs ws) :
    S.Beside (fun _ _ => True) (Machine.exchangeOperands drop vs)
      (Machine.exchangeOperands drop ws) :=
  onOperands (fun _ => inferInstance) (fun _ => inferInstance)
    fun _ _ hst => Comparison.exchange hst drop h

theorem releaseValue (h : S.Values v w) :
    S.Beside (fun _ _ => True) (Machine.release v) (Machine.release w) := onMemory (S.release h)

theorem adopt (drop : ℕ) (h : S.Values v w) :
    S.Beside (fun _ _ => True) (Machine.adopt drop v) (Machine.adopt drop w) :=
  (exchangeOperands drop (.cons h .nil)).ensuring (releaseValue h) (Machine.raises_release v)
    (Machine.raises_release w)

theorem clearOperands :
    S.Beside (fun _ _ => True) Machine.clearOperands Machine.clearOperands :=
  onOperands (fun _ => inferInstance) (fun _ => inferInstance) fun _ _ => Comparison.clear

/-- The trail of an allocation is taken. -/
theorem trailed {α β : Type} {A : α → β → Prop} {x : List String → Action Machine α}
    {y : List String → Action Machine β} [∀ t, Action.Rising (x t)] [∀ t, Action.Rising (y t)]
    (h : ∀ t t', (S.traced → t = t') → S.Beside A (x t) (y t')) :
    S.Beside A (do x (← (← get).allocationTrail)) (do y (← (← get).allocationTrail)) :=
  parallel_get_bind fun _ _ hmn => (parallel_ofSound_traced hmn.allocationTrail).bind h

theorem createArray (access : Access) (h : List.Forall₂ S.Values vs ws) :
    S.Beside S.Values (Machine.createArray access vs) (Machine.createArray access ws) :=
  trailed fun _ _ ht => (onMemory (Comparison.newArray _ h ht)).bind fun _ _ hij =>
    parallel_pure (values_array hij access)

theorem createFilledArray (access : Access) (length : ℕ) (h : S.Values v w) :
    S.Beside S.Values (Machine.createFilledArray access length v)
      (Machine.createFilledArray access length w) :=
  trailed fun _ _ ht => (onMemory (Comparison.newFilledArray _ length h ht)).bind fun _ _ hij =>
    parallel_pure (values_array hij access)

theorem createDictionary :
    S.Beside S.Values Machine.createDictionary Machine.createDictionary :=
  trailed fun _ _ ht => (onMemory (Comparison.newDictionary _ ht)).bind fun _ _ hij =>
    parallel_pure (values_dictionary hij true)

theorem setItem {a b : Value} (h : S.Values a b) (index : ℕ) (hv : S.Values v w) :
    S.Beside (fun _ _ => True) (Machine.setItem a index v) (Machine.setItem b index w) := by
  have hd := h.datum
  unfold Machine.setItem
  generalize a.datum = x at hd
  generalize b.datum = y at hd
  cases hd with
  | array hij access =>
    cases access with
    | «mutable» => exact onMemory (Comparison.setItem hij index hv)
    | _ => exact parallel_fail _
  | _ => exact parallel_fail _

theorem define {a b : Value} (h : S.Values a b) (name : String) (hv : S.Values v w) :
    S.Beside (fun _ _ => True) (Machine.define a name v) (Machine.define b name w) := by
  have hd := h.datum
  unfold Machine.define
  generalize a.datum = x at hd
  generalize b.datum = y at hd
  cases hd with
  | dictionary hij writable =>
    cases writable with
    | true => exact onMemory (Comparison.define hij name hv)
    | false => exact parallel_fail _
  | _ => exact parallel_fail _

theorem openScope (h : S.Values v w) :
    S.Beside (fun _ _ => True) (Machine.openScope v) (Machine.openScope w) := by
  unfold Machine.openScope
  rw [h.kind]
  split
  · exact onScopes (fun _ => inferInstance) (fun _ => inferInstance)
      fun _ _ hst => Comparison.exchange hst 0 (.cons h .nil)
  · exact parallel_fail _

theorem closeScope : S.Beside (fun _ _ => True) Machine.closeScope Machine.closeScope := by
  have closed : S.Beside (fun _ _ => True) (Machine.onScopes fun s => s.pop 1)
      (Machine.onScopes fun s => s.pop 1) :=
    onScopes (fun _ => inferInstance) (fun _ => inferInstance)
      fun _ _ hst => Comparison.exchange hst 1 .nil
  have rising : Action.Rising (Machine.onScopes fun s => s.pop 1) :=
    Machine.rising_onScopes fun _ => inferInstance
  refine parallel_get_bind fun m n hmn => ?_
  rw [show m.scopes.length = n.scopes.length from hmn.scopes.items.length_eq]
  split
  · exact (parallel_fail (A := fun _ _ => True) _).bind fun _ _ _ => closed
  · exact closed

/-! ### Call frames -/

theorem call (h : S.Values v w) : S.Beside (fun _ _ => True) (Machine.call v) (Machine.call w) :=
  fun _ _ hmn => onCalls (fun _ => inferInstance) (fun _ => inferInstance) hmn
    (push hmn.calls ⟨h, rfl, rfl, .none, .none, .none⟩)

/-- Frames at the same place. -/
theorem frame (hmn : S.Machines m n) (hij : S.Places i j) :
    Results (fun _ _ => True) S.Frames (m.frame i) (n.frame j) := by
  have found := hmn.calls.frame? hij
  unfold Machine.frame
  generalize m.calls.frame? i = o at found
  generalize n.calls.frame? j = p at found
  cases found with
  | none => exact .error trivial
  | some h => exact .ok h

/-- Looking at the frames at the same place. -/
theorem atFrame {α β : Type} {A : α → β → Prop} {x : Frame → Action Machine α}
    {y : Frame → Action Machine β} (hij : S.Places i j)
    (h : ∀ f g, S.Frames f g → S.Beside A (x f) (y g)) :
    S.Beside A (do x (← (← get).frame i)) (do y (← (← get).frame j)) :=
  parallel_get_bind fun _ _ hmn => parallel_ofSound_bind (frame hmn hij) h

theorem updateFrame (hij : S.Places i j) {u u' : Frame → Frame}
    (hu : ∀ f g, S.Frames f g → S.Frames (u f) (u' g)) :
    S.Beside (fun _ _ => True) (Machine.updateFrame i u) (Machine.updateFrame j u') :=
  atFrame hij fun _ _ _ => parallel_modify fun _ _ h => { h with calls := h.calls.update hij hu }

theorem setState (hij : S.Places i j) (next : Continuation) :
    S.Beside (fun _ _ => True) (Machine.setState i next) (Machine.setState j next) := by
  refine atFrame hij fun f g hfg => ?_
  rw [hfg.state]
  split
  · exact updateFrame hij fun _ _ h =>
      ⟨h.value, rfl, h.cursor, h.locals, h.stash, h.supply⟩
  · exact parallel_fail _

theorem ensureLocals (hij : S.Places i j) (hexact : S.exact → i = j) :
    S.Beside S.handles (Machine.ensureLocals i) (Machine.ensureLocals j) := by
  refine atFrame hij fun f g hfg => ?_
  have hlocals := hfg.locals
  generalize f.locals = o at hlocals
  generalize g.locals = p at hlocals
  cases hlocals with
  | some h => exact parallel_pure h
  | none =>
    refine (onMemory (Comparison.newDictionary _ fun h => by rw [hexact (S.traces h)])).bind fun a b hab => ?_
    have moved : S.Beside (fun _ _ => True) (Machine.updateFrame i ({ · with locals := some a }))
        (Machine.updateFrame j ({ · with locals := some b })) :=
      updateFrame hij fun _ _ h =>
        ⟨h.value, h.state, h.cursor, .some hab, h.stash, h.supply⟩
    exact moved.bind fun _ _ _ => parallel_pure hab

/-- At the same place nothing else is compared. -/
theorem Places.eq (hij : S.Places i j) (hexact : S.exact) : i = j := by
  obtain ⟨p, rfl, rfl⟩ := hij.place
  rw [(S.exactly hexact).1]

theorem setLocal (hij : S.Places i j) (name : String) (hv : S.Values v w) :
    S.Beside (fun _ _ => True) (Machine.setLocal i name v) (Machine.setLocal j name w) :=
  (ensureLocals hij hij.eq).bind fun _ _ h => onMemory (Comparison.define h name hv)

/-! ### Block definitions -/

theorem openBlock : S.Beside (fun _ _ => True) Machine.openBlock Machine.openBlock :=
  parallel_modify fun _ _ h => { h with blockDepth := congrArg (· + 1) h.blockDepth }

theorem closeBlock : S.Beside (fun _ _ => True) Machine.closeBlock Machine.closeBlock :=
  parallel_modify fun _ _ h => { h with blockDepth := congrArg (· - 1) h.blockDepth }

/-! ### Pending exceptions -/

theorem dischargePending {o p : Option PendingException} (h : Option.Rel S.Pendings o p) :
    S.Beside (fun _ _ => True) (Machine.discharge o) (Machine.discharge p) := by
  cases h with
  | none => exact parallel_pure trivial
  | some h => exact onMemory (S.discharge h)

theorem Machines.condition (h : S.Machines m n) : m.condition = n.condition := by
  have hpending := h.pending
  unfold Machine.condition Machine.exception
  generalize m.pending = o at hpending
  generalize n.pending = p at hpending
  cases hpending with
  | none => rfl
  | some h => exact congrArg some h.exception.condition

theorem Machines.isDoomed (h : S.Machines m n) : m.isDoomed = n.isDoomed := by
  rw [Machine.isDoomed, Machine.isDoomed, h.condition]

theorem Machines.isSome_pending (h : S.Machines m n) : m.pending.isSome = n.pending.isSome := by
  have hpending := h.pending
  generalize m.pending = o at hpending
  generalize n.pending = p at hpending
  cases hpending <;> rfl

theorem Machines.exception (h : S.Machines m n) :
    Option.Rel S.Exceptions m.exception n.exception := by
  have hpending := h.pending
  unfold Machine.exception
  generalize m.pending = o at hpending
  generalize n.pending = p at hpending
  cases hpending with
  | none => exact .none
  | some h => exact .some h.exception

theorem intercept :
    S.Beside (Option.Rel S.Exceptions) Machine.intercept Machine.intercept := by
  have rising := Machine.rising_withPending none
  refine parallel_get_bind fun m n hmn => ?_
  rw [hmn.isDoomed]
  split
  · exact parallel_pure .none
  · exact (dischargePending hmn.pending).bind fun _ _ _ =>
      (parallel_modify fun _ _ h => { h with pending := .none }).bind fun _ _ _ =>
        parallel_pure hmn.exception

theorem stash (hij : S.Places i j) :
    S.Beside (fun _ _ => True) (Machine.stash i) (Machine.stash j) := by
  have rising := Machine.rising_withPending none
  refine parallel_get_bind fun m n hmn => ?_
  rw [hmn.isDoomed]
  split
  · exact parallel_pure trivial
  · have found := frame hmn hij
    have hpending := hmn.pending
    generalize m.pending = o at hpending
    generalize n.pending = p at hpending
    cases hpending with
    | none => exact parallel_pure trivial
    | @some p q h =>
      have moved : S.Beside (fun _ _ => True) (Machine.updateFrame i ({ · with stash := some p }))
          (Machine.updateFrame j ({ · with stash := some q })) :=
        updateFrame hij fun _ _ hfg => ⟨hfg.value, hfg.state, hfg.cursor, hfg.locals, .some h,
          hfg.supply⟩
      exact parallel_ofSound_bind found fun f g hfg => (dischargePending hfg.stash).bind fun _ _ _ =>
        moved.bind fun _ _ _ => parallel_modify fun _ _ h => { h with pending := .none }

theorem restore (hij : S.Places i j) :
    S.Beside (fun _ _ => True) (Machine.restore i) (Machine.restore j) := by
  have rising := Machine.rising_withPending
  refine parallel_get_bind fun m n hmn => parallel_ofSound_bind (frame hmn hij) fun f g hfg => ?_
  have hstash := hfg.stash
  generalize f.stash = o at hstash
  generalize g.stash = p at hstash
  cases hstash with
  | none => exact parallel_pure trivial
  | some h =>
    have moved : S.Beside (fun _ _ => True) (Machine.updateFrame i ({ · with stash := none }))
        (Machine.updateFrame j ({ · with stash := none })) :=
      updateFrame hij fun _ _ hfg => ⟨hfg.value, hfg.state, hfg.cursor, hfg.locals, .none,
        hfg.supply⟩
    refine moved.bind fun _ _ _ => ?_
    rw [hmn.isSome_pending]
    split
    · exact dischargePending (.some h)
    · exact parallel_modify fun _ _ hmn => { hmn with pending := .some h }

end Setting

end StackScript
