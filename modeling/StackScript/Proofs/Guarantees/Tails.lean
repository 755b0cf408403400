import StackScript.Proofs.Machine.Replacing

/-!
# Tail calls

The last item of a block takes the place of the block's frame, and what a name stands for takes the place
of the name's.  So where a block ends with a name that stands for a block, maybe by way of other names
(`Machine.Denotes`), the frame of the one block gives way to that of the other (`Served.hands_over`), which
has not begun then.

Frames below stay, and their number decides how many slots are charged for.  However many such calls follow
each other, by whatever procedures, the call stack is as long as it was, and so is what is charged for it
(`tail_calls_keep_the_stack`).
-/

namespace StackScript

open Cells

/-! ### Names that stand for blocks -/

/-- An executable name that stands for the block `b`, by way of so many names, itself included. -/
inductive Machine.Denotes (m : Machine) : ℕ → Value → Value → Prop
  | block {v w scope : Value} {text : String} {i : Handle} (hv : v.datum = .name text true)
      (hfound : m.resolution? text = some (scope, w)) (hw : w.datum = .array i .block) :
      Denotes m 1 v (w.withSource (w.source <|> v.source))
  | name {v w scope b : Value} {text : String} {n : ℕ} (hv : v.datum = .name text true)
      (hfound : m.resolution? text = some (scope, w))
      (h : Denotes m n (w.withSource (w.source <|> v.source)) b) : Denotes m (n + 1) v b

namespace Machine

variable {m : Machine} {n : ℕ} {v b : Value}

theorem Denotes.exists_name (h : m.Denotes n v b) : ∃ text, v.datum = .name text true := by
  cases h with
  | block hv | name hv => exact ⟨_, hv⟩

end Machine

variable {χ : Type} {natives : Natives χ} {options : Options} {m₀ : Machine}
  {owned owned' : List Value} {s t : Session χ} {f : Frame} {rest : List Frame}
  {v b callee : Value} {i : Handle} {n k : ℕ}

namespace Session

/-- The top frame is that of the block `i`, at its last item, which is a name that stands for a block. -/
structure AtTailCall (f : Frame) (rest : List Frame) (i : Handle) (n : ℕ) (callee : Value)
    (s : Session χ) : Prop where
  pending : s.machine.pending = none
  depth : s.machine.blockDepth = 0
  frames : s.machine.calls.frames = f :: rest
  supply : f.supply = none
  block : f.value.datum = .array i .block
  last : ∃ q name, s.machine.memory.heap.object? i = some (.array q) ∧
    q.get? f.cursor = some name ∧ f.cursor + 1 = q.length ∧ s.machine.Denotes n name callee

/-- From `s` to `t` the top frame has given way to that of another block, which has not begun.  All else
is as it was; of the references to the block before there is one less. -/
structure HandsOver (rest : List Frame) (i : Handle) (callee : Value) (s t : Session χ) : Prop where
  scene : t.machine.scene = { s.machine.scene with frames := { value := callee } :: rest }
  steady : s.machine.Steady rest.length t.machine
  reserve : t.machine.calls.reserve = s.machine.calls.reserve
  sheds : s.machine.memory.heap.Sheds t.machine.memory.heap
  released : t.machine.memory.heap.countAt i + 1 =
    s.machine.memory.heap.countAt i + if callee.handle? = some i then 1 else 0

theorem step_of_last {q : Sequence} {name : Value} {text : String} (hp : s.machine.pending = none)
    (hsupply : f.supply = none) (hblock : f.value.datum = .array i .block)
    (ho : s.machine.memory.heap.object? i = some (.array q)) (hitem : q.get? f.cursor = some name)
    (last : f.cursor + 1 = q.length) (hname : name.datum = .name text true) (index : ℕ) :
    step Natives.none index f s = onMachine (Machine.replaceFrame name) s := by
  have eager : name.isInert = false := by
    simp [Value.isInert, Value.isExecutable, Value.isBlock, Value.access?, Datum.isExecutable, hname]
  rw [step_of_not_pending (by simp [hp]), advance, hsupply]
  dsimp only
  rw [hblock]
  dsimp only
  rw [stepBlock, theMachine_bind, Memory.array_of_object? ho, read_bind, hitem]
  dsimp only
  rw [if_pos last, if_neg (by simp [eager])]

end Session

/-! ### References -/

/-- A reference more is counted where it refers to. -/
theorem Heap.countAt_lend {h h' : Heap} (cells : h'.cell? = lend h.cell? [v])
    (live : v.handle? = some i → h'.Live i) :
    h'.countAt i = h.countAt i + if v.handle? = some i then 1 else 0 := by
  rw [countAt, countAt, cells, lend]
  cases hc : h.cell? i with
  | none =>
    have dead : v.handle? ≠ some i := fun hv => live hv (by rw [cells, lend_eq_none.2 hc])
    simp [dead]
  | some c =>
    by_cases hv : v.handle? = some i <;> simp [hv]

namespace Machine

variable {Γ Δ : Charter} {m m' : Machine} {x : Stake}

/-- How often the value is held by the stacks and by others, and how often by containers. -/
theorem Sound.countAt_eq (h : m.Sound Γ n (.refs owned)) (i : Handle) :
    m.memory.heap.countAt i = m.places.countP (fun v => v.handle? = some i) +
      m.localDictionaries.count i + owned.countP (fun v => v.handle? = some i) := by
  obtain ⟨-, σ, hb, -⟩ := h.memory
  have count := hb.holders i
  have sum : m.stake + .refs owned + m.memory.heap.stake =
      m.stake + m.memory.heap.stake + .refs owned := add_right_comm ..
  rw [sum, Stake.holders_add, Stake.holders, m.values_eq_places, Stake.locals_add, Heap.locals_stake,
    add_zero, m.locals_eq_localDictionaries, Stake.holders] at count
  simpa using count

/-- **The last reference goes** with the frame that has held it. -/
theorem countAt_eq_zero (sound : m.Sound Γ n (.refs owned)) (sound' : m'.Sound Δ k (.refs owned))
    (hframes : m.calls.frames = f :: rest) (hlocals : f.locals = none)
    (hf : f.value.handle? = some i) (hv : v.handle? = none)
    (scene : m'.scene = { m.scene with frames := { value := v } :: rest })
    (sheds : m.memory.heap.Sheds m'.memory.heap) (one : m.memory.heap.countAt i = 1) :
    m'.memory.heap.countAt i = 0 := by
  have operands : m'.operands.items = m.operands.items := congrArg Scene.operands scene
  have scopes : m'.scopes.items = m.scopes.items := congrArg Scene.scopes scene
  have frames : m'.calls.frames = { value := v } :: rest := congrArg Scene.frames scene
  rw [sound.countAt_eq, places, localDictionaries, hframes] at one
  rw [sound'.countAt_eq, places, localDictionaries, frames, operands, scopes]
  simp only [List.countP_append, List.map_cons, List.countP_cons, hf, hv, List.filterMap_cons,
    hlocals, decide_true, if_true, reduceCtorEq, decide_false, Bool.false_eq_true, if_false] at one ⊢
  -- what a container holds after it has been held by one before
  have slots : m'.memory.heap.slots.countP (fun v => v.handle? = some i) = 0 := by
    rw [List.countP_eq_zero]
    intro w hw held
    have before : w ∈ m.memory.heap.slots := by
      rw [← Multiset.mem_coe, ← Heap.values_stake, Heap.mem_values_stake] at hw ⊢
      obtain ⟨j, o, ho, hw⟩ := hw
      exact ⟨j, o, sheds.object?_eq ho, hw⟩
    have : 0 < m.memory.heap.slots.countP (fun v => v.handle? = some i) :=
      List.countP_pos_iff.2 ⟨w, before, held⟩
    omega
  omega

end Machine

/-! ### Frames that give way -/

namespace Served

/-- A name gives way to what it stands for. -/
theorem resolves {w scope : Value} {text : String} (hm₀ : m₀.Created options)
    (h : Served natives m₀ owned s) (hp : s.machine.pending = none) (depth : s.machine.blockDepth = 0)
    (hframes : s.machine.calls.frames = { value := v } :: rest) (hv : v.datum = .name text true)
    (hfound : s.machine.resolution? text = some (scope, w)) (hw : w.string? = none) :
    ∃ t, Session.EndsIn natives owned rest { s.machine.scene with
        frames := { value := w.withSource (w.source <|> v.source) } :: rest } s t ∧
      s.machine.memory.Sheds t.machine.memory ∧
        t.machine.memory.heap.cell? = lend s.machine.memory.heap.cell? [w] := by
  obtain ⟨Γ, -, sound⟩ := h.sound hm₀
  obtain ⟨-, _, hb, -⟩ := sound.memory
  have counted : Counted s.machine.memory.heap.cell? := hb.positive
  have known : s.machine.Knows (.refs owned) (w.withSource (w.source <|> v.source)) :=
    (sound.knows_of_resolution? hfound).withSource _
  have hstep : Session.step Natives.none rest.length { value := v } s =
      Session.onMachine (Machine.replaceFrame (w.withSource (w.source <|> v.source))) s := by
    rw [Session.step_of_name hp rfl hv, Session.stepName_eq sound _ (.inl depth), hfound]
    rfl
  obtain ⟨t, ends, sheds, swaps⟩ :=
    h.replaces hm₀ hframes rfl (by rw [Value.toOperator?, hv]) known hw hstep
  have handle : v.handle? = none := by rw [Value.handle?, hv]
  refine ⟨t, ends, sheds, swaps _ (counted.lend _) ?_⟩
  rw [lend_singleton_of_handle?_none handle]
  rfl

/-- **A name that stands for a block** gives way to it, in a cycle for each name on the way. -/
theorem gives_way {m : Machine} (hm₀ : m₀.Created options) (h : Served natives m₀ owned s)
    (hp : s.machine.pending = none) (depth : s.machine.blockDepth = 0)
    (hframes : s.machine.calls.frames = { value := v } :: rest) (d : m.Denotes n v b)
    (same : ∀ text, s.machine.resolution? text = m.resolution? text) :
    ∃ t, Session.Spans natives rest n owned s owned t ∧
      t.machine.scene = { s.machine.scene with frames := { value := b } :: rest } ∧
      s.machine.Steady rest.length t.machine ∧ s.machine.memory.Sheds t.machine.memory ∧
        t.machine.memory.heap.cell? = lend s.machine.memory.heap.cell? [b] := by
  obtain ⟨Γ, -, sounds⟩ := exists_charter hm₀
  induction d generalizing s with
  | block hv hfound hw =>
    obtain ⟨t, ends, sheds, cells⟩ := h.resolves hm₀ hp depth hframes hv ((same _).trans hfound)
      (by rw [Value.string?, hw])
    exact ⟨t, .after hframes ends.conducts (.refl _ _), ends.scene, ends.steady, sheds, cells⟩
  | @name v w scope b text n hv hfound d ih =>
    obtain ⟨next, hw⟩ := d.exists_name
    have hw : w.datum = .name next true := hw
    obtain ⟨u, ends, sheds, cells⟩ := h.resolves hm₀ hp depth hframes hv ((same _).trans hfound)
      (by rw [Value.string?, hw])
    have h' := h.cycle ends.conducts
    have names (text : String) : u.machine.resolution? text = m.resolution? text :=
      (Machine.resolution?_of_sheds (sounds h) (sounds h') (congrArg Scene.scopes ends.scene) sheds
        text).trans (same text)
    obtain ⟨t, spans, scene, steady, sheds', cells'⟩ := ih h'
      ((congrArg Scene.pending ends.scene).trans hp) ((congrArg Scene.blockDepth ends.scene).trans depth)
      (congrArg Scene.frames ends.scene) names
    refine ⟨t, .after hframes ends.conducts spans, scene.trans ?_,
      ends.steady.trans steady, sheds.trans sheds', ?_⟩
    · rw [ends.scene]
    -- names hold nothing, so the block is all that is referred to once more
    · have handle : w.handle? = none := by rw [Value.handle?, hw]
      rw [cells', cells, lend_singleton_of_handle?_none handle]

/-- The last item of a block takes the place of the block's frame. -/
theorem leaves_block (hm₀ : m₀.Created options) (h : Served natives m₀ owned s)
    (tail : s.AtTailCall f rest i n callee) : ∃ t name, Session.EndsIn natives owned rest
        { s.machine.scene with frames := { value := name } :: rest } s t ∧
      s.machine.memory.Sheds t.machine.memory ∧ s.machine.Denotes n name callee ∧
        t.machine.memory.heap.countAt i + 1 = s.machine.memory.heap.countAt i := by
  obtain ⟨q, name, ho, hitem, last, denotes⟩ := tail.last
  obtain ⟨text, hname⟩ := denotes.exists_name
  obtain ⟨Γ, -, sounds⟩ := exists_charter hm₀
  have sound := sounds h
  obtain ⟨-, _, hb, -⟩ := sound.memory
  have counted : Counted s.machine.memory.heap.cell? := hb.positive
  have block : f.value.toOperator? = none := by rw [Value.toOperator?, tail.block]
  have held : f.value.handle? = some i := by rw [Value.handle?, tail.block]
  have handle : name.handle? = none := by rw [Value.handle?, hname]
  obtain ⟨t, ends, sheds, swaps⟩ := h.replaces hm₀ tail.frames tail.supply block
    (Machine.knows_of_handle?_none handle) (by rw [Value.string?, hname])
    (Session.step_of_last tail.pending tail.supply tail.block ho hitem last hname _)
  refine ⟨t, name, ends, sheds, denotes, ?_⟩
  obtain ⟨c, hc, -⟩ := Heap.exists_cell_of_object? ho
  rw [Heap.countAt_of_cell? hc]
  have positive := counted i c hc
  by_cases one : c.count = 1
  -- the block goes with its last reference
  · rw [Machine.countAt_eq_zero sound (sounds (h.cycle ends.conducts)) tail.frames
      (h.locals_eq_none hm₀ tail.frames block) held handle ends.scene sheds
      ((Heap.countAt_of_cell? hc).trans one), one]
  -- or it stays, with a reference less
  · have fewer : Counted (Function.update s.machine.memory.heap.cell? i
        (some { c with count := c.count - 1 })) :=
      counted.update i (show 0 < c.count - 1 by omega)
    have cells := swaps _ fewer <| by
      rw [lend_singleton_of_handle?_none handle, lend_singleton_update hc positive held]
    have left : t.machine.memory.heap.cell? i = some { c with count := c.count - 1 } := by
      rw [cells, Function.update_self]
    rw [Heap.countAt_of_cell? left]
    exact Nat.sub_add_cancel positive

/-- **A tail call**: the frame of a block gives way to that of the block its last item stands for. -/
theorem hands_over (hm₀ : m₀.Created options) (h : Served natives m₀ owned s)
    (tail : s.AtTailCall f rest i n callee) : ∃ t,
      Session.Spans natives rest (n + 1) owned s owned t ∧ s.HandsOver rest i callee t := by
  obtain ⟨Γ, -, sounds⟩ := exists_charter hm₀
  obtain ⟨u, name, ends, sheds, denotes, fewer⟩ := h.leaves_block hm₀ tail
  have h' := h.cycle ends.conducts
  have names := Machine.resolution?_of_sheds (sounds h) (sounds h')
    (congrArg Scene.scopes ends.scene) sheds
  obtain ⟨t, spans, scene, steady, sheds', cells⟩ := h'.gives_way hm₀
    ((congrArg Scene.pending ends.scene).trans tail.pending)
    ((congrArg Scene.blockDepth ends.scene).trans tail.depth) (congrArg Scene.frames ends.scene)
    denotes names
  have spans : Session.Spans natives rest (n + 1) owned s owned t :=
    .after tail.frames ends.conducts spans
  have h'' := h.spans spans
  have frames : t.machine.calls.frames = { value := callee } :: rest := congrArg Scene.frames scene
  refine ⟨t, spans, scene.trans (by rw [ends.scene]), ends.steady.trans steady, ?_,
    sheds.trans sheds', ?_⟩
  · exact h.reserve_eq hm₀ h'' (by rw [CallStack.length, CallStack.length, frames, tail.frames]; rfl)
  · have live (held : callee.handle? = some i) : t.machine.memory.heap.Live i := by
      have holds : t.machine.scene.Holds i := by
        rw [scene]
        exact .inr (.inl ⟨_, .head _, .inl held⟩)
      exact (sounds h'').live (.inl holds)
    rw [← fewer, Heap.countAt_lend cells live, Nat.add_right_comm]

end Served

/-! ### One after another -/

/-- So many tail calls follow each other above the frames `rest`: whatever the block in turn does before,
it gets to its last item, a name that stands for the next one. -/
inductive Session.TailCalls (natives : Natives χ) (rest : List Frame) :
    ℕ → List Value → Session χ → List Value → Session χ → Prop
  | none (owned : List Value) (s : Session χ) : TailCalls natives rest 0 owned s owned s
  | call {j k n : ℕ} {owned owned₁ owned₂ owned₃ : List Value} {s t u v : Session χ} {f : Frame}
      {i : Handle} {callee : Value} (calls : TailCalls natives rest j owned s owned₁ t)
      (body : Spans natives rest k owned₁ t owned₂ u) (tail : u.AtTailCall f rest i n callee)
      (turn : Spans natives rest (n + 1) owned₂ u owned₃ v) :
      TailCalls natives rest (j + 1) owned s owned₃ v

namespace Served

/-- Every host that goes on from a tail call gets where the frame has been handed over. -/
theorem handsOver (hm₀ : m₀.Created options) (h : Served natives m₀ owned s)
    (tail : s.AtTailCall f rest i n callee) (spans : Session.Spans natives rest (n + 1) owned s owned' t) :
    s.HandsOver rest i callee t := by
  obtain ⟨u, turn, hands⟩ := h.hands_over hm₀ tail
  exact spans.unique turn ▸ hands

/-- What tail calls lead to is met with again by a host that goes on. -/
theorem tailCalls (h : Served natives m₀ owned s) {j : ℕ}
    (calls : Session.TailCalls natives rest j owned s owned' t) : Served natives m₀ owned' t := by
  induction calls with
  | none => exact h
  | call _ body _ turn ih => exact ((ih h).spans body).spans turn

/-- **However many** tail calls follow each other, there is one frame above those below. -/
theorem one_above (hm₀ : m₀.Created options) (h : Served natives m₀ owned s) {j : ℕ}
    (calls : Session.TailCalls natives rest j owned s owned' t)
    (hframes : s.machine.calls.frames = f :: rest) : ∃ g, t.machine.calls.frames = g :: rest := by
  cases calls with
  | none => exact ⟨f, hframes⟩
  | call calls body tail turn =>
    -- the last one has left its frame there, whatever was called before it
    have hands := ((h.tailCalls calls).spans body).handsOver hm₀ tail turn
    exact ⟨_, congrArg Scene.frames hands.scene⟩

end Served

/-! ### The guarantee -/

/-- **Tail calls keep the call stack as it is.**  Where the last item of a block is a name that stands for a
block, by way of however many names, the frame of the block is the other's before that begins, and there is
one reference to the block less.  After any number of such calls the stack is as long, with the same
frames below and the same slots charged for. -/
theorem tail_calls_keep_the_stack (hm₀ : m₀.Created options) (h : Served natives m₀ owned s) :
    (∀ f rest i n callee, s.AtTailCall f rest i n callee →
      (∃ t, Session.Spans natives rest (n + 1) owned s owned t) ∧
        ∀ owned' t, Session.Spans natives rest (n + 1) owned s owned' t →
          s.HandsOver rest i callee t) ∧
    (∀ f rest j owned' t, s.machine.calls.frames = f :: rest →
      Session.TailCalls natives rest j owned s owned' t →
        t.machine.calls.length = s.machine.calls.length ∧
          t.machine.calls.frames.tail = s.machine.calls.frames.tail ∧
            t.machine.calls.reserve = s.machine.calls.reserve) := by
  refine ⟨fun f rest i n callee tail => ?_, fun f rest j owned' t hframes calls => ?_⟩
  · obtain ⟨t, turn, -⟩ := h.hands_over hm₀ tail
    exact ⟨⟨t, turn⟩, fun _ _ spans => h.handsOver hm₀ tail spans⟩
  · obtain ⟨g, hframes'⟩ := h.one_above hm₀ calls hframes
    have length : t.machine.calls.length = s.machine.calls.length := by
      rw [CallStack.length, CallStack.length, hframes', hframes, List.length_cons, List.length_cons]
    exact ⟨length, by rw [hframes', hframes, List.tail_cons, List.tail_cons],
      h.reserve_eq hm₀ (h.tailCalls calls) length⟩

/-- The last item of the block `i`, if that is on top and it is the turn of the item. -/
def Session.lastItem? (i : Handle) (s : Session χ) : Option Value :=
  match s.machine.calls.frames, s.machine.memory.heap.object? i with
  | f :: _, some (.array q) =>
    if f.supply.isNone ∧ f.value.datum = .array i .block ∧ f.cursor + 1 = q.length then
      q.get? f.cursor
    else none
  | _, _ => none

theorem Session.exists_of_lastItem? {name : Value} (idle : s.machine.pending = none)
    (depth : s.machine.blockDepth = 0) (h : s.lastItem? i = some name)
    (d : s.machine.Denotes n name callee) : ∃ f rest, s.AtTailCall f rest i n callee := by
  unfold lastItem? at h
  split at h
  case h_1 f rest q hframes ho =>
    split_ifs at h with turn
    obtain ⟨supply, block, last⟩ := turn
    exact ⟨f, rest, idle, depth, hframes, Option.isNone_iff_eq_none.1 supply, block, q, name, ho, h,
      last, d⟩
  case h_2 => cases h

/-- Two procedures that call each other go on for ever with one frame, one by way of a third name. -/
theorem mutual_recursion_keeps_the_stack : ∃ (m₀ : Machine) (s t u v : Session Unit) (f g : Frame)
    (rest : List Frame) (a b : Value), m₀.Created {} ∧ Served Natives.none m₀ [] s ∧
      s.AtTailCall f rest 5 1 b ∧ Session.Spans Natives.none rest 2 [] s [] t ∧ s.HandsOver rest 5 b t ∧
        u.AtTailCall g rest 6 2 a ∧ a.datum = f.value.datum ∧
          Session.TailCalls Natives.none rest 2 [] s [] v ∧
            v.machine.calls.length = s.machine.calls.length ∧
              v.machine.calls.frames.tail = s.machine.calls.frames.tail ∧
                v.machine.calls.reserve = s.machine.calls.reserve := by
  let text := "/a \x7b b \x7d def /b \x7b 1 c \x7d def /c \x7b a \x7d 0 get def a"
  let denoted (s : Session Unit) (name : String) := (s.machine.resolution? name).map fun r => r.2.datum
  have facts : (Session.trial {} text 43).bind (fun s => (s.traverse 1 2).bind fun t =>
      (t.traverse 1 1).bind fun u => (u.traverse 1 3).map fun v => decide (
        s.machine.calls.length = 2 ∧ s.machine.pending = none ∧ s.machine.blockDepth = 0 ∧
          (s.lastItem? 5).map Value.datum = some (.name "b" true) ∧
          denoted s "b" = some (.array 6 .block) ∧
          u.machine.calls.length = 2 ∧ u.machine.pending = none ∧ u.machine.blockDepth = 0 ∧
          (u.lastItem? 6).map Value.datum = some (.name "c" true) ∧
          denoted u "c" = some (.name "a" true) ∧
          denoted u "a" = some (.array 5 .block))) = some true := by decide +kernel
  obtain ⟨s, hs, facts⟩ := Option.bind_eq_some_iff.1 facts
  obtain ⟨t, ht, facts⟩ := Option.bind_eq_some_iff.1 facts
  obtain ⟨u, hu, facts⟩ := Option.bind_eq_some_iff.1 facts
  obtain ⟨v, hv, facts⟩ := Option.map_eq_some_iff.1 facts
  obtain ⟨two, idle, depth, last, ping, two', idle', depth', last', chain, pong⟩ := of_decide_eq_true facts
  obtain ⟨m₀, created, reached⟩ := Reached.of_trial (by rintro t ⟨⟩) hs
  have served := reached.served
  -- the first call, by one name
  obtain ⟨name, hname, name_b⟩ := Option.map_eq_some_iff.1 last
  obtain ⟨⟨_, b⟩, found_b, block_b⟩ := Option.map_eq_some_iff.1 ping
  obtain ⟨f, rest, call⟩ := Session.exists_of_lastItem? idle depth hname (.block name_b found_b block_b)
  have below : rest.length = 1 := by
    rw [CallStack.length, call.frames] at two
    exact Nat.succ_injective two
  rw [← below] at ht hu hv
  have turn := Session.Spans.of_traverse [] rest ht ⟨[f], call.frames⟩
  have keeps := tail_calls_keep_the_stack created served
  have hands := (keeps.1 f rest 5 1 _ call).2 [] t turn
  have body := Session.Spans.of_traverse [] rest hu ⟨[_], congrArg Scene.frames hands.scene⟩
  -- the second one, by two
  obtain ⟨name', hname', name_c⟩ := Option.map_eq_some_iff.1 last'
  obtain ⟨⟨_, a'⟩, found_c, name_a⟩ := Option.map_eq_some_iff.1 chain
  obtain ⟨⟨_, a⟩, found_a, block_a⟩ := Option.map_eq_some_iff.1 pong
  obtain ⟨g, rest', call'⟩ := Session.exists_of_lastItem? idle' depth' hname'
    (.name name_c found_c (.block name_a found_a block_a))
  obtain ⟨above, habove⟩ := body.exists_above ⟨[_], congrArg Scene.frames hands.scene⟩
  obtain rfl : rest' = rest := by
    rw [CallStack.length, habove, List.length_append, below] at two'
    obtain ⟨x, rfl⟩ := List.length_eq_one_iff.1 (Nat.add_right_cancel two')
    exact (List.cons.inj (call'.frames.symm.trans habove)).2
  have turn' := Session.Spans.of_traverse [] rest' hv ⟨[g], call'.frames⟩
  have calls : Session.TailCalls Natives.none rest' 2 [] s [] v :=
    .call (.call (.none [] s) (.refl [] s) call turn) body call' turn'
  exact ⟨m₀, s, t, u, v, f, g, rest', _, _, created, served, call, turn, hands, call',
    block_a.trans call.block.symm, calls, keeps.2 f rest' 2 [] v call.frames calls⟩

end StackScript
