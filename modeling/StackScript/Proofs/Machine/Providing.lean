import StackScript.Proofs.Comparison.Renaming
import StackScript.Proofs.Comparison.Sessions
import StackScript.Proofs.Machine.Ample
import StackScript.Proofs.Memory.Loans
import StackScript.Proofs.Text.Lexing

/-!
# Frames that provide values

A text, a block and a supply give values one after the other.  When such a frame is alone on the call
stack, a cycle gives the next value, which is queued if it is executable, or else pushed; and the frame
goes when it has nothing left to give, or together with the last value if it is that of a block.

No value is given here that refers to a container.  So the cells stay as they are meanwhile, but for that
of a block nothing else refers to: it is emptied when the frame goes (`Cells.Parts`).
-/

namespace StackScript

open StackScript.Action
open Memory (Has)
open Cells

/-! ### What goes with a reference -/

namespace Cells

variable {σ τ υ : Cells} {v : Value} {vs : List Value}

/-- What is still there is as it was. -/
def Thins (σ τ : Cells) : Prop := ∀ i c, τ i = some c → σ i = some c

theorem Thins.refl (σ : Cells) : σ.Thins σ := fun _ _ => id

/-- A reference to a value goes, and with it the container it was the only one to refer to, if that holds
no others. -/
inductive Parts (σ : Cells) (v : Value) : Cells → Prop
  | plain (hv : v.handle? = none) : Parts σ v σ
  | last {i : Handle} {o : Object} (hv : v.handle? = some i) (cell : σ i = some ⟨1, some o⟩)
      (plain : ∀ w ∈ o.values, w.handle? = none) : Parts σ v (Function.update σ i none)

theorem Parts.thins (h : σ.Parts v τ) : σ.Thins τ := by
  cases h with
  | plain => exact .refl σ
  | @last i o =>
    intro j c hc
    by_cases same : j = i
    · rw [same, Function.update_self] at hc
      cases hc
    · rwa [Function.update_of_ne same] at hc

theorem Counted.parts (hσ : σ.Counted) (h : σ.Parts v τ) : τ.Counted :=
  fun i c hc => hσ i c (h.thins i c hc)

theorem lend_plain (hvs : ∀ v ∈ vs, v.handle? = none) : σ.lend vs = σ := by
  have emptied : σ.lend vs = σ.lend [] :=
    lend_congr (by rw [List.filterMap_eq_nil_iff.2 hvs]; rfl)
  rw [emptied, lend_nil]

end Cells

variable {σ τ : Cells} {v : Value} {μ : Memory}

namespace Memory

/-- What is left when a reference has been given up. -/
theorem release_parts (hσ : σ.Counted) (h : μ.Has σ) (parts : σ.Parts v τ) :
    (release v μ).Meets True (fun _ ν => ν.Has τ) fun _ => False := by
  have counted := hσ.parts parts
  cases parts with
  | plain hv => exact release_has hσ (by rwa [lend_singleton_of_handle?_none hv])
  | @last i o hv cell plain =>
    refine release_built (o := o) counted (Function.update_self ..) ?_ hv
    rwa [build, lend_plain plain, Function.update_idem, ← cell, Function.update_eq_self]

end Memory

/-! ### Stacks -/

/-- A value goes from a container that plain ones come to. -/
theorem Reserve.exchange_parts (hσ : σ.Counted) (h : μ.Has σ) (parts : σ.Parts v τ) (r : Reserve)
    (length : ℕ) {added : List Value} (plain : ∀ w ∈ added, w.handle? = none) :
    (r.exchange length [v] added μ).Meets True (fun _ ν => ν.Has τ) fun _ => True := by
  unfold exchange
  refine meets_bind (P := fun _ ν => ν.Has σ) (meets_ofExcept (fun _ _ => h) trivial)
    fun capacity ν hν => ?_
  refine meets_bind (P := fun _ ν => ν.Has σ) ((Memory.retainAll_has hσ hν added).mono
    (fun _ _ h => by rwa [lend_plain plain] at h) fun _ _ => trivial) fun _ ν hν => ?_
  refine meets_bind (P := fun _ ν => ν.Has σ) (meets_onRaise (Reserve.resize_has hν r capacity)
    fun ν hν => (Outcome.meets_any _).mono (fun _ _ => id) fun _ => id) fun r' ν hν => ?_
  refine meets_bind (P := fun _ ν => ν.Has τ) ?_ fun _ _ h => h
  exact meets_bind ((Memory.release_parts hσ hν parts).always fun _ _ => id) fun _ _ h => h

/-- The frame holds nothing but what it executes. -/
structure Frame.Bare (f : Frame) : Prop where
  locals : f.locals = none
  stash : f.stash = none

theorem Frame.Bare.dispose_eq {f : Frame} (h : f.Bare) : f.dispose = pure () := by
  rw [Frame.dispose, h.locals, h.stash]

namespace Machine

variable {m : Machine} {f : Frame} {rest : List Frame}

theorem pushOperands_has (hσ : σ.Counted) (h : m.memory.Has σ) (hv : v.handle? = none) :
    (exchangeOperands 0 [v] m).Meets True (fun _ m' => m'.memory.Has σ) fun _ => True :=
  meets_onOperands ((m.operands.push_has hσ h [v]).mono
    (fun _ μ hs => (lend_singleton_of_handle?_none (σ := σ) hv ▸ hs.2 : μ.Has σ)) fun _ _ => trivial)

theorem pushFrame_has (hσ : σ.Counted) (h : m.memory.Has σ) (f : Frame) :
    (onCalls (fun c => c.push f) m).Meets True (fun _ m' => m'.memory.Has (σ.lend [f.value]))
      fun _ => True := by
  refine meets_onCalls ?_
  have exchanged : (m.calls.reserve.exchange m.calls.length [] [f.value] m.memory).Meets True
      (fun _ ν => ν.Has (σ.lend [f.value])) fun _ => True :=
    Reserve.exchange_swaps hσ (hσ.lend _) h (lend_nil _).symm _ _
  exact meets_bind exchanged fun _ _ h => h

/-- A plain value takes no reference with it. -/
theorem pushFrame_has_plain (hσ : σ.Counted) (h : m.memory.Has σ) {f : Frame}
    (hf : f.value.handle? = none) :
    (onCalls (fun c => c.push f) m).Meets True (fun _ m' => m'.memory.Has σ) fun _ => True :=
  (pushFrame_has hσ h f).mono
    (fun _ _ h => by rwa [lend_singleton_of_handle?_none hf] at h) fun _ _ => trivial

/-- A bare frame goes. -/
theorem popFrame_parts (hσ : σ.Counted) (h : m.memory.Has σ) (hframes : m.calls.frames = f :: rest)
    (bare : f.Bare) (parts : σ.Parts f.value τ) :
    (popFrame m).Meets True (fun _ m' => m'.memory.Has τ) fun _ => True := by
  refine meets_onCalls ?_
  rw [CallStack.pop, hframes]
  refine meets_bind (Reserve.exchange_parts hσ h parts _ _ (List.forall_mem_nil _)) fun r μ hμ => ?_
  rw [bare.dispose_eq]
  exact hμ

/-- One that executes a plain value takes its place. -/
theorem replaceFrame_parts (hσ : σ.Counted) (h : m.memory.Has σ)
    (hframes : m.calls.frames = f :: rest) (bare : f.Bare) (parts : σ.Parts f.value τ)
    (hv : v.handle? = none) :
    (replaceFrame v m).Meets True (fun _ m' => m'.memory.Has τ) fun _ => True := by
  refine meets_onCalls ?_
  rw [CallStack.replaceTop, hframes]
  refine meets_bind (Reserve.exchange_parts hσ h parts _ _ (by simpa using hv)) fun r μ hμ => ?_
  rw [bare.dispose_eq]
  exact hμ

end Machine

/-! ### Values that are given -/

/-- The value goes to the operands, unless it is executable. -/
def Value.pushed (v : Value) : List Value := if v.isExecutable then [] else [v]

/-- The value is queued if it is executable. -/
def Value.queued (v : Value) : List Frame := if v.isExecutable then [{ value := v }] else []

/-- A value has been given, and these frames are left below it. -/
def Scene.given (c : Scene) (v : Value) (below : List Frame) : Scene :=
  { c with operands := v.pushed ++ c.operands, frames := v.queued ++ below }

/-- What a frame has still to give, and the condition it fails with after that, if it does. -/
inductive Frame.Provides (σ : Cells) (f : Frame) (ds : List Datum) : Option Condition → Prop
  | text {before text : List Char} {ts : List Token} {k : Option Condition}
      (hvalue : f.value.datum = .string (String.ofList (before ++ text)) true)
      (hcursor : f.cursor = Text.byteLength before) (hsupply : f.supply = none)
      (lexes : Text.Lexes (Text.byteLength before) text ts k)
      (hds : ds = ts.map fun t => t.value.datum) : Provides σ f ds k
  | supply {vs : List Value} (hvalue : f.value.datum = .null)
      (hsupply : f.supply = some { upcoming := vs }) (plain : ∀ v ∈ vs, v.handle? = none)
      (hds : ds = vs.map Value.datum) : Provides σ f ds none
  | block {i : Handle} {q : Sequence} (hvalue : f.value.datum = .array i .block)
      (hsupply : f.supply = none) (cell : σ i = some ⟨1, some (.array q)⟩)
      (plain : ∀ v ∈ q.items, v.handle? = none)
      (hds : ds = (q.toList.drop f.cursor).map Value.datum) : Provides σ f ds none

/-- What is left of the frame below a value it has given. -/
inductive Frame.Leaves (σ : Cells) (f : Frame) (ds : List Datum) (k : Option Condition) :
    List Frame → Prop
  | stays {g : Frame} (hvalue : g.value = f.value) (bare : g.Bare) (h : g.Provides σ ds k) :
    Leaves σ f ds k [g]
  | gone (hf : f.value.handle? ≠ none) (hds : ds = []) (hk : k = none) : Leaves σ f ds k []

namespace Frame.Provides

variable {f : Frame} {ds : List Datum} {k : Option Condition}

theorem toOperator?_eq_none (h : f.Provides σ ds k) : f.value.toOperator? = none := by
  rw [Value.toOperator?]
  cases h with
  | text hvalue | supply hvalue | block hvalue => rw [hvalue]

/-- What a frame gives that executes no container has nothing to do with the cells. -/
theorem of_plain (h : f.Provides σ ds k) (hv : f.value.handle? = none) (τ : Cells) :
    f.Provides τ ds k := by
  cases h with
  | text hvalue hcursor hsupply lexes hds => exact .text hvalue hcursor hsupply lexes hds
  | supply hvalue hsupply plain hds => exact .supply hvalue hsupply plain hds
  | block hvalue => rw [Value.handle?, hvalue] at hv; cases hv

/-- The frame of a block is the only one to refer to it. -/
theorem exists_parts (h : f.Provides σ ds k) : ∃ τ, σ.Parts f.value τ := by
  cases h with
  | text hvalue | supply hvalue => exact ⟨σ, .plain (by rw [Value.handle?, hvalue])⟩
  | block hvalue _ cell plain => exact ⟨_, .last (by rw [Value.handle?, hvalue]) cell plain⟩

end Frame.Provides

namespace Session

variable {χ : Type} {s : Session χ} {f : Frame} {above rest : List Frame} {ds : List Datum} {d : Datum}
  {k : Option Condition}

theorem isInert_eq (hv : v.handle? = none) : v.isInert = !v.isExecutable := by
  have block : v.isBlock = false := by
    unfold Value.isBlock Value.access?
    unfold Value.handle? at hv
    generalize v.datum = d at hv
    cases d <;> first | rfl | cases hv
  rw [Value.isInert, block, Bool.or_false]

theorem yieldItem_eq (hv : v.handle? = none) :
    (yieldItem v : Action (Session χ) Unit) = yieldToken v := by
  unfold yieldItem yieldToken
  rw [isInert_eq hv]
  cases v.isExecutable <;> rfl

/-- A plain value goes where it belongs. -/
theorem yieldToken_grants (growing : s.machine.Growing) (hσ : σ.Counted) (h : s.machine.memory.Has σ)
    (hv : v.handle? = none) : (yieldToken v s).Grants fun _ t =>
      s.machine.Becomes (s.machine.scene.given v s.machine.calls.frames) t.machine ∧
        t.machine.memory.Has σ := by
  unfold yieldToken Scene.given Value.pushed Value.queued
  by_cases hexec : v.isExecutable
  · rw [if_pos hexec, if_pos hexec, if_pos hexec]
    exact grants_onMachine (((Machine.pushFrame_grants growing _).also (Machine.pushFrame_has_plain hσ h hv)).mono
      fun _ _ ⟨becomes, has⟩ => ⟨becomes.1, has⟩)
  · rw [if_neg hexec, if_neg hexec, if_neg hexec]
    exact grants_onMachine (((Machine.pushOperands_grants growing [v]).also
      (Machine.pushOperands_has hσ h hv)).mono fun _ _ ⟨becomes, has⟩ => ⟨becomes.1, has⟩)

/-- A value is given, and its frame goes on. -/
theorem yieldToken_updateFrame_grants (growing : s.machine.Growing) (hσ : σ.Counted)
    (h : s.machine.memory.Has σ) (hframes : s.machine.calls.frames = f :: rest)
    (hv : v.handle? = none) (g : Frame → Frame) :
    ((yieldToken v >>= fun _ => onMachine (Machine.updateFrame rest.length g)) s).Grants fun _ t =>
      s.machine.Becomes (s.machine.scene.given v (g f :: rest)) t.machine ∧ t.machine.memory.Has σ := by
  refine grants_bind (yieldToken_grants growing hσ h hv) fun _ t ⟨given, has⟩ => ?_
  rw [hframes] at given
  refine (updateFrame_grants v.queued given.frames g).mono fun _ u ⟨moved, same⟩ =>
    ⟨⟨moved.scene.trans ?_, moved.growth.trans given.growth⟩, same ▸ has⟩
  rw [given.scene]
  rfl

/-- A bare frame goes, and with it what it was the last to refer to. -/
theorem popFrame_grants_parts (growing : s.machine.Growing) (hσ : σ.Counted)
    (h : s.machine.memory.Has σ) (hframes : s.machine.calls.frames = f :: rest) (bare : f.Bare)
    (parts : σ.Parts f.value τ) : (popFrame s).Grants fun _ t =>
      s.machine.Becomes { s.machine.scene with frames := rest } t.machine ∧ t.machine.memory.Has τ :=
  grants_onMachine (((Machine.popFrame_grants growing hframes).also
    (Machine.popFrame_parts hσ h hframes bare parts)).mono fun _ _ ⟨becomes, has⟩ => ⟨becomes.1, has⟩)

/-- The last value of a block takes the place of its frame. -/
theorem yieldLast_grants (growing : s.machine.Growing) (hσ : σ.Counted)
    (h : s.machine.memory.Has σ) (hframes : s.machine.calls.frames = f :: rest) (bare : f.Bare)
    (parts : σ.Parts f.value τ) (hv : v.handle? = none) :
    ((if v.isInert then do
        pushOperand v
        popFrame
      else onMachine (Machine.replaceFrame v) : Action (Session χ) Unit) s).Grants fun _ t =>
      s.machine.Becomes (s.machine.scene.given v rest) t.machine ∧ t.machine.memory.Has τ := by
  rw [isInert_eq hv]
  unfold Scene.given Value.pushed Value.queued
  by_cases hexec : v.isExecutable
  · rw [if_pos hexec, if_pos hexec, if_neg (by simp [hexec])]
    exact grants_onMachine (((Machine.replaceFrame_grants growing hframes v).also
      (Machine.replaceFrame_parts hσ h hframes bare parts hv)).mono
        fun _ _ ⟨becomes, has⟩ => ⟨becomes.1, has⟩)
  · rw [if_neg hexec, if_neg hexec, if_pos (by simp [hexec])]
    refine grants_onMachine_bind (((Machine.pushOperands_grants growing [v]).also
      (Machine.pushOperands_has hσ h hv)).mono fun _ m ⟨⟨becomes, _⟩, has⟩ => ?_)
    refine (popFrame_grants_parts (s := { s with machine := m }) (becomes.growing growing) hσ has
      (becomes.frames.trans hframes) bare parts).mono fun _ t ⟨gone, has⟩ =>
        ⟨⟨gone.scene.trans ?_, gone.growth.trans becomes.growth⟩, has⟩
    rw [becomes.scene]
    rfl

/-! ### What a cycle gives -/

/-- What a frame with a value to give comes to. -/
def Gives (σ : Cells) (f : Frame) (d : Datum) (ds : List Datum) (k : Option Condition) (s t : Session χ) :
    Prop :=
  ∃ v below τ, v.datum = d ∧ v.handle? = none ∧ f.Leaves τ ds k below ∧
    s.machine.Becomes (s.machine.scene.given v below) t.machine ∧ t.machine.memory.Has τ ∧ σ.Thins τ

section

variable (growing : s.machine.Growing) (hσ : σ.Counted) (h : s.machine.memory.Has σ)
  (hframes : s.machine.calls.frames = [f]) (hp : s.machine.pending = none) (bare : f.Bare)
include growing hσ h hframes hp bare

theorem text_gives {before text gap lexeme rest : List Char} {v : Value} {ts : List Token}
    (hvalue : f.value.datum = .string (String.ofList (before ++ text)) true)
    (hcursor : f.cursor = Text.byteLength before) (hsupply : f.supply = none)
    (opens : Text.Opens text gap (lexeme ++ rest))
    (reads : Text.Reads (lexeme ++ rest) (.ok (some (v, rest))))
    (later : Text.Lexes (Text.byteLength before + Text.byteLength (gap ++ lexeme)) rest ts k) :
    (step Natives.none 0 f s).Grants fun _ =>
      Gives σ f v.datum (ts.map fun t => t.value.datum) k s := by
  obtain ⟨token, next, same, stop⟩ : ∃ token : Token,
      Token.next (String.ofList (before ++ text)) f.cursor = .ok (some token) ∧ token.value = v ∧
        token.stop = Text.byteLength (before ++ (gap ++ lexeme)) := by
    rw [hcursor]
    exact ⟨_, Token.next_of_reads before opens reads, rfl, (Text.byteLength_append ..).symm⟩
  have hv : (tokenValue f.value (String.ofList (before ++ text)) token).handle? = none := by
    rw [tokenValue, same]
    exact reads.handle?_eq_none
  have stepped : step Natives.none 0 f s = stepSource 0 f (String.ofList (before ++ text)) s := by
    rw [step_of_not_pending (by simp [hp]), advance, hsupply]
    dsimp only
    rw [hvalue]
  rw [stepped, stepSource_of_token _ next]
  refine (yieldToken_updateFrame_grants growing hσ h hframes hv _).mono ?_
  rintro _ t ⟨given, has⟩
  refine ⟨tokenValue f.value _ token, [{ f with cursor := token.stop }], σ,
    show token.value.datum = v.datum from congrArg Value.datum same, hv,
    .stays rfl ⟨bare.locals, bare.stash⟩ ?_, given, has, .refl σ⟩
  have passed : before ++ text = before ++ (gap ++ lexeme) ++ rest := by
    rw [opens.split, List.append_assoc, List.append_assoc]
  have later : Text.Lexes (Text.byteLength (before ++ (gap ++ lexeme))) rest ts k := by
    rwa [Text.byteLength_append]
  exact .text (passed ▸ hvalue) stop hsupply later rfl

theorem supply_gives {v : Value} {vs : List Value} (hvalue : f.value.datum = .null)
    (hsupply : f.supply = some { upcoming := v :: vs }) (hv : v.handle? = none)
    (hvs : ∀ v ∈ vs, v.handle? = none) :
    (step Natives.none 0 f s).Grants fun _ => Gives σ f v.datum (vs.map Value.datum) none s := by
  rw [step_of_not_pending (by simp [hp]), advance, hsupply]
  refine grants_bind (updateFrame_grants [] hframes _) ?_
  rintro _ t ⟨moved, same⟩
  rw [yieldItem_eq hv]
  refine (yieldToken_grants (moved.growing growing) hσ (same ▸ h) hv).mono ?_
  rintro _ u ⟨given, has⟩
  refine ⟨v, [{ f with supply := some { upcoming := vs }, cursor := f.cursor + 1 }],
    σ, rfl, hv, .stays rfl ⟨bare.locals, bare.stash⟩ ?_,
    ⟨given.scene.trans ?_, given.growth.trans moved.growth⟩, has, .refl σ⟩
  · exact .supply hvalue rfl hvs rfl
  · rw [moved.scene, moved.frames]
    rfl

theorem block_gives {i : Handle} {q : Sequence} {v : Value} {vs : List Value}
    (hvalue : f.value.datum = .array i .block) (hsupply : f.supply = none)
    (cell : σ i = some ⟨1, some (.array q)⟩) (plain : ∀ v ∈ q.items, v.handle? = none)
    (hvs : q.toList.drop f.cursor = v :: vs) :
    (step Natives.none 0 f s).Grants fun _ => Gives σ f v.datum (vs.map Value.datum) none s := by
  have stored : s.machine.memory.heap.object? i = some (.array q) :=
    Heap.object?_of_cell? (h.cells ▸ cell)
  have item : q.get? f.cursor = some v := by
    rw [Sequence.get?_eq_getElem?, ← List.head?_drop, hvs]
    rfl
  have hv : v.handle? = none := plain v (List.mem_reverse.1
    (List.mem_of_mem_drop (show v ∈ q.toList.drop f.cursor by rw [hvs]; exact List.mem_cons_self)))
  rw [step_of_not_pending (by simp [hp]), advance, hsupply]
  dsimp only
  rw [hvalue]
  dsimp only
  rw [stepBlock, theMachine_bind, Memory.array_of_object? stored, read_bind, item]
  dsimp only
  have rest : q.toList.drop (f.cursor + 1) = vs := by
    rw [← List.tail_drop, hvs]
    rfl
  have length : q.length = f.cursor + 1 + vs.length := by
    have left := congrArg List.length hvs
    rw [List.length_drop, Sequence.toList, List.length_reverse, List.length_cons] at left
    rw [Sequence.length]
    omega
  by_cases last : f.cursor + 1 = q.length
  · rw [if_pos last]
    have parts : σ.Parts f.value (Function.update σ i none) :=
      .last (by rw [Value.handle?, hvalue]) cell plain
    obtain rfl : vs = [] := List.length_eq_zero_iff.1 (by omega)
    have held : f.value.handle? ≠ none := by
      rw [Value.handle?, hvalue]
      exact Option.some_ne_none i
    refine (yieldLast_grants growing hσ h hframes bare parts hv).mono ?_
    rintro _ t ⟨given, has⟩
    exact ⟨v, [], _, rfl, hv, .gone held rfl rfl, given, has, parts.thins⟩
  · rw [if_neg last, yieldItem_eq hv]
    refine (yieldToken_updateFrame_grants growing hσ h hframes hv _).mono ?_
    rintro _ t ⟨given, has⟩
    refine ⟨v, [{ f with cursor := f.cursor + 1 }], σ, rfl, hv,
      .stays rfl ⟨bare.locals, bare.stash⟩ ?_, given, has, .refl σ⟩
    exact .block hvalue hsupply cell plain (by rw [← rest])

/-- **The next value is given.** -/
theorem provides_gives (hf : f.Provides σ (d :: ds) k) :
    (step Natives.none 0 f s).Grants fun _ => Gives σ f d ds k s := by
  cases hf with
  | @text before text ts k hvalue hcursor hsupply lexes hds =>
    cases lexes with
    | finished | failed => cases hds
    | token opens reads later =>
      obtain ⟨rfl, rfl⟩ := List.cons.inj hds
      exact text_gives growing hσ h hframes hp bare hvalue hcursor hsupply opens reads later
  | @supply vs hvalue hsupply plain hds =>
    cases vs with
    | nil => cases hds
    | cons v vs =>
      obtain ⟨rfl, rfl⟩ := List.cons.inj hds
      obtain ⟨hv, hvs⟩ := List.forall_mem_cons.1 plain
      exact supply_gives growing hσ h hframes hp bare hvalue hsupply hv hvs
  | @block i q hvalue hsupply cell plain hds =>
    cases hvs : q.toList.drop f.cursor with
    | nil => rw [hvs] at hds; cases hds
    | cons v vs =>
      rw [hvs] at hds
      obtain ⟨rfl, rfl⟩ := List.cons.inj hds
      exact block_gives growing hσ h hframes hp bare hvalue hsupply cell plain hvs

/-- A frame with nothing left to give goes. -/
theorem provides_ends (hf : f.Provides σ [] none) : (step Natives.none 0 f s).Grants fun _ t =>
    ∃ τ, s.machine.Becomes { s.machine.scene with frames := [] } t.machine ∧ t.machine.memory.Has τ ∧
      σ.Thins τ := by
  have stepped : step Natives.none 0 f s = popFrame s := by
    rw [step_of_not_pending (by simp [hp]), advance]
    cases hf with
    | @text before text ts k hvalue hcursor hsupply lexes hds =>
      cases lexes with
      | token => cases hds
      | finished opens =>
        have next := Token.next_of_opens before opens
        rw [hsupply]
        dsimp only
        rw [hvalue]
        dsimp only
        rw [stepSource, hcursor, next]
        rfl
    | @supply vs hvalue hsupply plain hds =>
      obtain rfl : vs = [] := List.map_eq_nil_iff.1 hds.symm
      rw [hsupply]
      rfl
    | @block i q hvalue hsupply cell plain hds =>
      have stored : s.machine.memory.heap.object? i = some (.array q) :=
        Heap.object?_of_cell? (h.cells ▸ cell)
      have none : q.get? f.cursor = none := by
        rw [Sequence.get?_eq_getElem?, ← List.head?_drop, List.map_eq_nil_iff.1 hds.symm]
        rfl
      rw [hsupply]
      dsimp only
      rw [hvalue]
      dsimp only
      rw [stepBlock, theMachine_bind, Memory.array_of_object? stored, read_bind, none]
  obtain ⟨τ, parts⟩ := hf.exists_parts
  rw [stepped]
  refine (popFrame_grants_parts growing hσ h hframes bare parts).mono ?_
  rintro _ t ⟨gone, has⟩
  exact ⟨τ, gone, has, parts.thins⟩

omit growing hσ h hframes bare in
/-- A text that cannot be read on raises an exception. -/
theorem provides_fails {c : Condition} (hf : f.Provides σ [] (some c)) :
    ∃ e, e.condition = c ∧ step Natives.none 0 f s = .raised e s := by
  cases hf with
  | @text before text ts k hvalue hcursor hsupply lexes hds =>
    cases lexes with
    | token => cases hds
    | failed opens reads =>
      obtain ⟨cause, next, same⟩ := Token.exists_next_eq_error before opens reads
      refine ⟨cause.exception, same, ?_⟩
      rw [step_of_not_pending (by simp [hp]), advance, hsupply]
      dsimp only
      rw [hvalue]
      dsimp only
      rw [stepSource, hcursor, next]
      rfl

end

/-- An exception is pending, and the frame goes. -/
theorem provides_unwinds (growing : s.machine.Growing) (hσ : σ.Counted) (h : s.machine.memory.Has σ)
    (hframes : s.machine.calls.frames = [f]) (hp : s.machine.pending.isSome) (bare : f.Bare)
    (hf : f.Provides σ ds k) : (step Natives.none 0 f s).Grants fun _ t =>
      ∃ τ, s.machine.Becomes { s.machine.scene with frames := [] } t.machine ∧
        t.machine.memory.Has τ ∧ σ.Thins τ := by
  have uninvoked : s.machine.invoked? f = none := by
    rw [Machine.invoked?, if_pos hp, hf.toOperator?_eq_none, ite_self]
  obtain ⟨τ, parts⟩ := hf.exists_parts
  rw [step_of_unwound hp uninvoked]
  refine (popFrame_grants_parts growing hσ h hframes bare parts).mono ?_
  rintro _ t ⟨gone, has⟩
  exact ⟨τ, gone, has, parts.thins⟩

end Session

end StackScript
