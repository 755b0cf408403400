import StackScript.Proofs.Comparison.Queueing
import StackScript.Proofs.Machine.Evaluating

/-!
# The text of data is source for it

The text a value is shown as can be executed.  If the value is data, be it nested in containers no deeper
than is shown, a fresh session to which nothing else has been done makes it anew: it completes with one
operand that is equal to the value but for the handles, for arrays that were to be written to, which are
literal now, and for dictionaries, which are new (`the_text_of_data_is_source`).
-/

namespace StackScript

open StackScript.Action Memory
open Relation (ReflTransGen)

/-! ### Machines to which nothing has been done -/

namespace Machine

variable {options : Options} {m : Machine}

/-- The machine has just been created, and its host has bound nothing. -/
def Untouched (options : Options) (m : Machine) : Prop :=
  ∃ μ, Machine.create options (pure () : Setup Unit) = .done (m, ()) μ

/-- Only what it works with depends on the other options. -/
theorem assemble_options {α : Type} (options options' : Options) (setup : Setup α) :
    assemble options setup = assemble options' setup >>= fun made =>
      pure ({ made.1 with options := options }, made.2) := by
  simp only [assemble, bind_assoc, pure_bind]

/-- Nothing is on the stacks but scopes, and every builtin is found by its name. -/
structure Blank (m : Machine) : Prop where
  operands : m.operands.items = []
  frames : m.calls.frames = []
  pending : m.pending = none
  depth : m.blockDepth = 0
  standard : m.Standard

/-- What makes a machine blank, to be computed. -/
def isBlank (m : Machine) : Bool :=
  m.operands.items.isEmpty && m.calls.frames.isEmpty && m.pending.isNone && m.blockDepth == 0 &&
    Builtin.all.all fun b =>
      (m.resolution? b.name).map (fun found => found.2.datum) == some (.operator (.builtin b))

theorem blank_of_isBlank (h : m.isBlank = true) : m.Blank := by
  simp only [isBlank, Bool.and_eq_true, List.isEmpty_iff, Option.isNone_iff_eq_none, beq_iff_eq] at h
  obtain ⟨⟨⟨⟨operands, frames⟩, pending⟩, depth⟩, found⟩ := h
  refine ⟨operands, frames, pending, depth, fun b => ?_⟩
  have named := List.all_eq_true.1 found b (Builtin.mem_all b)
  obtain ⟨⟨scope, v⟩, hfound, hv⟩ := Option.map_eq_some_iff.1 (beq_iff_eq.1 named)
  exact ⟨scope, v, hfound, hv⟩

theorem isBlank_of_assemble (debug : Bool) :
    (match assemble { debugMemory := debug } (pure () : Setup Unit) (Memory.empty none debug) with
      | .done made _ => made.1.isBlank
      | _ => false) = true := by
  cases debug <;> decide +kernel

theorem Untouched.blank (h : m.Untouched options) (unbounded : options.maxMemory = none) :
    m.Blank := by
  obtain ⟨μ, h⟩ := h
  have blank := isBlank_of_assemble options.debugMemory
  unfold create at h
  rw [unbounded, assemble_options options { debugMemory := options.debugMemory }] at h
  cases made : assemble { debugMemory := options.debugMemory } (pure () : Setup Unit)
      (Memory.empty none options.debugMemory) with
  | done r ν =>
    rw [Action.bind_done made] at h
    rw [made] at blank
    obtain ⟨same, -⟩ := Outcome.done.inj h
    obtain ⟨rfl, -⟩ := Prod.mk.inj same
    exact blank_of_isBlank blank
  | raised e ν | broken b =>
    rw [Action.bind_apply, made] at h
    cases h

theorem Untouched.created (h : m.Untouched options) (unbounded : options.maxMemory = none) :
    m.Created options := by
  obtain ⟨μ, h⟩ := h
  refine ⟨fun t ht => ?_, Unit, pure (), (), μ, .done [] (), h⟩
  rw [unbounded] at ht
  cases ht

/-- Builtins are still found where the cells are as they were. -/
theorem Standard.of_cells {Γ : Charter} {n : ℕ} {x : Stake} {m' : Machine} (h : m.Standard)
    (sound : m.Sound Γ n x) (scopes : m'.scopes.items = m.scopes.items)
    (cells : m'.memory.heap.cell? = m.memory.heap.cell?) : m'.Standard := by
  have retains : Heap.Retains (m.Roots x) m.memory.heap m'.memory.heap := fun i reached =>
    ⟨reached.live sound.closed fun _ => sound.live, congrArg (·.map Cell.object) (congrFun cells i)⟩
  intro b
  rw [resolution?_of_retains scopes retains fun v hv i hi => .inl (.inr (.inr ⟨v, hv, hi⟩))]
  exact h b

end Machine

/-! ### Texts from their start to their end -/

namespace Session

variable {χ : Type} {Γ : Charter} {x : Stake} {s t : Session χ} {f : Frame} {rest : List Frame}
  {text origin : String} {ds : List Datum} {k : Option Condition}

/-- A text is queued to be read from its start. -/
theorem frames_of_source (queue : onMachine (Machine.execute (.source text origin)) s = .done () t) :
    t.machine.calls.frames =
      { value := (Value.code text).withSource (some (.whole origin text)) } :: s.machine.calls.frames := by
  have pushed : (Machine.execute (.source text origin) s.machine).Meets True
      (fun _ m => m.calls.frames = { value := (Value.code text).withSource (some (.whole origin text)) } ::
        s.machine.calls.frames) fun m => m.calls = s.machine.calls :=
    Machine.pushFrame_frames _ s.machine
  unfold onMachine Action.zoom at queue
  cases executed : Machine.execute (.source text origin) s.machine with
  | done a m =>
    rw [executed] at queue pushed
    obtain ⟨-, rfl⟩ := Outcome.done.inj queue
    exact pushed
  | raised e m | broken b => rw [executed] at queue; cases queue

/-- A text queued in a machine to which nothing has been done is scanned from its start. -/
theorem Queues.scans (h : Queues (.source text origin) ds k f s t)
    (queue : onMachine (Machine.execute (.source text origin)) s = .done () t)
    (sound : s.machine.Sound Γ 0 x) (blank : s.machine.Blank) :
    ∃ Γ x, t.Scans Γ x text f [] ∧ f.cursor = 0 ∧ f.locals = none := by
  have frames := frames_of_source queue
  rw [blank.frames, h.frames, List.cons.injEq] at frames
  obtain ⟨rfl, -⟩ := frames
  obtain ⟨Γ', x', -, ample⟩ := h.unhindered
  exact ⟨Γ', x', {
    ample := ample
    frames := h.frames
    pending := (congrArg Scene.pending h.scene).trans blank.pending
    scans := ⟨rfl, rfl⟩
    depth := (congrArg Scene.blockDepth h.scene).trans blank.depth
    standard := blank.standard.of_cells sound (congrArg Scene.scopes h.scene) (h.same rfl) }, rfl, rfl⟩

/-- A text without a token left goes. -/
theorem Scans.finishes (hs : s.Scans Γ x text f rest) (locals : f.locals = none)
    (ended : Token.next text f.cursor = .ok none) :
    ∃ t, Arrives Γ x [] s t ∧ t.machine.scene = { s.machine.scene with frames := rest } := by
  have plain : f.value.handle? = none := by rw [Value.handle?, hs.scans.datum]
  refine hs.ample.turns hs.frames (List.cons_ne_nil _ _) hs.scans.supply ?_ fun i hi =>
    hi.mono (List.Subset.refl _) (fun g hg => ?_) rfl
  · rw [step_of_text hs.pending hs.scans, stepSource, ended]
    exact grants_onMachine (Machine.popFrame_grants hs.ample.growing hs.frames)
  · change g ∈ s.machine.calls.frames at hg
    rw [hs.frames] at hg
    rcases List.mem_cons.1 hg with rfl | hg
    · exact .inl ⟨plain, locals⟩
    · exact .inr ⟨g, hg, rfl, rfl⟩

end Session

open Session in
/-- **The text of data is source for it.**  Let a value be data, no more levels of containers being nested
than are shown: null, a truth value, an integer, a string, a literal name that is read back, or an array or
a dictionary of data, or a block of integers, strings, names and such blocks.  It has a text then, and this
can be executed in a machine that has just been created without a limit, its host having bound nothing: if
no allocation is refused, the run completes, no exception is pending, and there is one operand.  That is
the value made anew, and its text is the same one. -/
theorem the_text_of_data_is_source {χ : Type} {options : Options} {s : Session χ} {m : Memory}
    {v : Value} {o : Outline} (untouched : s.machine.Untouched options)
    (unbounded : options.maxMemory = none) (outlines : m.heap.Outlines [v] o) (data : o.IsData)
    (shown : o.depth ≤ maxDepth) : ∃ text, m.format v = .ok text ∧
      ∀ origin, s.Affords (.source text origin) → ∃ t w, s.Executes (.source text origin) t ∧
        t.machine.pending = none ∧ t.machine.operands.items = [w] ∧
        t.machine.memory.heap.Outlines [w] o.anew ∧ t.machine.memory.format w = .ok text := by
  obtain ⟨text, formatted, single⟩ := outlines.format shown
  refine ⟨text, formatted, fun origin affords => ?_⟩
  -- the text consists of the words for the value
  obtain ⟨ts, lexes, words⟩ := data.exists_lexes single
  obtain ⟨stop, follow, ended⟩ := Token.follow_of_lexes [] lexes
  rw [List.nil_append, String.ofList_toList] at follow ended
  change Token.Follow text 0 ts stop at follow
  -- it is queued, and scanned from its start
  have created := untouched.created unbounded
  have blank := untouched.blank unbounded
  have reached : Reached s.machine [] s := .start s.host
  obtain ⟨Γ, -, kept⟩ := reached.sound created
  obtain ⟨f, t, queue, queued⟩ := (unhindered_of_idle kept.sound (reached.growing created)
    blank.frames).queues blank.frames (.source lexes origin) affords
  obtain ⟨Γ', x, scans, cursor, locals⟩ := queued.scans queue kept.sound blank
  -- its words deliver the value, and then it goes
  obtain ⟨u, ws, delivers, anew, -⟩ := scans.evaluates outlines data (by rwa [cursor]) words
  obtain ⟨w, rfl⟩ : ∃ w, ws = [w] := by
    have same : (ws.map Value.plain?).length = ([v].map Value.plain?).length := by
      rw [anew.plain?_eq, Outline.data_anew, outlines.plain?_eq]
    rwa [List.length_map, List.length_map, List.length_singleton, List.length_eq_one_iff] at same
  obtain ⟨u', arrives, scene⟩ := (scans.of_arrives delivers.arrives delivers.scene).finishes locals ended
  have operands : u'.machine.operands.items = [w] := by
    refine (congrArg Scene.operands scene).trans (delivers.operands.trans ?_)
    rw [show t.machine.operands.items = s.machine.operands.items from congrArg Scene.operands queued.scene,
      blank.operands]
    rfl
  have pushed : ∀ v ∈ [w], v ∈ u.machine.operands.items := by
    rw [delivers.operands]
    exact fun v hv => List.mem_append_left _ hv
  have outlines' : u'.machine.memory.heap.Outlines [w] o.anew :=
    anew.of_retains arrives.retains fun v hv i hi => .inl (.inl ⟨v, pushed v hv, hi⟩)
  obtain ⟨text', formatted', single'⟩ := outlines'.format (by rwa [Outline.depth_anew])
  rw [Outline.texts_anew, single, List.singleton_inj] at single'
  subst single'
  have completes : t.Completes u' := (delivers.arrives.trans arrives).cycles.completes queued.unhindered
    (congrArg Scene.frames scene)
  refine ⟨u', w, ⟨t, queue, completes⟩, ?_, operands, outlines', formatted'⟩
  calc u'.machine.pending
    _ = u.machine.pending := congrArg Scene.pending scene
    _ = t.machine.pending := congrArg Scene.pending delivers.scene
    _ = none := scans.pending

/-- An array to be written to becomes a literal one.  In it is a dictionary whose names are not in order. -/
theorem a_nested_array_is_made_anew : ∃ (m : Memory) (s t : Session Unit) (w : Value) (i : Handle),
    s.machine.Untouched {} ∧
      m.format (.array 0 .mutable) = .ok "[ null << /a \"s t\" /b \x7b 1 x \x7d >> ]" ∧
      s.Executes (.source "[ null << /a \"s t\" /b \x7b 1 x \x7d >> ]" "-") t ∧
      t.machine.operands.items = [w] ∧ w.datum = .array i .literal ∧
      t.machine.memory.format w = .ok "[ null << /a \"s t\" /b \x7b 1 x \x7d >> ]" := by
  let reserve : Reserve :=
    { slot := Sequence.valueSlot, account := .user, initial := 2, increment := 0, capacity := 2 }
  let d : Dictionary := { account := .user, entries := [("b", .array 2 .block), ("a", .string "s t")] }
  let m : Memory := {
    ledger := { total := none }
    heap := { cells := #[
      some ⟨1, some (.array ⟨reserve, [.dictionary 1 true, .null]⟩)⟩, some ⟨1, some (.dictionary d)⟩,
      some ⟨1, some (.array ⟨reserve, [.name "x", .integer (.ofInt 1)]⟩)⟩] } }
  let code : Outline := .plain (.integer (.ofInt 1)) (.plain (.name "x" true) .nil)
  let entries : Outline := .plain (.name "a" false) (.plain (.string "s t" false)
    (.plain (.name "b" false) (.array .block code .nil)))
  have listed : d.listing = [.literalName "a", .string "s t", .literalName "b", .array 2 .block] := by
    have names : d.names = ["a", "b"] := by
      simp [d, Dictionary.names, TextMap.sortedKeys, List.mergeSort,
        List.MergeSort.Internal.splitInTwo]
    rw [Dictionary.listing, names]
    rfl
  have inside : m.heap.Outlines d.listing entries := by
    rw [listed]
    exact .plain rfl (.plain rfl (.plain rfl (.array rfl rfl (.plain rfl (.plain rfl .nil)) .nil)))
  have outlines : m.heap.Outlines [.array 0 .mutable]
      (.array .mutable (.plain .null (.dictionary true entries .nil)) .nil) :=
    .array rfl rfl (.plain rfl (.dictionary rfl rfl (by decide) inside .nil)) .nil
  have data : (Outline.array .mutable (.plain .null (.dictionary true entries .nil)) .nil).IsData :=
    ⟨⟨trivial, ⟨⟨_, _, rfl⟩, trivial, ⟨_, _, rfl⟩, ⟨trivial, ⟨fun _ => rfl, _, _, rfl⟩, trivial⟩,
      trivial⟩, trivial⟩, trivial⟩
  have affords : (match Machine.create {} (pure () : Setup Unit) with
      | .done made _ => Session.bears (.source "[ null << /a \"s t\" /b \x7b 1 x \x7d >> ]" "-") 60
        ({ machine := made.1, host := () } : Session Unit)
      | _ => false) = true := by
    decide +kernel
  cases created : Machine.create {} (pure () : Setup Unit) with
  | raised e μ | broken b => rw [created] at affords; cases affords
  | done made μ =>
    rw [created] at affords
    obtain ⟨text, formatted, source⟩ := the_text_of_data_is_source
      (s := ({ machine := made.1, host := () } : Session Unit)) ⟨μ, created⟩ rfl outlines data (by decide)
    obtain ⟨text', formatted', single⟩ := outlines.format (by decide)
    obtain rfl : text = text' := Except.ok.inj (formatted.symm.trans formatted')
    obtain rfl : "[ null << /a \"s t\" /b \x7b 1 x \x7d >> ]" = text := List.singleton_inj.1 single
    obtain ⟨t, w, executes, -, operands, anew, same⟩ := source "-" (Session.affords_of_bears affords)
    cases anew with
    | array literal => exact ⟨m, _, t, w, _, ⟨μ, created⟩, formatted, executes, operands, literal, same⟩

end StackScript
