import StackScript.Proofs.Comparison.Sessions
import StackScript.Proofs.Machine.Refusals

/-!
# Comparing machines that keep other books

Two runs are compared that differ in the books the memory keeps only: in the ledger and in the trails
of allocations.  All else is the same, texts of exceptions and sources of values included.  What the
books have in common is the matter of a `Bookkeeping`; everything that is done to a memory, and to a
machine while it is created, follows.
-/

namespace StackScript

open Likeness

/-- What the books of two memories have in common, where all else is the same. -/
structure Bookkeeping extends Likeness where
  literal : exact
  same {i j : Handle} : handles i j ↔ i = j
  ledgers : Ledger → Ledger → Prop
  trails : Option Trails → Option Trails → Prop
  debugged {o p : Option Trails} : traced → trails o p → o.isSome = p.isSome
  forget (i : Handle) {o p : Option Trails} (h : trails o p) :
    trails (o.map (·.forget i)) (p.map (·.forget i))
  record {t u : Trail} {o p : Option Trails} (h : trails o p) (ht : traced → t = u) :
    trails (o.map (·.record t)) (p.map (·.record u))
  allocate (size : Size) (a : Account) :
    toLikeness.Parallel ledgers Eq (Ledger.allocate size a) (Ledger.allocate size a)
  release (size : Size) (a : Account) :
    toLikeness.Parallel ledgers Eq (Ledger.release size a) (Ledger.release size a)
  addReference (text : String) :
    toLikeness.Parallel ledgers Eq (Ledger.addReference text) (Ledger.addReference text)
  dropReference (text : String) :
    toLikeness.Parallel ledgers Eq (Ledger.dropReference text) (Ledger.dropReference text)
  acquire (slot : Size) (a : Account) (initial increment : ℕ) {μ ν : Memory}
    (h : ledgers μ.ledger ν.ledger) :
    toLikeness.Agree Eq
      (fun u v => ledgers u.ledger v.ledger ∧ u = { μ with ledger := u.ledger } ∧
        v = { ν with ledger := v.ledger })
      (Reserve.acquire slot a initial increment μ) (Reserve.acquire slot a initial increment ν)

namespace Bookkeeping

variable {B : Bookkeeping} {α β : Type} {v w : Value} {μ ν : Memory}

/-- Memories that differ in their books only. -/
structure Memories (B : Bookkeeping) (μ ν : Memory) : Prop where
  ledger : B.ledgers μ.ledger ν.ledger
  heap : μ.heap = ν.heap
  trails : B.trails μ.trails ν.trails

/-! ### What is the same -/

theorem eq_of_data {d e : Datum} (h : B.Data d e) : d = e := by
  cases h with
  | array h access => rw [B.same.1 h]
  | dictionary h writable => rw [B.same.1 h]
  | _ => rfl

theorem eq_of_values (h : B.Values v w) : v = w := by
  obtain ⟨d, s⟩ := v
  obtain ⟨d', s'⟩ := w
  obtain rfl : d = d' := eq_of_data h.datum
  obtain rfl : s = s' := h.source B.literal
  rfl

theorem values_refl (v : Value) : B.Values v v := by
  obtain ⟨d, s⟩ := v
  refine ⟨?_, fun _ => rfl⟩
  cases d with
  | array i access => exact .array (B.same.2 rfl) access
  | dictionary i writable => exact .dictionary (B.same.2 rfl) writable
  | _ => constructor

theorem values_eq : B.Values = Eq := by
  funext v w
  refine propext ⟨eq_of_values, ?_⟩
  rintro rfl
  exact values_refl v

theorem all_values_refl {vs : List Value} : List.Forall₂ B.Values vs vs :=
  List.forall₂_same.2 fun v _ => values_refl v

theorem sequences_iff {s t : Sequence} : B.Sequences s t ↔ s = t := by
  constructor
  · rintro ⟨hr, hi⟩
    cases s
    cases t
    simp only at hr hi
    rw [values_eq, List.forall₂_eq_eq_eq] at hi
    rw [hr, hi]
  · rintro rfl
    exact ⟨rfl, all_values_refl⟩

theorem eq_of_objects {o p : Object} (h : B.Objects o p) : o = p := by
  cases h with
  | array h => rw [sequences_iff.1 h]
  | @dictionary d e h =>
    obtain ⟨ha, he⟩ := h
    cases d
    cases e
    simp only at ha he
    rw [ha, Setting.eq_of_forall (fun a b hab => Prod.ext hab.1 (eq_of_values hab.2)) he]

theorem objects_refl (o : Object) : B.Objects o o := by
  cases o with
  | array s => exact .array (sequences_iff.2 rfl)
  | dictionary d => exact .dictionary ⟨rfl, List.forall₂_same.2 fun a _ => ⟨rfl, values_refl a.2⟩⟩

/-! ### The memory -/

/-- The same action ends alike in memories that differ in their books. -/
abbrev Works (B : Bookkeeping) (x : Action Memory α) : Prop :=
  B.toLikeness.Parallel B.Memories Eq x x

theorem works_onLedger {x : Action Ledger α} (h : B.toLikeness.Parallel B.ledgers Eq x x) :
    B.Works (Memory.onLedger x) :=
  h.zoom (fun _ _ => rfl) (fun _ _ h => h.ledger) fun _ _ _ _ h hl => ⟨hl, h.heap, h.trails⟩

/-- The heap knows of no books. -/
theorem works_onHeap (x : Action Heap α) : B.Works (Memory.onHeap x) := by
  intro μ ν h
  unfold Memory.onHeap Action.zoom
  rw [← h.heap]
  cases x μ.heap with
  | done a u => exact .done rfl ⟨h.ledger, rfl, h.trails⟩
  | raised e u => exact .raised (.refl _ e) ⟨h.ledger, rfl, h.trails⟩
  | broken b => exact agree_broken b b

theorem works_giveBack (object : Object) : B.Works (Memory.onLedger (Memory.giveBack object)) := by
  refine works_onLedger ?_
  cases object with
  | array s => exact B.release _ _
  | dictionary d =>
    have entries (entries : TextMap Value) : B.toLikeness.Parallel B.ledgers Eq
        (entries.forM fun entry => Ledger.release (Dictionary.entrySize entry.1) d.account)
        (entries.forM fun entry => Ledger.release (Dictionary.entrySize entry.1) d.account) := by
      induction entries with
      | nil => exact parallel_pure rfl
      | cons entry rest ih => exact (B.release _ _).bind fun _ _ _ => ih
    exact (entries d.entries).bind fun _ _ _ => B.release _ _

theorem works_retain (v : Value) : B.Works (Memory.retain v) := by
  unfold Memory.retain
  split
  · exact works_onLedger (B.addReference _)
  · exact works_onHeap _
  · exact works_onHeap _
  · exact parallel_pure rfl

theorem works_discard (i : Handle) (o : Option Object) : B.Works (Memory.discard i o) := by
  cases o with
  | none => exact parallel_pure rfl
  | some object =>
    have forgotten : B.Works (Memory.forgetTrail i) := fun _ _ h =>
      .done rfl ⟨h.ledger, h.heap, B.forget i h.trails⟩
    exact forgotten.bind fun _ _ _ => (works_giveBack object).bind fun _ _ _ => parallel_pure rfl

theorem works_giveUp (v : Value) : B.Works (Memory.giveUp v) := by
  have freed (i : Handle) : B.Works (do Memory.discard i (← Memory.onHeap (Heap.release i))) := by
    refine (works_onHeap _).bind ?_
    rintro o _ rfl
    exact works_discard i o
  unfold Memory.giveUp
  split
  · exact (works_onLedger (B.dropReference _)).bind fun _ _ _ => parallel_pure rfl
  · exact freed _
  · exact freed _
  · exact parallel_pure rfl

theorem works_giveUpAll (fuel : ℕ) (values : List Value) :
    B.Works (Memory.giveUpAll fuel values : Action Memory Unit) := by
  have rising (fuel : ℕ) (values : List Value) := Memory.rising_giveUpAll fuel values
  induction fuel generalizing values with
  | zero => exact fun _ _ h => .done rfl h
  | succ fuel ih =>
    cases values with
    | nil => exact fun _ _ h => .done rfl h
    | cons v rest =>
      rw [Memory.giveUpAll_succ]
      refine (works_giveUp v).bind ?_
      rintro freed _ rfl
      exact ih _

theorem works_giveUpFreed (freed : List Value) : B.Works (Memory.giveUpFreed freed) := by
  intro μ ν h
  cases freed with
  | nil => exact .done rfl h
  | cons w rest =>
    unfold Memory.giveUpFreed
    dsimp only
    rw [h.heap]
    exact works_giveUpAll _ _ h

theorem works_release (v : Value) : B.Works (Memory.release v) := by
  rw [Memory.release_eq]
  refine (works_giveUp v).bind ?_
  rintro freed _ rfl
  exact works_giveUpFreed freed

theorem works_acquire (slot : Size) (account : Account) (initial increment : ℕ) :
    B.Works (Reserve.acquire slot account initial increment) := by
  intro μ ν h
  refine (B.acquire slot account initial increment h.ledger).mono (fun _ _ => id) ?_
  rintro u v ⟨ledger, hu, hv⟩
  refine ⟨ledger, ?_, ?_⟩
  · rw [hu, hv]
    exact h.heap
  · rw [hu, hv]
    exact h.trails

/-- The trail of a container may be another one, if trails are not compared. -/
theorem store_agree (object : Object) (account : Account) {trail trail' : List String}
    (ht : B.traced → trail = trail') :
    B.toLikeness.Parallel B.Memories Eq (Memory.store object account trail)
      (Memory.store object account trail') := by
  refine (works_onHeap _).bind ?_
  rintro i _ rfl
  have recorded : B.toLikeness.Parallel B.Memories (fun _ _ => True)
      (Memory.recordTrail ⟨i, account, trail⟩) (Memory.recordTrail ⟨i, account, trail'⟩) :=
    fun _ _ h => .done trivial ⟨h.ledger, h.heap, B.record h.trails fun h => by rw [ht h]⟩
  exact recorded.bind fun _ _ _ => parallel_pure rfl

theorem formatTo_eq (h : B.Memories μ ν) (levels : ℕ) (v : Value) :
    μ.formatTo levels v = ν.formatTo levels v := by
  induction levels generalizing v with
  | zero => rfl
  | succ levels ih =>
    have rest : μ.formatTo levels = ν.formatTo levels := funext ih
    unfold Memory.formatTo Memory.array Memory.dictionary
    rw [h.heap, rest]

/-! ### Containers and machines -/

/-- What is done to containers is compared. -/
def comparison (B : Bookkeeping) : Comparison where
  toLikeness := B.toLikeness
  memories := B.Memories
  retain h := eq_of_values h ▸ (works_retain _).mono fun _ _ _ => trivial
  release h := eq_of_values h ▸ (works_release _).mono fun _ _ _ => trivial
  acquire := works_acquire
  charge size account := (works_onLedger (B.allocate size account)).mono fun _ _ _ => trivial
  refund size account := (works_onLedger (B.release size account)).mono fun _ _ _ => trivial
  discharge h := by
    unfold PendingException.discharge
    rw [h.charge B.literal]
    exact (works_onLedger (B.release _ _)).mono fun _ _ _ => trivial
  store account _ _ h ht := by
    rw [eq_of_objects h]
    exact (store_agree _ account ht).mono fun _ _ => B.same.2
  checkOut h := by
    rw [B.same.1 h]
    exact (works_onHeap _).mono fun _ _ h => h ▸ objects_refl _
  checkIn h ho := by
    rw [B.same.1 h, eq_of_objects ho]
    exact (works_onHeap _).mono fun _ _ _ => trivial
  object {i j μ ν} h hm := by
    rw [B.same.1 h, hm.heap]
    cases ν.heap.get j with
    | ok o => exact .ok (objects_refl o)
    | error b => exact .error trivial

/-- All frames are compared. -/
def setting (B : Bookkeeping) : Setting where
  toComparison := B.comparison
  below := []
  below' := []
  idle := List.forall_mem_nil _
  idle' := List.forall_mem_nil _
  reserves := Eq
  exchange {r} _ _ _ _ _ n h hremoved hadded := by
    cases h
    exact Comparison.exchangeReserve (C := B.comparison) r _ hremoved hadded
  exactly _ := ⟨rfl, fun _ _ => B.same.1, fun _ _ h => formatTo_eq h _⟩
  debugged ht _ _ h := B.debugged ht h.trails

/-- Nothing but the books of the memories differs. -/
theorem eq_of_machines {m n : Machine} (h : B.setting.Machines m n) :
    m.operands = n.operands ∧ m.calls = n.calls ∧ m.scopes = n.scopes ∧ m.pending = n.pending ∧
      m.blockDepth = n.blockDepth := by
  refine ⟨sequences_iff.1 h.operands, ?_, sequences_iff.1 h.scopes,
    Setting.eq_of_option (fun _ _ => Setting.eq_of_pendings B.literal) h.pending, h.blockDepth⟩
  have frames := h.calls.frames_eq B.literal
  have reserve : m.calls.reserve = n.calls.reserve := h.calls.reserve
  generalize m.calls = c at frames reserve
  generalize n.calls = d at frames reserve
  cases c
  cases d
  simp only at frames reserve
  rw [frames, reserve]

theorem stacks_refl (c : CallStack) : B.setting.Stacks c c := by
  have same {α : Type} {R : α → α → Prop} (hR : ∀ a, R a a) (o : Option α) : Option.Rel R o o := by
    cases o with
    | none => exact .none
    | some a => exact .some (hR a)
  refine ⟨rfl, c.frames, c.frames, (List.append_nil _).symm, (List.append_nil _).symm,
    List.forall₂_same.2 fun f _ => ?_⟩
  exact ⟨values_refl f.value, rfl, rfl, same (fun _ => B.same.2 rfl) _,
    same (fun _ => ⟨.refl _ _, fun _ => rfl⟩) _,
    same (fun _ => ⟨all_values_refl, same values_refl _⟩) _⟩

/-- What is queued is the same work. -/
theorem execute_agree {m n : Machine} (h : B.setting.Machines m n) (work : Work) :
    B.toLikeness.Agree (fun _ _ => True) B.setting.Machines (Machine.execute work m)
      (Machine.execute work n) := by
  cases work with
  | source text origin => exact Setting.executeSource text origin h
  | values vs => exact Setting.executeValues all_values_refl h
  | supply p =>
    refine Setting.executeSupply ⟨all_values_refl, ?_⟩ h
    cases p.forever with
    | none => exact .none
    | some v => exact .some (values_refl v)

/-! ### Creating the machine -/

/-- What a setup works on. -/
structure Constructions (B : Bookkeeping) (c d : Construction) : Prop where
  memory : B.Memories c.memory d.memory
  scope : c.scope = d.scope
  created : c.created = d.created

/-- A step of a setup. -/
theorem provide_agree {c d : Construction} (h : B.Constructions c d) (r : Provision) :
    B.toLikeness.Agree Eq B.Constructions (r.perform c) (r.perform d) := by
  cases r with
  | define name v =>
    have defined := Comparison.define (C := B.comparison) (i := c.scope) (B.same.2 rfl) name
      (values_refl v)
    change B.toLikeness.Agree Eq _ (Provision.onMemory (Memory.define c.scope name v) c)
      (Provision.onMemory (Memory.define d.scope name v) d)
    rw [← h.scope]
    exact Agree.zoom (defined.mono (fun _ _ _ => rfl) h.memory) (fun _ _ => rfl)
      fun _ _ hm => { h with memory := hm }
  | array access items =>
    have stored : B.Works (Memory.newArray .system items ["host scope"]) :=
      (Comparison.newArray (C := B.comparison) .system all_values_refl fun _ => rfl).mono
        fun _ _ => B.same.1
    have built : B.toLikeness.Agree Eq B.Constructions
        (Provision.onMemory (Memory.newArray .system items ["host scope"]) c)
        (Provision.onMemory (Memory.newArray .system items ["host scope"]) d) :=
      Agree.zoom (stored h.memory) (fun _ _ => rfl) fun _ _ hm => { h with memory := hm }
    exact Agree.bind (f := fun i => modify (fun c => { c with created := .array i access :: c.created }) >>=
        fun _ => (pure (.array i access) : Action Construction Value))
      (g := fun i => modify (fun c => { c with created := .array i access :: c.created }) >>=
        fun _ => (pure (.array i access) : Action Construction Value))
      built (fun _ _ => id) (by
        rintro i _ u v rfl huv
        exact .done rfl { huv with created := congrArg (.array i access :: ·) huv.created })

theorem works_releaseAll (vs : List Value) : B.Works (Memory.releaseAll vs) :=
  (Comparison.releaseAll (C := B.comparison) all_values_refl).mono fun _ _ _ => rfl

theorem works_newDictionary (account : Account) (trail : List String) :
    B.Works (Memory.newDictionary account trail) :=
  (Comparison.newDictionary (C := B.comparison) account fun _ => rfl).mono fun _ _ => B.same.1

/-- The parts of a machine do not depend on the books. -/
theorem works_prepare : B.Works Machine.prepare := by
  have sequence (n : ℕ) : B.Works (Sequence.acquire Sequence.valueSlot .system n n) :=
    (works_acquire _ _ _ _).bind fun _ _ h => parallel_pure (h ▸ rfl)
  have calls : B.Works CallStack.acquire :=
    (works_acquire _ _ _ _).bind fun _ _ h => parallel_pure (h ▸ rfl)
  refine (sequence 64).bind ?_
  rintro operands _ rfl
  refine calls.bind ?_
  rintro calls _ rfl
  refine (sequence 8).bind ?_
  rintro scopes _ rfl
  refine (works_newDictionary .system ["host"]).bind ?_
  rintro host _ rfl
  exact parallel_pure rfl

theorem works_defineBuiltins (scope : Handle) (builtins : List Builtin) :
    B.Works (Machine.defineBuiltins scope builtins) := by
  have rising := rising_defineBuiltins scope
  induction builtins with
  | nil => exact parallel_pure rfl
  | cons b rest ih =>
    have defined : B.toLikeness.Parallel B.Memories (fun _ _ => True)
        (Memory.define scope b.name (.operator (.builtin b)))
        (Memory.define scope b.name (.operator (.builtin b))) :=
      Comparison.define (C := B.comparison) (B.same.2 rfl) b.name (values_refl _)
    exact defined.bind fun _ _ _ => ih

theorem furnish_agree (parts : Machine.Parts) (provided : α) {options options' : Options}
    (hthrows : options.throwOnException = options'.throwOnException)
    (hbudget : options.defaultMaxCycles = options'.defaultMaxCycles) :
    B.toLikeness.Parallel B.Memories (fun r r' => B.setting.Machines r.1 r'.1 ∧ r.2 = r'.2)
      (Machine.furnish options parts provided) (Machine.furnish options' parts provided) := by
  have rising := rising_defineBuiltins
  refine (works_newDictionary .system ["system"]).bind ?_
  rintro system _ rfl
  refine (works_defineBuiltins system Builtin.all).bind fun _ _ _ => ?_
  refine (works_newDictionary .system ["global"]).bind ?_
  rintro common _ rfl
  refine (works_newDictionary .system ["user"]).bind ?_
  rintro user _ rfl
  let permanent : List Value := [.dictionary parts.host false, .dictionary system false,
    .dictionary common true, .dictionary user true]
  have opened : B.Works ((parts.scopes.exchange 0 permanent).ensuring
      (Memory.releaseAll permanent)) :=
    Parallel.ensuring ((Comparison.exchange (C := B.comparison) (sequences_iff.2 rfl) 0
        all_values_refl).mono fun _ _ => sequences_iff.1)
      ((works_releaseAll permanent).mono fun _ _ _ => trivial) (Memory.raises_releaseAll _)
      (Memory.raises_releaseAll _)
  refine opened.bind ?_
  rintro scopes _ rfl
  intro μ ν h
  exact .done ⟨⟨h, sequences_iff.2 rfl, stacks_refl parts.calls, sequences_iff.2 rfl, .none, rfl,
    hthrows, hbudget⟩, rfl⟩ h

end Bookkeeping

variable {α : Type}

theorem rising_furnish (options : Options) (parts : Machine.Parts) (provided : α) :
    Action.Rising (Machine.furnish options parts provided) := by
  have := rising_defineBuiltins
  unfold Machine.furnish
  infer_instance

theorem rising_fill (setup : Setup α) (host : Handle) : Action.Rising (setup.fill host) where
  rises μ := by
    have filled := Action.Rising.rises (x := setup.run Provision.perform)
      { memory := μ, scope := host }
    unfold Setup.fill
    cases h : setup.run Provision.perform { memory := μ, scope := host } with
    | done a c =>
      rw [h] at filled
      exact (Action.Rising.rises (x := Memory.releaseAll c.created.reverse >>= fun _ => pure a)
        c.memory).mono (fun _ _ => filled.trans) fun _ => filled.trans
    | raised e c =>
      rw [h] at filled
      exact (Action.Rising.rises (x := Memory.releaseAll c.created.reverse >>= fun _ =>
        (Action.raise e : Action Memory α)) c.memory).mono (fun _ _ => filled.trans)
        fun _ => filled.trans
    | broken b => trivial

end StackScript
