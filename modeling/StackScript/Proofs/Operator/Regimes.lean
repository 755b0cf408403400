import StackScript.Operator.Registry
import StackScript.Proofs.Machine.Effects

/-!
# Regimes of programs

A regime says what a program may ask of its machine, what it pays for the frames it queues, what it
can rely on where it finds itself, and which exceptions it may raise by itself (`Program.Regime`).
Whether a program keeps to a regime is read off the program, as a condition on its result and on
what is left of its budget (`Program.Obeys`).  There is one rule for each way of putting programs
together and one for each request, so what an operator needs is found by rewriting with them.

Mistakes of hosted code are allowed everywhere.  Whether internal exceptions are is left to the
regime: an operator raises none if it is given operands its signature accepts.  So all builtins that
are invoked but once keep to every regime that takes their operands (`Builtin.operation_obeys`).

A *plain* program works on values only and raises ordinary exceptions only, as long as the permanent
scopes are there (`Program.Regime.plain`).  Whatever machine it runs on, it changes nothing but
values, scopes above the permanent ones, and the work that is queued (`Program.Obeys.runOn_plain`).
-/

namespace StackScript

attribute [local simp] Cause.condition

/-! ### Operands a signature asks for -/

section

attribute [local simp] Param.accepts Value.kind Datum.kind Value.toWord? Value.toBoolean? Value.toName?

theorem Param.accepts_integer {v : Value} (h : Param.integer.accepts v = true) :
    ∃ n, v.toWord? = some n := by
  cases hd : v.datum <;> simp_all

theorem Param.accepts_boolean {v : Value} (h : Param.boolean.accepts v = true) :
    ∃ b, v.toBoolean? = some b := by
  cases hd : v.datum <;> simp_all

theorem Param.accepts_name {v : Value} (h : Param.name.accepts v = true) :
    ∃ name, v.toName? = some name := by
  cases hd : v.datum <;> simp_all

end

/-- The operands are those a signature asks for. -/
abbrev Accepted (signature : List Param) (params : List Value) : Prop :=
  List.Forall₂ (fun p v => Param.accepts p v = true) signature params

/-- From any depth on, what is matched are the values at the top, as far as the signature goes, and the
first one it does not accept is reported as a mistake of hosted code. -/
theorem Machine.matchOperands_go (depth : ℕ) (signature : List Param) (items : List Value) :
    (∀ params, matchOperands.go depth signature items = .ok params →
      params = items.take signature.length ∧ Accepted signature params) ∧
    ∀ c, matchOperands.go depth signature items = .error c → c.condition.Common := by
  induction signature generalizing depth items with
  | nil => exact ⟨fun params h => Except.ok.inj h ▸ ⟨rfl, .nil⟩, nofun⟩
  | cons p signature ih =>
    cases items with
    | nil => exact ⟨nofun, fun c h => Except.error.inj h ▸ ⟨nofun, nofun⟩⟩
    | cons v rest =>
      unfold matchOperands.go
      split
      · rename_i hv
        obtain ⟨matched, mistaken⟩ := ih (depth + 1) rest
        cases hrest : matchOperands.go (depth + 1) signature rest with
        | error c => exact ⟨nofun, fun c h => mistaken c (hrest.trans h)⟩
        | ok others =>
          obtain ⟨top, accepted⟩ := matched others hrest
          refine ⟨fun params h => ?_, nofun⟩
          obtain rfl : v :: others = params := Except.ok.inj h
          exact ⟨by rw [List.length_cons, List.take_succ_cons, ← top], .cons hv accepted⟩
      · exact ⟨nofun, fun c h => Except.error.inj h ▸ ⟨nofun, nofun⟩⟩

/-- Matched operands are those at the top, and each is what its parameter accepts. -/
theorem Machine.accepts_of_matchOperands {m : Machine} {signature : List Param}
    {params : List Value} (h : m.matchOperands signature = .ok params) :
    params = m.operands.items.take signature.length ∧ Accepted signature params := by
  unfold matchOperands at h
  split at h
  · cases h
  · exact (matchOperands_go 0 signature _).1 params h

theorem Machine.accepted_of_matchOperands {m : Machine} {signature : List Param}
    {params : List Value} (h : m.matchOperands signature = .ok params) :
    Accepted signature params := (accepts_of_matchOperands h).2

/-- Operands that do not match are a mistake of hosted code. -/
theorem Machine.common_of_matchOperands {m : Machine} {signature : List Param} {c : Cause}
    (h : m.matchOperands signature = .error c) : c.condition.Common := by
  unfold matchOperands at h
  split at h
  · cases h
    exact ⟨nofun, nofun⟩
  · exact (matchOperands_go 0 signature _).2 c h

/-- A name that is not bound is a mistake of hosted code. -/
theorem Machine.ordinary_of_lookup {m : Machine} {name : String} {c : Cause}
    (h : (m.lookup name).run = .ok (.error c)) : c.Ordinary := by
  rw [Cause.Ordinary, condition_of_lookup h]
  exact nofun

/-- The operand at an index is one its parameter accepts. -/
theorem accepted_at {signature : List Param} {params : List Value} {index : ℕ} {p : Param}
    (h : Accepted signature params) (hp : signature[index]? = some p) :
    ∃ v, params[index]? = some v ∧ p.accepts v = true := by
  induction h generalizing index with
  | nil => cases hp
  | cons hv _ ih =>
    cases index with
    | zero => exact ⟨_, rfl, Option.some.inj hp ▸ hv⟩
    | succ index => exact ih hp

theorem accepted_one {p : Param} {params : List Value} (h : Accepted [p] params) :
    ∃ v, params = [v] ∧ p.accepts v = true := by
  obtain _ | ⟨hv, _ | _⟩ := h
  exact ⟨_, rfl, hv⟩

theorem accepted_two {p q : Param} {params : List Value} (h : Accepted [p, q] params) :
    ∃ v w, params = [v, w] ∧ p.accepts v = true ∧ q.accepts w = true := by
  obtain _ | ⟨hv, h⟩ := h
  obtain ⟨w, rfl, hw⟩ := accepted_one h
  exact ⟨_, w, rfl, hv, hw⟩

/-! ### Regimes -/

/-- The permanent scopes are there. -/
def Machine.Scoped (m : Machine) : Prop := permanentScopes ≤ m.scopes.length

namespace Program

/-- What a program may do and what it can rely on. -/
structure Regime where
  /-- The program may govern the frame it is invoked in and the pending exception. -/
  governs : Prop
  /-- What queueing a frame costs. -/
  price : ℕ
  /-- Where the program may find itself. -/
  finds : Site → Prop
  /-- The exceptions the program may raise by itself. -/
  raises : Condition → Prop
  common : ∀ c, c.Common → raises c
  /-- What every operator relies on, unless internal exceptions may be raised. -/
  settled : raises .internal ∨ ∀ s, finds s → s.own.isSome ∧ s.machine.Scoped

namespace Regime

/-- What a request costs. -/
def cost (R : Regime) : Request → ℕ
  | .call _ => R.price
  | _ => 0

/-- The request may be made. -/
def Admits (R : Regime) (r : Request) : Prop := r.governs = true → R.governs

/-- What a request may be answered. -/
def MayAnswer (R : Regime) : (r : Request) → r.Answer → Prop
  | .observe, site => R.finds site
  | _, _ => True

/-- The operands are accepted, or it is no matter if they are not. -/
def Takes (R : Regime) (signature : List Param) (params : List Value) : Prop :=
  R.raises .internal ∨ Accepted signature params

variable {R : Regime}

@[simp] theorem raises_of_ne {c : Condition} (h : c ≠ .internal) (h' : c ≠ .loopBreak) :
    R.raises c := R.common c ⟨h, h'⟩

end Regime

variable {α β : Type} {R : Regime} {n : ℕ} {P : α → ℕ → Prop} {Q : β → ℕ → Prop} {p : Operation α}
  {f : α → Operation β}

/-- The program keeps to the regime with a budget of `n`; if it is done, its value and what is left
of the budget are in `P`. -/
def Obeys (R : Regime) : Program Request.Answer α → ℕ → (α → ℕ → Prop) → Prop
  | .done a, n, P => P a n
  | .raise e, _, _ => R.raises e.condition
  | .broken _, _, _ => True
  | .ask r next failed, n, P => (R.Admits r ∧ R.cost r ≤ n) ∧
    (∀ a, R.MayAnswer r a → (next a).Obeys R (n - R.cost r) P) ∧
      ∀ e : Exception, R.raises e.condition → (failed e).Obeys R n P

@[simp] theorem obeys_done {a : α} : (done a : Operation α).Obeys R n P ↔ P a n := Iff.rfl

@[simp] theorem obeys_broken {b : Breach} : (broken b : Operation α).Obeys R n P := trivial

@[simp] theorem obeys_pure {a : α} : (pure a : Operation α).Obeys R n P ↔ P a n := Iff.rfl

@[simp] theorem obeys_bind :
    (p >>= f).Obeys R n Q ↔ p.Obeys R n fun a k => (f a).Obeys R k Q := by
  change (p.bind f).Obeys R n Q ↔ _
  induction p generalizing n with
  | done a => exact Iff.rfl
  | raise e => exact Iff.rfl
  | broken b => exact Iff.rfl
  | ask r next failed ihn ihf =>
    exact and_congr_right fun _ => and_congr (forall_congr' fun a => imp_congr_right fun _ => ihn a)
      (forall_congr' fun e => imp_congr_right fun _ => ihf e)

theorem Obeys.mono {P' : α → ℕ → Prop} (h : p.Obeys R n P) (hp : ∀ a k, P a k → P' a k) :
    p.Obeys R n P' := by
  induction p generalizing n with
  | done a => exact hp a n h
  | raise e => exact h
  | broken b => exact trivial
  | ask r next failed ihn ihf =>
    exact ⟨h.1, fun a ha => ihn a (h.2.1 a ha), fun e he => ihf e (h.2.2 e he)⟩

@[simp] theorem obeys_fail {c : Cause} :
    (fail c : Operation α).Obeys R n P ↔ R.raises c.condition := Iff.rfl

@[simp] theorem obeys_raise {e : Exception} :
    (raise e : Operation α).Obeys R n P ↔ R.raises e.condition := Iff.rfl

@[simp] theorem obeys_ofOption {c : Cause} {o : Option α} :
    (ofOption c o : Operation α).Obeys R n P ↔
      (∀ a, o = some a → P a n) ∧ (o = none → R.raises c.condition) := by
  cases o with
  | none => simp [ofOption]
  | some a => simp [ofOption]

@[simp] theorem obeys_ofExcept {r : Except Cause α} :
    (ofExcept r : Operation α).Obeys R n P ↔
      (∀ a, r = .ok a → P a n) ∧ ∀ c, r = .error c → R.raises c.condition := by
  cases r with
  | error c => simp [ofExcept]
  | ok a => simp [ofExcept]

@[simp] theorem obeys_ofSound {r : Except Breach α} :
    (ofSound r : Operation α).Obeys R n P ↔ ∀ a, r = .ok a → P a n := by
  cases r with
  | error b => simp [ofSound]
  | ok a => simp [ofSound]

@[simp] theorem obeys_ofResult {r : Except Exception α} :
    (ofResult r : Operation α).Obeys R n P ↔
      (∀ a, r = .ok a → P a n) ∧ ∀ e, r = .error e → R.raises e.condition := by
  cases r with
  | error e => simp [ofResult]
  | ok a => simp [ofResult]

theorem Obeys.rescue {remedy : Exception → Operation α} (h : p.Obeys R n P)
    (hr : ∀ (e : Exception) k, R.raises e.condition → (remedy e).Obeys R k P) :
    (p.rescue remedy).Obeys R n P := by
  induction p generalizing n with
  | done a => exact h
  | raise e => exact hr e n h
  | broken b => exact trivial
  | ask r next failed ihn ihf =>
    exact ⟨h.1, fun a ha => ihn a (h.2.1 a ha), fun e he => ihf e (h.2.2 e he)⟩

theorem Obeys.attempt {Q : Except Exception α → ℕ → Prop} (h : p.Obeys R n fun a k => Q (.ok a) k)
    (hr : ∀ (e : Exception) k, R.raises e.condition → Q (.error e) k) : p.attempt.Obeys R n Q := by
  induction p generalizing n with
  | done a => exact h
  | raise e => exact hr e n h
  | broken b => exact trivial
  | ask r next failed ihn ihf =>
    exact ⟨h.1, fun a ha => ihn a (h.2.1 a ha), fun e he => ihf e (h.2.2 e he)⟩

@[simp] theorem obeys_ask {r : Request} {P : r.Answer → ℕ → Prop} :
    (Operation.ask r).Obeys R n P ↔
      (R.Admits r ∧ R.cost r ≤ n) ∧ ∀ a, R.MayAnswer r a → P a (n - R.cost r) :=
  and_congr_right fun _ => and_iff_left fun _ => id

end Program

/-! ### Steps of operators -/

namespace Operation

open Program (Obeys Regime)

variable {α : Type} {R : Regime} {n index : ℕ} {v w : Value} {k : Word} {params : List Value}
  {signature : List Param} {P : Unit → ℕ → Prop}

section requests

variable {Q : Value → ℕ → Prop}

/-- A request that only works on values. -/
theorem obeys_request {r : Request} {P : r.Answer → ℕ → Prop} (hr : r.governs = false)
    (hcost : R.cost r = 0) (h : ∀ a, P a n) : (ask r).Obeys R n P := by
  refine Program.obeys_ask.2 ⟨⟨fun governs => ?_, hcost ▸ Nat.zero_le n⟩, fun a _ => ?_⟩
  · rw [hr] at governs
    cases governs
  · rw [hcost]
    exact h a

@[simp] theorem obeys_call :
    (call v).Obeys R n P ↔ R.price ≤ n ∧ P () (n - R.price) := by
  refine (Program.obeys_ask (r := .call v) (P := P)).trans (and_congr ⟨And.right, fun h => ?_⟩
    ⟨fun h => h () trivial, fun h _ _ => h⟩)
  exact ⟨nofun, h⟩

@[simp] theorem obeys_site {P : Site → ℕ → Prop} :
    site.Obeys R n P ↔ ∀ s, R.finds s → P s n :=
  (Program.obeys_ask (r := .observe) (P := P)).trans
    ⟨And.right, fun h => ⟨⟨nofun, Nat.zero_le n⟩, h⟩⟩

theorem obeys_machine {P : Machine → ℕ → Prop} (h : ∀ m, P m n) : machine.Obeys R n P := by
  simp [machine, h]

@[simp] theorem obeys_exchange {drop : ℕ} {values : List Value} (h : P () n) :
    (exchange drop values).Obeys R n P :=
  obeys_request (r := .exchange drop values) rfl rfl fun _ => h

@[simp] theorem obeys_push (h : P () n) : (push v).Obeys R n P := obeys_exchange h

@[simp] theorem obeys_pop {count : ℕ} (h : P () n) : (pop count).Obeys R n P := obeys_exchange h

@[simp] theorem obeys_adopt {drop : ℕ} (h : P () n) : (adopt drop v).Obeys R n P :=
  obeys_request (r := .adopt drop v) rfl rfl fun _ => h

@[simp] theorem obeys_release (h : P () n) : (release v).Obeys R n P :=
  obeys_request (r := .release v) rfl rfl fun _ => h

@[simp] theorem obeys_clearOperands (h : P () n) : clearOperands.Obeys R n P :=
  obeys_request (r := .clearOperands) rfl rfl fun _ => h

@[simp] theorem obeys_createArray {access : Access} {items : List Value} (h : ∀ v, Q v n) :
    (createArray access items).Obeys R n Q :=
  obeys_request (r := .createArray access items) rfl rfl h

@[simp] theorem obeys_createFilledArray {access : Access} {length : ℕ} (h : ∀ v, Q v n) :
    (createFilledArray access length v).Obeys R n Q :=
  obeys_request (r := .createFilledArray access length v) rfl rfl h

@[simp] theorem obeys_createDictionary (h : ∀ v, Q v n) : createDictionary.Obeys R n Q :=
  obeys_request (r := .createDictionary) rfl rfl h

@[simp] theorem obeys_setItem {index : ℕ} (h : P () n) : (setItem v index w).Obeys R n P :=
  obeys_request (r := .setItem v index w) rfl rfl fun _ => h

@[simp] theorem obeys_define {name : String} (h : P () n) : (define v name w).Obeys R n P :=
  obeys_request (r := .define v name w) rfl rfl fun _ => h

@[simp] theorem obeys_openScope (h : P () n) : (openScope v).Obeys R n P :=
  obeys_request (r := .openScope v) rfl rfl fun _ => h

@[simp] theorem obeys_closeScope (h : P () n) : closeScope.Obeys R n P :=
  obeys_request (r := .closeScope) rfl rfl fun _ => h

@[simp] theorem obeys_openBlock (h : P () n) : openBlock.Obeys R n P :=
  obeys_request (r := .openBlock) rfl rfl fun _ => h

@[simp] theorem obeys_closeBlock (h : P () n) : closeBlock.Obeys R n P :=
  obeys_request (r := .closeBlock) rfl rfl fun _ => h

end requests

/-! ### Requests that govern -/

section governs

variable (hR : R.governs)
include hR

theorem obeys_governing {r : Request} {P : r.Answer → ℕ → Prop} (hcost : R.cost r = 0)
    (h : ∀ a, P a n) : (ask r).Obeys R n P := by
  refine Program.obeys_ask.2 ⟨⟨fun _ => hR, hcost ▸ Nat.zero_le n⟩, fun a _ => ?_⟩
  rw [hcost]
  exact h a

@[simp] theorem obeys_setState {next : Continuation} (h : P () n) : (setState next).Obeys R n P :=
  obeys_governing hR (r := .setState next) rfl fun _ => h

@[simp] theorem obeys_setLocal {name : String} (h : P () n) : (setLocal name v).Obeys R n P :=
  obeys_governing hR (r := .setLocal name v) rfl fun _ => h

@[simp] theorem obeys_intercept {P : Option Exception → ℕ → Prop} (h : ∀ e, P e n) :
    intercept.Obeys R n P := obeys_governing hR (r := .intercept) rfl h

@[simp] theorem obeys_stash (h : P () n) : stash.Obeys R n P :=
  obeys_governing hR (r := .stash) rfl fun _ => h

@[simp] theorem obeys_restore (h : P () n) : restore.Obeys R n P :=
  obeys_governing hR (r := .restore) rfl fun _ => h

end governs

/-! ### Reading -/

/-- Reading a part of the machine fails by a mistake of hosted code only. -/
theorem obeys_read {f : Machine → Reading α} {P : α → ℕ → Prop} (h : ∀ a, P a n)
    (hf : ∀ m c, (f m).run = .ok (.error c) → c.condition.Common) : (read f).Obeys R n P := by
  simp only [read, Program.obeys_bind, Program.obeys_ofSound, Program.obeys_ofExcept]
  exact obeys_machine fun m r hr => ⟨fun a _ => h a, fun c hc => R.common _ (hf m c (hc ▸ hr))⟩

@[simp] theorem obeys_items {P : List Value → ℕ → Prop} (h : ∀ vs, P vs n) :
    (items v).Obeys R n P := by
  refine obeys_read h fun m c hc => ?_
  unfold Machine.items at hc
  split at hc
  · cases ha : m.memory.array _ <;> rw [ha] at hc <;> cases hc
  · cases hc
    exact ⟨nofun, nofun⟩

@[simp] theorem obeys_entry {P : Option Value → ℕ → Prop} {name : String} (h : ∀ r, P r n) :
    ( entry? v name).Obeys R n P := by
  refine obeys_read h fun m c hc => ?_
  unfold Machine.entry? at hc
  split at hc
  · cases ha : m.memory.dictionary _ <;> rw [ha] at hc <;> cases hc
  · cases hc
    exact ⟨nofun, nofun⟩

@[simp] theorem obeys_names {P : List String → ℕ → Prop} (h : ∀ r, P r n) :
    (names v).Obeys R n P := by
  refine obeys_read h fun m c hc => ?_
  unfold Machine.names at hc
  split at hc
  · cases ha : m.memory.dictionary _ <;> rw [ha] at hc <;> cases hc
  · cases hc
    exact ⟨nofun, nofun⟩

@[simp] theorem obeys_lookup {Q : Value → ℕ → Prop} {name : String} (h : ∀ r, Q r n) :
    (lookup name).Obeys R n Q :=
  obeys_read h fun _ _ hc => by
    rw [Machine.condition_of_lookup hc]
    exact ⟨nofun, nofun⟩

@[simp] theorem obeys_locate {Q : Option (Value × Value) → ℕ → Prop} {name : String}
    (h : ∀ r, Q r n) : (locate name).Obeys R n Q := by
  simp only [locate, Program.obeys_bind, Program.obeys_ofSound]
  exact obeys_machine fun m r _ => h r

@[simp] theorem obeys_markDepth {Q : ℕ → ℕ → Prop} (h : ∀ k, Q k n) : markDepth.Obeys R n Q := by
  simp only [markDepth, Program.obeys_bind, Program.obeys_ofExcept]
  refine obeys_machine fun m => ⟨fun k _ => h k, fun c hc => ?_⟩
  unfold Machine.markDepth at hc
  split at hc <;> cases hc
  exact R.common _ ⟨nofun, nofun⟩

/-- The innermost scope is there with the permanent ones. -/
@[simp] theorem obeys_currentScope {Q : Value → ℕ → Prop} (h : ∀ v, Q v n) :
    currentScope.Obeys R n Q := by
  simp only [currentScope, machine, Program.obeys_bind, obeys_site, Program.obeys_pure,
    Program.obeys_ofExcept]
  refine fun s hs => ⟨fun v _ => h v, fun c hc => ?_⟩
  unfold Machine.currentScope at hc
  split at hc
  · cases hc
  · rename_i hnone
    cases hc
    refine R.settled.resolve_right fun there => ?_
    have deep := (there s hs).2
    rw [List.head?_eq_none_iff] at hnone
    simp [Machine.Scoped, Machine.permanentScopes, Sequence.length, hnone] at deep

@[simp] theorem obeys_operandCount {Q : ℕ → ℕ → Prop} (h : ∀ k, Q k n) :
    operandCount.Obeys R n Q := by
  simp only [operandCount, Program.obeys_bind, Program.obeys_pure]
  exact obeys_machine fun m => h _

@[simp] theorem obeys_aboveMark {Q : List Value → ℕ → Prop} (h : ∀ vs, Q vs n) :
    aboveMark.Obeys R n Q := by
  simp only [aboveMark, Program.obeys_bind, Program.obeys_pure]
  exact obeys_markDepth fun k => obeys_machine fun m => h _

@[simp] theorem obeys_inLoop {Q : Bool → ℕ → Prop} (h : ∀ b, Q b n) : inLoop.Obeys R n Q := by
  simp [inLoop, h]

@[simp] theorem obeys_condition {Q : Option Condition → ℕ → Prop} (h : ∀ c, Q c n) :
    condition.Obeys R n Q := by
  simp only [condition, Program.obeys_bind, Program.obeys_pure]
  exact obeys_machine fun m => h _

@[simp] theorem obeys_toIndex {Q : ℕ → ℕ → Prop} (h : ∀ k, Q k n) : (toIndex k).Obeys R n Q :=
  Program.obeys_ofOption.2 ⟨fun a _ => h a, fun _ => R.common _ ⟨nofun, nofun⟩⟩

/-! ### What the frame of an operator tells -/

@[simp] theorem obeys_ownIndex {Q : ℕ → ℕ → Prop} (h : ∀ i, Q i n) : ownIndex.Obeys R n Q := by
  simp only [ownIndex, Program.obeys_bind, obeys_site, Program.obeys_ofOption]
  refine fun s hs => ⟨fun i _ => h i, fun hnone => R.settled.resolve_right fun there => ?_⟩
  have own := (there s hs).1
  rw [hnone] at own
  cases own

@[simp] theorem obeys_ownFrame {Q : Frame → ℕ → Prop} (h : ∀ f, Q f n) : ownFrame.Obeys R n Q := by
  simp only [ownFrame, Program.obeys_bind, Program.obeys_ofSound]
  exact obeys_ownIndex fun i => obeys_machine fun m f _ => h f

@[simp] theorem obeys_state {Q : Continuation → ℕ → Prop} (h : ∀ c, Q c n) :
    state.Obeys R n Q := by
  simp [state, h]

@[simp] theorem obeys_local {name : String} {Q : Option Value → ℕ → Prop} (h : ∀ v, Q v n) :
    ( local? name).Obeys R n Q := by
  simp only [local?, Program.obeys_bind, Program.obeys_ofSound]
  exact obeys_ownFrame fun f => obeys_machine fun m v _ => h v

@[simp] theorem obeys_awaitedItem {Q : Option ℕ → ℕ → Prop} (h : ∀ i, Q i n) :
    awaitedItem.Obeys R n Q := by
  simp [awaitedItem, h]

/-! ### Operands that were matched -/

theorem obeys_matched {Q : Value → ℕ → Prop} (h : R.Takes signature params)
    (hindex : index < signature.length) (hQ : ∀ v, Q v n) : (matched params index).Obeys R n Q := by
  refine Program.obeys_ofOption.2 ⟨fun v _ => hQ v, fun hnone => h.resolve_right fun accepted => ?_⟩
  have := List.getElem?_eq_none_iff.1 hnone
  have := accepted.length_eq
  omega

/-- A matched operand is of the form its parameter asks for. -/
theorem obeys_matched_as {f : Value → Option α} {c : Cause} {p : Param} {Q : α → ℕ → Prop}
    (h : R.Takes signature params) (hp : signature[index]? = some p) (hc : c.condition = .internal)
    (hf : ∀ v, p.accepts v = true → ∃ a, f v = some a) (hQ : ∀ a, Q a n) :
    (matched params index >>= fun v => Program.ofOption c (f v)).Obeys R n Q := by
  simp only [matched, Program.obeys_bind, Program.obeys_ofOption, hc]
  refine ⟨fun v hv => ⟨fun a _ => hQ a, fun hnone => h.resolve_right fun accepted => ?_⟩,
    fun hnone => h.resolve_right fun accepted => ?_⟩
  all_goals obtain ⟨w, hw, haccepts⟩ := accepted_at accepted hp
  · obtain rfl : w = v := Option.some.inj (hw.symm.trans hv)
    obtain ⟨a, ha⟩ := hf w haccepts
    rw [ha] at hnone
    cases hnone
  · rw [hnone] at hw
    cases hw

theorem obeys_matchedWord {Q : Word → ℕ → Prop} (h : R.Takes signature params)
    (hp : signature[index]? = some .integer) (hQ : ∀ k, Q k n) :
    (matchedWord params index).Obeys R n Q :=
  obeys_matched_as h hp rfl (fun _ => Param.accepts_integer) hQ

theorem obeys_matchedBoolean {Q : Bool → ℕ → Prop} (h : R.Takes signature params)
    (hp : signature[index]? = some .boolean) (hQ : ∀ b, Q b n) :
    (matchedBoolean params index).Obeys R n Q :=
  obeys_matched_as h hp rfl (fun _ => Param.accepts_boolean) hQ

theorem obeys_matchedName {Q : String → ℕ → Prop} (h : R.Takes signature params)
    (hp : signature[index]? = some .name) (hQ : ∀ t, Q t n) :
    (matchedName params index).Obeys R n Q :=
  obeys_matched_as h hp rfl (fun _ => Param.accepts_name) hQ

/-! ### Operators that are invoked but once -/

section operators

theorem obeys_duplicateTop (h : R.Takes [.any] params) :
    (duplicateTop params).Obeys R n fun _ _ => True :=
  Program.obeys_bind.2 (obeys_matched h (by decide) fun _ => obeys_push trivial)

theorem obeys_exchangeTop (h : R.Takes [.any, .any] params) :
    (exchangeTop params).Obeys R n fun _ _ => True := by
  simp only [exchangeTop, Program.obeys_bind]
  exact obeys_matched h (by decide) fun top => obeys_matched h (by decide) fun below =>
    obeys_exchange trivial

theorem obeys_copyOperand (h : R.Takes [.integer] params) :
    (copyOperand params).Obeys R n fun _ _ => True := by
  simp only [copyOperand, Program.obeys_bind]
  refine obeys_matchedWord h rfl fun k => obeys_toIndex fun depth => obeys_machine fun m => ?_
  simp

theorem obeys_rollOperands (h : R.Takes [.integer, .integer] params) :
    (rollOperands params).Obeys R n fun _ _ => True := by
  simp only [rollOperands, Program.obeys_bind]
  refine obeys_matchedWord h rfl fun steps => obeys_matchedWord h rfl fun k =>
    obeys_toIndex fun count => obeys_machine fun m => ?_
  split <;> simp

theorem obeys_combine (name : String) (f : Word → Word → Option Word)
    (h : R.Takes [.integer, .integer] params) :
    (combine name f params).Obeys R n fun _ _ => True := by
  simp only [combine, Program.obeys_bind]
  refine obeys_matchedWord h rfl fun right => obeys_matchedWord h rfl fun left => ?_
  simp

theorem obeys_divide (name : String) (f : Word → Word → Option Word)
    (h : R.Takes [.integer, .integer] params) :
    (divide name f params).Obeys R n fun _ _ => True := by
  simp only [divide, Program.obeys_bind]
  refine obeys_matchedWord h rfl fun k => ?_
  split
  · simp
  · exact obeys_combine name f h

theorem obeys_transform (name : String) (f : Word → Option Word) (h : R.Takes [.integer] params) :
    (transform name f params).Obeys R n fun _ _ => True := by
  simp only [transform, Program.obeys_bind]
  refine obeys_matchedWord h rfl fun k => ?_
  simp

theorem obeys_compareEqual (expected : Bool) (h : R.Takes [.any, .any] params) :
    (compareEqual expected params).Obeys R n fun _ _ => True := by
  simp only [compareEqual, Program.obeys_bind]
  exact obeys_matched h (by decide) fun left => obeys_matched h (by decide) fun right =>
    obeys_exchange trivial

theorem obeys_compareWords (related : Word → Word → Bool)
    (h : R.Takes [.integer, .integer] params) :
    (compareWords related params).Obeys R n fun _ _ => True := by
  simp only [compareWords, Program.obeys_bind]
  exact obeys_matchedWord h rfl fun left => obeys_matchedWord h rfl fun right =>
    obeys_exchange trivial

theorem obeys_combineLogic (booleans : Bool → Bool → Bool) (words : Word → Word → Word)
    (h : R.Takes [.any, .any] params) :
    (combineLogic booleans words params).Obeys R n fun _ _ => True := by
  simp only [combineLogic, Program.obeys_bind]
  refine obeys_matched h (by decide) fun right => obeys_matched h (by decide) fun left => ?_
  split <;> simp

theorem obeys_negateLogic (h : R.Takes [.any] params) :
    (negateLogic params).Obeys R n fun _ _ => True := by
  simp only [negateLogic, Program.obeys_bind]
  refine obeys_matched h (by decide) fun v => ?_
  split <;> simp

theorem obeys_newArray (h : R.Takes [.integer] params) :
    (newArray params).Obeys R n fun _ _ => True := by
  simp only [newArray, Program.obeys_bind]
  exact obeys_matchedWord h rfl fun k => obeys_toIndex fun length =>
    obeys_createFilledArray fun array => obeys_adopt trivial

theorem obeys_unpackArray (h : R.Takes [.array] params) :
    (unpackArray params).Obeys R n fun _ _ => True := by
  simp only [unpackArray, Program.obeys_bind]
  exact obeys_matched h (by decide) fun array => obeys_items fun vs => obeys_exchange trivial

theorem obeys_setItems (array : Value) (index : ℕ) (values : List Value) :
    (setItems array index values).Obeys R n fun _ _ => True := by
  induction values generalizing index with
  | nil => trivial
  | cons v rest ih => simp [setItems, ih]

theorem obeys_fillArray (h : R.Takes [.mutableArray] params) :
    (fillArray params).Obeys R n fun _ _ => True := by
  simp only [fillArray, Program.obeys_bind]
  refine obeys_matched h (by decide) fun array => obeys_items fun vs => obeys_machine fun m => ?_
  split
  · simp
  · simp only [Program.obeys_bind]
    exact (obeys_setItems _ _ _).mono fun _ _ _ => obeys_exchange trivial

theorem obeys_lengthOf (v : Value) {Q : ℕ → ℕ → Prop} (h : ∀ k, Q k n) :
    (lengthOf v).Obeys R n Q := by
  unfold lengthOf
  split <;> simp [h]

theorem obeys_replaceByLength (h : R.Takes [.any] params) :
    (replaceByLength params).Obeys R n fun _ _ => True := by
  simp only [replaceByLength, Program.obeys_bind]
  exact obeys_matched h (by decide) fun v => obeys_lengthOf v fun length => obeys_exchange trivial

theorem obeys_itemAt (container key : Value) {Q : Value → ℕ → Prop} (h : ∀ v, Q v n) :
    (itemAt container key).Obeys R n Q := by
  unfold itemAt
  split <;> simp [h]

theorem obeys_getItem (h : R.Takes [.any, .any] params) :
    (getItem params).Obeys R n fun _ _ => True := by
  simp only [getItem, Program.obeys_bind]
  exact obeys_matched h (by decide) fun key => obeys_matched h (by decide) fun container =>
    obeys_itemAt container key fun v => obeys_exchange trivial

theorem obeys_storeAt (container key v : Value) (h : P () n) :
    (storeAt container key v).Obeys R n P := by
  unfold storeAt
  split <;> simp [h, toPosition]

theorem obeys_putItem (h : R.Takes [.any, .any, .any] params) :
    (putItem params).Obeys R n fun _ _ => True := by
  simp only [putItem, Program.obeys_bind]
  exact obeys_matched h (by decide) fun v => obeys_matched h (by decide) fun key =>
    obeys_matched h (by decide) fun container => obeys_storeAt container key v (obeys_pop trivial)

theorem obeys_collectArray (access : Access) (h : P () n) : (collectArray access).Obeys R n P := by
  simp only [collectArray, Program.obeys_bind]
  exact obeys_aboveMark fun items => obeys_createArray fun array => obeys_adopt h

theorem obeys_defineAll (dictionary : Value) (entries : List (String × Value)) :
    (defineAll dictionary entries).Obeys R n fun _ _ => True := by
  induction entries generalizing n with
  | nil => trivial
  | cons entry rest ih =>
    simp only [defineAll, Program.obeys_bind]
    refine Obeys.rescue (obeys_define ih) fun e k he => ?_
    simp [he]

theorem common_of_pairs {items : List Value} {c : Cause} (h : pairs items = .error c) :
    c.condition.Common := by
  fun_induction pairs items with
  | case1 key v rest name hname ih =>
    cases hrest : pairs rest with
    | error c' =>
      rw [hrest] at h
      obtain rfl : c' = c := Except.error.inj h
      exact ih hrest
    | ok tail => rw [hrest] at h; cases h
  | case2 | case4 =>
    cases h
    exact ⟨nofun, nofun⟩
  | case3 => cases h

theorem obeys_endDictionary (params : List Value) :
    (endDictionary params).Obeys R n fun _ _ => True := by
  simp only [endDictionary, Program.obeys_bind]
  refine obeys_aboveMark fun items => ?_
  have build : (Program.ofExcept (pairs items) : Operation _).Obeys R n fun entries k =>
      createDictionary.Obeys R k fun dictionary k => (defineAll dictionary entries).Obeys R k
        fun _ k => (adopt (items.length + 1) dictionary).Obeys R k fun _ _ => True := by
    refine Program.obeys_ofExcept.2
      ⟨fun entries _ => ?_, fun c hc => R.common _ (common_of_pairs hc)⟩
    exact obeys_createDictionary fun dictionary => (obeys_defineAll _ _).mono fun _ _ _ =>
      obeys_adopt trivial
  split
  · simp
  · simpa only [Program.obeys_bind] using build

theorem obeys_newDictionary (h : R.Takes [.integer] params) :
    (newDictionary params).Obeys R n fun _ _ => True := by
  simp only [newDictionary, Program.obeys_bind]
  exact obeys_matchedWord h rfl fun k => obeys_toIndex fun size =>
    obeys_createDictionary fun dictionary => obeys_adopt trivial

theorem obeys_bindName (h : R.Takes [.any, .name] params) :
    (bindName params).Obeys R n fun _ _ => True := by
  simp only [bindName, Program.obeys_bind]
  exact obeys_matched h (by decide) fun v => obeys_matchedName h rfl fun name =>
    obeys_currentScope fun scope => obeys_define (obeys_pop trivial)

theorem obeys_beginScope (h : R.Takes [.dictionary] params) :
    (beginScope params).Obeys R n fun _ _ => True := by
  simp only [beginScope, Program.obeys_bind]
  exact obeys_matched h (by decide) fun v => obeys_openScope (obeys_pop trivial)

theorem obeys_loadName (h : R.Takes [.name] params) :
    (loadName params).Obeys R n fun _ _ => True := by
  simp only [loadName, Program.obeys_bind]
  exact obeys_matchedName h rfl fun name => obeys_lookup fun v => obeys_exchange trivial

theorem obeys_locateName (h : R.Takes [.name] params) :
    (locateName params).Obeys R n fun _ _ => True := by
  simp only [locateName, Program.obeys_bind]
  refine obeys_matchedName h rfl fun name => obeys_locate fun found => ?_
  split <;> exact obeys_exchange trivial

theorem obeys_isKnown (h : R.Takes [.name, .dictionary] params) :
    (isKnown params).Obeys R n fun _ _ => True := by
  simp only [isKnown, Program.obeys_bind]
  exact obeys_matchedName h rfl fun name => obeys_matched h (by decide) fun dictionary =>
    obeys_entry fun found => obeys_exchange trivial

theorem obeys_executeTop (h : R.Takes [.any] params) (hn : R.price ≤ n) :
    (executeTop params).Obeys R n fun _ _ => True := by
  simp only [executeTop, Program.obeys_bind]
  refine obeys_matched h (by decide) fun v => ?_
  split <;> simp [hn]

theorem obeys_executeIf (h : R.Takes [.block, .boolean] params) (hn : R.price ≤ n) :
    (executeIf params).Obeys R n fun _ _ => True := by
  simp only [executeIf, Program.obeys_bind]
  refine obeys_matched h (by decide) fun block => obeys_matchedBoolean h rfl fun b => ?_
  split <;> simp [hn]

theorem obeys_executeEither (h : R.Takes [.block, .block, .boolean] params) (hn : R.price ≤ n) :
    (executeEither params).Obeys R n fun _ _ => True := by
  simp only [executeEither, Program.obeys_bind]
  refine obeys_matched h (by decide) fun otherwise => obeys_matched h (by decide) fun whenTrue =>
    obeys_matchedBoolean h rfl fun b => ?_
  simp [hn]

theorem obeys_finishBind (target : Value) :
    (finishBind target).Obeys R n fun _ _ => True := by
  simp only [finishBind, Program.obeys_bind]
  exact obeys_items fun content => obeys_createArray fun result => obeys_adopt trivial

theorem obeys_leaveLoop (params : List Value) (h : R.raises .loopBreak) :
    (leaveLoop params).Obeys R n fun _ _ => True := by
  simp only [leaveLoop, Program.obeys_bind]
  refine obeys_inLoop fun inside => ?_
  cases inside <;> simp [h]

end operators

end Operation

/-- The operator may be invoked again after its first invocation. -/
def Builtin.resumes : Builtin → Bool
  | .repeatBlock | .loop | .stopped | .ensure | .bind => true
  | _ => false

open Operation in
/-- **Every builtin that is invoked but once** keeps to every regime that takes its operands, if
there is enough to pay for one frame; to one in which no loop may be left, unless it is `break`. -/
theorem Builtin.operation_obeys {R : Program.Regime} {n : ℕ} {b : Builtin} (hb : b.resumes = false)
    (hleave : b = .leaveLoop → R.raises .loopBreak) (hn : R.price ≤ n) {params : List Value}
    (h : R.Takes b.signature params) : (b.operation params).Obeys R n fun _ _ => True := by
  cases b with
  | repeatBlock | loop | stopped | ensure | bind => cases hb
  | trueValue | falseValue | nullValue | mark | openArray | openDictionary => trivial
  -- the stack
  | drop => exact obeys_pop trivial
  | duplicate => exact obeys_duplicateTop h
  | exchange => exact obeys_exchangeTop h
  | clear => exact obeys_clearOperands trivial
  | count => exact Program.obeys_bind.2 (obeys_operandCount fun _ => obeys_push trivial)
  | index => exact obeys_copyOperand h
  | roll => exact obeys_rollOperands h
  -- integers and truth values
  | add | sub | mul => exact obeys_combine _ _ h
  | div | mod => exact obeys_divide _ _ h
  | neg | abs => exact obeys_transform _ _ h
  | equal | notEqual => exact obeys_compareEqual _ h
  | less | greater => exact obeys_compareWords _ h
  | negate => exact obeys_negateLogic h
  | conjoin | disjoin => exact obeys_combineLogic _ _ h
  -- literals
  | closeArray => exact obeys_collectArray _ trivial
  | openBlock => exact Program.obeys_bind.2 (obeys_push (obeys_openBlock trivial))
  | closeBlock => exact Program.obeys_bind.2 (obeys_collectArray _ (obeys_closeBlock trivial))
  | closeDictionary => exact obeys_endDictionary params
  | clearToMark => exact Program.obeys_bind.2 (obeys_markDepth fun _ => obeys_pop trivial)
  | countToMark => exact Program.obeys_bind.2 (obeys_markDepth fun _ => obeys_push trivial)
  -- containers
  | array => exact obeys_newArray h
  | unpack => exact obeys_unpackArray h
  | fill => exact obeys_fillArray h
  | length => exact obeys_replaceByLength h
  | get => exact obeys_getItem h
  | put => exact obeys_putItem h
  -- dictionaries and scopes
  | dictionary => exact obeys_newDictionary h
  | define => exact obeys_bindName h
  | openScope => exact obeys_beginScope h
  | closeScope => exact obeys_closeScope trivial
  | load => exact obeys_loadName h
  | locate => exact obeys_locateName h
  | known => exact obeys_isKnown h
  | currentScope => exact Program.obeys_bind.2 (obeys_currentScope fun _ => obeys_push trivial)
  -- control flow
  | execute => exact obeys_executeTop h hn
  | execIf => exact obeys_executeIf h hn
  | execEither => exact obeys_executeEither h hn
  | leaveLoop => exact obeys_leaveLoop params (hleave rfl)
  | stop => exact R.common _ ⟨nofun, nofun⟩

/-! ### Plain programs -/

namespace Program

/-- The regime of the operator with `i` frames below its own, if the permanent scopes are there: it
works on values only, and raises ordinary exceptions only. -/
def Regime.plain (i : ℕ) : Regime where
  governs := False
  price := 0
  finds s := s.own = some i ∧ s.machine.Scoped
  raises := (· ≠ .internal)
  common _ h := h.1
  settled := .inr fun _ h => ⟨by rw [h.1]; rfl, h.2⟩

variable {α : Type} {i n : ℕ} {P : α → ℕ → Prop} {p : Operation α}

theorem Regime.cost_plain (i : ℕ) (r : Request) : (plain i).cost r = 0 := by
  cases r <;> rfl

theorem Regime.mayAnswer_of_perform {r : Request} {a : r.Answer} {m m' : Machine} (hm : m.Scoped)
    (h : r.perform (some i) m = .done a m') : (plain i).MayAnswer r a := by
  cases r with
  | observe =>
    obtain ⟨rfl, rfl⟩ := Outcome.done.inj h
    exact ⟨rfl, hm⟩
  | _ => trivial

/-- **What a plain program does.** -/
theorem Obeys.runOn_plain (h : p.Obeys (.plain i) n P) {m : Machine} (hm : m.Scoped) :
    (Operation.runOn (some i) p m).Fair (fun a m' => P a n ∧ m.Queues m')
      fun m' => m.Queues m' := by
  induction p generalizing m with
  | done a => exact ⟨h, .refl m⟩
  | raise e => exact ⟨h, .refl m⟩
  | broken b => trivial
  | ask r next failed ihn ihf =>
    obtain ⟨⟨admitted, -⟩, hnext, hfailed⟩ := h
    rw [Regime.cost_plain, Nat.sub_zero] at hnext
    have hr : r.governs = false := Bool.eq_false_iff.2 admitted
    have fair := (Request.perform_ordinary (fun next h => by rw [h] at hr; cases hr) i).fair
      (Request.perform_queues hr (some i) m)
    simp only [Operation.runOn, Program.run]
    cases hperform : r.perform (some i) m with
    | done a m₁ =>
      rw [hperform] at fair
      exact (ihn a (hnext a (Regime.mayAnswer_of_perform hm hperform)) (fair.scopes hm)).mono
        (fun _ _ h => ⟨h.1, fair.trans h.2⟩) fun _ => fair.trans
    | raised e m₁ =>
      rw [hperform] at fair
      exact (ihf e (hfailed e fair.1) (fair.2.scopes hm)).mono
        (fun _ _ h => ⟨h.1, fair.2.trans h.2⟩) fun _ => fair.2.trans
    | broken b => trivial

end Program

/-- A builtin that is invoked but once is plain, given the operands it asks for. -/
theorem Builtin.operation_plain {b : Builtin} (hb : b.resumes = false) {params : List Value}
    (h : Accepted b.signature params) (i : ℕ) :
    (b.operation params).Obeys (.plain i) 0 fun _ _ => True :=
  operation_obeys hb (fun _ h => nomatch h) le_rfl (.inr h)

end StackScript
