import StackScript.Proofs.Guarantees.Retries
import StackScript.Proofs.Machine.Standing

/-!
# What a name stands for

A name is looked up in the scopes from the top down, so the first scope that binds it decides
(`Machine.resolution?`).  Scopes are opened and closed at the top, and none is closed below the permanent
ones, so these stay where they are (`Session.rooted_of_goes`): the user's, the global one, the system's,
and that of the host last.  Whoever resolves a name finds the same, be it the host, an operator that
locates or loads the name, or the frame that executes it (`names_resolve_from_the_top_down`).
-/

namespace StackScript

open StackScript.Action
open Relation (ReflTransGen)

/-! ### The scopes at the bottom -/

namespace Machine

/-- Scopes at the bottom, as many as are permanent, stay there. -/
def Rooted (m m' : Machine) : Prop :=
  ∀ base : List Value, base.length = permanentScopes →
    base <:+ m.scopes.items → base <:+ m'.scopes.items

instance : IsPreorder Machine Rooted where
  refl _ _ _ := id
  trans _ _ _ h h' base hbase := h' base hbase ∘ h base hbase

variable {α : Type}

/-- What does not work on the scopes leaves them there. -/
theorem rooted_of_spares {x : Action Machine α} (hx : Spares scopes x) : Respects Rooted x where
  respects m := by
    have kept (m' : Machine) (h : m'.scopes = m.scopes) : m.Rooted m' := by
      intro base _ hm
      rwa [h]
    exact (hx m).mono (fun _ => kept) kept

/-! ### Scopes -/

theorem onScopes_rooted {m : Machine} {f : Sequence → Action Memory Sequence}
    (hf : ∀ base : List Value, base.length = permanentScopes → base <:+ m.scopes.items →
      (f m.scopes m.memory).Meets True (fun s _ => base <:+ s.items) fun _ => True) :
    (onScopes f m).Meets True (fun _ m' => m.Rooted m') m.Rooted := by
  have sum : (∀ base : List Value, base.length = permanentScopes → base <:+ m.scopes.items →
      (onScopes f m).Meets True (fun _ m' => base <:+ m'.scopes.items) fun m' =>
        m'.scopes = m.scopes) := fun base hbase hm =>
    meets_onScopes ((hf base hbase hm).mono (fun _ _ => id) fun _ _ => rfl)
  cases hx : onScopes f m with
  | done a m' =>
    intro base hbase hm
    have kept := sum base hbase hm
    rw [hx] at kept
    exact kept
  | raised e m' =>
    intro base hbase hm
    have kept := sum base hbase hm
    rw [hx] at kept
    exact kept ▸ hm
  | broken b => trivial

instance (v : Value) : Respects Rooted (openScope v) where
  respects m := by
    unfold openScope
    split
    · refine onScopes_rooted fun base _ hm => (m.scopes.exchange_items 0 [v] m.memory).mono
        (fun s _ hs => ?_) fun _ => id
      rw [hs]
      exact hm.trans (List.suffix_append [v] m.scopes.items)
    · exact fun _ _ => id

instance : Respects Rooted closeScope where
  respects m := by
    rw [closeScope, get_bind]
    split
    · exact fun _ _ => id
    · rename_i many
      refine onScopes_rooted fun base hbase hm => (m.scopes.exchange_items 1 [] m.memory).mono
        (fun s _ hs => ?_) fun _ => id
      obtain ⟨opened, hopened⟩ := hm
      -- there are more scopes than those at the bottom, so the one closed is above them
      cases opened with
      | nil =>
        rw [List.nil_append] at hopened
        exact absurd (by rw [Sequence.length, ← hopened, hbase]) many
      | cons v rest =>
        rw [hs, ← hopened]
        exact List.suffix_append rest base

/-! ### Everything else -/

/-- **Requests** leave the scopes at the bottom there. -/
theorem perform_rooted (own : Option ℕ) (r : Request) : Respects Rooted (r.perform own) := by
  have exchanged (drop : ℕ) (values : List Value) : Spares scopes (exchangeOperands drop values) :=
    spares_exchangeOperands (fun _ _ _ => rfl) drop values
  cases r with
  | observe => exact ⟨fun _ _ _ => id⟩
  | exchange drop values => exact rooted_of_spares (exchanged drop values)
  | adopt drop v =>
    exact rooted_of_spares ((exchanged drop [v]).ensuring (spares_onMemory (fun _ _ => rfl) _))
  | release v => exact rooted_of_spares (spares_onMemory (fun _ _ => rfl) _)
  | clearOperands => exact rooted_of_spares (spares_onOperands (fun _ _ _ => rfl) _)
  | createArray access items =>
    exact rooted_of_spares (spares_createArray (fun _ _ => rfl) access items)
  | createFilledArray access length v =>
    exact rooted_of_spares (spares_createFilledArray (fun _ _ => rfl) access length v)
  | createDictionary => exact rooted_of_spares (spares_createDictionary fun _ _ => rfl)
  | setItem container index v =>
    exact rooted_of_spares (spares_setItem (fun _ _ => rfl) container index v)
  | define container name v =>
    exact rooted_of_spares (spares_define (fun _ _ => rfl) container name v)
  | openScope v => exact inferInstanceAs (Respects Rooted (openScope v))
  | closeScope => exact inferInstanceAs (Respects Rooted closeScope)
  | call v =>
    exact rooted_of_spares (spares_onCalls (fun _ _ _ => rfl) fun c => c.push { value := v })
  | openBlock | closeBlock => exact ⟨fun _ _ _ => id⟩
  | setState next => exact rooted_of_spares (spares_onOwn fun _ => spares_setState next fun _ => rfl)
  | setLocal name v =>
    exact rooted_of_spares (spares_onOwn fun _ => spares_setLocal (fun _ _ => rfl) (fun _ _ => rfl)
      name v)
  | intercept => exact rooted_of_spares (spares_intercept fun _ _ _ => rfl)
  | stash =>
    exact rooted_of_spares (spares_onOwn fun _ => spares_stash (fun _ _ _ => rfl) fun _ _ => rfl)
  | restore =>
    exact rooted_of_spares (spares_onOwn fun _ => spares_restore (fun _ _ _ => rfl) fun _ _ => rfl)

instance : Stands Rooted where
  memory x := rooted_of_spares (spares_onMemory (fun _ _ => rfl) x)
  request := perform_rooted
  pushFrame _ := rooted_of_spares (spares_onCalls (fun _ _ _ => rfl) _)
  popFrame := rooted_of_spares (spares_onCalls (fun _ _ _ => rfl) _)
  replaceFrame _ := rooted_of_spares (spares_onCalls (fun _ _ _ => rfl) _)
  updateFrame _ _ := rooted_of_spares (spares_updateFrame fun _ => rfl)
  raise e := rooted_of_spares (spares_raise (fun _ _ _ _ => rfl) e)

end Machine

/-- **The permanent scopes stay at the bottom**, whatever a host and its operators do. -/
theorem Session.rooted_of_goes {χ : Type} {natives : Natives χ} {s t : Session χ}
    (h : Relation.ReflTransGen (Goes natives) s t) : s.machine.Rooted t.machine :=
  stands_of_goes h

/-! ### Looking names up -/

/-- The action ended with an exception of this kind. -/
def Outcome.FailsWith {σ α : Type} (c : Condition) : Outcome σ α → Prop
  | .raised e _ => e.condition = c
  | _ => False

/-- An action that only raises other conditions. -/
theorem Action.Raises.not_failsWith {σ α : Type} {R : Condition → Prop} {x : Action σ α}
    {c : Condition} (hx : x.Raises R) (hc : ¬ R c) (s : σ) : ¬ (x s).FailsWith c := by
  cases hs : x s with
  | raised e t => exact fun (h : e.condition = c) => hc (h ▸ hx s e t hs)
  | done a t | broken b => exact id

namespace Machine

/-- The binding of a name in a dictionary. -/
def binding? (m : Machine) (name : String) (scope : Value) : Option Value :=
  match (m.entry? scope name).run with
  | .ok (.ok v) => v
  | _ => none

/-- The first of some scopes that binds a name, with what it binds the name to. -/
def foundIn (m : Machine) (name : String) (scopes : List Value) : Option (Value × Value) :=
  scopes.findSome? fun scope => (m.binding? name scope).map (scope, ·)

/-- The first scope, from the top down, that binds a name, with what it binds the name to. -/
def resolution? (m : Machine) (name : String) : Option (Value × Value) :=
  m.foundIn name m.scopes.items

variable {Γ : Charter} {n : ℕ} {x : Stake} {m m' : Machine} {name : String} {scope v : Value}
  {own : Option ℕ} {scopes : List Value}

theorem binding?_of_foundIn (h : m.foundIn name scopes = some (scope, v)) :
    scope ∈ scopes ∧ m.binding? name scope = some v := by
  obtain ⟨scope', hscope, h⟩ := List.exists_of_findSome?_eq_some h
  obtain ⟨v', hv, h⟩ := Option.map_eq_some_iff.1 h
  obtain ⟨rfl, rfl⟩ := Prod.mk.inj h
  exact ⟨hscope, hv⟩

/-- Lower scopes count only where no scope above them binds the name. -/
theorem foundIn_append (m : Machine) (name : String) (upper lower : List Value) :
    m.foundIn name (upper ++ lower) = (m.foundIn name upper).or (m.foundIn name lower) :=
  List.findSome?_append

theorem Sound.locateIn_eq (h : m.Sound Γ n x) (name : String) (scopes : List Value)
    (hs : ∀ v ∈ scopes, v ∈ m.scopes.items) :
    m.locateIn name scopes = .ok (m.foundIn name scopes) := by
  induction scopes with
  | nil => rfl
  | cons scope rest ih =>
    obtain ⟨hscope, hrest⟩ := List.forall_mem_cons.1 hs
    have kind := h.dictionaries scope hscope
    cases hd : scope.datum with
    | dictionary i writable =>
      obtain ⟨present, σ, hb, -⟩ := h.memory
      have handle : scope.handle? = some i := by rw [Value.handle?, hd]
      obtain ⟨d, ho⟩ := hb.dictionary_of_known present (knows_of_scope hscope) kind handle
      have bound : m.binding? name scope = d.get? name := by
        unfold binding? entry?
        rw [hd]
        dsimp only
        rw [Memory.dictionary_of_object? ho]
        rfl
      rw [locateIn, handle, foundIn, List.findSome?_cons, bound]
      dsimp only
      rw [bind_of_ok (Memory.dictionary_of_object? ho)]
      cases d.get? name with
      | none => exact ih hrest
      | some v => rfl
    | null | boolean | integer | string | name | mark | operator | array =>
      rw [Value.kind, hd] at kind
      cases kind

theorem Sound.locate_eq (h : m.Sound Γ n x) (name : String) :
    m.locate name = .ok (m.resolution? name) :=
  h.locateIn_eq name m.scopes.items fun _ => id

theorem Sound.lookup_eq (h : m.Sound Γ n x) (name : String) :
    (m.lookup name).run = .ok (match m.resolution? name with
      | some (_, v) => .ok v
      | none => .error (.unbound name)) := by
  unfold lookup
  rw [h.locate_eq]
  cases m.resolution? name <;> rfl

/-! ### Operators -/

theorem runOn_matchedName (hv : v.toName? = some name) (k : String → Operation Unit) :
    (Operation.matchedName [v] 0 >>= k).runOn own m = (k name).runOn own m := by
  have matched : Operation.matchedName [v] 0 = Program.ofOption (.operandNotName 0) v.toName? := rfl
  rw [matched, hv]
  rfl

theorem runOn_exchange (own : Option ℕ) (drop : ℕ) (values : List Value) :
    (Operation.exchange drop values).runOn own = exchangeOperands drop values :=
  Program.run_request (r := Request.exchange drop values) _

theorem Sound.locateName_eq (h : m.Sound Γ n x) (hv : v.toName? = some name) :
    (Builtin.locate.operation [v]).runOn own m =
      exchangeOperands 1 ((m.resolution? name).elim [.boolean false] fun found =>
        [found.1, .boolean true]) m := by
  have located (k : Option (Value × Value) → Operation Unit) :
      (Operation.locate name >>= k).runOn own m =
        Operation.runOn own (Program.ofSound (m.locate name) >>= k) m := rfl
  rw [Builtin.operation, Operation.locateName, runOn_matchedName hv, located, h.locate_eq]
  cases m.resolution? name with
  | none => exact congrFun (runOn_exchange own 1 [.boolean false]) m
  | some found => exact congrFun (runOn_exchange own 1 [found.1, .boolean true]) m

theorem Sound.loadName_eq (h : m.Sound Γ n x) (hv : v.toName? = some name) :
    (Builtin.load.operation [v]).runOn own m =
      (m.resolution? name).elim (.raised (Cause.unbound name).exception m) fun found =>
        exchangeOperands 1 [found.2] m := by
  have looked (k : Value → Operation Unit) : (Operation.lookup name >>= k).runOn own m =
      Operation.runOn own ((Program.ofSound (m.lookup name).run >>= Program.ofExcept) >>= k) m := rfl
  rw [Builtin.operation, Operation.loadName, runOn_matchedName hv, looked, h.lookup_eq]
  cases m.resolution? name with
  | none => rfl
  | some found => exact congrFun (runOn_exchange own 1 [found.2]) m

theorem runOn_closeScope (own : Option ℕ) (params : List Value) :
    (Builtin.closeScope.operation params).runOn own = closeScope :=
  Program.run_request (r := Request.closeScope) _

theorem closeScope_of_permanent (h : m.scopes.length ≤ permanentScopes) :
    closeScope m = .raised Cause.permanentScope.exception m := by
  rw [closeScope, Action.get_bind, if_pos h]
  rfl

/-- A scope above the permanent ones can be closed. -/
theorem Sound.closeScope_done (h : m.Sound Γ n x) (many : permanentScopes < m.scopes.length) :
    ∃ m', closeScope m = .done () m' ∧ m'.scopes.items = m.scopes.items.tail := by
  have sound : (closeScope m).Meets False _ _ := closeScope_meets h
  have closed : (closeScope m).Meets True (fun _ m' => m'.scopes.items = m.scopes.items.tail)
      fun _ => False := by
    rw [closeScope, Action.get_bind, if_neg (not_le.2 many)]
    have sure := Sequence.exchange_sure h.scopes (Nat.one_le_of_lt many)
      (by simp : ([] : List Value).length ≤ 1) (m := m.memory) (List.forall_mem_nil _)
    have removes := (m.scopes.exchange_items 1 [] m.memory).and sure
    refine meets_onScopes (removes.mono (fun s _ hs => ?_) fun _ hf => hf.2)
    exact hs.1.trans List.drop_one
  cases hc : closeScope m with
  | done a m' => rw [hc] at closed; exact ⟨m', rfl, closed⟩
  | raised e m' => rw [hc] at closed; exact closed.elim
  | broken b => rw [hc] at sound; exact sound.elim

end Machine

/-! ### Sessions -/

namespace Session

variable {χ : Type} {natives : Natives χ} {Γ : Charter} {n : ℕ} {x : Stake} {s : Session χ}
  {name : String}

/-- Whoever resolves a name finds `found`: a host that locates it, the operators that locate and load
it, and the frame that executes it.  If nothing is found the name is undefined, and an operator or a
frame that has found what it stands for fails for other reasons only. -/
structure Resolves (s : Session χ) (name : String) (found : Option (Value × Value)) : Prop where
  located : s.machine.locate name = .ok found
  bound : ∀ scope w, found = some (scope, w) →
    scope ∈ s.machine.scopes.items ∧ s.machine.binding? name scope = some w
  locates : ∀ own v, v.toName? = some name → (Builtin.locate.operation [v]).runOn own s.machine =
    Machine.exchangeOperands 1 (found.elim [.boolean false] fun f => [f.1, .boolean true]) s.machine
  loads : ∀ own v, v.toName? = some name → (Builtin.load.operation [v]).runOn own s.machine =
    found.elim (.raised (Cause.unbound name).exception s.machine) fun f =>
      Machine.exchangeOperands 1 [f.2] s.machine
  executes : ∀ token, s.machine.blockDepth = 0 ∨ isBrace name → stepName token name s =
    found.elim (.raised (Cause.unbound name).exception s) fun f =>
      onMachine (Machine.replaceFrame (f.2.withSource (f.2.source <|> token.source))) s
  load_undefined : ∀ own v, v.toName? = some name →
    (((Builtin.load.operation [v]).runOn own s.machine).FailsWith .undefinedName ↔ found = none)
  execution_undefined : ∀ token, s.machine.blockDepth = 0 ∨ isBrace name →
    ((stepName token name s).FailsWith .undefinedName ↔ found = none)

theorem stepName_eq (h : s.machine.Sound Γ n x) (token : Value)
    (hname : s.machine.blockDepth = 0 ∨ isBrace name) : stepName token name s =
      (s.machine.resolution? name).elim (.raised (Cause.unbound name).exception s) fun f =>
        onMachine (Machine.replaceFrame (f.2.withSource (f.2.source <|> token.source))) s := by
  have executed : ¬ (decide (0 < s.machine.blockDepth) && !isBrace name) = true := by
    rcases hname with closed | brace
    · simp [closed]
    · simp [brace]
  rw [stepName, theMachine_bind, if_neg executed, h.lookup_eq]
  cases s.machine.resolution? name <;> rfl

/-- **A name resolves** to what the first scope that binds it binds it to. -/
theorem resolves (h : s.machine.Sound Γ n x) (name : String) :
    s.Resolves name (s.machine.resolution? name) := by
  have strange : ¬ Condition.Strained .undefinedName := by simp [Condition.Strained]
  refine ⟨h.locate_eq name, fun _ _ => Machine.binding?_of_foundIn, fun _ _ => h.locateName_eq,
    fun _ _ => h.loadName_eq, stepName_eq h, fun own v hv => ?_, fun token hname => ?_⟩
  · rw [h.loadName_eq hv]
    cases s.machine.resolution? name with
    | none => exact iff_of_true rfl rfl
    | some found =>
      exact iff_of_false ((Machine.strained_exchangeOperands 1 _).not_failsWith strange _) nofun
  · rw [stepName_eq h token hname]
    cases s.machine.resolution? name with
    | none => exact iff_of_true rfl rfl
    | some found =>
      have strained (w : Value) : Action.Raises Condition.Strained
          (onMachine (Machine.replaceFrame w) : Action (Session χ) Unit) :=
        (Machine.strained_replaceFrame w).zoom
      exact iff_of_false ((strained _).not_failsWith strange s) nofun

end Session

open Session in
/-- **Names resolve from the top down.**  In any course of a host and its operators, the four scopes a
machine was created with stay at the bottom, and closing a scope is refused if nothing else is left,
and only then.  If references are counted right, whoever resolves a name finds what the first scope
that binds it binds it to, among the scopes that have been opened, the last one first, then the
user's, the global and the system's; what the host scope at the bottom binds it to is found only if
none of these binds it. -/
theorem names_resolve_from_the_top_down {χ : Type} {natives : Natives χ} {options : Options}
    {m₀ : Machine} {c : χ} {s : Session χ} {Γ : Charter} {n : ℕ} {x : Stake}
    (hm₀ : m₀.Created options)
    (hcourse : ReflTransGen (Goes natives) { machine := m₀, host := c } s)
    (h : s.machine.Sound Γ n x) :
    ∃ (host system common user : Handle) (opened : List Value),
      [host, system, common, user].Nodup ∧
      m₀.scopes.items = [.dictionary user true, .dictionary common true,
        .dictionary system false, .dictionary host false] ∧
      s.machine.scopes.items = opened ++ m₀.scopes.items ∧
      (∀ own params, let ended := (Builtin.closeScope.operation params).runOn own s.machine
        (ended.FailsWith .scopeUnderflow ↔ opened = []) ∧
          ∀ scope rest, opened = scope :: rest → ∃ m', ended = .done () m' ∧
            m'.scopes.items = rest ++ m₀.scopes.items) ∧
      ∀ name, s.Resolves name (s.machine.resolution? name) ∧
        s.machine.resolution? name =
          (s.machine.foundIn name (opened ++ [.dictionary user true, .dictionary common true,
            .dictionary system false])).or (s.machine.foundIn name [.dictionary host false]) := by
  have reached : Reached m₀ [] { machine := m₀, host := c } := .start c
  obtain ⟨Γ₀, fresh, -⟩ := reached.sound hm₀
  obtain ⟨-, α, setup, a, μ, -, hcreate⟩ := hm₀
  obtain ⟨-, host, system, common, user, layout⟩ := Machine.layout_of_create hcreate
  have four : m₀.scopes.items.length = Machine.permanentScopes := by rw [layout]; rfl
  obtain ⟨opened, items⟩ := rooted_of_goes hcourse m₀.scopes.items four List.suffix_rfl
  have length : s.machine.scopes.length = opened.length + Machine.permanentScopes := by
    rw [Sequence.length, ← items, List.length_append, four]
  refine ⟨host, system, common, user, opened, ?_, layout, items.symm, fun own params => ?_,
    fun name => ⟨resolves h name, ?_⟩⟩
  · have distinct := Γ₀.distinct
    rw [fresh.permanent, layout] at distinct
    exact (List.reverse_perm [user, common, system, host]).nodup_iff.2 distinct
  · dsimp only
    rw [Machine.runOn_closeScope]
    cases opened with
    | nil =>
      rw [Machine.closeScope_of_permanent (by simp [length])]
      exact ⟨iff_of_true rfl rfl, nofun⟩
    | cons scope rest =>
      obtain ⟨m', closed, remaining⟩ := h.closeScope_done (by simp [length])
      rw [closed]
      refine ⟨iff_of_false id (List.cons_ne_nil scope rest), ?_⟩
      rintro _ _ ⟨⟩
      exact ⟨m', rfl, by rw [remaining, ← items]; rfl⟩
  · rw [← Machine.foundIn_append, Machine.resolution?, ← items, layout, List.append_assoc]
    rfl

/-- With one scope opened by a text, a name resolves through five of them. -/
theorem names_resolve_through_an_opened_scope :
    ∃ (s : Session Unit) (opened : List Value) (m₀ : Machine),
      Session.trial {} "<< >> begin" 16 = some s ∧ opened.length = 1 ∧
        s.machine.scopes.items = opened ++ m₀.scopes.items ∧
          ∀ name, s.Resolves name (s.machine.resolution? name) := by
  have facts : (Session.trial {} "<< >> begin" 16).map (fun s => s.machine.scopes.items.length) =
      some 5 := by decide +kernel
  obtain ⟨s, hs, five⟩ := Option.map_eq_some_iff.1 facts
  obtain ⟨m₀, created, reached⟩ := Reached.of_trial (by rintro t ⟨⟩) hs
  obtain ⟨Γ, -, kept⟩ := reached.sound created
  obtain ⟨host, course⟩ := reached.goes
  obtain ⟨_, _, _, _, opened, -, layout, items, -, resolves⟩ :=
    names_resolve_from_the_top_down created course kept.sound
  refine ⟨s, opened, m₀, hs, ?_, items, fun name => (resolves name).1⟩
  rw [items, List.length_append, layout] at five
  exact Nat.add_right_cancel five

end StackScript
