import StackScript.Operator.Registry

/-!
# Sessions and the operators of a host

A session is a machine at work for a host, together with what the host's own operators keep between
their invocations, of a type `χ` the host chooses.

A host gives meaning to the names of its operators (`Natives`).  Like a builtin, a native operator
is a program over the requests of `StackScript.Request`; it may keep something in the session, also
when it fails.
-/

namespace StackScript

/-- A machine and what the operators of its host keep. -/
structure Session (χ : Type) where
  machine : Machine
  host : χ

/-- An operator of a host. -/
inductive Native (χ : Type) where
  /-- Pushes a value. -/
  | constant (v : Value)
  /-- Asks for operands and works on them. -/
  | function (signature : List Param)
      (operation : List Value → χ → Operation (χ × Except Exception Unit))

/-- The operators of a host, by name. -/
abbrev Natives (χ : Type) := String → Native χ

namespace Native

variable {χ : Type}

/-- An operator that asks for nothing and does nothing. -/
def idle : Native χ := .function [] fun _ c => pure (c, .ok ())

/-- An operator that keeps nothing. -/
def stateless (signature : List Param) (operation : List Value → Operation Unit) : Native χ :=
  .function signature fun params c => do return (c, ← (operation params).attempt)

end Native

/-- No operators: names without a meaning do nothing. -/
def Natives.none {χ : Type} : Natives χ := fun _ => .idle

namespace Session

variable {χ : Type}

/-- Let an action on a machine work on a session. -/
def onMachine {α : Type} (x : Action Machine α) : Action (Session χ) α :=
  x.zoom Session.machine fun m s => { s with machine := m }

instance : MonadLift (Action Machine) (Action (Session χ)) where
  monadLift := onMachine

/-- The machine of a session. -/
def theMachine : Action (Session χ) Machine := fun s => .done s.machine s

/-- Let an operation that may keep something work on a session. -/
def runKeeping (own : Option Nat) (p : χ → Operation (χ × Except Exception Unit)) :
    Action (Session χ) Unit := fun s =>
  match (p s.host).runOn own s.machine with
  | .done (host, .ok _) m => .done () { machine := m, host := host }
  | .done (host, .error e) m => .raised e { machine := m, host := host }
  | .raised e m => .raised e { s with machine := m }
  | .broken b => .broken b

end Session

/-- What invoking an operator amounts to. -/
inductive Behaviour (χ : Type) where
  | constant (v : Value)
  /-- Asks for operands and works on them, from a frame of a given address. -/
  | function (signature : List Param) (invoke : Nat → List Value → Action (Session χ) Unit)

namespace Behaviour

variable {χ : Type}

/-- The behaviour of a builtin. -/
def ofBuiltin (b : Builtin) : Behaviour χ :=
  match b.constant? with
  | some v => .constant v
  | none => .function b.signature fun index params =>
    Session.onMachine ((b.operation params).runOn (some index))

/-- The behaviour of a native operator. -/
def ofNative : Native χ → Behaviour χ
  | .constant v => .constant v
  | .function signature operation => .function signature fun index params =>
    Session.runKeeping (some index) (operation params)

/-- The behaviour of an operator. -/
def ofOperator (natives : Natives χ) : Operator → Behaviour χ
  | .builtin b => ofBuiltin b
  | .native name _ => ofNative (natives name)

variable {natives : Natives χ} {o : Operator} {v : Value} {signature : List Param}
  {invoke : Nat → List Value → Action (Session χ) Unit}

/-- Which operators stand for a constant. -/
theorem constant_cases (h : ofOperator natives o = .constant v) :
    (∃ b, o = .builtin b ∧ b.constant? = some v) ∨
      ∃ name looping, o = .native name looping ∧ natives name = .constant v := by
  cases o with
  | builtin b =>
    rw [ofOperator, ofBuiltin] at h
    split at h
    · rename_i hb
      cases h
      exact .inl ⟨b, rfl, hb⟩
    · cases h
  | native name looping =>
    rw [ofOperator] at h
    cases hn : natives name with
    | constant w =>
      rw [hn] at h
      cases h
      exact .inr ⟨name, looping, rfl, hn⟩
    | function asked operation => rw [hn] at h; cases h

/-- Which operators work on operands, and how. -/
theorem function_cases (h : ofOperator natives o = .function signature invoke) :
    (∃ b, o = .builtin b ∧ b.constant? = none ∧ signature = b.signature ∧
      invoke = fun index params => Session.onMachine ((b.operation params).runOn (some index))) ∨
    ∃ name looping operation, o = .native name looping ∧
      natives name = .function signature operation ∧
        invoke = fun index params => Session.runKeeping (some index) (operation params) := by
  cases o with
  | builtin b =>
    rw [ofOperator, ofBuiltin] at h
    split at h
    · cases h
    · rename_i hb
      cases h
      exact .inl ⟨b, rfl, hb, rfl, rfl⟩
  | native name looping =>
    rw [ofOperator] at h
    cases hn : natives name with
    | constant v => rw [hn] at h; cases h
    | function asked operation =>
      rw [hn] at h
      cases h
      exact .inr ⟨name, looping, operation, rfl, hn, rfl⟩

end Behaviour

end StackScript
