import StackScript.Operator.Registry
import StackScript.Proofs.Machine.Effects

/-!
# The transitions an operator asks for

What a program asks for is read off it (`Program.Asks`), whatever operands it is given and however
the machine answers.  Of the builtins only `loop`, `repeat`, `stopped` and `finally` ask to be invoked
on their way out, and only `finally` goes on from there, to execute its finalizer
(`Builtin.operation_steers`).
-/

namespace StackScript

namespace Program

variable {α β : Type} {P : Request → Prop} {p : Operation α} {f : α → Operation β}

/-- Every request the program may make is in `P`. -/
def Asks (P : Request → Prop) : Program Request.Answer α → Prop
  | .done _ | .raise _ | .broken _ => True
  | .ask r next failed => P r ∧ (∀ a, (next a).Asks P) ∧ ∀ e, (failed e).Asks P

@[simp] theorem asks_pure (a : α) : (pure a : Operation α).Asks P := trivial

@[simp] theorem asks_fail (c : Cause) : (fail c : Operation α).Asks P := trivial

@[simp] theorem asks_raise (e : Exception) : (raise e : Operation α).Asks P := trivial

@[simp] theorem asks_ofExcept (r : Except Cause α) : (ofExcept r : Operation α).Asks P := by
  cases r <;> trivial

@[simp] theorem asks_ofOption (c : Cause) (o : Option α) : (ofOption c o : Operation α).Asks P := by
  cases o <;> trivial

@[simp] theorem asks_ofSound (r : Except Breach α) : (ofSound r : Operation α).Asks P := by
  cases r <;> trivial

@[simp] theorem asks_ofResult (r : Except Exception α) : (ofResult r : Operation α).Asks P := by
  cases r <;> trivial

@[simp] theorem asks_request {r : Request} : (request r).Asks P ↔ P r :=
  ⟨And.left, fun h => ⟨h, fun _ => trivial, fun _ => trivial⟩⟩

theorem Asks.bind (hp : p.Asks P) (hf : ∀ a, (f a).Asks P) : (p >>= f).Asks P := by
  change (p.bind f).Asks P
  induction p with
  | done a => exact hf a
  | raise e => exact hp
  | broken b => exact hp
  | ask r next failed ihn ihf => exact ⟨hp.1, fun a => ihn a (hp.2.1 a), fun e => ihf e (hp.2.2 e)⟩

theorem Asks.rescue {remedy : Exception → Operation α} (hp : p.Asks P)
    (hr : ∀ e, (remedy e).Asks P) : (p.rescue remedy).Asks P := by
  induction p with
  | done a => exact hp
  | raise e => exact hr e
  | broken b => exact hp
  | ask r next failed ihn ihf => exact ⟨hp.1, fun a => ihn a (hp.2.1 a), fun e => ihf e (hp.2.2 e)⟩

theorem Asks.attempt (hp : p.Asks P) : p.attempt.Asks P := by
  induction p with
  | done a => trivial
  | raise e => trivial
  | broken b => trivial
  | ask r next failed ihn ihf => exact ⟨hp.1, fun a => ihn a (hp.2.1 a), fun e => ihf e (hp.2.2 e)⟩

theorem Asks.mono {Q : Request → Prop} (hp : p.Asks P) (h : ∀ r, P r → Q r) : p.Asks Q := by
  induction p with
  | done a => trivial
  | raise e => trivial
  | broken b => trivial
  | ask r next failed ihn ihf =>
    exact ⟨h r hp.1, fun a => ihn a (hp.2.1 a), fun e => ihf e (hp.2.2 e)⟩

end Program

/-! ### Transitions -/

/-- Where a builtin may stand on its way out. -/
inductive Builtin.Defers : Builtin → Continuation → Prop
  | loop : Defers .loop .callBeforePop
  | repeatBlock : Defers .repeatBlock .callBeforePop
  | stopped : Defers .stopped .callBeforePop
  | ensure : Defers .ensure .callBeforePop
  | finalize : Defers .ensure Operation.finalizing

/-- A request that takes the builtin to its way out only as it may be there. -/
def Builtin.Steers (b : Builtin) : Request → Prop
  | .setState next => next.isPopping = true → b.Defers next
  | _ => True

namespace Operation

open Program

variable {α : Type} {b : Builtin} {params : List Value} {v w : Value} {index : ℕ}

section requests

theorem steers_site : site.Asks b.Steers := asks_request.2 trivial

theorem steers_machine : machine.Asks b.Steers := steers_site.bind fun _ => asks_pure _

theorem steers_exchange (drop : ℕ) (values : List Value) : (exchange drop values).Asks b.Steers :=
  asks_request.2 trivial

theorem steers_adopt (drop : ℕ) (v : Value) : (adopt drop v).Asks b.Steers := asks_request.2 trivial

theorem steers_release (v : Value) : (release v).Asks b.Steers := asks_request.2 trivial

theorem steers_createArray (access : Access) (items : List Value) :
    (createArray access items).Asks b.Steers := asks_request.2 trivial

theorem steers_setItem (array : Value) (index : ℕ) (v : Value) :
    (setItem array index v).Asks b.Steers := asks_request.2 trivial

theorem steers_define (dictionary : Value) (name : String) (v : Value) :
    (define dictionary name v).Asks b.Steers := asks_request.2 trivial

theorem steers_call (v : Value) : (call v).Asks b.Steers := asks_request.2 trivial

theorem steers_setLocal (name : String) (v : Value) : (setLocal name v).Asks b.Steers :=
  asks_request.2 trivial

theorem steers_setState {next : Continuation} (h : next.isPopping = true → b.Defers next) :
    (setState next).Asks b.Steers := asks_request.2 h

end requests

/-! ### Reading -/

section reading

theorem steers_read (f : Machine → Reading α) : (read f).Asks b.Steers :=
  steers_machine.bind fun _ => (asks_ofSound _).bind fun _ => asks_ofExcept _

theorem steers_ownFrame : ownFrame.Asks b.Steers :=
  (steers_site.bind fun _ => asks_ofOption _ _).bind fun _ => steers_machine.bind fun _ =>
    asks_ofSound _

theorem steers_state : state.Asks b.Steers := steers_ownFrame.bind fun _ => asks_pure _

theorem steers_local (name : String) : (local? name).Asks b.Steers :=
  steers_ownFrame.bind fun _ => steers_machine.bind fun _ => asks_ofSound _

theorem steers_expectLocal (name : String) : (expectLocal name).Asks b.Steers :=
  (steers_local name).bind fun _ => asks_ofOption _ _

theorem steers_currentOperator : currentOperator.Asks b.Steers := by
  refine (steers_site.bind fun _ => asks_ofOption _ _).bind fun _ => steers_machine.bind fun _ => ?_
  split
  · exact asks_pure _
  · exact asks_fail _

theorem steers_markDepth : markDepth.Asks b.Steers := steers_machine.bind fun _ => asks_ofExcept _

theorem steers_locate (name : String) : (locate name).Asks b.Steers :=
  steers_machine.bind fun _ => asks_ofSound _

theorem steers_currentScope : currentScope.Asks b.Steers :=
  steers_machine.bind fun _ => asks_ofExcept _

theorem steers_condition : condition.Asks b.Steers := steers_machine.bind fun _ => asks_pure _

theorem steers_aboveMark : aboveMark.Asks b.Steers :=
  steers_markDepth.bind fun _ => steers_machine.bind fun _ => asks_pure _

theorem steers_matched (params : List Value) (index : ℕ) : (matched params index).Asks b.Steers :=
  asks_ofOption _ _

theorem steers_matchedWord (params : List Value) (index : ℕ) :
    (matchedWord params index).Asks b.Steers :=
  (steers_matched params index).bind fun _ => asks_ofOption _ _

theorem steers_matchedBoolean (params : List Value) (index : ℕ) :
    (matchedBoolean params index).Asks b.Steers :=
  (steers_matched params index).bind fun _ => asks_ofOption _ _

theorem steers_matchedName (params : List Value) (index : ℕ) :
    (matchedName params index).Asks b.Steers :=
  (steers_matched params index).bind fun _ => asks_ofOption _ _

theorem steers_toIndex (n : Word) : (toIndex n).Asks b.Steers := asks_ofOption _ _

end reading

/-! ### Operators that are invoked once -/

section once

theorem steers_combine (name : String) (f : Word → Word → Option Word) (params : List Value) :
    (combine name f params).Asks b.Steers :=
  (steers_matchedWord _ _).bind fun _ => (steers_matchedWord _ _).bind fun _ =>
    (asks_ofOption _ _).bind fun _ => steers_exchange _ _

theorem steers_divide (name : String) (f : Word → Word → Option Word) (params : List Value) :
    (divide name f params).Asks b.Steers := by
  refine (steers_matchedWord _ _).bind fun _ => ?_
  split
  · exact (asks_fail _).bind fun _ => steers_combine name f params
  · exact steers_combine name f params

theorem steers_combineLogic (booleans : Bool → Bool → Bool) (words : Word → Word → Word)
    (params : List Value) : (combineLogic booleans words params).Asks b.Steers := by
  refine (steers_matched _ _).bind fun _ => (steers_matched _ _).bind fun _ => ?_
  split
  · exact steers_exchange _ _
  · exact steers_exchange _ _
  · exact asks_fail _

theorem steers_negateLogic (params : List Value) : (negateLogic params).Asks b.Steers := by
  refine (steers_matched _ _).bind fun _ => ?_
  split
  · exact steers_exchange _ _
  · exact steers_exchange _ _
  · exact asks_fail _

theorem steers_rollOperands (params : List Value) : (rollOperands params).Asks b.Steers := by
  refine (steers_matchedWord _ _).bind fun _ => (steers_matchedWord _ _).bind fun _ =>
    (steers_toIndex _).bind fun _ => steers_machine.bind fun _ => ?_
  dsimp only
  split
  · exact (asks_fail _).bind fun _ => steers_exchange _ _
  · exact steers_exchange _ _

theorem steers_setItems (array : Value) (index : ℕ) (values : List Value) :
    (setItems array index values).Asks b.Steers := by
  induction values generalizing index with
  | nil => trivial
  | cons v rest ih => exact (steers_setItem _ _ _).bind fun _ => ih (index + 1)

theorem steers_fillArray (params : List Value) : (fillArray params).Asks b.Steers := by
  refine (steers_matched _ _).bind fun _ => (steers_read _).bind fun _ =>
    steers_machine.bind fun _ => ?_
  dsimp only
  split
  · exact (asks_fail _).bind fun _ => (steers_setItems _ _ _).bind fun _ => steers_exchange _ _
  · exact (steers_setItems _ _ _).bind fun _ => steers_exchange _ _

theorem steers_lengthOf (v : Value) : (lengthOf v).Asks b.Steers := by
  unfold lengthOf
  split
  · exact (steers_read _).bind fun _ => asks_pure _
  · exact (steers_read _).bind fun _ => asks_pure _
  · exact asks_pure _
  · exact asks_pure _
  · exact asks_fail _

theorem steers_itemAt (container key : Value) : (itemAt container key).Asks b.Steers := by
  unfold itemAt
  split
  · exact (asks_ofOption _ _).bind fun _ => (steers_read _).bind fun _ => asks_ofOption _ _
  · exact (asks_ofOption _ _).bind fun _ => (asks_ofOption _ _).bind fun _ => asks_pure _
  · exact (asks_ofOption _ _).bind fun _ => (steers_read _).bind fun _ => asks_ofOption _ _
  · exact asks_fail _

theorem steers_storeAt (container key v : Value) : (storeAt container key v).Asks b.Steers := by
  unfold storeAt
  split
  · exact (asks_ofOption _ _).bind fun _ => (steers_read _).bind fun _ =>
      (asks_ofOption _ _).bind fun _ => steers_setItem _ _ _
  · exact (asks_ofOption _ _).bind fun _ => steers_define _ _ _
  · exact asks_fail _
  · exact asks_fail _

theorem steers_collectArray (access : Access) : (collectArray access).Asks b.Steers :=
  steers_aboveMark.bind fun _ => (steers_createArray _ _).bind fun _ => steers_adopt _ _

theorem steers_defineAll (dictionary : Value) (entries : List (String × Value)) :
    (defineAll dictionary entries).Asks b.Steers := by
  induction entries with
  | nil => trivial
  | cons entry rest ih =>
    exact ((steers_define _ _ _).rescue fun _ => (steers_release _).bind fun _ => asks_raise _).bind
      fun _ => ih

theorem steers_endDictionary (params : List Value) : (endDictionary params).Asks b.Steers := by
  refine steers_aboveMark.bind fun _ => ?_
  have build (items : List Value) : (Program.ofExcept (pairs items) >>= fun entries =>
      createDictionary >>= fun dictionary => defineAll dictionary entries >>= fun _ =>
        adopt (items.length + 1) dictionary : Operation Unit).Asks b.Steers :=
    (asks_ofExcept _).bind fun _ => (asks_request.2 trivial).bind fun _ =>
      (steers_defineAll _ _).bind fun _ => steers_adopt _ _
  split
  · exact (asks_fail _).bind fun _ => build _
  · exact build _

theorem steers_locateName (params : List Value) : (locateName params).Asks b.Steers := by
  refine (steers_matchedName _ _).bind fun _ => (steers_locate _).bind fun _ => ?_
  split
  · exact steers_exchange _ _
  · exact steers_exchange _ _

theorem steers_executeTop (params : List Value) : (executeTop params).Asks b.Steers := by
  refine (steers_matched _ _).bind fun _ => ?_
  split
  · exact (steers_call _).bind fun _ => steers_exchange _ _
  · exact asks_pure _

theorem steers_executeIf (params : List Value) : (executeIf params).Asks b.Steers := by
  refine (steers_matched _ _).bind fun _ => (steers_matchedBoolean _ _).bind fun _ => ?_
  split
  · exact (steers_call _).bind fun _ => steers_exchange _ _
  · exact steers_exchange _ _

theorem steers_executeEither (params : List Value) : (executeEither params).Asks b.Steers :=
  (steers_matched _ _).bind fun _ => (steers_matched _ _).bind fun _ =>
    (steers_matchedBoolean _ _).bind fun _ => (steers_call _).bind fun _ => steers_exchange _ _

theorem steers_leaveLoop (params : List Value) : (leaveLoop params).Asks b.Steers := by
  refine (steers_site.bind fun _ => asks_pure _).bind fun _ => ?_
  split
  · exact asks_fail _
  · exact asks_fail _

end once

/-! ### Operators that are invoked again -/

section again

theorem steers_endRound : endRound.Asks b.Steers := by
  refine steers_condition.bind fun c => ?_
  split
  · exact steers_setState nofun
  · exact (asks_request.2 trivial).bind fun _ => asks_pure _
  · exact asks_pure _

theorem steers_repeatBlock (params : List Value) :
    (repeatBlock params).Asks Builtin.repeatBlock.Steers := by
  have round : (repeatBlock []).Asks Builtin.repeatBlock.Steers := by
    refine Asks.bind (p := state) steers_state fun c => ?_
    split
    · refine (steers_expectLocal _).bind fun _ => (asks_ofOption _ _).bind fun _ => ?_
      split
      · exact (steers_setLocal _ _).bind fun _ => (steers_expectLocal _).bind fun _ =>
          (steers_call _).bind fun _ => steers_setState fun _ => .repeatBlock
      · exact asks_pure _
    · exact steers_endRound
    · exact asks_fail _
  cases params with
  | nil => exact round
  | cons v rest =>
    exact Asks.bind (p := matched (v :: rest) 0) (steers_matched _ _) fun _ =>
      (steers_matchedWord _ _).bind fun _ => (steers_toIndex _).bind fun _ =>
        (steers_setLocal _ _).bind fun _ => (steers_setLocal _ _).bind fun _ =>
          (steers_exchange _ _).bind fun _ => round

theorem steers_loopBlock (params : List Value) : (loopBlock params).Asks Builtin.loop.Steers := by
  have round : (loopBlock []).Asks Builtin.loop.Steers := by
    refine Asks.bind (p := state) steers_state fun c => ?_
    split
    · exact (steers_expectLocal _).bind fun _ => (steers_call _).bind fun _ =>
        steers_setState fun _ => .loop
    · exact steers_endRound
    · exact asks_fail _
  cases params with
  | nil => exact round
  | cons v rest =>
    exact Asks.bind (p := matched (v :: rest) 0) (steers_matched _ _) fun _ =>
      (steers_setLocal _ _).bind fun _ => (steers_exchange _ _).bind fun _ => round

theorem steers_stoppedBlock (params : List Value) :
    (stoppedBlock params).Asks Builtin.stopped.Steers := by
  refine steers_state.bind fun c => ?_
  split
  · exact (steers_matched _ _).bind fun _ => (steers_call _).bind fun _ =>
      (steers_exchange _ _).bind fun _ => steers_setState fun _ => .stopped
  · refine steers_condition.bind fun c => ?_
    split
    · exact steers_exchange _ _
    · split
      · exact (asks_request.2 trivial).bind fun _ => steers_exchange _ _
      · exact asks_pure _
  · exact asks_fail _

theorem steers_ensureFinalizer (params : List Value) :
    (ensureFinalizer params).Asks Builtin.ensure.Steers := by
  refine steers_state.bind fun c => ?_
  split
  · exact (steers_matched _ _).bind fun _ => (steers_matched _ _).bind fun _ =>
      (steers_setLocal _ _).bind fun _ => (steers_call _).bind fun _ =>
        (steers_exchange _ _).bind fun _ => steers_setState fun _ => .ensure
  · split
    · exact (asks_request.2 trivial).bind fun _ => (steers_expectLocal _).bind fun _ =>
        (steers_call _).bind fun _ => steers_setState fun _ => .finalize
    · split
      · exact (asks_request.2 trivial).bind fun _ => steers_setState nofun
      · exact asks_fail _

theorem steers_finishBind (target : Value) : (finishBind target).Asks b.Steers :=
  (steers_read _).bind fun _ => (steers_createArray _ _).bind fun _ => steers_adopt _ _

theorem steers_beginBind (params : List Value) : (beginBind params).Asks b.Steers := by
  refine (steers_matched _ _).bind fun _ => (steers_read _).bind fun _ =>
    (steers_createArray _ _).bind fun _ => (steers_setLocal _ _).attempt.bind fun _ =>
      (steers_release _).bind fun _ => (asks_ofResult _).bind fun _ =>
        (steers_exchange _ _).bind fun _ => ?_
  split
  · exact steers_finishBind _
  · exact steers_setState nofun

theorem steers_collectBound (target : Value) : (collectBound target).Asks b.Steers := by
  refine ((steers_local _).bind fun _ => asks_pure _).bind fun _ => ?_
  split
  · exact asks_pure _
  · exact steers_machine.bind fun _ => (asks_ofOption _ _).bind fun _ =>
      (steers_setItem _ _ _).bind fun _ => (steers_exchange _ _).bind fun _ => steers_setLocal _ _

theorem steers_bindItem (target item : Value) (index : ℕ) (step : Word) :
    (bindItem target index item step).Asks b.Steers := by
  unfold bindItem
  split
  · refine (steers_locate _).bind fun _ => ?_
    split
    · split
      · exact steers_setItem _ _ _
      · exact asks_pure _
    · exact asks_pure _
  · exact steers_currentOperator.bind fun _ => (steers_exchange _ _).bind fun _ =>
      (steers_call _).bind fun _ => steers_setLocal _ _
  · exact asks_pure _

theorem steers_bindBlock (params : List Value) : (bindBlock params).Asks b.Steers := by
  unfold bindBlock
  split
  · exact steers_beginBind _
  · refine steers_state.bind fun c => ?_
    split
    · refine (steers_expectLocal _).bind fun _ => (steers_collectBound _).bind fun _ =>
        (steers_toIndex _).bind fun _ => (steers_read _).bind fun _ => ?_
      split
      · exact (steers_finishBind _).bind fun _ => steers_setState nofun
      · exact (steers_bindItem _ _ _ _).bind fun _ => steers_setState nofun
    · exact asks_fail _

end again

end Operation

open Operation Program in
/-- **A builtin asks for the transitions it may make**, whatever its operands and the machine are. -/
theorem Builtin.operation_steers (b : Builtin) (params : List Value) :
    (b.operation params).Asks b.Steers := by
  cases b with
  | trueValue | falseValue | nullValue | mark | openArray | openDictionary => exact asks_pure _
  | drop => exact steers_exchange _ _
  | duplicate => exact (steers_matched _ _).bind fun _ => steers_exchange _ _
  | exchange =>
    exact (steers_matched _ _).bind fun _ => (steers_matched _ _).bind fun _ => steers_exchange _ _
  | clear => exact asks_request.2 trivial
  | count => exact (steers_machine.bind fun _ => asks_pure _).bind fun _ => steers_exchange _ _
  | index =>
    exact (steers_matchedWord _ _).bind fun _ => (steers_toIndex _).bind fun _ =>
      steers_machine.bind fun _ => (asks_ofOption _ _).bind fun _ => steers_exchange _ _
  | roll => exact steers_rollOperands _
  | closeArray => exact steers_collectArray _
  | openBlock => exact (steers_exchange _ _).bind fun _ => asks_request.2 trivial
  | closeBlock => exact (steers_collectArray _).bind fun _ => asks_request.2 trivial
  | closeDictionary => exact steers_endDictionary params
  | clearToMark => exact steers_markDepth.bind fun _ => steers_exchange _ _
  | countToMark => exact steers_markDepth.bind fun _ => steers_exchange _ _
  | add | sub | mul => exact steers_combine _ _ _
  | div | mod => exact steers_divide _ _ _
  | neg | abs =>
    exact (steers_matchedWord _ _).bind fun _ => (asks_ofOption _ _).bind fun _ =>
      steers_exchange _ _
  | equal | notEqual =>
    exact (steers_matched _ _).bind fun _ => (steers_matched _ _).bind fun _ => steers_exchange _ _
  | less | greater =>
    exact (steers_matchedWord _ _).bind fun _ => (steers_matchedWord _ _).bind fun _ =>
      steers_exchange _ _
  | negate => exact steers_negateLogic _
  | conjoin | disjoin => exact steers_combineLogic _ _ _
  | array =>
    exact (steers_matchedWord _ _).bind fun _ => (steers_toIndex _).bind fun _ =>
      (asks_request.2 trivial).bind fun _ => steers_adopt _ _
  | unpack => exact (steers_matched _ _).bind fun _ => (steers_read _).bind fun _ => steers_exchange _ _
  | fill => exact steers_fillArray _
  | length =>
    exact (steers_matched _ _).bind fun _ => (steers_lengthOf _).bind fun _ => steers_exchange _ _
  | get =>
    exact (steers_matched _ _).bind fun _ => (steers_matched _ _).bind fun _ =>
      (steers_itemAt _ _).bind fun _ => steers_exchange _ _
  | put =>
    exact (steers_matched _ _).bind fun _ => (steers_matched _ _).bind fun _ =>
      (steers_matched _ _).bind fun _ => (steers_storeAt _ _ _).bind fun _ => steers_exchange _ _
  | dictionary =>
    exact (steers_matchedWord _ _).bind fun _ => (steers_toIndex _).bind fun _ =>
      (asks_request.2 trivial).bind fun _ => steers_adopt _ _
  | define =>
    exact (steers_matched _ _).bind fun _ => (steers_matchedName _ _).bind fun _ =>
      steers_currentScope.bind fun _ => (steers_define _ _ _).bind fun _ => steers_exchange _ _
  | openScope =>
    exact (steers_matched _ _).bind fun _ => (asks_request.2 trivial).bind fun _ =>
      steers_exchange _ _
  | closeScope => exact asks_request.2 trivial
  | load =>
    exact (steers_matchedName _ _).bind fun _ => (steers_read _).bind fun _ => steers_exchange _ _
  | locate => exact steers_locateName _
  | known =>
    exact (steers_matchedName _ _).bind fun _ => (steers_matched _ _).bind fun _ =>
      (steers_read _).bind fun _ => steers_exchange _ _
  | currentScope => exact steers_currentScope.bind fun _ => steers_exchange _ _
  | execute => exact steers_executeTop _
  | execIf => exact steers_executeIf _
  | execEither => exact steers_executeEither _
  | repeatBlock => exact steers_repeatBlock _
  | loop => exact steers_loopBlock _
  | leaveLoop => exact steers_leaveLoop params
  | stop => exact asks_fail _
  | stopped => exact steers_stoppedBlock _
  | ensure => exact steers_ensureFinalizer _
  | bind => exact steers_bindBlock _

end StackScript
