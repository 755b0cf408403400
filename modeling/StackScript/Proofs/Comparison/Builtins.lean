import StackScript.Proofs.Comparison.Operations

/-!
# Comparing the builtin operators

With operands that are alike, each builtin is alike to itself (`Builtin.operation_alike`): what it does
depends on the handles of containers only as far as they stand for each other.
-/

namespace StackScript

open Likeness

namespace Operation

open Setting

variable {S : Setting} {params params' vs ws : List Value} {v w a b c d : Value}

/-! ### Matched operands -/

section matched

variable (h : List.Forall₂ S.Values params params') (index : ℕ)
include h

theorem alike_matched : S.Alike S.Values (matched params index) (matched params' index) :=
  alike_ofOption _ (rel_getElem? h index)

theorem alike_matchedWord : S.Alike Eq (matchedWord params index) (matchedWord params' index) :=
  (alike_matched h index).bind fun _ _ h => alike_ofOption_eq _ h.toWord?

theorem alike_matchedBoolean :
    S.Alike Eq (matchedBoolean params index) (matchedBoolean params' index) :=
  (alike_matched h index).bind fun _ _ h => alike_ofOption_eq _ h.toBoolean?

theorem alike_matchedName : S.Alike Eq (matchedName params index) (matchedName params' index) :=
  (alike_matched h index).bind fun _ _ h => alike_ofOption_eq _ h.toName?

end matched

theorem alike_toIndex (n : Word) : S.Alike Eq (toIndex n) (toIndex n) := alike_ofOption_eq _ rfl

theorem values_integer (n : Word) : S.Values (.integer n) (.integer n) := .of_plain _ rfl

theorem values_boolean (b : Bool) : S.Values (.boolean b) (.boolean b) := .of_plain _ rfl

/-! ### Operators that are invoked once -/

section once

theorem alike_exchangeTop (h : List.Forall₂ S.Values params params') :
    S.Alike (fun _ _ => True) (exchangeTop params) (exchangeTop params') :=
  (alike_matched h 0).bind fun _ _ htop => (alike_matched h 1).bind fun _ _ hbelow =>
    alike_exchange 2 (.cons htop (.cons hbelow .nil))

theorem alike_copyOperand (h : List.Forall₂ S.Values params params') :
    S.Alike (fun _ _ => True) (copyOperand params) (copyOperand params') := by
  refine (alike_matchedWord h 0).bind ?_
  rintro n _ rfl
  refine (alike_toIndex n).bind ?_
  rintro depth _ rfl
  exact alike_machine.bind fun _ _ hmn => (alike_operand _ _ hmn).bind fun _ _ hv =>
    alike_exchange 1 (.cons hv .nil)

theorem rel_rotated (h : List.Forall₂ S.Values vs ws) (steps : ℤ) :
    List.Forall₂ S.Values (rotated vs steps) (rotated ws steps) := by
  unfold rotated
  rw [h.length_eq]
  exact List.rel_append (List.forall₂_drop _ h) (List.forall₂_take _ h)

theorem alike_rollOperands (h : List.Forall₂ S.Values params params') :
    S.Alike (fun _ _ => True) (rollOperands params) (rollOperands params') := by
  refine (alike_matchedWord h 0).bind ?_
  rintro steps _ rfl
  refine (alike_matchedWord h 1).bind ?_
  rintro n _ rfl
  refine (alike_toIndex n).bind ?_
  rintro count _ rfl
  refine alike_machine.bind fun m n hmn => ?_
  have rolled := alike_exchange (count + 2) <| rel_rotated (List.rel_reverse
    (List.forall₂_take count (List.forall₂_drop 2 hmn.operands.items))) steps.toInt
  refine alike_ite ?_ (alike_fail_bind _ _ _) rolled
  rw [show m.operands.length = n.operands.length from hmn.operands.items.length_eq]

theorem alike_combine (name : String) (f : Word → Word → Option Word)
    (h : List.Forall₂ S.Values params params') :
    S.Alike (fun _ _ => True) (combine name f params) (combine name f params') := by
  refine (alike_matchedWord h 0).bind ?_
  rintro right _ rfl
  refine (alike_matchedWord h 1).bind ?_
  rintro left _ rfl
  refine (alike_ofOption_eq _ rfl).bind ?_
  rintro result _ rfl
  exact alike_exchange 2 (.cons (values_integer result) .nil)

theorem alike_divide (name : String) (f : Word → Word → Option Word)
    (h : List.Forall₂ S.Values params params') :
    S.Alike (fun _ _ => True) (divide name f params) (divide name f params') := by
  refine (alike_matchedWord h 0).bind ?_
  rintro right _ rfl
  exact alike_ite .rfl (alike_fail_bind _ _ _) (alike_combine name f h)

theorem alike_transform (name : String) (f : Word → Option Word)
    (h : List.Forall₂ S.Values params params') :
    S.Alike (fun _ _ => True) (transform name f params) (transform name f params') := by
  refine (alike_matchedWord h 0).bind ?_
  rintro n _ rfl
  refine (alike_ofOption_eq _ rfl).bind ?_
  rintro result _ rfl
  exact alike_exchange 1 (.cons (values_integer result) .nil)

theorem equal_eq (hv : S.Values a b) (hw : S.Values c d) : equal a c = equal b d := by
  unfold equal
  rw [hv.toText?, hw.toText?, hv.same hw]

theorem alike_compareEqual (expected : Bool) (h : List.Forall₂ S.Values params params') :
    S.Alike (fun _ _ => True) (compareEqual expected params) (compareEqual expected params') := by
  refine (alike_matched h 1).bind fun _ _ hleft => (alike_matched h 0).bind fun _ _ hright => ?_
  dsimp only
  rw [equal_eq hleft hright]
  exact alike_exchange 2 (.cons (values_boolean _) .nil)

theorem alike_compareWords (related : Word → Word → Bool) (h : List.Forall₂ S.Values params params') :
    S.Alike (fun _ _ => True) (compareWords related params) (compareWords related params') := by
  refine (alike_matchedWord h 1).bind ?_
  rintro left _ rfl
  refine (alike_matchedWord h 0).bind ?_
  rintro right _ rfl
  exact alike_exchange 2 (.cons (values_boolean _) .nil)

theorem alike_combineLogic (booleans : Bool → Bool → Bool) (words : Word → Word → Word)
    (h : List.Forall₂ S.Values params params') :
    S.Alike (fun _ _ => True) (combineLogic booleans words params)
      (combineLogic booleans words params') := by
  refine (alike_matched h 0).bind fun v w hright => (alike_matched h 1).bind fun v' w' hleft => ?_
  rw [hright.kind, hleft.kind]
  have hr := hright.datum
  have hl := hleft.datum
  generalize v.datum = x at hr
  generalize w.datum = y at hr
  generalize v'.datum = x' at hl
  generalize w'.datum = y' at hl
  cases hl with
  | boolean a =>
    cases hr with
    | boolean b => exact alike_exchange 2 (.cons (values_boolean _) .nil)
    | _ => exact alike_fail _
  | integer a =>
    cases hr with
    | integer b => exact alike_exchange 2 (.cons (values_integer _) .nil)
    | _ => exact alike_fail _
  | _ => exact alike_fail _

theorem alike_negateLogic (h : List.Forall₂ S.Values params params') :
    S.Alike (fun _ _ => True) (negateLogic params) (negateLogic params') := by
  refine (alike_matched h 0).bind fun v w hv => ?_
  rw [hv.kind]
  have hd := hv.datum
  generalize v.datum = x at hd
  generalize w.datum = y at hd
  cases hd with
  | boolean a => exact alike_exchange 1 (.cons (values_boolean _) .nil)
  | integer a => exact alike_exchange 1 (.cons (values_integer _) .nil)
  | _ => exact alike_fail _

theorem alike_newArray (h : List.Forall₂ S.Values params params') :
    S.Alike (fun _ _ => True) (newArray params) (newArray params') := by
  refine (alike_matchedWord h 0).bind ?_
  rintro n _ rfl
  refine (alike_toIndex n).bind ?_
  rintro length _ rfl
  exact (alike_createFilledArray _ _ (.of_plain _ rfl)).bind fun _ _ hv => alike_adopt 1 hv

theorem alike_unpackArray (h : List.Forall₂ S.Values params params') :
    S.Alike (fun _ _ => True) (unpackArray params) (unpackArray params') :=
  (alike_matched h 0).bind fun _ _ hv => (alike_items hv).bind fun _ _ hitems =>
    alike_exchange 1 (List.rel_append hitems (.cons hv .nil))

theorem alike_setItems (ha : S.Values a b) (index : ℕ) (h : List.Forall₂ S.Values vs ws) :
    S.Alike (fun _ _ => True) (setItems a index vs) (setItems b index ws) := by
  induction h generalizing index with
  | nil => exact alike_pure trivial
  | cons h _ ih => exact (alike_setItem ha index h).bind fun _ _ _ => ih (index + 1)

theorem alike_fillArray (h : List.Forall₂ S.Values params params') :
    S.Alike (fun _ _ => True) (fillArray params) (fillArray params') := by
  refine (alike_matched h 0).bind fun v w hv => (alike_items hv).bind fun vs ws hitems =>
    alike_machine.bind fun m n hmn => ?_
  dsimp only
  rw [hitems.length_eq]
  have filled := (alike_setItems hv 0 (List.rel_reverse (List.forall₂_take ws.length
    (List.forall₂_drop 1 hmn.operands.items)))).bind fun _ _ _ =>
      alike_exchange (ws.length + 1) (.cons hv .nil)
  refine alike_ite ?_ (alike_fail_bind _ _ _) filled
  rw [show m.operands.length = n.operands.length from hmn.operands.items.length_eq]

theorem alike_lengthOf (hv : S.Values v w) : S.Alike Eq (lengthOf v) (lengthOf w) := by
  have hitems := (alike_items hv).bind fun _ _ h => alike_pure (A := Eq) h.length_eq
  have hnames := (alike_names hv).bind fun _ _ h => alike_pure (A := Eq) (congrArg List.length h)
  have hd := hv.datum
  unfold lengthOf
  rw [hv.kind]
  generalize v.datum = x at hd
  generalize w.datum = y at hd
  cases hd with
  | array => exact hitems
  | dictionary => exact hnames
  | string => exact alike_pure rfl
  | name => exact alike_pure rfl
  | _ => exact alike_fail _

theorem alike_replaceByLength (h : List.Forall₂ S.Values params params') :
    S.Alike (fun _ _ => True) (replaceByLength params) (replaceByLength params') := by
  refine (alike_matched h 0).bind fun _ _ hv => (alike_lengthOf hv).bind ?_
  rintro length _ rfl
  exact alike_exchange 1 (.cons (values_integer _) .nil)

theorem alike_itemAt (hv : S.Values v w) (hk : S.Values a b) :
    S.Alike S.Values (itemAt v a) (itemAt w b) := by
  have atIndex : S.Alike S.Values
      (do let index ← Program.ofOption .arrayIndexKind a.toWord?
          let all ← items v
          Program.ofOption (.indexRange index all.length) (index.index?.bind (all[·]?)))
      (do let index ← Program.ofOption .arrayIndexKind b.toWord?
          let all ← items w
          Program.ofOption (.indexRange index all.length) (index.index?.bind (all[·]?))) := by
    refine (alike_ofOption_eq _ hk.toWord?).bind ?_
    rintro index _ rfl
    refine (alike_items hv).bind fun vs ws h => ?_
    rw [h.length_eq]
    refine alike_ofOption _ ?_
    cases index.index? with
    | none => exact .none
    | some n => exact rel_getElem? h n
  have atName : S.Alike S.Values
      (do let name ← Program.ofOption .keyKind a.toName?
          Program.ofOption (.unbound name) (← entry? v name))
      (do let name ← Program.ofOption .keyKind b.toName?
          Program.ofOption (.unbound name) (← entry? w name)) := by
    refine (alike_ofOption_eq _ hk.toName?).bind ?_
    rintro name _ rfl
    exact (alike_entry hv name).bind fun _ _ h => alike_ofOption _ h
  have hd := hv.datum
  unfold itemAt
  rw [hv.kind]
  generalize v.datum = x at hd
  generalize w.datum = y at hd
  cases hd with
  | array => exact atIndex
  | dictionary => exact atName
  | string text executable =>
    refine (alike_ofOption_eq _ hk.toWord?).bind ?_
    rintro index _ rfl
    refine (alike_ofOption_eq _ rfl).bind ?_
    rintro byte _ rfl
    exact alike_pure (values_integer _)
  | _ => exact alike_fail _

theorem alike_getItem (h : List.Forall₂ S.Values params params') :
    S.Alike (fun _ _ => True) (getItem params) (getItem params') :=
  (alike_matched h 0).bind fun _ _ hk => (alike_matched h 1).bind fun _ _ hv =>
    (alike_itemAt hv hk).bind fun _ _ hitem => alike_exchange 2 (.cons hitem .nil)

theorem alike_storeAt (ha : S.Values a b) (hk : S.Values c d) (hv : S.Values v w) :
    S.Alike (fun _ _ => True) (storeAt a c v) (storeAt b d w) := by
  have atIndex : S.Alike (fun _ _ => True)
      (do let index ← Program.ofOption .arrayIndexKind c.toWord?
          let position ← toPosition index (← items a).length
          setItem a position v)
      (do let index ← Program.ofOption .arrayIndexKind d.toWord?
          let position ← toPosition index (← items b).length
          setItem b position w) := by
    refine (alike_ofOption_eq _ hk.toWord?).bind ?_
    rintro index _ rfl
    refine (alike_items ha).bind fun vs ws h => ?_
    rw [h.length_eq]
    refine (alike_ofOption_eq _ rfl).bind ?_
    rintro position _ rfl
    exact alike_setItem ha position hv
  have atName : S.Alike (fun _ _ => True)
      (do let name ← Program.ofOption .keyKind c.toName?
          define a name v)
      (do let name ← Program.ofOption .keyKind d.toName?
          define b name w) := by
    refine (alike_ofOption_eq _ hk.toName?).bind ?_
    rintro name _ rfl
    exact alike_define ha name hv
  have hd := ha.datum
  unfold storeAt
  rw [ha.kind]
  generalize a.datum = x at hd
  generalize b.datum = y at hd
  cases hd with
  | array => exact atIndex
  | dictionary => exact atName
  | _ => exact alike_fail _

theorem alike_putItem (h : List.Forall₂ S.Values params params') :
    S.Alike (fun _ _ => True) (putItem params) (putItem params') :=
  (alike_matched h 0).bind fun _ _ hv => (alike_matched h 1).bind fun _ _ hk =>
    (alike_matched h 2).bind fun _ _ ha => (alike_storeAt ha hk hv).bind fun _ _ _ => alike_pop 3

theorem alike_collectArray (access : Access) :
    S.Alike (fun _ _ => True) (collectArray access) (collectArray access) :=
  alike_aboveMark.bind fun _ _ h => (alike_createArray access h).bind fun _ _ hv => by
    rw [h.length_eq]
    exact alike_adopt _ hv

theorem rel_pairs (h : List.Forall₂ S.Values vs ws) :
    Results Eq (List.Forall₂ fun a b => a.1 = b.1 ∧ S.Values a.2 b.2) (pairs vs) (pairs ws) := by
  induction vs using pairs.induct generalizing ws with
  | case1 key v rest name hname ih =>
    obtain _ | ⟨hk, _ | ⟨hv, hrest⟩⟩ := h
    unfold pairs
    rw [← hk.toName?, hname]
    have hall := ih hrest
    generalize pairs rest = r at hall
    generalize pairs _ = r' at hall
    cases hall with
    | ok h => exact .ok (.cons ⟨rfl, hv⟩ h)
    | error h => exact .error h
  | case2 key v rest hname =>
    obtain _ | ⟨hk, _ | ⟨hv, hrest⟩⟩ := h
    unfold pairs
    rw [← hk.toName?, hname, hk.kind]
    exact .error rfl
  | case3 =>
    cases h
    exact .ok .nil
  | case4 v =>
    obtain _ | ⟨_, _ | _⟩ := h
    exact .error rfl

theorem alike_defineAll (ha : S.Values a b) {l k : List (String × Value)}
    (h : List.Forall₂ (fun a b => a.1 = b.1 ∧ S.Values a.2 b.2) l k) :
    S.Alike (fun _ _ => True) (defineAll a l) (defineAll b k) := by
  induction h with
  | nil => exact alike_pure trivial
  | @cons x y l k h _ ih =>
    obtain ⟨name, v⟩ := x
    obtain ⟨_, w⟩ := y
    obtain ⟨rfl, hv⟩ := h
    exact (alike_rescue_release (alike_define ha name hv) ha).bind fun _ _ _ => ih

theorem alike_endDictionary (params params' : List Value) :
    S.Alike (fun _ _ => True) (endDictionary params) (endDictionary params') := by
  refine alike_aboveMark.bind fun vs ws h => ?_
  rw [h.length_eq]
  refine alike_ite .rfl (alike_fail_bind _ _ _) ?_
  exact (alike_ofExcept (rel_pairs h)).bind fun _ _ hpairs => alike_createDictionary.bind
    fun _ _ hv => (alike_defineAll hv hpairs).bind fun _ _ _ => alike_adopt _ hv

theorem alike_clearToMark (params params' : List Value) :
    S.Alike (fun _ _ => True) (clearToMark params) (clearToMark params') :=
  alike_markDepth.bind fun _ _ h => h ▸ alike_pop _

theorem alike_countToMark (params params' : List Value) :
    S.Alike (fun _ _ => True) (countToMark params) (countToMark params') :=
  alike_markDepth.bind fun _ _ h => h ▸ alike_push (values_integer _)

theorem alike_newDictionary (h : List.Forall₂ S.Values params params') :
    S.Alike (fun _ _ => True) (newDictionary params) (newDictionary params') := by
  refine (alike_matchedWord h 0).bind ?_
  rintro n _ rfl
  exact (alike_toIndex n).bind fun _ _ _ => alike_createDictionary.bind fun _ _ hv => alike_adopt 1 hv

theorem alike_bindName (h : List.Forall₂ S.Values params params') :
    S.Alike (fun _ _ => True) (bindName params) (bindName params') := by
  refine (alike_matched h 0).bind fun _ _ hv => (alike_matchedName h 1).bind ?_
  rintro name _ rfl
  exact alike_currentScope.bind fun _ _ hscope => (alike_define hscope name hv).bind
    fun _ _ _ => alike_pop 2

theorem alike_loadName (h : List.Forall₂ S.Values params params') :
    S.Alike (fun _ _ => True) (loadName params) (loadName params') := by
  refine (alike_matchedName h 0).bind ?_
  rintro name _ rfl
  exact (alike_lookup name).bind fun _ _ hv => alike_exchange 1 (.cons hv .nil)

theorem alike_locateName (h : List.Forall₂ S.Values params params') :
    S.Alike (fun _ _ => True) (locateName params) (locateName params') := by
  refine (alike_matchedName h 0).bind ?_
  rintro name _ rfl
  refine (alike_locate name).bind fun o o' hfound => ?_
  cases hfound with
  | some h => exact alike_exchange 1 (.cons h.1 (.cons (values_boolean _) .nil))
  | none => exact alike_exchange 1 (.cons (values_boolean _) .nil)

theorem alike_isKnown (h : List.Forall₂ S.Values params params') :
    S.Alike (fun _ _ => True) (isKnown params) (isKnown params') := by
  refine (alike_matchedName h 0).bind ?_
  rintro name _ rfl
  refine (alike_matched h 1).bind fun _ _ hv => (alike_entry hv name).bind fun o o' hentry => ?_
  cases hentry with
  | some h => exact alike_exchange 2 (.cons (values_boolean _) .nil)
  | none => exact alike_exchange 2 (.cons (values_boolean _) .nil)

theorem alike_executeTop (h : List.Forall₂ S.Values params params') :
    S.Alike (fun _ _ => True) (executeTop params) (executeTop params') := by
  refine (alike_matched h 0).bind fun v w hv => ?_
  rw [hv.isExecutable]
  exact alike_ite .rfl ((alike_call hv).bind fun _ _ _ => alike_pop 1) (alike_pure trivial)

theorem alike_executeIf (h : List.Forall₂ S.Values params params') :
    S.Alike (fun _ _ => True) (executeIf params) (executeIf params') := by
  refine (alike_matched h 0).bind fun _ _ hv => (alike_matchedBoolean h 1).bind ?_
  rintro b _ rfl
  exact alike_ite .rfl ((alike_call hv).bind fun _ _ _ => alike_pop 2) (alike_pop 2)

theorem alike_executeEither (h : List.Forall₂ S.Values params params') :
    S.Alike (fun _ _ => True) (executeEither params) (executeEither params') := by
  refine (alike_matched h 0).bind fun _ _ hother => (alike_matched h 1).bind fun _ _ htrue =>
    (alike_matchedBoolean h 2).bind ?_
  rintro b _ rfl
  have chosen := alike_ite (b := b = true) .rfl (alike_call htrue) (alike_call hother)
  cases b <;> exact chosen.bind fun _ _ _ => alike_pop 3

theorem alike_leaveLoop (params params' : List Value) :
    S.Alike (fun _ _ => True) (leaveLoop params) (leaveLoop params') := by
  refine alike_inLoop.bind ?_
  rintro b _ rfl
  exact alike_ite .rfl (alike_fail _) (alike_fail _)

end once

/-! ### Operators that are invoked again -/

section again

theorem alike_endRound : S.Alike (fun _ _ => True) endRound endRound := by
  refine alike_condition.bind ?_
  rintro c _ rfl
  split
  · exact alike_setState _
  · exact alike_intercept.bind fun _ _ _ => alike_pure trivial
  · exact alike_pure trivial

theorem alike_repeatBlock (h : List.Forall₂ S.Values params params') :
    S.Alike (fun _ _ => True) (repeatBlock params) (repeatBlock params') := by
  have round : S.Alike (fun _ _ => True) (repeatBlock []) (repeatBlock []) := by
    refine Alike.bind (p := state) (q := state) alike_state ?_
    rintro c _ rfl
    split
    · refine (alike_expectLocal "count").bind fun _ _ hc => (alike_ofOption_eq _ hc.toWord?).bind ?_
      rintro remaining _ rfl
      exact alike_ite .rfl
        ((alike_setLocal _ (values_integer _)).bind fun _ _ _ => (alike_expectLocal _).bind
          fun _ _ hb => (alike_call hb).bind fun _ _ _ => alike_setState _) (alike_pure trivial)
    · exact alike_endRound
    · exact alike_fail _
  cases h with
  | nil => exact round
  | @cons v w rest rest' hv hrest =>
    have h := List.Forall₂.cons hv hrest
    refine Alike.bind (p := matched (v :: rest) 0) (q := matched (w :: rest') 0) (alike_matched h 0)
      fun _ _ hb => (alike_matchedWord h 1).bind ?_
    rintro count _ rfl
    exact (alike_toIndex count).bind fun _ _ _ => (alike_setLocal _ hb).bind fun _ _ _ =>
      (alike_setLocal _ (values_integer _)).bind fun _ _ _ => (alike_pop 2).bind fun _ _ _ => round

theorem alike_loopBlock (h : List.Forall₂ S.Values params params') :
    S.Alike (fun _ _ => True) (loopBlock params) (loopBlock params') := by
  have round : S.Alike (fun _ _ => True) (loopBlock []) (loopBlock []) := by
    refine Alike.bind (p := state) (q := state) alike_state ?_
    rintro c _ rfl
    split
    · exact (alike_expectLocal _).bind fun _ _ hb => (alike_call hb).bind fun _ _ _ =>
        alike_setState _
    · exact alike_endRound
    · exact alike_fail _
  cases h with
  | nil => exact round
  | @cons v w rest rest' hv hrest =>
    exact Alike.bind (p := matched (v :: rest) 0) (q := matched (w :: rest') 0)
      (alike_matched (.cons hv hrest) 0) fun _ _ hb => (alike_setLocal _ hb).bind fun _ _ _ =>
        (alike_pop 1).bind fun _ _ _ => round

theorem alike_stoppedBlock (h : List.Forall₂ S.Values params params') :
    S.Alike (fun _ _ => True) (stoppedBlock params) (stoppedBlock params') := by
  refine alike_state.bind ?_
  rintro c _ rfl
  split
  · exact (alike_matched h 0).bind fun _ _ hb => (alike_call hb).bind fun _ _ _ =>
      (alike_pop 1).bind fun _ _ _ => alike_setState _
  · refine alike_condition.bind ?_
    rintro c _ rfl
    split
    · exact alike_push (values_boolean _)
    · exact alike_ite .rfl (alike_intercept.bind fun _ _ _ => alike_push (values_boolean _))
        (alike_pure trivial)
  · exact alike_fail _

theorem alike_ensureFinalizer (h : List.Forall₂ S.Values params params') :
    S.Alike (fun _ _ => True) (ensureFinalizer params) (ensureFinalizer params') := by
  refine alike_state.bind ?_
  rintro c _ rfl
  split
  · exact (alike_matched h 0).bind fun _ _ hfinalizer => (alike_matched h 1).bind fun _ _ hbody =>
      (alike_setLocal _ hfinalizer).bind fun _ _ _ => (alike_call hbody).bind fun _ _ _ =>
        (alike_pop 2).bind fun _ _ _ => alike_setState _
  · split
    · exact alike_stash.bind fun _ _ _ => (alike_expectLocal _).bind fun _ _ hb =>
        (alike_call hb).bind fun _ _ _ => alike_setState _
    · split
      · exact alike_restore.bind fun _ _ _ => alike_setState _
      · exact alike_fail _

theorem alike_finishBind (h : S.Values v w) :
    S.Alike (fun _ _ => True) (finishBind v) (finishBind w) :=
  (alike_items h).bind fun _ _ hitems => (alike_createArray _ hitems).bind fun _ _ hb =>
    alike_adopt 0 hb

theorem alike_beginBind (h : List.Forall₂ S.Values params params') :
    S.Alike (fun _ _ => True) (beginBind params) (beginBind params') := by
  have started (v : Value) (content : List Value) : (do
      let stored ← (setLocal "target" v).attempt
      release v
      Program.ofResult stored
      pop 1
      if content.isEmpty then finishBind v else setState (.running (.ofInt 1)) : Operation Unit) =
      ((setLocal "target" v).attempt >>= fun r => release v >>= fun _ => Program.ofResult r) >>=
        fun _ => pop 1 >>= fun _ =>
          if content.isEmpty then finishBind v else setState (.running (.ofInt 1)) := rfl
  refine (alike_matched h 0).bind fun _ _ hb => (alike_items hb).bind fun vs ws hcontent =>
    (alike_createArray _ hcontent).bind fun v w hv => ?_
  rw [started, started]
  refine (alike_attempt_release (alike_setLocal _ hv) hv).bind fun _ _ _ =>
    (alike_pop 1).bind fun _ _ _ => ?_
  rw [show vs.isEmpty = ws.isEmpty by cases hcontent <;> rfl]
  exact alike_ite .rfl (alike_finishBind hv) (alike_setState _)

theorem alike_awaitedItem : S.Alike Eq awaitedItem awaitedItem := by
  refine (alike_local "pending").bind fun o o' h => alike_pure ?_
  cases h with
  | none => rfl
  | some h => rw [Option.bind_some, Option.bind_some, h.toWord?]

theorem alike_collectBound (h : S.Values v w) :
    S.Alike (fun _ _ => True) (collectBound v) (collectBound w) := by
  refine alike_awaitedItem.bind ?_
  rintro o _ rfl
  split
  · exact alike_pure trivial
  · exact alike_machine.bind fun _ _ hmn => (alike_operand _ 0 hmn).bind fun _ _ hbound =>
      (alike_setItem h _ hbound).bind fun _ _ _ => (alike_pop 1).bind fun _ _ _ =>
        alike_setLocal _ (values_integer _)

theorem alike_bindItem (ht : S.Values a b) (index : ℕ) (h : S.Values v w) (step : Word) :
    S.Alike (fun _ _ => True) (bindItem a index v step) (bindItem b index w step) := by
  have hd := h.datum
  unfold bindItem
  generalize v.datum = x at hd
  generalize w.datum = y at hd
  cases hd with
  | name name executable =>
    cases executable with
    | false => exact alike_pure trivial
    | true =>
      refine (alike_locate name).bind fun o o' hfound => ?_
      cases hfound with
      | none => exact alike_pure trivial
      | some hfound =>
        dsimp only
        rw [hfound.2.toOperator?]
        exact alike_ite .rfl (alike_setItem ht index (hfound.2.withSource h.source))
          (alike_pure trivial)
  | array hij access =>
    cases access with
    | block =>
      exact alike_currentOperator.bind fun _ _ hop => (alike_push h).bind fun _ _ _ =>
        (alike_call hop).bind fun _ _ _ => alike_setLocal _ (values_integer _)
    | _ => exact alike_pure trivial
  | _ => exact alike_pure trivial

theorem alike_bindBlock (h : List.Forall₂ S.Values params params') :
    S.Alike (fun _ _ => True) (bindBlock params) (bindBlock params') := by
  cases h with
  | cons hv hrest => exact alike_beginBind (.cons hv hrest)
  | nil =>
    refine Alike.bind (p := state) (q := state) alike_state ?_
    rintro c _ rfl
    split
    · refine (alike_expectLocal _).bind fun _ _ ht => (alike_collectBound ht).bind fun _ _ _ =>
        (alike_toIndex _).bind ?_
      rintro index _ rfl
      refine (alike_items ht).bind fun vs ws hitems => ?_
      have hitem := rel_getElem? hitems index
      generalize vs[index]? = o at hitem
      generalize ws[index]? = o' at hitem
      cases hitem with
      | none => exact (alike_finishBind ht).bind fun _ _ _ => alike_setState _
      | some hitem => exact (alike_bindItem ht index hitem _).bind fun _ _ _ => alike_setState _
    · exact alike_fail _

end again

end Operation

open Operation Setting in
/-- **Each builtin is alike to itself**, with operands that are alike. -/
theorem Builtin.operation_alike {S : Setting} (o : Builtin) {params params' : List Value}
    (h : List.Forall₂ S.Values params params') :
    S.Alike (fun _ _ => True) (o.operation params) (o.operation params') := by
  cases o with
  | trueValue | falseValue | nullValue | mark | openArray | openDictionary =>
    exact alike_pure trivial
  | drop => exact alike_pop 1
  | duplicate => exact (alike_matched h 0).bind fun _ _ hv => alike_push hv
  | exchange => exact alike_exchangeTop h
  | clear => exact alike_clearOperands
  | count => exact alike_operandCount.bind fun _ _ h => h ▸ alike_push (values_integer _)
  | index => exact alike_copyOperand h
  | roll => exact alike_rollOperands h
  | closeArray => exact alike_collectArray _
  | openBlock => exact (alike_push (.of_plain _ rfl)).bind fun _ _ _ => alike_openBlock
  | closeBlock => exact (alike_collectArray _).bind fun _ _ _ => alike_closeBlock
  | closeDictionary => exact alike_endDictionary params params'
  | clearToMark => exact alike_clearToMark params params'
  | countToMark => exact alike_countToMark params params'
  | add | sub | mul => exact alike_combine _ _ h
  | div | mod => exact alike_divide _ _ h
  | neg | abs => exact alike_transform _ _ h
  | equal | notEqual => exact alike_compareEqual _ h
  | less | greater => exact alike_compareWords _ h
  | negate => exact alike_negateLogic h
  | conjoin | disjoin => exact alike_combineLogic _ _ h
  | array => exact alike_newArray h
  | unpack => exact alike_unpackArray h
  | fill => exact alike_fillArray h
  | length => exact alike_replaceByLength h
  | get => exact alike_getItem h
  | put => exact alike_putItem h
  | dictionary => exact alike_newDictionary h
  | define => exact alike_bindName h
  | openScope =>
    exact (alike_matched h 0).bind fun _ _ hv => (alike_openScope hv).bind fun _ _ _ => alike_pop 1
  | closeScope => exact alike_closeScope
  | load => exact alike_loadName h
  | locate => exact alike_locateName h
  | known => exact alike_isKnown h
  | currentScope => exact alike_currentScope.bind fun _ _ h => alike_push h
  | execute => exact alike_executeTop h
  | execIf => exact alike_executeIf h
  | execEither => exact alike_executeEither h
  | repeatBlock => exact alike_repeatBlock h
  | loop => exact alike_loopBlock h
  | leaveLoop => exact alike_leaveLoop params params'
  | stop => exact alike_fail _
  | stopped => exact alike_stoppedBlock h
  | ensure => exact alike_ensureFinalizer h
  | bind => exact alike_bindBlock h

end StackScript
