import StackScript.Proofs.Machine.Moves
import StackScript.Proofs.Operator.Looking
import StackScript.Proofs.Operator.Reading

/-!
# Operators that pass on what they have

An operation is candid if all it passes on is in a place of the machine, or among its operands, or
was created for it and has not been given up (`Operation.Candid`).  It passes a container on with
the permission it was given, so nobody gets leave to write by its doing.

All builtins are candid (`Builtin.operation_candid`).
-/

namespace StackScript

/-! ### What is read is in a place -/

namespace Machine

variable {m : Machine} {v w : Value} {name : String} {index : ℕ}

theorem mem_places_of_array {i : Handle} {s : Sequence} (h : m.memory.array i = .ok s)
    (hv : v ∈ s.items) : v ∈ m.places :=
  mem_places_of_slot (o := .array s) (Memory.object?_of_array h) hv

theorem mem_places_of_dictionary {i : Handle} {d : Dictionary} (h : m.memory.dictionary i = .ok d)
    (hv : d.get? name = some v) : v ∈ m.places :=
  mem_places_of_slot (o := .dictionary d) (Memory.object?_of_dictionary h)
    (Dictionary.mem_values_of_get? hv)

theorem mem_places_of_items {vs : List Value} (h : (m.items v).run = .ok (.ok vs)) (hw : w ∈ vs) :
    w ∈ m.places := by
  unfold items at h
  cases hd : v.datum with
  | array i access =>
    cases ha : m.memory.array i with
    | error b => simp only [hd, ha] at h; cases h
    | ok s =>
      simp only [hd, ha] at h
      obtain rfl : s.toList = vs := Except.ok.inj (Except.ok.inj h)
      exact mem_places_of_array ha (List.mem_reverse.1 hw)
  | _ => simp only [hd] at h; cases h

theorem mem_places_of_entry {o : Option Value} (h : (m.entry? v name).run = .ok (.ok o))
    (hw : o = some w) : w ∈ m.places := by
  unfold entry? at h
  cases hd : v.datum with
  | dictionary i writable =>
    cases hdict : m.memory.dictionary i with
    | error b => simp only [hd, hdict] at h; cases h
    | ok d =>
      simp only [hd, hdict] at h
      obtain rfl : d.get? name = o := Except.ok.inj (Except.ok.inj h)
      exact mem_places_of_dictionary hdict hw
  | _ => simp only [hd] at h; cases h

theorem mem_places_of_locateIn {scopes : List Value} (hs : ∀ v ∈ scopes, v ∈ m.scopes.items)
    (h : m.locateIn name scopes = .ok (some (v, w))) : v ∈ m.places ∧ w ∈ m.places := by
  induction scopes with
  | nil => cases h
  | cons scope rest ih =>
    obtain ⟨hscope, hrest⟩ := List.forall_mem_cons.1 hs
    unfold locateIn at h
    cases hi : scope.handle? with
    | none => exact ih hrest (by rw [hi] at h; exact h)
    | some i =>
      rw [hi] at h
      cases hd : m.memory.dictionary i with
      | error b => simp only [hd] at h; cases h
      | ok d =>
        dsimp only at h
        rw [bind_of_ok hd] at h
        cases hv : d.get? name with
        | none => rw [hv] at h; exact ih hrest h
        | some u =>
          rw [hv] at h
          obtain ⟨rfl, rfl⟩ := Prod.mk.inj (Option.some.inj (Except.ok.inj h))
          exact ⟨mem_places_of_scope hscope, mem_places_of_dictionary hd hv⟩

theorem mem_places_of_lookup (h : (m.lookup name).run = .ok (.ok v)) : v ∈ m.places := by
  unfold lookup at h
  cases hl : m.locate name with
  | error b => rw [hl] at h; cases h
  | ok o =>
    rw [hl] at h
    cases o with
    | none => cases h
    | some found =>
      obtain rfl : found.2 = v := Except.ok.inj (Except.ok.inj h)
      exact (mem_places_of_locateIn (fun _ => id) hl).2

/-- What is bound among the locals of a frame is in a slot. -/
theorem LocalIs.mem_places (h : m.LocalIs index name v) : v ∈ m.places := by
  obtain ⟨d, hd, hv⟩ := h
  obtain ⟨i, -, ho⟩ := Option.bind_eq_some_iff.1 hd
  exact mem_places_of_slot ho (Dictionary.mem_values_of_get? hv)

end Machine

/-! ### Candid operations -/

namespace Operation

variable {α β : Type} {Γ : Charter} {i : ℕ} {params owned : List Value} {m : Machine}
  {Q : α → List Value → Machine → Prop} {R : β → List Value → Machine → Prop} {v w : Value}

/-- Asked from the frame with `i` frames below it, invoked with `params` and owning the creator
references `owned`, the operation passes on only what is there, and comes to an end in `Q`. -/
def Candid (Γ : Charter) (i : ℕ) (params : List Value) (Q : α → List Value → Machine → Prop) :
    Operation α → List Value → Machine → Prop
  | Program.done a, owned, m => Q a owned m
  | Program.ask r next failed, owned, m =>
    ∃ rest, owned.Perm (r.surrendered ++ rest) ∧
      (∀ v ∈ r.passed, m.Carries (params ++ owned) v.datum) ∧
      (∀ a m', r.perform (some i) m = .done a m' →
        m'.Sound Γ (i + 1) (.refs (params ++ (r.handedOut a ++ rest))) →
        Candid Γ i params Q (next a) (r.handedOut a ++ rest) m') ∧
      ∀ e m', r.perform (some i) m = .raised e m' → Candid Γ i params Q (failed e) rest m'
  | _, _, _ => True

/-- The end of an operation of which nothing has to be known. -/
def Ended : α → List Value → Machine → Prop := fun _ _ _ => True

theorem Candid.bind {p : Operation α} {f : α → Operation β} (hp : p.Candid Γ i params Q owned m)
    (hf : ∀ a owned m, Q a owned m → (f a).Candid Γ i params R owned m) :
    (p >>= f).Candid Γ i params R owned m := by
  induction p generalizing owned m with
  | done a => exact hf a owned m hp
  | raise e => trivial
  | broken b => trivial
  | ask r next failed ihn ihf =>
    obtain ⟨rest, hgives, hpasses, hnext, hfailed⟩ := hp
    exact ⟨rest, hgives, hpasses, fun a m' hr sound => ihn a (hnext a m' hr sound),
      fun e m' hr => ihf e (hfailed e m' hr)⟩

theorem candid_pure {a : α} (h : Q a owned m) : Candid Γ i params Q (pure a) owned m := h

theorem candid_fail (c : Cause) : Candid Γ i params Q (Program.fail c) owned m := trivial

/-! ### Looking at the machine -/

theorem candid_of_looks {p : Operation α} [hp : Looks p]
    (h : ∀ a, p.runOn (some i) m = .done a m → Q a owned m) : p.Candid Γ i params Q owned m := by
  have asks := hp.looks
  clear hp
  induction p with
  | done a => exact h a rfl
  | raise e => trivial
  | broken b => trivial
  | ask r next failed ihn _ =>
    obtain ⟨rfl, hn, -⟩ := asks
    refine ⟨owned, .refl _, (fun _ hv => by cases hv), ?_, fun e m' hr => by cases hr⟩
    rintro a m' hr -
    cases hr
    exact ihn _ (fun b hb => h b hb) (hn _)

/-- A step that only looks at the machine, and one after it. -/
theorem candid_look {p : Operation α} {f : α → Operation β} [Looks p]
    (h : ∀ a, p.runOn (some i) m = .done a m → (f a).Candid Γ i params R owned m) :
    (p >>= f).Candid Γ i params R owned m :=
  Candid.bind (Q := fun a owned' m' => owned' = owned ∧ m' = m ∧ p.runOn (some i) m = .done a m)
    (candid_of_looks fun _ ha => ⟨rfl, rfl, ha⟩) fun a _ _ ⟨ho, hm, ha⟩ => ho ▸ hm ▸ h a ha

/-- What a step that only looks at the machine is known to read. -/
theorem Reads.of_runOn {p : Operation α} {P : α → Prop} {a : α} (h : p.Reads (some i) m P)
    (ha : p.runOn (some i) m = .done a m) : P a := by
  rw [Reads, ha] at h
  exact h.2

theorem read_of_runOn {g : Machine → Reading α} {a : α}
    (h : (read g).runOn (some i) m = .done a m) : (g m).run = .ok (.ok a) := by
  have unfolded : (read g).runOn (some i) m =
      match (g m).run with
      | .ok (.ok a) => .done a m
      | .ok (.error c) => .raised c.exception m
      | .error b => .broken b := by
    unfold read
    change (Program.ofSound (g m).run >>= Program.ofExcept : Operation α).runOn (some i) m = _
    cases (g m).run with
    | error b => rfl
    | ok r => cases r <;> rfl
  rw [unfolded] at h
  cases hr : (g m).run with
  | error b => simp [hr] at h
  | ok r =>
    cases r with
    | error c => simp [hr] at h
    | ok b => rw [hr] at h; cases h; rfl

theorem ofOption_of_runOn {c : Cause} {o : Option α} {a : α}
    (h : runOn (some i) (Program.ofOption c o) m = .done a m) : o = some a := by
  cases o with
  | none => cases h
  | some b => cases h; rfl

theorem mem_of_matched {index : ℕ}
    (h : (matched params index).runOn (some i) m = .done v m) : v ∈ params :=
  List.mem_of_getElem? (ofOption_of_runOn h)

/-! ### Requests -/

theorem carries_of_param (hv : v ∈ params) : m.Carries (params ++ owned) v.datum :=
  Machine.carries_of_held (List.mem_append_left _ hv)

theorem carries_of_owned (hv : v ∈ owned) : m.Carries (params ++ owned) v.datum :=
  Machine.carries_of_held (List.mem_append_right _ hv)

/-- A request that neither takes a creator reference nor hands one out. -/
theorem candid_ask {r : Request} {Q : r.Answer → List Value → Machine → Prop}
    (hs : r.surrendered = []) (hh : ∀ a, r.handedOut a = [])
    (hv : ∀ v ∈ r.passed, m.Carries (params ++ owned) v.datum)
    (h : ∀ a m', r.perform (some i) m = .done a m' →
      m'.Sound Γ (i + 1) (.refs (params ++ owned)) → Q a owned m') :
    (ask r).Candid Γ i params Q owned m := by
  refine ⟨owned, by rw [hs]; exact .refl _, hv, fun a m' hr sound => ?_, fun e m' _ => trivial⟩
  rw [hh, List.nil_append] at sound ⊢
  exact h a m' hr sound

/-- Such a request, and what comes after it. -/
theorem candid_step {r : Request} {f : r.Answer → Operation β}
    (hs : r.surrendered = []) (hh : ∀ a, r.handedOut a = [])
    (hv : ∀ v ∈ r.passed, m.Carries (params ++ owned) v.datum)
    (h : ∀ a m', r.perform (some i) m = .done a m' →
      m'.Sound Γ (i + 1) (.refs (params ++ owned)) → (f a).Candid Γ i params R owned m') :
    (ask r >>= f).Candid Γ i params R owned m :=
  Candid.bind (Q := fun a owned' m' => owned' = owned ∧ (f a).Candid Γ i params R owned m')
    (candid_ask hs hh hv fun a m' hr sound => ⟨rfl, h a m' hr sound⟩)
    fun _ _ _ ⟨ho, h⟩ => ho ▸ h

/-- A request that hands a creator reference out. -/
theorem candid_create {r : Request} {f : r.Answer → Operation β} (created : r.Answer → Value)
    (hs : r.surrendered = []) (hh : ∀ a, r.handedOut a = [created a])
    (hv : ∀ v ∈ r.passed, m.Carries (params ++ owned) v.datum)
    (h : ∀ a m', r.perform (some i) m = .done a m' →
      m'.Sound Γ (i + 1) (.refs (params ++ created a :: owned)) →
        (f a).Candid Γ i params R (created a :: owned) m') :
    (ask r >>= f).Candid Γ i params R owned m := by
  refine ⟨owned, by rw [hs]; exact .refl _, hv, fun a m' hr sound => ?_, fun e m' _ => trivial⟩
  rw [hh, List.singleton_append] at sound ⊢
  exact h a m' hr sound

/-- A value that has been created is taken over. -/
theorem candid_adopt (drop : ℕ) (hv : v ∈ owned) :
    (adopt drop v).Candid Γ i params Ended owned m :=
  ⟨owned.erase v, List.perm_cons_erase hv, (fun _ hv => by cases hv), fun _ _ _ _ => trivial,
    fun _ _ _ => trivial⟩

theorem candid_exchange {drop : ℕ} {values : List Value}
    (hv : ∀ v ∈ values, m.Carries (params ++ owned) v.datum) :
    (exchange drop values).Candid Γ i params Ended owned m :=
  candid_ask (r := .exchange drop values) rfl (fun _ => rfl) hv fun _ _ _ _ => trivial

/-- The usual end of an operator: a result takes the place of its operands. -/
theorem candid_result {drop : ℕ} (hv : m.Carries (params ++ owned) v.datum) :
    (exchange drop [v]).Candid Γ i params Ended owned m :=
  candid_exchange (List.forall_mem_singleton.2 hv)

theorem candid_plain {drop : ℕ} (hv : v.handle? = none) :
    (exchange drop [v]).Candid Γ i params Ended owned m :=
  candid_result (Machine.carries_of_handle?_none hv)

theorem candid_pop (count : ℕ) : (pop count).Candid Γ i params Ended owned m :=
  candid_exchange fun _ hv => by cases hv

theorem candid_setState (next : Continuation) :
    (setState next).Candid Γ i params Ended owned m :=
  candid_ask (r := .setState next) rfl (fun _ => rfl) (fun _ hv => by cases hv)
    fun _ _ _ _ => trivial

theorem candid_setLocal (name : String) (hv : m.Carries (params ++ owned) v.datum) :
    (setLocal name v).Candid Γ i params Ended owned m :=
  candid_ask (r := .setLocal name v) rfl (fun _ => rfl) (List.forall_mem_singleton.2 hv)
    fun _ _ _ _ => trivial

/-- Work is queued, and what comes after that is candid wherever it is asked. -/
theorem candid_call_then {p : Operation β} (hv : m.Carries (params ++ owned) v.datum)
    (hp : ∀ m, p.Candid Γ i params R owned m) :
    (call v >>= fun _ => p).Candid Γ i params R owned m :=
  candid_step (r := .call v) rfl (fun _ => rfl) (List.forall_mem_singleton.2 hv)
    fun _ m' _ _ => hp m'

theorem candid_pop_then {p : Operation β} (count : ℕ) (hp : ∀ m, p.Candid Γ i params R owned m) :
    (pop count >>= fun _ => p).Candid Γ i params R owned m :=
  candid_step (r := .exchange count []) rfl (fun _ => rfl) (fun _ hv => by cases hv)
    fun _ m' _ _ => hp m'

/-! ### Operands and numbers -/

theorem candid_copyOperand : (copyOperand params).Candid Γ i params Ended owned m := by
  refine candid_look fun word _ => candid_look fun depth _ => ?_
  refine candid_look (p := machine) fun m' hm' => ?_
  cases hm'
  exact candid_look fun v hv => candid_result (Machine.carries_of_place
    (Machine.mem_places_of_operand (List.mem_of_getElem? (ofOption_of_runOn hv))))

theorem candid_exchangeTop : (exchangeTop params).Candid Γ i params Ended owned m := by
  refine candid_look fun top htop => candid_look fun below hbelow => candid_exchange fun v hv => ?_
  obtain rfl | hv := List.mem_cons.1 hv
  · exact carries_of_param (mem_of_matched htop)
  · exact List.mem_singleton.1 hv ▸ carries_of_param (mem_of_matched hbelow)

theorem candid_rollOperands : (rollOperands params).Candid Γ i params Ended owned m := by
  refine candid_look fun steps _ => candid_look fun word _ => candid_look fun count _ => ?_
  refine candid_look (p := machine) fun m' hm' => ?_
  cases hm'
  dsimp only
  split
  · exact candid_fail _
  · refine candid_exchange fun v hv => ?_
    have item := List.mem_reverse.1 (mem_of_mem_rotated hv)
    exact Machine.carries_of_place (Machine.mem_places_of_operand
      (List.mem_of_mem_drop (List.mem_of_mem_take item)))

theorem candid_combine (name : String) (f : Word → Word → Option Word) :
    (combine name f params).Candid Γ i params Ended owned m :=
  candid_look fun _ _ => candid_look fun _ _ => candid_look fun _ _ => candid_plain rfl

theorem candid_divide (name : String) (f : Word → Word → Option Word) :
    (divide name f params).Candid Γ i params Ended owned m := by
  refine candid_look fun n _ => ?_
  split
  · exact candid_fail _
  · exact candid_combine name f

theorem candid_transform (name : String) (f : Word → Option Word) :
    (transform name f params).Candid Γ i params Ended owned m :=
  candid_look fun _ _ => candid_look fun _ _ => candid_plain rfl

theorem candid_compareEqual (expected : Bool) :
    (compareEqual expected params).Candid Γ i params Ended owned m :=
  candid_look fun _ _ => candid_look fun _ _ => candid_plain rfl

theorem candid_compareWords (related : Word → Word → Bool) :
    (compareWords related params).Candid Γ i params Ended owned m :=
  candid_look fun _ _ => candid_look fun _ _ => candid_plain rfl

theorem candid_combineLogic (booleans : Bool → Bool → Bool) (words : Word → Word → Word) :
    (combineLogic booleans words params).Candid Γ i params Ended owned m := by
  refine candid_look fun right _ => candid_look fun left _ => ?_
  split
  · exact candid_plain rfl
  · exact candid_plain rfl
  · exact candid_fail _

theorem candid_negateLogic : (negateLogic params).Candid Γ i params Ended owned m := by
  refine candid_look fun v _ => ?_
  split
  · exact candid_plain rfl
  · exact candid_plain rfl
  · exact candid_fail _

/-! ### Queueing work -/

theorem candid_executeTop : (executeTop params).Candid Γ i params Ended owned m := by
  refine candid_look fun v hv => ?_
  split
  · exact candid_call_then (carries_of_param (mem_of_matched hv)) fun _ => candid_pop 1
  · exact candid_pure trivial

theorem candid_executeIf : (executeIf params).Candid Γ i params Ended owned m := by
  refine candid_look fun block hb => candid_look fun chosen _ => ?_
  split
  · exact candid_call_then (carries_of_param (mem_of_matched hb)) fun _ => candid_pop 2
  · exact candid_pop 2

theorem candid_executeEither : (executeEither params).Candid Γ i params Ended owned m := by
  refine candid_look fun other hother => candid_look fun block hblock =>
    candid_look fun chosen _ => ?_
  cases chosen with
  | true => exact candid_call_then (carries_of_param (mem_of_matched hblock)) fun _ => candid_pop 3
  | false => exact candid_call_then (carries_of_param (mem_of_matched hother)) fun _ => candid_pop 3

/-! ### Builders and containers -/

theorem mem_operands_of_aboveMark {vs : List Value}
    (h : aboveMark.runOn (some i) m = .done vs m) (hv : v ∈ vs) : v ∈ m.operands.items :=
  reads_aboveMark.of_runOn h v hv

theorem candid_collectArray (access : Access) :
    (collectArray access).Candid Γ i params Ended owned m := by
  refine candid_look fun items hitems => ?_
  refine candid_create (r := .createArray access items) id rfl (fun _ => rfl) (fun v hv => ?_) ?_
  · exact Machine.carries_of_place (Machine.mem_places_of_operand (mem_operands_of_aboveMark hitems hv))
  · exact fun a m' _ _ => candid_adopt _ List.mem_cons_self

theorem candid_defineAll {dictionary : Value} (hd : dictionary ∈ owned)
    (entries : List (String × Value)) (hv : ∀ e ∈ entries, e.2 ∈ m.operands.items) :
    (defineAll dictionary entries).Candid Γ i params (fun _ owned' _ => owned' = owned) owned m := by
  induction entries generalizing m with
  | nil => exact candid_pure rfl
  | cons e rest ih =>
    obtain ⟨name, v⟩ := e
    obtain ⟨here, later⟩ := List.forall_mem_cons.1 hv
    have carried : ∀ w ∈ [dictionary, v], m.Carries (params ++ owned) w.datum := by
      intro w hw
      obtain rfl | hw := List.mem_cons.1 hw
      · exact carries_of_owned hd
      · obtain rfl := List.mem_singleton.1 hw
        exact Machine.carries_of_place (Machine.mem_places_of_operand here)
    refine ⟨owned, .refl _, carried, fun u m' hr _ => ?_, fun e m' _ => ?_⟩
    · -- the operands, where the entries are, stay as they are
      have same : m'.operands = m.operands := by
        have spared := (Machine.spares_define (fun _ _ => rfl) dictionary name v :
          Machine.Spares Machine.operands _) m
        change Machine.define dictionary name v m = _ at hr
        rw [hr] at spared
        exact spared
      exact ih (same ▸ later)
    · exact ⟨owned.erase dictionary, List.perm_cons_erase hd, (fun _ hv => by cases hv),
        fun _ _ _ _ => trivial, fun _ _ _ => trivial⟩

theorem candid_endDictionary : (endDictionary params).Candid Γ i params Ended owned m := by
  refine candid_look fun items hitems => ?_
  have build : (Program.ofExcept (pairs items) >>= fun entries => createDictionary >>=
      fun dictionary => defineAll dictionary entries >>= fun _ =>
        adopt (items.length + 1) dictionary : Operation Unit).Candid Γ i params Ended owned m := by
    refine candid_look fun entries hentries => ?_
    have listed : pairs items = .ok entries := by
      cases hp : pairs items with
      | error c => rw [hp] at hentries; cases hentries
      | ok entries' => rw [hp] at hentries; cases hentries; rfl
    refine candid_create (r := .createDictionary) id rfl (fun _ => rfl) (fun _ hv => by cases hv)
      fun dictionary m' hr _ => ?_
    have same : m'.operands = m.operands := by
      have spared := (Machine.spares_createDictionary (fun _ _ => rfl) :
        Machine.Spares Machine.operands _) m
      change Machine.createDictionary m = _ at hr
      rw [hr] at spared
      exact spared
    refine Candid.bind (candid_defineAll List.mem_cons_self entries fun e he => ?_)
      fun _ owned' m'' ho => ho ▸ candid_adopt _ List.mem_cons_self
    rw [same]
    exact mem_operands_of_aboveMark hitems (mem_of_mem_pairs listed he)
  split
  · exact candid_fail _
  · exact build

theorem candid_setItems {array : Value} (ha : array ∈ params) (values : List Value) (index : ℕ)
    (hv : ∀ v ∈ values, v ∈ m.operands.items) :
    (setItems array index values).Candid Γ i params (fun _ owned' _ => owned' = owned) owned m := by
  induction values generalizing m index with
  | nil => exact candid_pure rfl
  | cons v rest ih =>
    obtain ⟨here, later⟩ := List.forall_mem_cons.1 hv
    refine candid_step (r := .setItem array index v) rfl (fun _ => rfl) ?_ fun u m' hr _ => ?_
    · intro w hw
      obtain rfl | hw := List.mem_cons.1 hw
      · exact carries_of_param ha
      · obtain rfl := List.mem_singleton.1 hw
        exact Machine.carries_of_place (Machine.mem_places_of_operand here)
    · have same : m'.operands = m.operands := by
        have spared := (Machine.spares_setItem (fun _ _ => rfl) array index v :
          Machine.Spares Machine.operands _) m
        change Machine.setItem array index v m = _ at hr
        rw [hr] at spared
        exact spared
      exact ih _ (same ▸ later)

theorem candid_fillArray : (fillArray params).Candid Γ i params Ended owned m := by
  refine candid_look fun array harray => ?_
  have param := mem_of_matched harray
  refine candid_look fun content _ => ?_
  have filled (n : ℕ) : (setItems array 0 ((m.operands.items.drop 1).take n).reverse >>= fun _ =>
      exchange (n + 1) [array]).Candid Γ i params Ended owned m :=
    Candid.bind (candid_setItems param _ 0 fun v hv =>
      List.mem_of_mem_drop (List.mem_of_mem_take (List.mem_reverse.1 hv)))
      fun _ _ _ ho => ho ▸ candid_result (carries_of_param param)
  refine candid_look fun m' hm' => ?_
  cases hm'
  dsimp only
  split
  · exact candid_fail _
  · exact filled content.length

theorem candid_unpackArray : (unpackArray params).Candid Γ i params Ended owned m := by
  refine candid_look fun array harray => candid_look fun content hcontent => ?_
  refine candid_exchange fun v hv => ?_
  rcases List.mem_append.1 hv with item | last
  · exact Machine.carries_of_place (Machine.mem_places_of_items (read_of_runOn hcontent) item)
  · exact List.mem_singleton.1 last ▸ carries_of_param (mem_of_matched harray)

/-- What a step reads is in a place, or is no container. -/
def Finds (i : ℕ) (m : Machine) (p : Operation Value) : Prop :=
  ∀ v, p.runOn (some i) m = .done v m → v.handle? = none ∨ v ∈ m.places

theorem carries_of_finds {p : Operation Value} (h : Finds i m p)
    (hv : p.runOn (some i) m = .done v m) (held : List Value) : m.Carries held v.datum :=
  (h v hv).elim Machine.carries_of_handle?_none Machine.carries_of_place

/-- After a step that only looks at the machine, what is read last is what is read. -/
theorem finds_bind {p : Operation α} {f : α → Operation Value} [Looks p]
    (h : ∀ a, p.runOn (some i) m = .done a m → Finds i m (f a)) : Finds i m (p >>= f) := by
  intro v hv
  have same : (p.runOn (some i) m).Meets True (fun _ m' => m' = m) fun m' => m' = m := Looks.runOn
  rw [runOn, Program.run_bind] at hv
  change Action.bind (p.runOn (some i)) _ m = _ at hv
  unfold Action.bind at hv
  cases hp : p.runOn (some i) m with
  | done a m' =>
    rw [hp] at hv same
    obtain rfl : m' = m := same
    exact h a hp v hv
  | raised e m' => rw [hp] at hv; cases hv
  | broken b => rw [hp] at hv; cases hv

theorem finds_itemAt (container key : Value) : Finds i m (itemAt container key) := by
  unfold itemAt
  cases container.datum with
  | array j access =>
    refine finds_bind fun index _ => finds_bind fun all hall v hv => .inr ?_
    obtain ⟨k, -, hk⟩ := Option.bind_eq_some_iff.1 (ofOption_of_runOn hv)
    exact Machine.mem_places_of_items (read_of_runOn hall) (List.mem_of_getElem? hk)
  | string text executable =>
    refine finds_bind fun index _ => finds_bind fun byte _ v hv => .inl ?_
    cases hv
    rfl
  | dictionary j writable =>
    refine finds_bind fun name _ => finds_bind fun entry hentry v hv => .inr ?_
    exact Machine.mem_places_of_entry (read_of_runOn hentry) (ofOption_of_runOn hv)
  | _ => exact fun v hv => by cases hv

theorem candid_getItem : (getItem params).Candid Γ i params Ended owned m :=
  candid_look fun key _ => candid_look fun container _ => candid_look fun _ hv =>
    candid_result (carries_of_finds (finds_itemAt container key) hv _)

theorem candid_putItem : (putItem params).Candid Γ i params Ended owned m := by
  refine candid_look fun v hv => candid_look fun key _ => candid_look fun container hcontainer => ?_
  have passes : ∀ w ∈ [container, v], m.Carries (params ++ owned) w.datum := by
    intro w hw
    obtain rfl | hw := List.mem_cons.1 hw
    · exact carries_of_param (mem_of_matched hcontainer)
    · exact List.mem_singleton.1 hw ▸ carries_of_param (mem_of_matched hv)
  have stored : (storeAt container key v).Candid Γ i params
      (fun _ owned' _ => owned' = owned) owned m := by
    unfold storeAt
    cases container.datum with
    | array j access =>
      exact candid_look fun index _ => candid_look fun content _ => candid_look fun position _ =>
        candid_ask (r := .setItem container position v) rfl (fun _ => rfl) passes fun _ _ _ _ => rfl
    | dictionary j writable =>
      exact candid_look fun name _ =>
        candid_ask (r := .define container name v) rfl (fun _ => rfl) passes fun _ _ _ _ => rfl
    | _ => exact candid_fail _
  exact stored.bind fun _ _ _ _ => candid_pop 3

/-! ### Scopes -/

theorem candid_bindName : (bindName params).Candid Γ i params Ended owned m := by
  refine candid_look fun v hv => candid_look fun name _ => candid_look fun scope hscope => ?_
  refine candid_step (r := .define scope name v) rfl (fun _ => rfl) ?_ fun _ _ _ _ => candid_pop 2
  intro w hw
  obtain rfl | hw := List.mem_cons.1 hw
  · exact Machine.carries_of_place
      (Machine.mem_places_of_scope (reads_currentScope.of_runOn hscope))
  · exact List.mem_singleton.1 hw ▸ carries_of_param (mem_of_matched hv)

theorem candid_loadName : (loadName params).Candid Γ i params Ended owned m :=
  candid_look fun _ _ => candid_look fun _ hv =>
    candid_result (Machine.carries_of_place (Machine.mem_places_of_lookup (read_of_runOn hv)))

theorem locate_of_runOn {name : String} {o : Option (Value × Value)}
    (h : (locate name).runOn (some i) m = .done o m) : m.locate name = .ok o := by
  change (Program.ofSound (m.locate name) : Operation _).run (Request.perform (some i)) m = _ at h
  cases hl : m.locate name with
  | error b => rw [hl] at h; cases h
  | ok o' => rw [hl] at h; cases h; rfl

theorem candid_locateName : (locateName params).Candid Γ i params Ended owned m := by
  refine candid_look fun name _ => candid_look fun found hfound => ?_
  have located := locate_of_runOn hfound
  cases found with
  | none => exact candid_plain rfl
  | some found =>
    refine candid_exchange fun v hv => ?_
    obtain rfl | hv := List.mem_cons.1 hv
    · exact Machine.carries_of_place (Machine.mem_places_of_locateIn (fun _ => id) located).1
    · exact List.mem_singleton.1 hv ▸ Machine.carries_of_handle?_none rfl

/-! ### Loops, finalizers and `bind` -/

/-- A local that is read has been bound. -/
theorem localIs_of_runOn {name : String} (h : m.Sound Γ (i + 1) (.refs (params ++ owned)))
    (hv : (expectLocal name).runOn (some i) m = .done v m) : m.LocalIs i name v :=
  (reads_expectLocal h (Nat.lt_succ_self i) name).of_runOn hv

theorem carries_of_local {name : String} (h : m.LocalIs i name v) :
    m.Carries (params ++ owned) v.datum := Machine.carries_of_place h.mem_places

theorem candid_endRound : endRound.Candid Γ i params Ended owned m := by
  refine candid_look fun c _ => ?_
  split
  · exact candid_setState _
  · exact candid_step (r := .intercept) rfl (fun _ => rfl) (fun _ hv => by cases hv)
      fun _ _ _ _ => candid_pure trivial
  · exact candid_pure trivial

/-- The block bound among the locals is queued. -/
theorem candid_round (name : String) (h : m.Sound Γ (i + 1) (.refs (params ++ owned))) :
    (expectLocal name >>= fun block => call block >>= fun _ => setState .callBeforePop).Candid
      Γ i params Ended owned m :=
  candid_look fun _ hb => candid_call_then (carries_of_local (localIs_of_runOn h hb))
    fun _ => candid_setState _

theorem candid_repeatBlock (h : m.Sound Γ (i + 1) (.refs (params ++ owned))) :
    (repeatBlock params).Candid Γ i params Ended owned m := by
  have round (m : Machine) (h : m.Sound Γ (i + 1) (.refs (params ++ owned))) :
      (repeatBlock []).Candid Γ i params Ended owned m := by
    refine candid_look (p := state) fun c _ => ?_
    split
    · refine candid_look fun count _ => candid_look fun remaining _ => ?_
      split
      · exact candid_step (r := .setLocal "count" _) rfl (fun _ => rfl)
          (List.forall_mem_singleton.2 (Machine.carries_of_handle?_none rfl))
          fun _ m' _ sound => candid_round "block" sound
      · exact candid_pure trivial
    · exact candid_endRound
    · exact candid_fail _
  cases params with
  | nil => exact round m h
  | cons block rest =>
    refine candid_look (p := matched (block :: rest) 0) fun block hblock =>
      candid_look fun count _ => candid_look fun _ _ => ?_
    refine candid_step (r := .setLocal "block" block) rfl (fun _ => rfl)
      (List.forall_mem_singleton.2 (carries_of_param (mem_of_matched hblock))) fun _ m₁ _ _ => ?_
    refine candid_step (r := .setLocal "count" (.integer count)) rfl (fun _ => rfl)
      (List.forall_mem_singleton.2 (Machine.carries_of_handle?_none rfl)) fun _ m₂ _ _ => ?_
    exact candid_step (r := .exchange 2 []) rfl (fun _ => rfl) (fun _ hv => by cases hv)
      fun _ m₃ _ sound => round m₃ sound

theorem candid_loopBlock (h : m.Sound Γ (i + 1) (.refs (params ++ owned))) :
    (loopBlock params).Candid Γ i params Ended owned m := by
  have round (m : Machine) (h : m.Sound Γ (i + 1) (.refs (params ++ owned))) :
      (loopBlock []).Candid Γ i params Ended owned m := by
    refine candid_look (p := state) fun c _ => ?_
    split
    · exact candid_round "block" h
    · exact candid_endRound
    · exact candid_fail _
  cases params with
  | nil => exact round m h
  | cons block rest =>
    refine candid_look (p := matched (block :: rest) 0) fun block hblock => ?_
    refine candid_step (r := .setLocal "block" block) rfl (fun _ => rfl)
      (List.forall_mem_singleton.2 (carries_of_param (mem_of_matched hblock))) fun _ m₁ _ _ => ?_
    exact candid_step (r := .exchange 1 []) rfl (fun _ => rfl) (fun _ hv => by cases hv)
      fun _ m₂ _ sound => round m₂ sound

theorem candid_stoppedBlock : (stoppedBlock params).Candid Γ i params Ended owned m := by
  refine candid_look fun c _ => ?_
  split
  · exact candid_look fun _ hb => candid_call_then (carries_of_param (mem_of_matched hb))
      fun _ => candid_pop_then 1 fun _ => candid_setState _
  · refine candid_look fun c _ => ?_
    split
    · exact candid_plain rfl
    · split
      · exact candid_step (r := .intercept) rfl (fun _ => rfl) (fun _ hv => by cases hv)
          fun _ _ _ _ => candid_plain rfl
      · exact candid_pure trivial
  · exact candid_fail _

theorem candid_ensureFinalizer : (ensureFinalizer params).Candid Γ i params Ended owned m := by
  refine candid_look fun c _ => ?_
  split
  · refine candid_look fun finalizer hfinalizer => candid_look fun body hbody => ?_
    exact candid_step (r := .setLocal "finalizer" finalizer) rfl (fun _ => rfl)
      (List.forall_mem_singleton.2 (carries_of_param (mem_of_matched hfinalizer)))
      fun _ _ _ _ => candid_call_then (carries_of_param (mem_of_matched hbody))
        fun _ => candid_pop_then 2 fun _ => candid_setState _
  · split
    · refine candid_step (r := .stash) rfl (fun _ => rfl) (fun _ hv => by cases hv)
        fun _ m' _ sound => ?_
      exact candid_look fun _ hb => candid_call_then (carries_of_local (localIs_of_runOn sound hb))
        fun _ => candid_setState _
    · split
      · exact candid_step (r := .restore) rfl (fun _ => rfl) (fun _ hv => by cases hv)
          fun _ _ _ _ => candid_setState _
      · exact candid_fail _

theorem candid_finishBind (target : Value) :
    (finishBind target).Candid Γ i params Ended owned m := by
  refine candid_look fun content hcontent => ?_
  exact candid_create (r := .createArray .block content) id rfl (fun _ => rfl)
    (fun v hv => Machine.carries_of_place
      (Machine.mem_places_of_items (read_of_runOn hcontent) hv))
    fun _ _ _ _ => candid_adopt _ List.mem_cons_self

theorem candid_beginBind : (beginBind params).Candid Γ i params Ended owned m := by
  refine candid_look fun block _ => candid_look fun content hcontent => ?_
  refine candid_create (r := .createArray .mutable content) id rfl (fun _ => rfl)
    (fun v hv => Machine.carries_of_place
      (Machine.mem_places_of_items (read_of_runOn hcontent) hv)) fun target m₁ _ _ => ?_
  have held : target ∈ target :: owned := List.mem_cons_self
  have given : (target :: owned).Perm ((Request.release target).surrendered ++ owned) := .refl _
  -- whether the copy could be kept or not, its creator's reference is given up next
  refine ⟨target :: owned, .refl _, List.forall_mem_singleton.2 (carries_of_owned held),
    fun _ m₂ _ _ => ?_, fun e m₂ _ => ?_⟩
  · refine ⟨owned, given, (fun _ hv => by cases hv), fun _ m₃ _ _ => ?_, fun _ _ _ => trivial⟩
    refine candid_pop_then 1 fun m₄ => ?_
    split
    · exact candid_finishBind target
    · exact candid_setState _
  · exact ⟨owned, given, (fun _ hv => by cases hv), fun _ _ _ _ => trivial, fun _ _ _ => trivial⟩

/-- The working copy is still bound. -/
def Binding (Γ : Charter) (i : ℕ) (params owned : List Value) (target : Value) :
    Unit → List Value → Machine → Prop :=
  fun _ owned' m => owned' = owned ∧ m.Sound Γ (i + 1) (.refs (params ++ owned)) ∧
    m.LocalIs i "target" target

section

variable {target : Value} (h : m.Sound Γ (i + 1) (.refs (params ++ owned)))
  (bound : m.LocalIs i "target" target)
include h bound

/-- A request that leaves the locals alone. -/
theorem candid_bound {r : Request} (hr : ∀ own, r.perform own = r.perform none)
    (hs : r.surrendered = []) (hh : ∀ a, r.handedOut a = [])
    (hv : ∀ v ∈ r.passed, m.Carries (params ++ owned) v.datum) :
    (ask r).Candid Γ i params
      (fun _ owned' m' => owned' = owned ∧ m'.Sound Γ (i + 1) (.refs (params ++ owned)) ∧
        m'.LocalIs i "target" target) owned m := by
  refine candid_ask hs hh hv fun a m' hm' sound => ⟨rfl, sound, ?_⟩
  have known (v : Value) (hv' : v ∈ r.passed) : m.Knows (.refs (params ++ owned)) v :=
    Machine.knows_of_carries (hv v hv')
  have served : (r.perform none m).Meets True
      (r.Serves Γ none (i + 1) (.refs (params ++ owned)) m) _ :=
    r.perform_serves (fun _ h => by cases h) (by rw [hs, Stake.refs_nil, add_zero]; exact h)
      (fun v hv' => by rw [hs, Stake.refs_nil, add_zero]; exact known v hv') (.inl trivial)
  rw [← hr (some i), hm'] at served
  exact bound.of_steady served.2 (Nat.lt_succ_self i)

theorem candid_setLocal_bound {name : String} (hname : "target" ≠ name) (hv : v.handle? = none) :
    (setLocal name v).Candid Γ i params (Binding Γ i params owned target) owned m := by
  refine candid_ask (r := .setLocal name v) rfl (fun _ => rfl)
    (List.forall_mem_singleton.2 (Machine.carries_of_handle?_none hv)) fun _ m' hm' sound => ?_
  have kept : (Machine.setLocal i name v m).Meets True _ _ :=
    Machine.setLocal_meets h (Nat.lt_succ_self i) (Machine.knows_of_handle?_none hv)
  change Machine.setLocal i name v m = _ at hm'
  rw [hm'] at kept
  exact ⟨rfl, sound, kept.2.2 "target" target hname bound⟩

theorem candid_collectBound :
    (collectBound target).Candid Γ i params (Binding Γ i params owned target) owned m := by
  refine candid_look fun awaited _ => ?_
  cases awaited with
  | none => exact candid_pure ⟨rfl, h, bound⟩
  | some index =>
    refine candid_look (p := machine) fun m' hm' => ?_
    cases hm'
    refine candid_look fun v hv => ?_
    have operand : v ∈ m.operands.items := List.mem_of_getElem? (ofOption_of_runOn hv)
    refine (candid_bound h bound (r := .setItem target index v) (fun _ => rfl) rfl (fun _ => rfl)
      fun w hw => ?_).bind ?_
    · obtain rfl | hw := List.mem_cons.1 hw
      · exact carries_of_local bound
      · exact List.mem_singleton.1 hw ▸
          Machine.carries_of_place (Machine.mem_places_of_operand operand)
    rintro _ _ m₁ ⟨rfl, h₁, bound₁⟩
    refine (candid_bound h₁ bound₁ (r := .exchange 1 []) (fun _ => rfl) rfl (fun _ => rfl)
      fun _ hw => by cases hw).bind ?_
    rintro _ _ m₂ ⟨rfl, h₂, bound₂⟩
    exact candid_setLocal_bound h₂ bound₂ (by decide) rfl

omit h in
theorem candid_bindItem {item : Value} (hitem : item ∈ m.places) (index : ℕ) (step : Word) :
    (bindItem target index item step).Candid Γ i params Ended owned m := by
  unfold bindItem
  split
  · refine candid_look fun found _ => ?_
    cases found with
    | none => exact candid_pure trivial
    | some found =>
      obtain ⟨scope, v⟩ := found
      dsimp only
      split
      · rename_i ho
        have plain : v.handle? = none := by
          cases hd : v.datum with
          | operator o => rw [Value.handle?, hd]
          | _ => simp [Value.toOperator?, hd] at ho
        refine candid_ask (r := .setItem target index _) rfl (fun _ => rfl) (fun w hw => ?_)
          fun _ _ _ _ => trivial
        obtain rfl | hw := List.mem_cons.1 hw
        · exact carries_of_local bound
        · exact List.mem_singleton.1 hw ▸ Machine.carries_of_handle?_none plain
      · exact candid_pure trivial
  · refine candid_look fun operator hoperator => ?_
    obtain ⟨f, hf, rfl⟩ := reads_currentOperator.of_runOn hoperator
    refine candid_step (r := .exchange 0 [item]) rfl (fun _ => rfl)
      (List.forall_mem_singleton.2 (Machine.carries_of_place hitem)) fun _ m₁ hm₁ _ => ?_
    have same : m₁.calls = m.calls := by
      have spared := (Machine.spares_exchangeOperands (fun _ _ _ => rfl) 0 [item] :
        Machine.Spares Machine.calls _) m
      change Machine.exchangeOperands 0 [item] m = _ at hm₁
      rw [hm₁] at spared
      exact spared
    exact candid_call_then (Machine.carries_of_place
      (Machine.mem_places_of_frame (same ▸ hf))) fun _ =>
        candid_setLocal "pending" (Machine.carries_of_handle?_none rfl)
  · exact candid_pure trivial

end

theorem candid_bindBlock (h : m.Sound Γ (i + 1) (.refs (params ++ owned))) :
    (bindBlock params).Candid Γ i params Ended owned m := by
  cases params with
  | cons block rest => exact candid_beginBind
  | nil =>
    refine candid_look (p := state) fun c _ => ?_
    split
    · refine candid_look fun target htarget => ?_
      have bound := localIs_of_runOn h htarget
      refine (candid_collectBound h bound).bind ?_
      rintro _ _ m₁ ⟨rfl, h₁, bound₁⟩
      refine candid_look fun index _ => candid_look fun content hcontent => ?_
      split
      · exact (candid_finishBind target).bind fun _ _ _ _ => candid_setState _
      · rename_i item hitem
        exact (candid_bindItem bound₁ (Machine.mem_places_of_items (read_of_runOn hcontent)
          (List.mem_of_getElem? hitem)) _ _).bind fun _ _ _ _ => candid_setState _
    · exact candid_fail _

end Operation

open Operation in
/-- **Each builtin is candid.** -/
theorem Builtin.operation_candid {Γ : Charter} {i : ℕ} {params owned : List Value} {m : Machine}
    (b : Builtin) (h : m.Sound Γ (i + 1) (.refs (params ++ owned))) :
    (b.operation params).Candid Γ i params Ended owned m := by
  cases b with
  | trueValue | falseValue | nullValue | mark | openArray | openDictionary =>
    exact candid_pure trivial
  | drop => exact candid_pop 1
  | duplicate =>
    exact candid_look fun _ hv => candid_result (carries_of_param (mem_of_matched hv))
  | exchange => exact candid_exchangeTop
  | clear =>
    exact candid_ask (r := .clearOperands) rfl (fun _ => rfl) (fun _ hv => by cases hv)
      fun _ _ _ _ => trivial
  | count => exact candid_look fun _ _ => candid_plain rfl
  | index => exact candid_copyOperand
  | roll => exact candid_rollOperands
  | closeArray => exact candid_collectArray .literal
  | openBlock =>
    exact (candid_plain (v := .mark) rfl).bind fun _ _ _ _ =>
      candid_ask (r := .openBlock) rfl (fun _ => rfl) (fun _ hv => by cases hv) fun _ _ _ _ => trivial
  | closeBlock =>
    exact (candid_collectArray .block).bind fun _ _ _ _ =>
      candid_ask (r := .closeBlock) rfl (fun _ => rfl) (fun _ hv => by cases hv) fun _ _ _ _ => trivial
  | closeDictionary => exact candid_endDictionary
  | clearToMark => exact candid_look fun _ _ => candid_pop _
  | countToMark => exact candid_look fun _ _ => candid_plain rfl
  | add | sub | mul => exact candid_combine _ _
  | div | mod => exact candid_divide _ _
  | neg | abs => exact candid_transform _ _
  | equal | notEqual => exact candid_compareEqual _
  | less | greater => exact candid_compareWords _
  | negate => exact candid_negateLogic
  | conjoin | disjoin => exact candid_combineLogic _ _
  | array =>
    exact candid_look fun _ _ => candid_look fun length _ =>
      candid_create (r := .createFilledArray .mutable length .null) id rfl (fun _ => rfl)
        (List.forall_mem_singleton.2 (Machine.carries_of_handle?_none rfl))
        fun _ _ _ _ => candid_adopt _ List.mem_cons_self
  | unpack => exact candid_unpackArray
  | fill => exact candid_fillArray
  | length => exact candid_look fun _ _ => candid_look fun _ _ => candid_plain rfl
  | get => exact candid_getItem
  | put => exact candid_putItem
  | dictionary =>
    exact candid_look fun _ _ => candid_look fun _ _ =>
      candid_create (r := .createDictionary) id rfl (fun _ => rfl) (fun _ hv => by cases hv)
        fun _ _ _ _ => candid_adopt _ List.mem_cons_self
  | define => exact candid_bindName
  | openScope =>
    exact candid_look fun v hv => candid_step (r := .openScope v) rfl (fun _ => rfl)
      (List.forall_mem_singleton.2 (carries_of_param (mem_of_matched hv)))
      fun _ _ _ _ => candid_pop 1
  | closeScope =>
    exact candid_ask (r := .closeScope) rfl (fun _ => rfl) (fun _ hv => by cases hv)
      fun _ _ _ _ => trivial
  | load => exact candid_loadName
  | locate => exact candid_locateName
  | known => exact candid_look fun _ _ => candid_look fun _ _ => candid_look fun _ _ => candid_plain rfl
  | currentScope =>
    exact candid_look fun _ hv => candid_result (Machine.carries_of_place
      (Machine.mem_places_of_scope (reads_currentScope.of_runOn hv)))
  | execute => exact candid_executeTop
  | execIf => exact candid_executeIf
  | execEither => exact candid_executeEither
  | repeatBlock => exact candid_repeatBlock h
  | loop => exact candid_loopBlock h
  | leaveLoop =>
    refine candid_look fun looping _ => ?_
    split <;> exact candid_fail _
  | stop => exact candid_fail _
  | stopped => exact candid_stoppedBlock
  | ensure => exact candid_ensureFinalizer
  | bind => exact candid_bindBlock h

end StackScript
