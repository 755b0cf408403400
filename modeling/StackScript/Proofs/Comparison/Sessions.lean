import StackScript.Proofs.Comparison.Builtins
import StackScript.Proofs.Machine.Steps

/-!
# Comparing what sessions do

Sessions are alike if their machines are, and what their hosts keep is the same.  A cycle with a
frame on top that is above those at the bottom is parallel, whatever it comes to: the frame is
advanced, or it is unwound because an exception is pending (`Setting.step_agree`).
-/

namespace StackScript

open Likeness

variable {χ α β : Type} {S : Setting} {A : α → β → Prop} {i j : ℕ} {m n : Machine}
  {s t : Session χ} {f g : Frame} {v w : Value}

/-- Sessions that are alike. -/
structure Setting.Sessions (S : Setting) (s t : Session χ) : Prop where
  machine : S.Machines s.machine t.machine
  host : s.host = t.host

/-- Two actions on sessions that are parallel. -/
abbrev Setting.Abreast (S : Setting) (A : α → β → Prop) (x : Action (Session χ) α)
    (y : Action (Session χ) β) : Prop := S.toLikeness.Parallel S.Sessions A x y

/-- Machines that are alike, with frames at the same place on top. -/
structure Setting.Topped (S : Setting) (i j : ℕ) (m n : Machine) : Prop where
  machines : S.Machines m n
  places : S.Places i j
  top : m.calls.length = i + 1

namespace Session

/-- Move a value met in a text to where it belongs. -/
def yieldToken (v : Value) : Action (Session χ) Unit :=
  if v.isExecutable then onMachine (Machine.call v) else pushOperand v

/-- A text in which there is another token. -/
theorem stepSource_of_token (index : ℕ) {text : String} {token : Token}
    (hnext : Token.next text f.cursor = .ok (some token)) :
    (stepSource index f text : Action (Session χ) Unit) =
      yieldToken (token.value.withSource (some (tokenSource f.value text token))) >>= fun _ =>
        onMachine (Machine.updateFrame index ({ · with cursor := token.stop })) := by
  unfold stepSource yieldToken
  rw [hnext]
  change (if (token.value.withSource _).isExecutable then _ else _) = _
  split <;> rfl

end Session

namespace Setting

/-! ### Stacks with a frame on top -/

/-- The frames of stacks that are alike are of one number, but for those at the bottom. -/
theorem Machines.length_iff (h : S.Machines m n) (hij : S.Places i j) :
    m.calls.length = i + 1 ↔ n.calls.length = j + 1 := by
  obtain ⟨l, k, hl, hk, hlk⟩ := h.calls.frames
  obtain ⟨p, rfl, rfl⟩ := hij.place
  rw [CallStack.length, CallStack.length, hl, hk, List.length_append, List.length_append,
    hlk.length_eq]
  omega

theorem Topped.uncons (h : S.Topped i j m n) :
    ∃ f g l k, m.calls.frames = f :: l ++ S.below ∧ n.calls.frames = g :: k ++ S.below' ∧
      S.Frames f g ∧ List.Forall₂ S.Frames l k := by
  obtain ⟨l, k, hl, hk, hlk⟩ := h.machines.calls.frames
  obtain ⟨p, rfl, rfl⟩ := h.places.place
  have top := h.top
  rw [CallStack.length, hl, List.length_append] at top
  cases hlk with
  | nil => simp at top; omega
  | cons hfg hlk => exact ⟨_, _, _, _, hl, hk, hfg, hlk⟩

theorem Topped.popFrame (h : S.Topped i j m n) :
    S.toLikeness.Agree (fun _ _ => True) S.Machines (Machine.popFrame m) (Machine.popFrame n) := by
  obtain ⟨f, g, l, k, hl, hk, hfg, hlk⟩ := h.uncons
  exact onCalls (fun _ => inferInstance) (fun _ => inferInstance) h.machines
    (pop h.machines.calls.reserve hl hk hfg hlk)

theorem Topped.replaceFrame (h : S.Topped i j m n) (hv : S.Values v w) :
    S.toLikeness.Agree (fun _ _ => True) S.Machines (Machine.replaceFrame v m)
      (Machine.replaceFrame w n) := by
  obtain ⟨f, g, l, k, hl, hk, hfg, hlk⟩ := h.uncons
  exact onCalls (fun _ => inferInstance) (fun _ => inferInstance) h.machines
    (replaceTop h.machines.calls.reserve hl hk hfg hlk hv)

/-! ### Moves of sessions -/

theorem agree_onMachine {x : Action Machine α} {y : Action Machine β} (h : S.Sessions s t)
    (hxy : S.toLikeness.Agree A S.Machines (x s.machine) (y t.machine)) :
    S.toLikeness.Agree A S.Sessions (Session.onMachine x s) (Session.onMachine y t) :=
  hxy.zoom (fun _ _ => rfl) fun _ _ hm => ⟨hm, h.host⟩

theorem onMachine {x : Action Machine α} {y : Action Machine β} (h : S.Beside A x y) :
    S.Abreast A (Session.onMachine x : Action (Session χ) α) (Session.onMachine y) :=
  fun _ _ hst => agree_onMachine hst (h hst.machine)

theorem pushOperand (hv : S.Values v w) :
    S.Abreast (fun _ _ => True) (Session.pushOperand v : Action (Session χ) Unit)
      (Session.pushOperand w) := onMachine (exchangeOperands 0 (.cons hv .nil))

theorem popFrame (h : S.Sessions s t) (htop : S.Topped i j s.machine t.machine) :
    S.toLikeness.Agree (fun _ _ => True) S.Sessions (Session.popFrame s) (Session.popFrame t) :=
  agree_onMachine h htop.popFrame

/-- A value moves to the operands, and its frame goes. -/
theorem pushOperand_popFrame (h : S.Sessions s t) (htop : S.Topped i j s.machine t.machine)
    (hv : S.Values v w) : S.toLikeness.Agree (fun _ _ => True) S.Sessions
      ((Session.pushOperand v >>= fun _ => Session.popFrame) s)
      ((Session.pushOperand w >>= fun _ => Session.popFrame) t) := by
  refine ((pushOperand hv h).meets (Session.pushOperand_frames v s)).bind (fun _ _ => And.left) ?_
  intro _ _ u u' _ hu
  exact popFrame hu.1 ⟨hu.1.machine, htop.places, hu.2 ▸ htop.top⟩

theorem yieldItem (hv : S.Values v w) :
    S.Abreast (fun _ _ => True) (Session.yieldItem v : Action (Session χ) Unit)
      (Session.yieldItem w) := by
  unfold Session.yieldItem
  rw [hv.isInert]
  split
  · exact pushOperand hv
  · exact onMachine (call hv)

/-! ### Operators -/

theorem matchOperands_go {vs ws : List Value} (h : List.Forall₂ S.Values vs ws)
    (signature : List Param) (depth : ℕ) :
    Results Eq (List.Forall₂ S.Values) (Machine.matchOperands.go depth signature vs)
      (Machine.matchOperands.go depth signature ws) := by
  induction signature generalizing depth vs ws with
  | nil => exact .ok .nil
  | cons p signature ih =>
    cases h with
    | nil => exact .error rfl
    | @cons v w vs ws hv hrest =>
      unfold Machine.matchOperands.go
      rw [hv.accepts, hv.kind]
      have rest := ih hrest (depth + 1)
      generalize Machine.matchOperands.go (depth + 1) signature vs = r at rest
      generalize Machine.matchOperands.go (depth + 1) signature ws = r' at rest
      split
      · cases rest with
        | ok h => exact .ok (.cons hv h)
        | error h => exact .error h
      · exact .error rfl

/-- The operands a signature asks for. -/
theorem matchOperands (h : S.Machines m n) (signature : List Param) :
    Results Eq (List.Forall₂ S.Values) (m.matchOperands signature) (n.matchOperands signature) := by
  unfold Machine.matchOperands
  rw [show m.operands.length = n.operands.length from h.operands.items.length_eq]
  split
  · exact .error rfl
  · exact matchOperands_go h.operands.items signature 0

theorem settle (hij : S.Places i j) (invokedIn : Continuation) :
    S.Abreast (fun _ _ => True) (Session.settle i invokedIn : Action (Session χ) Unit)
      (Session.settle j invokedIn) := by
  refine onMachine (parallel_get_bind fun m n hmn => parallel_ofSound_bind (frame hmn hij)
    fun f g hfg => ?_)
  -- whether the frame has nothing above it is seen when the operator has moved on
  have leaves (b : Prop) [Decidable b] : S.Beside (fun _ _ => True)
      (do if b ∧ (← get).calls.length = i + 1 then Machine.popFrame)
      (do if b ∧ (← get).calls.length = j + 1 then Machine.popFrame) := by
    intro m n hmn
    refine agree_get_bind ?_
    by_cases h : b ∧ m.calls.length = i + 1
    · rw [if_pos h, if_pos ⟨h.1, (hmn.length_iff hij).1 h.2⟩]
      exact Topped.popFrame ⟨hmn, hij, h.2⟩
    · rw [if_neg h, if_neg fun h' => h ⟨h'.1, (hmn.length_iff hij).2 h'.2⟩]
      exact .done trivial hmn
  dsimp only
  rw [hfg.state]
  split
  · exact (setState hij .pop).bind fun _ _ _ => leaves _
  · exact leaves _

theorem abandon (hij : S.Places i j) :
    S.Abreast (fun _ _ => True) (Session.abandon i : Action (Session χ) Unit) (Session.abandon j) :=
  onMachine (updateFrame hij fun _ _ h => ⟨h.value, rfl, h.cursor, h.locals, h.stash, h.supply⟩)

/-- Invocations that are alike. -/
def Invocations (S : Setting) (invoke invoke' : List Value → Action (Session χ) Unit) :
    Prop :=
  ∀ ⦃params params'⦄, List.Forall₂ S.Values params params' →
    S.Abreast (fun _ _ => True) (invoke params) (invoke' params')

section invoking

variable {invoke invoke' : List Value → Action (Session χ) Unit}

theorem dispatch [∀ params, Action.Rising (invoke params)] [∀ params, Action.Rising (invoke' params)]
    (hij : S.Places i j) (signature : List Param) (h : S.Invocations invoke invoke') :
    S.Abreast (fun _ _ => True) (Session.dispatch i signature invoke)
      (Session.dispatch j signature invoke') := by
  intro s t hst
  refine parallel_ofExcept_bind (matchOperands hst.machine signature) (fun params params' hp => ?_) hst
  refine (onMachine (setState hij .firstCall)).bind fun _ _ _ =>
    (onMachine (onMemory (Comparison.retainAll hp))).bind fun _ _ _ => ?_
  exact ((h hp).ensuring (onMachine (onMemory (Comparison.releaseAll hp)))
    (Memory.raises_releaseAll _).zoom.zoom (Memory.raises_releaseAll _).zoom.zoom).bind
      fun _ _ _ => settle hij _

theorem resume (hij : S.Places i j) (state : Continuation) (h : S.Invocations invoke invoke') :
    S.Abreast (fun _ _ => True) (Session.resume i state invoke) (Session.resume j state invoke') := by
  have clean : S.Abreast (fun _ _ => True)
      (if state.isPopping then Session.abandon i else pure () : Action (Session χ) Unit)
      (if state.isPopping then Session.abandon j else pure ()) := by
    split
    · exact abandon hij
    · exact parallel_pure trivial
  have raises (i : ℕ) : (if state.isPopping then Session.abandon i else pure () :
      Action (Session χ) Unit).Raises fun _ => False := by
    split
    · exact (Machine.raises_updateFrame _ _).zoom
    · exact Action.raises_pure ()
  exact ((h .nil).onRaise clean (raises i) (raises j)).bind fun _ _ _ => settle hij state

end invoking

/-- A host without operators of its own leaves it at the builtins. -/
theorem invocations_none {o : Operator} {signature : List Param}
    {invoke : ℕ → List Value → Action (Session χ) Unit}
    (ho : Behaviour.ofOperator Natives.none o = .function signature invoke) (hij : S.Places i j) :
    S.Invocations (invoke i) (invoke j) := by
  intro params params' hp
  rcases Behaviour.function_cases ho with ⟨b, -, -, -, rfl⟩ | ⟨name, looping, operation, -, hn, rfl⟩
  · exact onMachine (b.operation_alike hp _ _ (.some hij))
  · cases hn
    exact fun _ _ hst => .done trivial hst

theorem stepOperator (h : S.Sessions s t) (htop : S.Topped i j s.machine t.machine) (o : Operator) :
    S.toLikeness.Agree (fun _ _ => True) S.Sessions (Session.stepOperator Natives.none i o s)
      (Session.stepOperator Natives.none j o t) := by
  unfold Session.stepOperator
  cases ho : Behaviour.ofOperator (Natives.none : Natives χ) o with
  | constant v =>
    have plain : v.handle? = none := by
      rcases Behaviour.constant_cases ho with ⟨b, -, hb⟩ | ⟨name, looping, -, hn⟩
      · cases b <;> cases hb <;> rfl
      · cases hn
    exact pushOperand_popFrame h htop (.of_plain v plain)
  | function signature invoke =>
    have rising := Session.rising_invoke ho
    have alike := invocations_none ho htop.places
    have found := frame h.machine htop.places
    dsimp only
    rw [Session.theMachine_bind, Session.theMachine_bind]
    generalize s.machine.frame i = r at found
    generalize t.machine.frame j = r' at found
    cases found with
    | error _ => exact agree_broken _ _
    | @ok f g hfg =>
      rw [Session.read_bind, Session.read_bind, hfg.state]
      generalize g.state = state
      cases state with
      | pop => exact popFrame h htop
      | unknown => exact dispatch htop.places signature alike h
      | _ => exact resume htop.places _ alike h

/-! ### Names, texts, supplies and blocks -/

theorem stepName (h : S.Sessions s t) (htop : S.Topped i j s.machine t.machine)
    (hv : S.Values v w) (name : String) :
    S.toLikeness.Agree (fun _ _ => True) S.Sessions (Session.stepName v name s)
      (Session.stepName w name t) := by
  unfold Session.stepName
  rw [Session.theMachine_bind, Session.theMachine_bind, h.machine.blockDepth]
  split
  · exact pushOperand_popFrame h htop hv
  · have found := Operation.results_lookup h.machine name
    generalize (s.machine.lookup name).run = r at found
    generalize (t.machine.lookup name).run = r' at found
    cases found with
    | error _ => exact agree_broken _ _
    | ok found =>
      cases found with
      | error h' => exact h' ▸ .raised (.refl _ _) h
      | @ok a b hab =>
        exact agree_onMachine h (htop.replaceFrame (hab.withSource fun hexact => by
          rw [hab.source hexact, hv.source hexact]))

/-- The source of a token is compared if everything is. -/
theorem tokenSource_eq (hfg : S.Frames f g) (text : String) (token : Token) (hexact : S.exact) :
    Session.tokenSource f.value text token = Session.tokenSource g.value text token := by
  unfold Session.tokenSource
  rw [hfg.value.source hexact]

theorem yieldToken (hv : S.Values v w) :
    S.Abreast (fun _ _ => True) (Session.yieldToken v : Action (Session χ) Unit)
      (Session.yieldToken w) := by
  unfold Session.yieldToken
  rw [hv.isExecutable]
  split
  · exact onMachine (call hv)
  · exact pushOperand hv

/-- Values of tokens are alike. -/
theorem values_token {text : String} {cursor : ℕ} {token : Token}
    (hnext : Token.next text cursor = .ok (some token)) {p q : Option Provenance}
    (hpq : S.exact → p = q) : S.Values (token.value.withSource p) (token.value.withSource q) :=
  (Values.of_plain token.value (Session.handle?_of_token hnext)).withSource hpq

theorem stepSource (h : S.Sessions s t) (htop : S.Topped i j s.machine t.machine)
    (hfg : S.Frames f g) (text : String) :
    S.toLikeness.Agree (fun _ _ => True) S.Sessions (Session.stepSource i f text s)
      (Session.stepSource j g text t) := by
  cases hnext : Token.next text f.cursor with
  | error c =>
    unfold Session.stepSource
    rw [← hfg.cursor, hnext]
    exact .raised (.refl _ _) h
  | ok next =>
    cases next with
    | none =>
      unfold Session.stepSource
      rw [← hfg.cursor, hnext]
      exact popFrame h htop
    | some token =>
      have moved : S.Beside (fun _ _ => True) (Machine.updateFrame i ({ · with cursor := token.stop }))
          (Machine.updateFrame j ({ · with cursor := token.stop })) :=
        updateFrame htop.places fun _ _ h => ⟨h.value, h.state, rfl, h.locals, h.stash, h.supply⟩
      rw [Session.stepSource_of_token i hnext, Session.stepSource_of_token j (hfg.cursor ▸ hnext)]
      exact ((yieldToken (values_token hnext fun hexact => congrArg some
        (tokenSource_eq hfg text token hexact))).bind fun _ _ _ => onMachine moved) h

theorem stepSupply (h : S.Sessions s t) (htop : S.Topped i j s.machine t.machine)
    {p q : Supply} (hpq : S.Supplies p q) :
    S.toLikeness.Agree (fun _ _ => True) S.Sessions (Session.stepSupply i p s)
      (Session.stepSupply j q t) := by
  have next : Option.Rel (fun a b => S.Values a.1 b.1 ∧ S.Supplies a.2 b.2) p.next? q.next? := by
    obtain ⟨hu, hf⟩ := hpq
    unfold Supply.next?
    generalize hp : p.upcoming = l at hu
    generalize hq : q.upcoming = k at hu
    cases hu with
    | cons hv hrest => exact .some ⟨hv, hrest, hf⟩
    | nil =>
      have supplied : S.Supplies p q := ⟨by rw [hp, hq]; exact .nil, hf⟩
      generalize p.forever = o at hf
      generalize q.forever = o' at hf
      cases hf with
      | none => exact .none
      | some hv => exact .some ⟨hv, supplied⟩
  unfold Session.stepSupply
  generalize p.next? = o at next
  generalize q.next? = o' at next
  cases next with
  | none => exact popFrame h htop
  | @some a b hab =>
    have moved : S.Beside (fun _ _ => True)
        (Machine.updateFrame i fun f => { f with supply := some a.2, cursor := f.cursor + 1 })
        (Machine.updateFrame j fun f => { f with supply := some b.2, cursor := f.cursor + 1 }) :=
      updateFrame htop.places fun _ _ h =>
        ⟨h.value, h.state, congrArg (· + 1) h.cursor, h.locals, h.stash, .some hab.2⟩
    exact ((onMachine moved).bind fun _ _ _ => yieldItem hab.1) h

theorem stepBlock (h : S.Sessions s t) (htop : S.Topped i j s.machine t.machine)
    (hfg : S.Frames f g) {k l : Handle} (hkl : S.handles k l) :
    S.toLikeness.Agree (fun _ _ => True) S.Sessions (Session.stepBlock i f k s)
      (Session.stepBlock j g l t) := by
  have read := Comparison.array hkl h.machine.memory
  unfold Session.stepBlock
  rw [Session.theMachine_bind, Session.theMachine_bind, hfg.cursor]
  generalize s.machine.memory.array k = r at read
  generalize t.machine.memory.array l = r' at read
  cases read with
  | error _ => exact agree_broken _ _
  | @ok a b hab =>
    rw [Session.read_bind, Session.read_bind,
      show a.length = b.length from hab.items.length_eq]
    have item := Comparison.get? hab g.cursor
    generalize a.get? g.cursor = o at item
    generalize b.get? g.cursor = o' at item
    cases item with
    | none => exact popFrame h htop
    | @some v w hvw =>
      have moved : S.Beside (fun _ _ => True)
          (Machine.updateFrame i ({ · with cursor := g.cursor + 1 }))
          (Machine.updateFrame j ({ · with cursor := g.cursor + 1 })) :=
        updateFrame htop.places fun _ _ h => ⟨h.value, h.state, rfl, h.locals, h.stash, h.supply⟩
      dsimp only
      rw [hvw.isInert]
      split
      · split
        · exact pushOperand_popFrame h htop hvw
        · exact agree_onMachine h (htop.replaceFrame hvw)
      · exact ((yieldItem hvw).bind fun _ _ _ => onMachine moved) h

/-! ### Queueing work -/

theorem executeSource (text origin : String) :
    S.Beside (fun _ _ => True) (Machine.execute (.source text origin))
      (Machine.execute (.source text origin)) := call (.of_plain _ rfl)

theorem executeValues {vs ws : List Value} (h : List.Forall₂ S.Values vs ws) :
    S.Beside (fun _ _ => True) (Machine.execute (.values vs)) (Machine.execute (.values ws)) :=
  (createArray .block h).bind fun _ _ hv => (call hv).ensuring (releaseValue hv)
    (Machine.raises_release _) (Machine.raises_release _)

theorem executeSupply {p q : Supply} (h : S.Supplies p q) :
    S.Beside (fun _ _ => True) (Machine.execute (.supply p)) (Machine.execute (.supply q)) := by
  intro m n hmn
  have hfg : S.Frames { value := .null, supply := some p } { value := .null, supply := some q } :=
    ⟨.of_plain _ rfl, rfl, rfl, .none, .none, .some h⟩
  exact onCalls (x := fun c => c.push _) (y := fun c => c.push _) (fun _ => inferInstance)
    (fun _ => inferInstance) hmn (push hmn.calls hfg)

/-! ### The cycle -/

theorem unwind (h : S.Sessions s t) (htop : S.Topped i j s.machine t.machine)
    (hfg : S.Frames f g) :
    S.toLikeness.Agree (fun _ _ => True) S.Sessions (Session.unwind Natives.none i f s)
      (Session.unwind Natives.none j g t) := by
  unfold Session.unwind
  rw [hfg.value.toOperator?, hfg.state]
  cases g.value.toOperator? with
  | none => exact popFrame h htop
  | some o =>
    dsimp only
    split
    · exact stepOperator h htop o
    · exact popFrame h htop

theorem advance (h : S.Sessions s t) (htop : S.Topped i j s.machine t.machine)
    (hfg : S.Frames f g) :
    S.toLikeness.Agree (fun _ _ => True) S.Sessions (Session.advance Natives.none i f s)
      (Session.advance Natives.none j g t) := by
  have hsupply := hfg.supply
  unfold Session.advance
  generalize f.supply = o at hsupply
  generalize g.supply = o' at hsupply
  cases hsupply with
  | some hpq => exact stepSupply h htop hpq
  | none =>
    have pushed := pushOperand_popFrame h htop hfg.value
    have named (name : String) := stepName h htop hfg.value name
    have hd := hfg.value.datum
    dsimp only
    generalize f.value.datum = x at hd
    generalize g.value.datum = y at hd
    cases hd with
    | operator o => exact stepOperator h htop o
    | name name executable =>
      cases executable with
      | true => exact named name
      | false => exact pushed
    | string text executable =>
      cases executable with
      | true => exact stepSource h htop hfg text
      | false => exact pushed
    | array hkl access =>
      cases access with
      | block => exact stepBlock h htop hfg hkl
      | _ => exact pushed
    | _ => exact pushed

/-- **A step on frames at the same place**, above those at the bottom. -/
theorem step_agree (h : S.Sessions s t) (htop : S.Topped i j s.machine t.machine)
    (hfg : S.Frames f g) :
    S.toLikeness.Agree (fun _ _ => True) S.Sessions (Session.step Natives.none i f s)
      (Session.step Natives.none j g t) := by
  unfold Session.step
  rw [Session.theMachine_bind, Session.theMachine_bind, h.machine.isSome_pending]
  split
  · exact unwind h htop hfg
  · exact advance h htop hfg

end Setting

end StackScript
