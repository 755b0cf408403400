import StackScript.Proofs.Memory.Contents
import StackScript.Proofs.Memory.Remains
import StackScript.Proofs.Memory.Restoration

/-!
# Cascades in any order

A cascade gives up references until none is left: those it was asked to give up, and those held by
what has gone on the way.  `Memory.Cascade` lets every step pick any of them, and lets a dictionary
that goes hand over its entries in any order.

* `Memory.Cascade.givenUp`: whatever the order, what is held in the memory and what is still to be
  given up balance, and each step uses up some of a finite weight;
* `Memory.giveUpIn_done`: so no step of it can break anything;
* `Memory.Released.agrees`: two memories left by cascades from the same memory under the same stake
  agree, since the cells that are live are those that survive, and the rest is counted.
-/

namespace StackScript

open StackScript.Action Metered

/-! ### The peak stays -/

/-- The most that has been in use is the same. -/
def SamePeak {σ : Type} [Metered σ] (s t : σ) : Prop := peak t = peak s

instance {σ : Type} [Metered σ] : IsPreorder σ SamePeak where
  refl _ := rfl
  trans _ _ _ h h' := h'.trans h

namespace Ledger

theorem samePeak_modify (f : Ledger → TextMap ℕ) :
    Respects SamePeak (modify fun l => { l with strings := f l } : Action Ledger PUnit) :=
  respects_modify fun _ => rfl

instance (size : Size) (a : Account) : Respects SamePeak (release size a) where
  respects l := by
    unfold release
    split
    · cases a <;> rfl
    · trivial

instance (text : String) : Respects SamePeak (dropReference text) := by
  refine Respects.bind inferInstance fun l => ?_
  split
  · infer_instance
  · split
    · exact samePeak_modify _
    · exact Respects.bind (samePeak_modify _) fun _ => inferInstance

end Ledger

namespace Memory

instance {α : Type} (x : Action Ledger α) [Respects SamePeak x] :
    Respects SamePeak (onLedger x) where
  respects m := meets_zoom ((Respects.respects (R := SamePeak) (x := x) m.ledger).mono
    (fun _ _ => id) fun _ => id)

instance {α : Type} (x : Action Heap α) : Respects SamePeak (onHeap x) where
  respects m := by
    unfold onHeap Action.zoom
    cases x m.heap <;> trivial

instance (handle : Handle) : Respects SamePeak (forgetTrail handle) := respects_modify fun _ => rfl

theorem samePeak_forM (entries : TextMap Value) (f : String × Value → Action Ledger PUnit)
    [∀ e, Respects SamePeak (f e)] : Respects SamePeak (List.forM entries f) := by
  induction entries with
  | nil => exact inferInstanceAs (Respects SamePeak (pure PUnit.unit : Action Ledger PUnit))
  | cons e rest ih => exact Respects.bind inferInstance fun _ => ih

instance (o : Object) : Respects SamePeak (giveBack o) := by
  cases o with
  | array s => exact inferInstanceAs (Respects SamePeak (Ledger.release _ _))
  | dictionary d => exact Respects.bind (samePeak_forM _ _) fun _ => inferInstance

instance (handle : Handle) (o : Option Object) : Respects SamePeak (discard handle o) := by
  unfold discard
  cases o <;> infer_instance

instance (v : Value) : Respects SamePeak (giveUp v) := by
  unfold giveUp
  split <;> infer_instance

end Memory

/-! ### Giving up in any order -/

/-- The object, with its entries in another order. -/
def Object.reorder (order : TextMap Value → TextMap Value) : Object → Object
  | .array s => .array s
  | .dictionary d => .dictionary { d with entries := order d.entries }

/-- The order only moves entries around. -/
def Shuffles (order : TextMap Value → TextMap Value) : Prop := ∀ entries, (order entries).Perm entries

namespace Object

variable {order : TextMap Value → TextMap Value} (ho : Shuffles order) (o : Object)

@[simp] theorem account_reorder : (o.reorder order).account = o.account := by
  cases o <;> rfl

theorem reorder_id : o.reorder id = o := by
  cases o <;> rfl

include ho

theorem values_reorder : (o.reorder order).values.Perm o.values := by
  cases o with
  | array s => exact .refl _
  | dictionary d => exact (ho d.entries).map _

theorem units_reorder : (o.reorder order).units = o.units := by
  cases o with
  | array s => rfl
  | dictionary d => exact congrArg (_ + ·) ((ho d.entries).map _).sum_eq

end Object

namespace Memory

/-- Give up one reference; a dictionary that goes hands over its entries in the given order. -/
def giveUpIn (order : TextMap Value → TextMap Value) (v : Value) : Action Memory (List Value) :=
  match v.datum with
  | .string text _ => do
    onLedger (Ledger.dropReference text)
    return []
  | .array handle _ | .dictionary handle _ => do
    discard handle ((← onHeap (Heap.release handle)).map (Object.reorder order))
  | _ => pure []

theorem giveUpIn_id (v : Value) : giveUpIn id v = giveUp v := by
  have same : (Object.reorder id) = id := funext Object.reorder_id
  obtain ⟨datum, source⟩ := v
  cases datum <;> simp only [giveUpIn, giveUp, same, Option.map_id, id]

/-- References are given up in some order, `k` of them: each is any one of those still to be given
up, among them those that objects have held which have gone. -/
inductive Cascade : ℕ → List Value → Memory → List Value → Memory → Prop
  | refl (vs : List Value) (m : Memory) : Cascade 0 vs m vs m
  | tail {k : ℕ} {vs ws rest freed : List Value} {m m₁ m₂ : Memory} {v : Value}
      {order : TextMap Value → TextMap Value} (before : Cascade k vs m ws m₁)
      (pick : ws.Perm (v :: rest)) (shuffles : Shuffles order)
      (step : giveUpIn order v m₁ = .done freed m₂) : Cascade (k + 1) vs m (freed ++ rest) m₂

variable {total : Option ℕ} {σ : ℕ → Label} {x : Stake} {m m₁ m₂ : Memory} {v : Value}
  {vs ws freed : List Value} {order : TextMap Value → TextMap Value}

/-- The order of the entries is of no consequence to the memory. -/
theorem discard_reorder (ho : Shuffles order) {i : Handle} {o : Object}
    (exact : m.ledger.Exact total) (paid : o.units ≤ m.ledger.held o.account) :
    ∃ m', discard i (some o) m = .done o.values m' ∧
      discard i (some (o.reorder order)) m = .done (o.reorder order).values m' := by
  have back (o' : Object) (account : o'.account = o.account) (units : o'.units = o.units) :
      discard i (some o') m = .done o'.values
        { m with ledger := m.ledger.takeBack o.units o.account
                 trails := m.trails.map (·.forget i) } := by
    have given : giveBack o' m.ledger = .done () (m.ledger.takeBack o.units o.account) := by
      rw [← account, ← units]
      exact Ledger.giveBack_eq exact o' (by rw [account, units]; exact paid)
    change ((onLedger (giveBack o') >>= fun _ => pure o'.values) _) = _
    simp only [Action.bind_apply, onLedger, Action.zoom, given]
    rfl
  exact ⟨_, back o rfl rfl, back _ (o.account_reorder) (o.units_reorder ho)⟩

/-- **One step of a cascade**, in any order: it breaks nothing, and leaves what it leaves in the
order of the entries as they are. -/
theorem giveUpIn_done (ho : Shuffles order) (hb : m.Balanced total σ (x + .refs [v]))
    (hout : Heap.OutSupported x m.heap) :
    ∃ freed m', giveUpIn order v m = .done freed m' ∧ GivenUp total σ x m freed m' ∧
      SamePeak m m' := by
  have meets : (giveUp v m).Meets False (GivenUp total σ x m) fun _ => False :=
    giveUp_meets hb (.inr hout)
  obtain ⟨freed, m', given, givenUp⟩ := meets.exists_done
  have same : SamePeak m m' := by
    simpa [given] using Respects.respects (R := SamePeak) (x := giveUp v) m
  -- what is handed over in another order is the same stake
  have permuted {freed' : List Value} (hperm : freed'.Perm freed) :
      GivenUp total σ x m freed' m' := by
    obtain ⟨balanced, loses, weight⟩ := givenUp
    exact ⟨Stake.refs_perm hperm ▸ balanced, loses, hperm.length_eq ▸ weight⟩
  have container {i : Handle} (hv : v.handle? = some i)
      (hg : giveUp v m = (onHeap (Heap.release i) >>= discard i) m)
      (ho' : giveUpIn order v m = (onHeap (Heap.release i) >>=
        fun o => discard i (o.map (Object.reorder order))) m) :
      ∃ freed m', giveUpIn order v m = .done freed m' ∧ GivenUp total σ x m freed m' ∧
        SamePeak m m' := by
    obtain ⟨c, hc⟩ := hb.exists_cell_of_known (Stake.knows_of_mem (by simp)) hv
    rw [hg, Action.bind_apply] at given
    rw [ho', Action.bind_apply]
    by_cases hmore : 1 < c.count
    · have step : onHeap (Heap.release i) m = .done none
          { m with heap := m.heap.setCell i (some { c with count := c.count - 1 }) } := by
        simp [onHeap, Action.zoom, Heap.release, hc, hmore]
      rw [step] at given ⊢
      exact ⟨freed, m', given, givenUp, same⟩
    · cases hobject : c.object with
      | none =>
        have step : onHeap (Heap.release i) m = .broken (.releasedWhileOut i) := by
          simp [onHeap, Action.zoom, Heap.release, hc, hmore, hobject]
        rw [step] at given
        cases given
      | some o =>
        have step : onHeap (Heap.release i) m =
            .done (some o) { m with heap := m.heap.freed i } := by
          simp [onHeap, Action.zoom, Heap.release, hc, hmore, hobject, Heap.freed]
        rw [step] at given ⊢
        obtain ⟨m'', asStored, shuffled⟩ := discard_reorder (i := i) (o := o) ho
          (m := { m with heap := m.heap.freed i }) hb.exact (hb.units_le_held hc hobject)
        obtain ⟨rfl, rfl⟩ : o.values = freed ∧ m'' = m' := by
          simpa using asStored.symm.trans given
        exact ⟨_, m'', shuffled, permuted (o.values_reorder ho), same⟩
  obtain ⟨datum, source⟩ := v
  cases datum with
  | array i access => exact container (i := i) rfl rfl rfl
  | dictionary i writable => exact container (i := i) rfl rfl rfl
  | string | null | boolean | integer | name | mark | operator =>
    exact ⟨freed, m', given, givenUp, same⟩

/-- What a cascade keeps, whatever its order. -/
theorem Cascade.givenUp {k : ℕ} (h : Cascade k vs m ws m₁)
    (hb : m.Balanced total σ (x + .refs vs)) (hout : Heap.OutSupported x m.heap) :
    m₁.Balanced total σ (x + .refs ws) ∧ m.Loses x m₁ ∧ SamePeak m m₁ ∧
      k + m₁.heap.weight + ws.length ≤ m.heap.weight + vs.length := by
  induction h with
  | refl vs m => exact ⟨hb, .refl x m, rfl, by omega⟩
  | @tail k vs ws rest freed m m₁ m₂ v order before pick shuffles step ih =>
    obtain ⟨balanced, loses, peak, weight⟩ := ih hb hout
    have sum : x + .refs ws = x + .refs rest + .refs [v] := by
      rw [Stake.refs_perm pick, Stake.refs_cons]
      abel
    have out : Heap.OutSupported (x + .refs rest) m₁.heap :=
      (hout.sheds loses.sheds loses.keeps).add_right _
    obtain ⟨freed', m', done, ⟨balanced', loses', weight'⟩, peak'⟩ :=
      giveUpIn_done shuffles (sum ▸ balanced) out
    obtain ⟨rfl, rfl⟩ : freed' = freed ∧ m' = m₂ := by simpa using done.symm.trans step
    refine ⟨?_, loses.trans loses'.of_add_right, trans_of SamePeak peak peak', ?_⟩
    · rwa [Stake.refs_append, add_comm (Stake.refs freed'), ← add_assoc]
    · have length := pick.length_eq
      simp only [List.length_cons, List.length_append] at length ⊢
      omega

/-- Any reference still to be given up can be given up next. -/
theorem Cascade.continues {k : ℕ} (h : Cascade k vs m ws m₁)
    (hb : m.Balanced total σ (x + .refs vs)) (hout : Heap.OutSupported x m.heap) (hv : v ∈ ws)
    (ho : Shuffles order) : ∃ freed m₂, giveUpIn order v m₁ = .done freed m₂ := by
  obtain ⟨balanced, loses, -, -⟩ := h.givenUp hb hout
  obtain ⟨left, right, rfl⟩ := List.append_of_mem hv
  have sum : x + .refs (left ++ v :: right) = x + .refs (left ++ right) + .refs [v] := by
    rw [Stake.refs_perm List.perm_middle, Stake.refs_cons]
    abel
  obtain ⟨freed, m₂, done, -⟩ := giveUpIn_done ho (sum ▸ balanced)
    ((hout.sheds loses.sheds loses.keeps).add_right _)
  exact ⟨freed, m₂, done⟩

/-! ### Cascades in the order of a stack -/

theorem Cascade.append {k : ℕ} (h : Cascade k vs m ws m₁) (us : List Value) :
    Cascade k (vs ++ us) m (ws ++ us) m₁ := by
  induction h with
  | refl vs m => exact .refl ..
  | tail before pick shuffles step ih =>
    rw [List.append_assoc]
    exact ih.tail (pick.append_right us) shuffles step

theorem Cascade.trans {k l : ℕ} {us : List Value} (h : Cascade k vs m ws m₁)
    (h' : Cascade l ws m₁ us m₂) : Cascade (k + l) vs m us m₂ := by
  induction h' with
  | refl => exact h
  | tail before pick shuffles step ih => exact (ih h).tail pick shuffles step

theorem cascade_of_giveUp {rest : List Value} (given : giveUp v m = .done freed m₁) :
    Cascade 1 (v :: rest) m (freed ++ rest) m₁ := by
  have shuffles : Shuffles id := fun _ => .refl _
  exact .tail (.refl ..) (.refl _) shuffles ((giveUpIn_id v).symm ▸ given)

/-- What is given up next is what has been put last, until nothing is left. -/
theorem giveUpAll_cascades (fuel : ℕ) (vs : List Value) (m : Memory)
    (hb : m.Balanced total σ (x + .refs vs)) (hout : Heap.OutSupported x m.heap)
    (hfuel : m.heap.weight + vs.length ≤ fuel) :
    ∃ k m', giveUpAll fuel vs m = .done () m' ∧ Cascade k vs m [] m' := by
  induction fuel generalizing vs m with
  | zero =>
    obtain rfl : vs = [] := List.eq_nil_of_length_eq_zero (by omega)
    exact ⟨0, m, rfl, .refl ..⟩
  | succ fuel ih =>
    cases vs with
    | nil => exact ⟨0, m, rfl, .refl ..⟩
    | cons v rest =>
      have sum : x + .refs (v :: rest) = x + .refs rest + .refs [v] := by
        rw [Stake.refs_cons]
        abel
      have meets : (giveUp v m).Meets False (GivenUp total σ (x + .refs rest) m) fun _ => False :=
        giveUp_meets (sum ▸ hb) (.inr (hout.add_right _))
      obtain ⟨freed, m₁, given, -⟩ := meets.exists_done
      have first : Cascade 1 (v :: rest) m (freed ++ rest) m₁ := cascade_of_giveUp given
      obtain ⟨balanced, loses, -, weight⟩ := first.givenUp hb hout
      obtain ⟨k, m', all, others⟩ := ih (freed ++ rest) m₁ balanced
        (hout.sheds loses.sheds loses.keeps) (by simp only [List.length_cons] at weight hfuel; omega)
      exact ⟨1 + k, m', by rw [giveUpAll, given]; exact all, first.trans others⟩

theorem release_cascades (hb : m.Balanced total σ (x + .refs [v]))
    (hout : Heap.OutSupported x m.heap) :
    ∃ k m', release v m = .done () m' ∧ Cascade k [v] m [] m' := by
  have meets : (giveUp v m).Meets False (GivenUp total σ x m) fun _ => False :=
    giveUp_meets hb (.inr hout)
  obtain ⟨freed, m₁, given, -⟩ := meets.exists_done
  have first : Cascade 1 [v] m (freed ++ []) m₁ := cascade_of_giveUp given
  rw [List.append_nil] at first
  obtain ⟨balanced, loses, -, -⟩ := first.givenUp hb hout
  rw [release, given]
  cases freed with
  | nil => exact ⟨1, m₁, rfl, first⟩
  | cons w rest =>
    obtain ⟨k, m', all, others⟩ := giveUpAll_cascades (m₁.heap.weight + rest.length + 1) (w :: rest)
      m₁ balanced (hout.sheds loses.sheds loses.keeps) (by simp only [List.length_cons]; omega)
    exact ⟨1 + k, m', all, first.trans others⟩

/-- **Giving up a list of values is a cascade.** -/
theorem releaseAll_cascades (hb : m.Balanced total σ (x + .refs vs))
    (hout : Heap.OutSupported x m.heap) :
    ∃ k m', releaseAll vs m = .done () m' ∧ Cascade k vs m [] m' := by
  induction vs generalizing m with
  | nil => exact ⟨0, m, rfl, .refl ..⟩
  | cons v rest ih =>
    have sum : x + .refs (v :: rest) = x + .refs rest + .refs [v] := by
      rw [Stake.refs_cons]
      abel
    obtain ⟨k, m₁, released, first⟩ := release_cascades (sum ▸ hb) (hout.add_right _)
    have first := first.append rest
    obtain ⟨balanced, loses, -, -⟩ := first.givenUp hb hout
    obtain ⟨l, m', all, others⟩ := ih balanced (hout.sheds loses.sheds loses.keeps)
    exact ⟨k + l, m', by rw [releaseAll, Action.bind_done released]; exact all, first.trans others⟩

/-- What a cascade that has come to its end leaves. -/
theorem Cascade.released {k : ℕ} (h : Cascade k vs m [] m₁)
    (hb : m.Balanced total σ (x + .refs vs)) (hout : Heap.OutSupported x m.heap) :
    Released total σ x m m₁ := by
  obtain ⟨balanced, loses, -, -⟩ := h.givenUp hb hout
  exact ⟨by simpa using balanced, loses⟩

/-! ### What cascades leave -/

/-- Nothing is different: neither the containers there are, what they hold and how often they are
referred to, nor the texts, nor any counter. -/
structure Agrees (m m' : Memory) : Prop where
  restored : m.Restored m'
  peak : SamePeak m m'

/-- **Cascades agree** on what they leave. -/
theorem Released.agrees (h₁ : Released total σ x m m₁) (h₂ : Released total σ x m m₂)
    (peak : SamePeak m₁ m₂) : m₁.Agrees m₂ := by
  obtain ⟨balanced₁, loses₁⟩ := h₁
  obtain ⟨balanced₂, loses₂⟩ := h₂
  have content (i : Handle) : m₂.heap.content? i = m₁.heap.content? i := by
    have live := (balanced₂.live_iff_survives loses₂ (i := i)).trans
      (balanced₁.live_iff_survives loses₁).symm
    rcases loses₁.sheds i with gone₁ | stays₁
    · have gone : ¬ ∃ c, m₂.heap.cell? i = some c := by
        rw [live, Heap.content?_eq_none_iff.1 gone₁]
        simp
      rw [gone₁, Heap.content?_eq_none_iff]
      exact Option.eq_none_iff_forall_ne_some.2 fun c hc => gone ⟨c, hc⟩
    · rcases loses₂.sheds i with gone₂ | stays₂
      · have gone : ¬ ∃ c, m₁.heap.cell? i = some c := by
          rw [← live, Heap.content?_eq_none_iff.1 gone₂]
          simp
        rw [gone₂, eq_comm, Heap.content?_eq_none_iff]
        exact Option.eq_none_iff_forall_ne_some.2 fun c hc => gone ⟨c, hc⟩
      · rw [stays₁, stays₂]
  have stake := Heap.stake_eq_of_content content
  refine ⟨balanced₁.restored balanced₂ (funext fun i => ?_) peak.ge, peak⟩
  -- a cell is its count and its content
  have count : m₂.heap.countAt i = m₁.heap.countAt i := by
    rw [balanced₂.holders, balanced₁.holders, stake]
  have object := content i
  unfold Heap.content? at object
  unfold Heap.countAt at count
  cases hc₁ : m₁.heap.cell? i with
  | none => simpa [hc₁] using object
  | some c₁ =>
    cases hc₂ : m₂.heap.cell? i with
    | none => simp [hc₁, hc₂] at object
    | some c₂ =>
      obtain ⟨count₁, object₁⟩ := c₁
      obtain ⟨count₂, object₂⟩ := c₂
      simp only [hc₁, hc₂, Option.map_some, Option.some.injEq, Option.elim_some] at object count
      rw [object, count]

end Memory

end StackScript
