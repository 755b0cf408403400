import Mathlib.Algebra.BigOperators.Group.Multiset.Basic
import Mathlib.Tactic.Abel
import StackScript.Proofs.Memory.Ledger

/-!
# Stakes

A stake is a share in a memory: references to texts and containers, and units charged to accounts.
Stakes add up, so what holds of a memory is said of one sum: the stakes of everything that holds
something, the containers of the heap among them.

* `Stake.holders` and `Stake.mentions` count the references to a container and to a text;
* `Stake.Knows` says that a container is among those referred to, so it is safe to refer to it once
  more;
* the dictionaries of frame locals are referred to by handle (`Stake.locals`), not by value, which
  keeps them out of the reach of `Stake.Knows`.
-/

namespace StackScript

/-- Text of a string, literal or executable. -/
def Value.string? (v : Value) : Option String :=
  match v.datum with
  | .string text _ => some text
  | _ => none

/-- What is held in a memory. -/
@[ext]
structure Stake where
  /-- Values held, each with one reference if it is tracked. -/
  values : Multiset Value
  /-- Dictionaries of frame locals, each held with one reference. -/
  locals : Multiset Handle
  /-- Units charged. -/
  units : Account → ℕ

namespace Stake

instance : Zero Stake := ⟨⟨0, 0, 0⟩⟩

instance : Add Stake := ⟨fun x y => ⟨x.values + y.values, x.locals + y.locals, x.units + y.units⟩⟩

@[simp] theorem values_zero : (0 : Stake).values = 0 := rfl
@[simp] theorem locals_zero : (0 : Stake).locals = 0 := rfl
@[simp] theorem units_zero : (0 : Stake).units = 0 := rfl

variable (x y : Stake)

@[simp] theorem values_add : (x + y).values = x.values + y.values := rfl
@[simp] theorem locals_add : (x + y).locals = x.locals + y.locals := rfl
@[simp] theorem units_add : (x + y).units = x.units + y.units := rfl

instance : AddCancelCommMonoid Stake where
  add_assoc x y z := Stake.ext (add_assoc ..) (add_assoc ..) (add_assoc ..)
  zero_add x := Stake.ext (zero_add _) (zero_add _) (zero_add _)
  add_zero x := Stake.ext (add_zero _) (add_zero _) (add_zero _)
  add_comm x y := Stake.ext (add_comm ..) (add_comm ..) (add_comm ..)
  nsmul := nsmulRec
  add_left_cancel x y z h := Stake.ext (add_left_cancel (congrArg values h))
    (add_left_cancel (congrArg locals h)) (add_left_cancel (congrArg units h))

/-! ### Elementary stakes -/

/-- References to values. -/
def refs (values : List Value) : Stake := ⟨values, 0, 0⟩

/-- The reference to the dictionary of a frame's locals. -/
def localsAt (handle : Handle) : Stake := ⟨0, {handle}, 0⟩

/-- Units charged to one account. -/
def charged (a : Account) (n : ℕ) : Stake := ⟨0, 0, fun b => if b = a then n else 0⟩

@[simp] theorem values_refs (vs : List Value) : (refs vs).values = vs := rfl
@[simp] theorem locals_refs (vs : List Value) : (refs vs).locals = 0 := rfl
@[simp] theorem units_refs (vs : List Value) : (refs vs).units = 0 := rfl
@[simp] theorem values_localsAt (h : Handle) : (localsAt h).values = 0 := rfl
@[simp] theorem locals_localsAt (h : Handle) : (localsAt h).locals = {h} := rfl
@[simp] theorem units_localsAt (h : Handle) : (localsAt h).units = 0 := rfl
@[simp] theorem values_charged (a : Account) (n : ℕ) : (charged a n).values = 0 := rfl
@[simp] theorem locals_charged (a : Account) (n : ℕ) : (charged a n).locals = 0 := rfl

theorem units_charged (a b : Account) (n : ℕ) :
    (charged a n).units b = if b = a then n else 0 := rfl

@[simp] theorem refs_nil : refs [] = 0 := rfl

theorem refs_append (vs ws : List Value) : refs (vs ++ ws) = refs vs + refs ws :=
  Stake.ext (Multiset.coe_add ..).symm rfl rfl

theorem refs_cons (v : Value) (vs : List Value) : refs (v :: vs) = refs [v] + refs vs :=
  refs_append [v] vs

theorem refs_perm {vs ws : List Value} (h : vs.Perm ws) : refs vs = refs ws :=
  Stake.ext (Multiset.coe_eq_coe.2 h) rfl rfl

@[simp] theorem refs_reverse (vs : List Value) : refs vs.reverse = refs vs :=
  refs_perm vs.reverse_perm

theorem charged_add (a : Account) (m n : ℕ) : charged a (m + n) = charged a m + charged a n := by
  refine Stake.ext rfl rfl (funext fun b => ?_)
  simp only [charged, units_add, Pi.add_apply]
  split <;> rfl

@[simp] theorem charged_zero (a : Account) : charged a 0 = 0 := by
  refine Stake.ext rfl rfl (funext fun b => ?_)
  simp [charged]

/-! ### Counting references -/

/-- Number of references to a container. -/
def holders (h : Handle) : ℕ := x.values.countP (fun v => v.handle? = some h) + x.locals.count h

/-- Number of references to a text. -/
def mentions (text : String) : ℕ := x.values.countP fun v => v.string? = some text

@[simp] theorem holders_zero (h : Handle) : (0 : Stake).holders h = 0 := rfl

@[simp] theorem mentions_zero (text : String) : (0 : Stake).mentions text = 0 := rfl

theorem holders_add (h : Handle) : (x + y).holders h = x.holders h + y.holders h := by
  simp only [holders, values_add, locals_add, Multiset.countP_add, Multiset.count_add]
  omega

theorem mentions_add (text : String) : (x + y).mentions text = x.mentions text + y.mentions text :=
  Multiset.countP_add ..

theorem holders_ref (v : Value) (h : Handle) :
    (refs [v]).holders h = if v.handle? = some h then 1 else 0 := by
  simp [holders, ← Multiset.cons_zero, Multiset.countP_cons]

theorem mentions_ref (v : Value) (text : String) :
    (refs [v]).mentions text = if v.string? = some text then 1 else 0 := by
  simp [mentions, ← Multiset.cons_zero, Multiset.countP_cons]

theorem holders_localsAt (g h : Handle) : (localsAt g).holders h = if h = g then 1 else 0 := by
  simp [holders, Multiset.count_singleton]

@[simp] theorem mentions_localsAt (g : Handle) (text : String) : (localsAt g).mentions text = 0 :=
  rfl

@[simp] theorem holders_charged (a : Account) (n : ℕ) (h : Handle) : (charged a n).holders h = 0 :=
  rfl

@[simp] theorem mentions_charged (a : Account) (n : ℕ) (text : String) :
    (charged a n).mentions text = 0 := rfl

variable {x y}

theorem holders_pos_iff {h : Handle} :
    0 < x.holders h ↔ (∃ v ∈ x.values, v.handle? = some h) ∨ h ∈ x.locals := by
  rw [holders, Nat.add_pos_iff_pos_or_pos, Multiset.countP_pos, Multiset.count_pos]

theorem holders_pos_of_mem {v : Value} {h : Handle} (hv : v ∈ x.values) (hh : v.handle? = some h) :
    0 < x.holders h :=
  holders_pos_iff.2 (.inl ⟨v, hv, hh⟩)

theorem holders_pos_of_local {h : Handle} (hh : h ∈ x.locals) : 0 < x.holders h :=
  holders_pos_iff.2 (.inr hh)

theorem mentions_pos_iff {text : String} :
    0 < x.mentions text ↔ ∃ v ∈ x.values, v.string? = some text :=
  Multiset.countP_pos

/-! ### Known values -/

/-- The container of the value, if it is one, is referred to by a value of the same kind. -/
def Knows (x : Stake) (v : Value) : Prop :=
  ∀ h, v.handle? = some h → ∃ w ∈ x.values, w.handle? = some h ∧ w.kind = v.kind

theorem knows_of_mem {v : Value} (hv : v ∈ x.values) : x.Knows v := fun _ h => ⟨v, hv, h, rfl⟩

theorem knows_of_handle?_none {v : Value} (hv : v.handle? = none) : x.Knows v := fun h hh => by
  rw [hv] at hh
  cases hh

theorem Knows.mono {v : Value} (hv : x.Knows v) (hxy : x.values ⊆ y.values) : y.Knows v :=
  fun h hh =>
    let ⟨w, hw, hwh, hk⟩ := hv h hh
    ⟨w, hxy hw, hwh, hk⟩

theorem Knows.add_right {v : Value} (hv : x.Knows v) (y : Stake) : (x + y).Knows v :=
  hv.mono fun _ => Multiset.mem_add.2 ∘ .inl

theorem Knows.add_left {v : Value} (hv : x.Knows v) (y : Stake) : (y + x).Knows v :=
  hv.mono fun _ => Multiset.mem_add.2 ∘ .inr

/-- Where the value came from plays no part. -/
theorem Knows.withSource {v : Value} (hv : x.Knows v) (source : Option Provenance) :
    x.Knows (v.withSource source) := hv

theorem Knows.holders_pos {v : Value} {h : Handle} (hv : x.Knows v) (hh : v.handle? = some h) :
    0 < x.holders h :=
  let ⟨_, hw, hwh, _⟩ := hv h hh
  holders_pos_of_mem hw hwh

end Stake

end StackScript
