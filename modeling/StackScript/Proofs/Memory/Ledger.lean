import Mathlib.Algebra.Ring.Nat
import StackScript.Memory.Basic
import StackScript.Proofs.Outcome

/-!
# Exact bookkeeping of the ledger

Costs saturate, so what is charged and what is given back could differ.  They do not: a saturated
cost is never granted, and `Size.units`, the cost without saturation, is what every account moves
by (`Ledger.allocate_meets`, `Ledger.release_eq`).

* `Ledger.Exact` is what holds of the counters at any time: the accounts add up to what is used,
  which is at most the peak, which is at most the capacity;
* `Ledger.Tabled` is what holds of the table of strings: no text occurs twice, and every text in
  it is referenced;
* `Ledger.textUnits` is what the texts of the table cost together.
-/

namespace StackScript

/-! ### Sizes -/

namespace Size

/-- Weighted cost, without saturation. -/
def units (s : Size) : Nat :=
  s.bytes + s.integers * integerWeight + s.pointers * pointerWeight + s.values * valueWeight

theorem cost_eq_min (s : Size) : s.cost = min s.units limit := by
  simp only [cost, units, saturate]
  omega

theorem cost_times (s : Size) (n : Nat) : (s.times n).cost = min (s.units * n) limit := by
  have distrib : s.units * n = s.bytes * n + s.integers * n * integerWeight +
      s.pointers * n * pointerWeight + s.values * n * valueWeight := by
    simp only [units, Nat.add_mul, Nat.mul_right_comm _ _ n]
  rw [cost_eq_min, distrib]
  simp only [units, times, saturate, integerWeight, pointerWeight, valueWeight]
  omega

end Size

/-! ### Finite maps -/

namespace TextMap

variable {α : Type}

/-- A bound key splits the map around its first pair, which is the one that is replaced or
erased. -/
theorem exists_split {m : TextMap α} {key : String} {a : α} (h : m.find? key = some a) :
    ∃ l r, m = l ++ (key, a) :: r ∧ (∀ b, m.put key b = l ++ (key, b) :: r) ∧
      m.erase key = l ++ r ∧ key ∉ l.map Prod.fst := by
  induction m with
  | nil => simp [find?] at h
  | cons p rest ih =>
    obtain ⟨k, c⟩ := p
    by_cases hk : k = key
    · simp only [find?, hk, if_true, Option.some.injEq] at h
      subst hk h
      exact ⟨[], rest, rfl, fun b => by simp [put], by simp [erase], by simp⟩
    · simp only [find?, hk, if_false] at h
      obtain ⟨l, r, rfl, hput, herase, hl⟩ := ih h
      refine ⟨(k, c) :: l, r, rfl, fun b => ?_, ?_, ?_⟩
      · simp [put, hk, hput b]
      · simp [erase, hk, herase]
      · simpa [Ne.symm hk] using hl

theorem put_of_unbound {m : TextMap α} {key : String} (h : m.find? key = none) (b : α) :
    m.put key b = m ++ [(key, b)] := by
  induction m with
  | nil => rfl
  | cons p rest ih =>
    obtain ⟨k, c⟩ := p
    by_cases hk : k = key
    · simp [find?, hk] at h
    · simp only [find?, hk, if_false] at h
      simp [put, hk, ih h]

theorem find?_eq_none_iff {m : TextMap α} {key : String} :
    m.find? key = none ↔ key ∉ m.map Prod.fst := by
  induction m with
  | nil => simp [find?]
  | cons p rest ih =>
    obtain ⟨k, c⟩ := p
    by_cases hk : k = key
    · simp [find?, hk]
    · simp [find?, hk, ih, Ne.symm hk]

theorem find?_append (l r : TextMap α) (key : String) :
    TextMap.find? (l ++ r) key = (l.find? key).or (r.find? key) := by
  induction l with
  | nil => rfl
  | cons p rest ih =>
    obtain ⟨k, c⟩ := p
    by_cases hk : k = key <;> simp [find?, hk, ih]

theorem find?_erase_ne {m : TextMap α} {key other : String} {a : α} (h : m.find? key = some a)
    (hne : key ≠ other) : (m.erase key).find? other = m.find? other := by
  obtain ⟨l, r, hm, -, herase, -⟩ := exists_split h
  rw [herase, hm, find?_append, find?_append]
  simp [find?, hne]

end TextMap

/-! ### Counters -/

namespace Ledger

/-- The accounts add up to what is used, and neither it nor the peak exceeds the capacity, which
the counters can count. -/
structure Exact (total : Option Nat) (l : Ledger) : Prop where
  capacity : l.total = total
  countable : total.getD Size.limit ≤ Size.limit
  sum : l.used = l.system + l.user + l.string
  used_le : l.used ≤ l.peak
  peak_le : l.peak ≤ total.getD Size.limit

variable {total : Option Nat} {l : Ledger} {size : Size} {a : Account}

theorem Exact.held_le_used (h : l.Exact total) (a : Account) : l.held a ≤ l.used := by
  have := h.sum
  cases a <;> simp only [held] <;> omega

theorem Exact.used_le_limit (h : l.Exact total) : l.used ≤ Size.limit :=
  Nat.le_trans h.used_le (Nat.le_trans h.peak_le h.countable)

theorem held_grant (l : Ledger) (n : Nat) (a b : Account) :
    (l.grant n a).held b = l.held b + if b = a then n else 0 := by
  cases a <;> cases b <;> simp [grant, held, setHeld]

theorem held_takeBack (l : Ledger) (n : Nat) (a b : Account) :
    (l.takeBack n a).held b = l.held b - if b = a then n else 0 := by
  cases a <;> cases b <;> simp [takeBack, held, setHeld]

@[simp] theorem strings_grant (l : Ledger) (n : Nat) (a : Account) :
    (l.grant n a).strings = l.strings := by
  cases a <;> rfl

@[simp] theorem strings_takeBack (l : Ledger) (n : Nat) (a : Account) :
    (l.takeBack n a).strings = l.strings := by
  cases a <;> rfl

theorem takeBack_takeBack (l : Ledger) (m n : Nat) (a : Account) :
    (l.takeBack m a).takeBack n a = l.takeBack (m + n) a := by
  cases a <;> simp [takeBack, setHeld, held, Nat.sub_sub]

theorem Exact.grant (h : l.Exact total) {n : Nat} (hn : l.used + n ≤ total.getD Size.limit) :
    (l.grant n a).Exact total := by
  obtain ⟨hc, hl, hs, hu, hp⟩ := h
  cases a <;> refine ⟨hc, hl, ?_, ?_, ?_⟩ <;>
    simp only [Ledger.grant, setHeld, held] <;> omega

theorem Exact.takeBack (h : l.Exact total) {n : Nat} (hn : n ≤ l.held a) :
    (l.takeBack n a).Exact total := by
  obtain ⟨hc, hl, hs, hu, hp⟩ := h
  cases a <;> refine ⟨hc, hl, ?_, ?_, ?_⟩ <;>
    simp only [Ledger.takeBack, setHeld, held] at hn ⊢ <;> omega

theorem room_eq (h : l.Exact total) : l.room = total.getD Size.limit - l.used := by
  simp only [room, available, h.capacity]
  cases total <;> rfl

/-- A grant moves the account by the exact cost; a refusal changes nothing. -/
theorem allocate_meets {lax : Prop} {n : Nat} (h : l.Exact total)
    (hs : size.cost = min n Size.limit) :
    (allocate size a l).Meets lax (fun _ l' => l' = l.grant n a ∧ l'.Exact total)
      fun l' => l' = l := by
  have room := room_eq h
  have used := Nat.le_trans h.used_le h.peak_le
  have countable := h.countable
  unfold allocate check
  split
  · rename_i c hc
    rfl
  · rename_i hc
    split at hc
    · cases hc
    · rename_i hfit
      have exact : size.cost = n := by omega
      rw [exact] at hfit ⊢
      exact ⟨rfl, h.grant (by omega)⟩

/-- What an account holds can be given back, at its exact cost. -/
theorem release_eq (h : l.Exact total) (hs : size.cost = min n Size.limit) (hn : n ≤ l.held a) :
    release size a l = .done () (l.takeBack n a) := by
  have used := h.held_le_used a
  have limit := h.used_le_limit
  have exact : size.cost = n := by omega
  unfold release
  rw [exact, if_pos (by omega)]

/-! ### Strings -/

/-- Every text of the table occurs once, and is referenced. -/
structure Tabled (l : Ledger) : Prop where
  nodup : (l.strings.map Prod.fst).Nodup
  positive : ∀ e ∈ l.strings, 0 < e.2

/-- Cost of the texts in the table. -/
def textUnits (l : Ledger) : Nat := (l.strings.map fun e => (stringSize e.1).units).sum

/-- The part of an account that pays for texts. -/
def textShare (l : Ledger) (a : Account) : Nat := if a = .string then l.textUnits else 0

/-- `l'` is `l` after taking or giving up references to texts: the account of strings has moved
with the table, and no other account has. -/
structure Retabled (total : Option Nat) (l l' : Ledger) : Prop where
  exact : l'.Exact total
  tabled : l'.Tabled
  share : ∀ a, l'.held a + l.textShare a = l.held a + l'.textShare a

/-- The same ledger with another table of strings. -/
def withStrings (l : Ledger) (strings : TextMap Nat) : Ledger := { l with strings := strings }

@[simp] theorem strings_withStrings (l : Ledger) (strings : TextMap Nat) :
    (l.withStrings strings).strings = strings := rfl

theorem held_withStrings (l : Ledger) (strings : TextMap Nat) (a : Account) :
    (l.withStrings strings).held a = l.held a := by
  cases a <;> rfl

theorem Exact.withStrings (h : l.Exact total) (strings : TextMap Nat) :
    (l.withStrings strings).Exact total :=
  ⟨h.capacity, h.countable, h.sum, h.used_le, h.peak_le⟩

theorem references_put (l : Ledger) (text other : String) (n : Nat) :
    (l.withStrings (l.strings.put text n)).references other =
      if other = text then n else l.references other := by
  unfold references withStrings
  split
  · rename_i h
    rw [h, TextMap.find?_put_self, Option.getD_some]
  · rename_i h
    rw [TextMap.find?_put_ne _ (Ne.symm h)]

/-- Another count for a text that is referenced leaves the share of the strings as it is. -/
theorem retabled_put (h : l.Exact total) (ht : l.Tabled) {text : String} {n m : Nat}
    (hf : l.strings.find? text = some n) (hm : 0 < m) :
    Retabled total l (l.withStrings (l.strings.put text m)) := by
  obtain ⟨left, right, hs, hput, -, -⟩ := TextMap.exists_split hf
  refine ⟨h.withStrings _, ⟨?_, ?_⟩, fun a => ?_⟩
  · have := ht.nodup
    simp only [withStrings, hput]
    simpa [hs] using this
  · intro e he
    have := ht.positive
    simp only [withStrings, hput, List.mem_append, List.mem_cons] at he
    simp only [hs, List.mem_append, List.mem_cons] at this
    rcases he with he | rfl | he
    · exact this e (.inl he)
    · exact hm
    · exact this e (.inr (.inr he))
  · rw [held_withStrings]
    simp only [textShare, textUnits, withStrings, hput]
    simp [hs]

theorem addReference_apply (text : String) (l : Ledger) :
    addReference text l = match l.strings.find? text with
      | some n => .done () (l.withStrings (l.strings.put text (n + 1)))
      | none => (allocate (stringSize text) .string >>= fun _ =>
          modify fun l => l.withStrings (l.strings.put text 1)) l := by
  rw [addReference, Action.get_bind]
  cases l.strings.find? text <;> rfl

theorem dropReference_apply (text : String) (l : Ledger) :
    dropReference text l = match l.strings.find? text with
      | none => .broken (.unreferencedString text)
      | some n =>
        if 1 < n then .done () (l.withStrings (l.strings.put text (n - 1)))
        else release (stringSize text) .string (l.withStrings (l.strings.erase text)) := by
  rw [dropReference, Action.get_bind]
  cases l.strings.find? text with
  | none => rfl
  | some n =>
    dsimp only
    split
    · rfl
    · rw [Action.modify_bind, withStrings]

/-- A reference is taken on one text; the first one is paid for by the account of strings, and no
other can be refused. -/
theorem addReference_meets {lax : Prop} (h : l.Exact total) (ht : l.Tabled) (text : String) :
    (addReference text l).Meets lax
      (fun _ l' => Retabled total l l' ∧
        ∀ t, l'.references t = l.references t + if t = text then 1 else 0)
      fun l' => l' = l ∧ l.references text = 0 := by
  rw [addReference_apply]
  cases hf : l.strings.find? text with
  | some n =>
    -- a text that is in the table already costs nothing
    refine ⟨retabled_put h ht hf (Nat.succ_pos n), fun t => ?_⟩
    rw [references_put]
    split
    · rename_i heq
      simp [heq, references, hf]
    · rfl
  | none =>
    have unreferenced : l.references text = 0 := by simp [references, hf]
    refine Action.meets_bind ((allocate_meets h (Size.cost_eq_min _)).mono (fun _ _ => id)
      fun _ h => ⟨h, unreferenced⟩) ?_
    rintro _ _ ⟨rfl, hexact⟩
    have hput := TextMap.put_of_unbound hf
    refine Action.meets_modify ⟨⟨hexact.withStrings _, ⟨?_, ?_⟩, fun a => ?_⟩, fun t => ?_⟩
    · have unbound := TextMap.find?_eq_none_iff.1 hf
      have := ht.nodup
      simp only [strings_withStrings, strings_grant, hput, List.map_append, List.nodup_append,
        this, true_and]
      refine ⟨by simp, fun t ht u hu => ?_⟩
      rintro rfl
      obtain rfl : t = text := by simpa using hu
      exact unbound ht
    · intro e he
      simp only [strings_withStrings, strings_grant, hput, List.mem_append,
        List.mem_singleton] at he
      rcases he with he | rfl
      · exact ht.positive e he
      · exact Nat.one_pos
    · rw [held_withStrings, held_grant]
      by_cases ha : a = .string
      · simp [textShare, textUnits, withStrings, hput, ha]
        omega
      · simp [textShare, ha]
    · rw [references_put]
      split
      · rename_i heq
        simp [heq, references, hf]
      · simp [references]

/-! The table after a text with its last reference has been removed. -/

section Erase

variable {text : String} {n : Nat}

theorem textUnits_erase (hf : l.strings.find? text = some n) :
    (l.withStrings (l.strings.erase text)).textUnits + (stringSize text).units = l.textUnits := by
  obtain ⟨left, right, hs, -, herase, -⟩ := TextMap.exists_split hf
  simp only [textUnits, withStrings, herase]
  simp only [hs, List.map_append, List.map_cons, List.sum_append, List.sum_cons]
  omega

theorem Tabled.erase (ht : l.Tabled) (hf : l.strings.find? text = some n) :
    (l.withStrings (l.strings.erase text)).Tabled := by
  obtain ⟨left, right, hs, -, herase, -⟩ := TextMap.exists_split hf
  obtain ⟨nodup, positive⟩ := ht
  constructor
  · simp only [withStrings, herase]
    simp only [hs, List.map_append, List.map_cons, List.nodup_append, List.nodup_cons] at nodup ⊢
    exact ⟨nodup.1, nodup.2.1.2, fun a ha b hb => nodup.2.2 a ha b (List.mem_cons_of_mem _ hb)⟩
  · intro e he
    simp only [withStrings, herase, List.mem_append] at he
    refine positive e ?_
    rw [hs]
    exact List.mem_append.2 (he.imp_right (List.mem_cons_of_mem _))

theorem references_erase (ht : l.Tabled) (hf : l.strings.find? text = some n) (other : String) :
    (l.withStrings (l.strings.erase text)).references other =
      if other = text then 0 else l.references other := by
  split
  · rename_i heq
    subst heq
    obtain ⟨left, right, hs, -, herase, hleft⟩ := TextMap.exists_split hf
    have nodup := ht.nodup
    simp only [hs, List.map_append, List.map_cons, List.nodup_append, List.nodup_cons] at nodup
    have unbound : other ∉ (left ++ right).map Prod.fst := by
      simp only [List.map_append, List.mem_append, not_or]
      exact ⟨hleft, nodup.2.1.1⟩
    simp only [references, withStrings, herase]
    rw [TextMap.find?_eq_none_iff.2 unbound]
    rfl
  · rename_i hne
    simp only [references, withStrings]
    rw [TextMap.find?_erase_ne hf (Ne.symm hne)]

end Erase

/-- A reference to a text is given up; with the last one the account of strings gets its cost
back. -/
theorem dropReference_meets {lax : Prop} (h : l.Exact total) (ht : l.Tabled) {text : String}
    (hr : 0 < l.references text) (hu : l.textUnits ≤ l.string) :
    (dropReference text l).Meets lax
      (fun _ l' => Retabled total l l' ∧
        ∀ t, l'.references t + (if t = text then 1 else 0) = l.references t)
      fun _ => False := by
  rw [dropReference_apply]
  cases hf : l.strings.find? text with
  | none => simp [references, hf] at hr
  | some n =>
    have hn : l.references text = n := by simp [references, hf]
    dsimp only
    split
    · rename_i hmore
      refine ⟨retabled_put h ht hf (by omega), fun t => ?_⟩
      rw [references_put]
      split
      · rename_i heq
        subst heq
        omega
      · rfl
    · rename_i hlast
      -- the entry goes first, and what it was worth is then in the account
      have share := textUnits_erase hf
      have erased := h.withStrings (l.strings.erase text)
      have fits :
          (stringSize text).units ≤ (l.withStrings (l.strings.erase text)).held .string := by
        rw [held_withStrings, held]
        omega
      rw [release_eq erased (stringSize text).cost_eq_min fits]
      refine ⟨⟨erased.takeBack fits, ?_, fun a => ?_⟩, fun t => ?_⟩
      · obtain ⟨nodup, positive⟩ := ht.erase hf
        exact ⟨by rwa [strings_takeBack], by rwa [strings_takeBack]⟩
      · rw [held_takeBack, held_withStrings]
        rw [held_withStrings] at fits
        simp only [textShare, textUnits, strings_takeBack]
        split
        · rename_i ha
          subst ha
          simp only [textUnits] at share
          omega
        · rfl
      · have := references_erase ht hf t
        simp only [references, strings_takeBack] at this ⊢
        rw [this]
        split
        · rename_i heq
          subst heq
          have : n = 1 := by omega
          simp [hf, this]
        · rfl

end Ledger

end StackScript
