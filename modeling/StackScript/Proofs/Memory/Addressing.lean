import StackScript.Proofs.Memory.Contents
import StackScript.Proofs.Memory.Reading

/-!
# What keys address

A key is an index into an array or a name in a dictionary (`Value.key?`).  An object has a value where
the key addresses it (`Object.at?`), takes one there if it is an array that is long enough, or any
dictionary (`Object.Takes`), and becomes another object by that (`Object.stored`).

Reading what has been stored gives it back, other keys do not notice, only names that were unbound make
a dictionary longer, and storing what is there already changes nothing (`Object.read_stored`,
`Object.read_stored_of_ne`, `Object.length_stored`, `Object.stored_self`).
-/

namespace StackScript

/-! ### Maps from texts -/

namespace TextMap

variable {α : Type} {m : TextMap α} {key : String}

/-- The last value given to a key counts. -/
theorem put_put (m : TextMap α) (key : String) (a b : α) :
    (m.put key a).put key b = m.put key b := by
  induction m with
  | nil => simp [put]
  | cons p rest ih =>
    obtain ⟨k, c⟩ := p
    by_cases hk : k = key <;> simp [put, hk, ih]

theorem put_self {a : α} (h : m.find? key = some a) : m.put key a = m := by
  obtain ⟨l, r, hm, put, -, -⟩ := exists_split h
  rw [put, ← hm]

theorem length_put_of_bound {a : α} (h : m.find? key = some a) (b : α) :
    (m.put key b).length = m.length := by
  rw [← List.length_map Prod.fst, put_keys m h, List.length_map]

end TextMap

namespace Sequence

variable {s : Sequence} {index : ℕ}

/-- The last item stored at an index counts. -/
theorem replace_replace (s : Sequence) (index : ℕ) (v w : Value) :
    (s.replace index v).replace index w = s.replace index w := by
  have length := s.length_replace index v
  rw [replace, length]
  unfold replace
  dsimp only
  split
  · rw [List.set_set]
  · rfl

end Sequence

/-! ### Keys -/

/-- What a value addresses in containers. -/
inductive Key where
  | position (index : ℕ)
  | name (text : String)
deriving DecidableEq

/-- The key a value is.  Names are keys whether they are literal or not. -/
def Value.key? (v : Value) : Option Key :=
  match v.datum with
  | .integer w => w.index?.map .position
  | .name text _ => some (.name text)
  | _ => none

theorem Value.key?_of_toWord? {v : Value} {w : Word} (h : v.toWord? = some w) :
    v.key? = w.index?.map .position := by
  unfold toWord? at h
  split at h
  · rename_i hd
    rw [key?, hd, Option.some.inj h]
  · cases h

theorem Value.key?_of_toName? {v : Value} {text : String} (h : v.toName? = some text) :
    v.key? = some (.name text) := by
  unfold toName? at h
  split at h
  · rename_i hd
    rw [key?, hd, Option.some.inj h]
  · cases h

theorem Value.toWord?_of_key? {v : Value} {index : ℕ} (h : v.key? = some (.position index)) :
    ∃ w, v.toWord? = some w ∧ w.index? = some index := by
  unfold key? at h
  split at h
  · rename_i w hd
    obtain ⟨_, hw, hi⟩ := Option.map_eq_some_iff.1 h
    cases hi
    exact ⟨w, by rw [toWord?, hd], hw⟩
  · cases h
  · cases h

theorem Value.toName?_of_key? {v : Value} {text : String} (h : v.key? = some (.name text)) :
    v.toName? = some text := by
  unfold key? at h
  split at h
  · obtain ⟨_, -, hi⟩ := Option.map_eq_some_iff.1 h
    cases hi
  · rename_i hd
    cases h
    rw [toName?, hd]
  · cases h

/-! ### Objects -/

namespace Object

variable {o : Object} {k k' : Key} {v w key : Value}

/-- The number of items or of bound names. -/
def length : Object → ℕ
  | .array s => s.length
  | .dictionary d => d.size

/-- What an object has where a key addresses it. -/
def at? : Object → Key → Option Value
  | .array s, .position index => s.get? index
  | .dictionary d, .name text => d.get? text
  | _, _ => none

/-- A value can be stored where the key addresses the object.  Arrays do not grow. -/
def Takes : Object → Key → Prop
  | .array s, .position index => index < s.length
  | .dictionary _, .name _ => True
  | _, _ => False

instance (o : Object) (k : Key) : Decidable (o.Takes k) :=
  match o, k with
  | .array s, .position index => inferInstanceAs (Decidable (index < s.length))
  | .dictionary _, .name _ => .isTrue trivial
  | .array _, .name _ => .isFalse id
  | .dictionary _, .position _ => .isFalse id

/-- The object with a value stored where a key addresses it. -/
def stored : Object → Key → Value → Object
  | .array s, .position index, v => .array (s.replace index v)
  | .dictionary d, .name text, v => .dictionary { d with entries := d.entries.put text v }
  | o, _, _ => o

/-- Why there is nothing where a key addresses an object. -/
def fault (o : Object) (key : Value) : Cause :=
  match o with
  | .array s =>
    match key.toWord? with
    | some w => .indexRange w s.length
    | none => .arrayIndexKind
  | .dictionary _ =>
    match key.toName? with
    | some text => .unbound text
    | none => .keyKind

/-- What reading an object at a key gives. -/
def read (o : Object) (key : Value) : Except Cause Value :=
  match key.key?.bind o.at? with
  | some v => .ok v
  | none => .error (o.fault key)

theorem fault_ne_internal (o : Object) (key : Value) : (o.fault key).condition ≠ .internal := by
  cases o with
  | array s => cases hw : key.toWord? <;> rw [fault, hw] <;> exact nofun
  | dictionary d => cases hn : key.toName? <;> rw [fault, hn] <;> exact nofun

theorem mem_values_of_at? (h : o.at? k = some v) : v ∈ o.values := by
  cases o with
  | array s =>
    cases k with
    | position index =>
      rw [at?, Sequence.get?_eq_getElem?] at h
      exact List.mem_reverse.1 (List.mem_of_getElem? h)
    | name text => cases h
  | dictionary d =>
    cases k with
    | position index => cases h
    | name text => exact Dictionary.mem_values_of_get? h

theorem mem_values_of_read (h : o.read key = .ok v) : v ∈ o.values := by
  unfold read at h
  split at h
  · rename_i w hw
    obtain ⟨k, -, hk⟩ := Option.bind_eq_some_iff.1 hw
    cases h
    exact mem_values_of_at? hk
  · cases h

theorem at?_stored (h : o.Takes k) (v : Value) : (o.stored k v).at? k = some v := by
  cases o with
  | array s =>
    cases k with
    | position index =>
      have inside : index < s.toList.length := by rwa [Sequence.toList, List.length_reverse]
      rw [stored, at?, Sequence.get?_eq_getElem?, Sequence.toList_replace,
        List.getElem?_set_self inside]
    | name text => exact h.elim
  | dictionary d =>
    cases k with
    | position index => exact h.elim
    | name text => exact TextMap.find?_put_self d.entries text v

theorem at?_stored_of_ne (h : k' ≠ k) (v : Value) : (o.stored k v).at? k' = o.at? k' := by
  cases o with
  | array s =>
    cases k with
    | position index =>
      cases k' with
      | position index' =>
        have ne : index ≠ index' := fun same => h (same ▸ rfl)
        rw [stored, at?, at?, Sequence.get?_eq_getElem?, Sequence.get?_eq_getElem?,
          Sequence.toList_replace, List.getElem?_set_ne ne]
      | name text => rfl
    | name text => rfl
  | dictionary d =>
    cases k with
    | position index => rfl
    | name text =>
      cases k' with
      | position index => rfl
      | name text' =>
        have ne : text ≠ text' := fun same => h (same ▸ rfl)
        exact TextMap.find?_put_ne d.entries ne v

theorem fault_stored (o : Object) (k : Key) (v key : Value) :
    (o.stored k v).fault key = o.fault key := by
  cases o with
  | array s =>
    cases k with
    | position index => simp only [stored, fault, Sequence.length_replace]
    | name text => rfl
  | dictionary d => cases k <;> rfl

/-- **What has been stored is read back.** -/
theorem read_stored (hk : key.key? = some k) (h : o.Takes k) (v : Value) :
    (o.stored k v).read key = .ok v := by
  rw [read, hk, Option.bind_some, at?_stored h]

/-- **Other keys do not notice.** -/
theorem read_stored_of_ne (hk : key.key? ≠ some k) (v : Value) :
    (o.stored k v).read key = o.read key := by
  have same : key.key?.bind (o.stored k v).at? = key.key?.bind o.at? := by
    cases hk' : key.key? with
    | none => rfl
    | some k' => exact at?_stored_of_ne (fun same => hk (hk'.trans (congrArg some same))) v
  rw [read, read, same, fault_stored]

/-- **A name that was unbound** makes a dictionary longer by one, and nothing else does. -/
theorem length_stored (h : o.Takes k) (v : Value) :
    (o.stored k v).length = o.length + if o.at? k = none then 1 else 0 := by
  cases o with
  | array s =>
    cases k with
    | position index =>
      obtain ⟨w, hw⟩ := Sequence.exists_get? h
      rw [at?, hw, if_neg nofun]
      exact s.length_replace index v
    | name text => exact h.elim
  | dictionary d =>
    cases k with
    | position index => exact h.elim
    | name text =>
      cases hd : d.get? text with
      | some w =>
        rw [at?, hd, if_neg nofun]
        exact TextMap.length_put_of_bound hd v
      | none =>
        rw [at?, hd, if_pos rfl]
        change (d.entries.put text v).length = d.entries.length + 1
        rw [TextMap.put_of_unbound hd, List.length_append, List.length_singleton]

theorem stored_stored (o : Object) (k : Key) (v w : Value) :
    (o.stored k v).stored k w = o.stored k w := by
  cases o with
  | array s =>
    cases k with
    | position index => exact congrArg Object.array (s.replace_replace index v w)
    | name text => rfl
  | dictionary d =>
    cases k with
    | position index => rfl
    | name text => simp only [stored, TextMap.put_put]

/-- **Storing what is there already** changes nothing. -/
theorem stored_self (h : o.at? k = some w) : o.stored k w = o := by
  cases o with
  | array s =>
    cases k with
    | position index => exact congrArg Object.array (Sequence.replace_self h)
    | name text => cases h
  | dictionary d =>
    cases k with
    | position index => cases h
    | name text => simp only [stored, TextMap.put_self h]

theorem takes_of_at? (h : o.at? k = some w) : o.Takes k := by
  cases o with
  | array s =>
    cases k with
    | position index =>
      change index < s.length
      by_contra outside
      rw [at?, Sequence.get?, if_neg outside] at h
      cases h
    | name text => cases h
  | dictionary d =>
    cases k with
    | position index => cases h
    | name text => trivial

end Object

end StackScript
