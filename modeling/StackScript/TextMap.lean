/-!
# Finite maps from texts

A finite map kept as the list of its pairs.  `find?`, `put` and `erase` look at the first pair of a
key only, so each of them touches at most one pair.
-/

namespace StackScript

/-- A finite map from texts to `α`. -/
abbrev TextMap (α : Type) := List (String × α)

namespace TextMap

variable {α : Type}

/-- The value of a key. -/
def find? : TextMap α → String → Option α
  | [], _ => none
  | (k, a) :: rest, key => if k = key then some a else find? rest key

/-- Give a key its value; a new key comes last. -/
def put : TextMap α → String → α → TextMap α
  | [], key, b => [(key, b)]
  | (k, a) :: rest, key, b => if k = key then (k, b) :: rest else (k, a) :: put rest key b

/-- Remove a key. -/
def erase : TextMap α → String → TextMap α
  | [], _ => []
  | (k, a) :: rest, key => if k = key then rest else (k, a) :: erase rest key

/-- The keys in lexicographic order. -/
def sortedKeys (m : TextMap α) : List String :=
  (m.map Prod.fst).mergeSort fun a b => decide (a ≤ b)

@[simp] theorem find?_put_self (m : TextMap α) (key : String) (b : α) :
    (m.put key b).find? key = some b := by
  induction m with
  | nil => simp [put, find?]
  | cons p rest ih =>
    obtain ⟨k, a⟩ := p
    by_cases h : k = key <;> simp [put, find?, h, ih]

theorem find?_put_ne (m : TextMap α) {key other : String} (h : key ≠ other) (b : α) :
    (m.put key b).find? other = m.find? other := by
  induction m with
  | nil => simp [put, find?, h]
  | cons p rest ih =>
    obtain ⟨k, a⟩ := p
    by_cases hk : k = key
    · subst hk; simp [put, find?, h]
    · simp only [put, hk, if_false, find?, ih]

theorem put_keys (m : TextMap α) {key : String} {a : α} (h : m.find? key = some a) (b : α) :
    (m.put key b).map Prod.fst = m.map Prod.fst := by
  induction m with
  | nil => simp [find?] at h
  | cons p rest ih =>
    obtain ⟨k, c⟩ := p
    by_cases hk : k = key
    · simp [put, hk]
    · simp only [find?, hk, if_false] at h
      simp [put, hk, ih h]

end TextMap

end StackScript
