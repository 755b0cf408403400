import StackScript.TextMap
import StackScript.Value.Basic

/-!
# Containers

The data of the containers values live in.

* A `Reserve` says how many slots are charged for and how they grow: `initial` slots up front, then
  whole blocks of `increment` slots.  With an increment of zero the number of slots is fixed.
* A `Sequence` is a reserve with values.  Used as a stack, the head of the list is its top; used as
  an array, indices count from the bottom (`Sequence.toList`).
* A `Dictionary` binds names to values.
-/

namespace StackScript

/-- Slots charged to the ledger and the rule by which they grow. -/
structure Reserve where
  /-- Size of one slot. -/
  slot : Size
  account : Account
  initial : Nat
  increment : Nat
  /-- Number of slots charged at present. -/
  capacity : Nat
deriving DecidableEq, Repr

namespace Reserve

/-- Slots needed to hold `length` items. -/
def capacityFor (r : Reserve) (length : Nat) : Except Cause Nat :=
  if length ≤ r.initial then .ok r.initial
  else if r.increment = 0 then .error (.sequenceFull r.initial)
  else .ok (r.initial + (length - r.initial + r.increment - 1) / r.increment * r.increment)

/-- Everything charged at present. -/
def charge (r : Reserve) : Size := r.slot.times r.capacity

end Reserve

/-- Values in charged slots, the top first. -/
structure Sequence where
  reserve : Reserve
  items : List Value := []
deriving DecidableEq, Repr

namespace Sequence

/-- Slot of a plain value. -/
def valueSlot : Size where
  pointers := 1
  values := 1

/-- Number of items. -/
def length (s : Sequence) : Nat := s.items.length

/-- The items from the bottom up. -/
def toList (s : Sequence) : List Value := s.items.reverse

/-- The item at an index from the bottom. -/
def get? (s : Sequence) (index : Nat) : Option Value :=
  if index < s.length then s.items[s.length - 1 - index]? else none

/-- Replace the item at an index from the bottom. -/
def replace (s : Sequence) (index : Nat) (v : Value) : Sequence :=
  { s with items := if index < s.length then s.items.set (s.length - 1 - index) v else s.items }

theorem get?_eq_getElem? (s : Sequence) (index : Nat) : s.get? index = s.toList[index]? := by
  unfold get? toList length
  split
  · rename_i h
    rw [List.getElem?_reverse h]
  · rename_i h
    exact (List.getElem?_eq_none (by simpa using h)).symm

theorem toList_replace (s : Sequence) (index : Nat) (v : Value) :
    (s.replace index v).toList = s.toList.set index v := by
  unfold replace toList length
  split
  · rename_i h
    apply List.ext_getElem?
    intro i
    by_cases hi : i < s.items.length
    · rw [List.getElem?_reverse (by simpa using hi), List.getElem?_set, List.getElem?_set,
        List.getElem?_reverse hi, List.length_set]
      by_cases he : index = i
      · subst he; simp [h]; omega
      · have : s.items.length - 1 - index ≠ s.items.length - 1 - i := by omega
        simp [he, this]
    · rw [List.getElem?_eq_none (by simpa using hi), List.getElem?_eq_none (by simpa using hi)]
  · rename_i h
    exact (List.set_eq_of_length_le (by simpa using h)).symm

end Sequence

/-- Bindings of names to values. -/
structure Dictionary where
  account : Account
  entries : TextMap Value := []
deriving DecidableEq, Repr

namespace Dictionary

/-- Size of an empty dictionary. -/
def header : Size where
  integers := 1
  pointers := 2

/-- Size of the entry of a name. -/
def entrySize (name : String) : Size where
  bytes := name.utf8ByteSize
  pointers := 1
  values := 1

/-- What a name is bound to. -/
def get? (d : Dictionary) (name : String) : Option Value := d.entries.find? name

/-- Number of bound names. -/
def size (d : Dictionary) : Nat := d.entries.length

/-- Names in lexicographic order. -/
def names (d : Dictionary) : List String := d.entries.sortedKeys

/-- The bound values, in the order of the entries. -/
def values (d : Dictionary) : List Value := d.entries.map Prod.snd

end Dictionary

/-- What a heap slot can hold. -/
inductive Object where
  | array (s : Sequence)
  | dictionary (d : Dictionary)
deriving DecidableEq, Repr

namespace Object

/-- The values an object holds, in the order they are given up when it is disposed of. -/
def values : Object → List Value
  | .array s => s.items
  | .dictionary d => d.values

end Object

end StackScript
