/-!
# Hosted integers

Scripts compute with 64-bit signed integers.  An arithmetic operation is carried out on the
integers the words stand for and is refused, with `none`, when the result does not fit a word.

* `Word.ofInt?` is the one place where a result is checked against the range, and `Word.toInt` the
  view all other statements are about;
* `Word.div?` truncates toward zero and `Word.mod?` takes the sign of the dividend; both are
  refused together, so `-2^63` has no remainder by `-1` although that remainder would be `0`.
-/

namespace StackScript

/-- Integers of the hosted language. -/
structure Word where
  bits : Int64
deriving DecidableEq, Repr

namespace Word

/-- The integer a word stands for. -/
def toInt (w : Word) : Int := w.bits.toInt

/-- The word that agrees with `n` in the last 64 bits. -/
def ofInt (n : Int) : Word := ⟨Int64.ofInt n⟩

instance : ToString Word := ⟨fun w => toString w.toInt⟩

/-- The word standing for `n`, when there is one. -/
def ofInt? (n : Int) : Option Word :=
  if -9223372036854775808 ≤ n ∧ n ≤ 9223372036854775807 then some (ofInt n) else none

/-- The word standing for a count. -/
def ofCount (n : Nat) : Word := ofInt n

/-- The index or count a word stands for, when it is not negative. -/
def index? (w : Word) : Option Nat :=
  if 0 ≤ w.toInt then some w.toInt.toNat else none

/-! ### Checked arithmetic -/

/-- Sum. -/
def add? (a b : Word) : Option Word := ofInt? (a.toInt + b.toInt)

/-- Difference. -/
def sub? (a b : Word) : Option Word := ofInt? (a.toInt - b.toInt)

/-- Product. -/
def mul? (a b : Word) : Option Word := ofInt? (a.toInt * b.toInt)

/-- Quotient, truncated toward zero. -/
def div? (a b : Word) : Option Word :=
  if b.toInt = 0 then none else ofInt? (a.toInt.tdiv b.toInt)

/-- Remainder of `div?`, refused whenever the quotient is. -/
def mod? (a b : Word) : Option Word :=
  (div? a b).bind fun _ => ofInt? (a.toInt.tmod b.toInt)

/-- Opposite. -/
def neg? (a : Word) : Option Word := ofInt? (-a.toInt)

/-- Absolute value. -/
def abs? (a : Word) : Option Word := ofInt? a.toInt.natAbs

/-! ### Bits -/

/-- The bits both words have. -/
def both (a b : Word) : Word := ⟨a.bits &&& b.bits⟩

/-- The bits one of the words has. -/
def either (a b : Word) : Word := ⟨a.bits ||| b.bits⟩

/-- The bits a word does not have. -/
def complement (a : Word) : Word := ⟨~~~a.bits⟩

/-! ### Small facts -/

theorem ext_toInt {a b : Word} (h : a.toInt = b.toInt) : a = b := by
  obtain ⟨a⟩ := a
  obtain ⟨b⟩ := b
  exact congrArg Word.mk (Int64.toInt_inj.mp h)

theorem toInt_range (w : Word) :
    -9223372036854775808 ≤ w.toInt ∧ w.toInt ≤ 9223372036854775807 := by
  have h := w.bits.le_toInt
  have h' := w.bits.toInt_lt
  unfold toInt
  omega

theorem toInt_ofInt {n : Int} (h : -9223372036854775808 ≤ n) (h' : n ≤ 9223372036854775807) :
    (ofInt n).toInt = n :=
  Int64.toInt_ofInt_of_le (by simpa using h) (by omega)

theorem ofInt?_eq_none_iff {n : Int} :
    ofInt? n = none ↔ n < -9223372036854775808 ∨ 9223372036854775807 < n := by
  unfold ofInt?
  split <;> simp <;> omega

theorem toInt_of_ofInt? {n : Int} {w : Word} (h : ofInt? n = some w) : w.toInt = n := by
  unfold ofInt? at h
  split at h
  · rename_i hn
    obtain rfl := Option.some.inj h
    exact toInt_ofInt hn.1 hn.2
  · cases h

end Word

end StackScript
