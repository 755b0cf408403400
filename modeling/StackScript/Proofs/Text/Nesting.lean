import StackScript.Proofs.Memory.Codes
import StackScript.Proofs.Text.Cursor

/-!
# Tokens between braces

Braces nest: every closing one ends the block begun last (`Token.balanced`).  Tokens in which they are
balanced spell code, in which each pair of braces with what is between them is a block
(`Token.exists_code_of_balanced`).
-/

namespace StackScript

namespace Token

variable {text : String} {a b c d : ℕ} {t u : Token} {ts us : List Token} {make : Token → Value}

/-- The token begins a block. -/
def opens (t : Token) : Bool := t.value.datum == .name "\x7b" true

/-- The token ends a block. -/
def closes (t : Token) : Bool := t.value.datum == .name "\x7d" true

/-- The tokens are read one after the other, the cursor going from `a` to `b`. -/
inductive Follow (text : String) : ℕ → List Token → ℕ → Prop
  | nil (a : ℕ) : Follow text a [] a
  | cons {a b : ℕ} {t : Token} {ts : List Token} (h : Token.next text a = .ok (some t))
    (hrest : Follow text t.stop ts b) : Follow text a (t :: ts) b

/-- Every brace that opens is closed, `depth` blocks having begun before. -/
def balanced : ℕ → List Token → Bool
  | depth, [] => depth == 0
  | depth, t :: rest =>
    if t.opens then balanced (depth + 1) rest
    else if t.closes then depth != 0 && balanced (depth - 1) rest
    else balanced depth rest

/-- The code the tokens spell: the values of those that are not between braces, in order, with each
pair of braces the block of what is between them. -/
inductive Spells (make : Token → Value) : List Token → Code → Prop
  | nil : Spells make [] .nil
  | value {t : Token} {ts : List Token} {rest : Code} (hopens : t.opens = false)
      (hcloses : t.closes = false) (hrest : Spells make ts rest) :
      Spells make (t :: ts) (.value (make t) rest)
  | block {t u : Token} {ts us : List Token} {body rest : Code} (hopens : t.opens = true)
      (hcloses : u.closes = true) (hbody : Spells make ts body) (hrest : Spells make us rest) :
      Spells make (t :: ts ++ u :: us) (.block none body rest)

theorem Follow.append (h : Follow text a (ts ++ us) c) :
    ∃ b, Follow text a ts b ∧ Follow text b us c := by
  induction ts generalizing a with
  | nil => exact ⟨a, .nil a, h⟩
  | cons t ts ih =>
    cases h with
    | cons ht hrest =>
      obtain ⟨b, hts, hus⟩ := ih hrest
      exact ⟨b, .cons ht hts, hus⟩

/-- What stands between the first token and the last one. -/
theorem Follow.exists_inside (h : Follow text a (t :: ts ++ [u]) b) : ∃ d,
    Token.next text a = .ok (some t) ∧ Follow text t.stop ts d ∧
      Token.next text d = .ok (some u) ∧ u.stop = b := by
  cases h with
  | cons first hrest =>
    obtain ⟨d, inside, hlast⟩ := hrest.append
    cases hlast with
    | cons last hend =>
      cases hend
      exact ⟨d, first, inside, last, rfl⟩

/-- **Balanced tokens spell code.**  Where a block is still open, they do up to the brace that closes
it, and from there. -/
theorem code_of_balanced (make : Token → Value) (depth : ℕ) (ts : List Token)
    (h : balanced depth ts = true) :
    match depth with
    | 0 => ∃ code, Spells make ts code
    | depth + 1 => ∃ body u us code, ts = body ++ u :: us ∧ u.closes = true ∧
        Spells make body code ∧ balanced depth us = true := by
  induction hn : ts.length using Nat.strong_induction_on generalizing depth ts with
  | _ n ih =>
    subst hn
    cases ts with
    | nil =>
      obtain rfl : depth = 0 := by simpa [balanced] using h
      exact ⟨.nil, .nil⟩
    | cons t rest =>
      rw [balanced] at h
      split at h
      · rename_i hopens
        -- the block that begins here ends before anything else does
        obtain ⟨body, u, us, code, rfl, hu, hbody, hus⟩ := ih rest.length (by simp) (depth + 1) rest h rfl
        have shorter : us.length < (t :: (body ++ u :: us)).length := by simp; omega
        have later := ih us.length shorter depth us hus rfl
        cases depth with
        | zero =>
          obtain ⟨code', hus⟩ := later
          exact ⟨_, .block hopens hu hbody hus⟩
        | succ depth =>
          obtain ⟨body', u', us', code', rfl, hu', hbody', hus'⟩ := later
          exact ⟨t :: body ++ u :: body', u', us', _, by simp, hu', .block hopens hu hbody hbody', hus'⟩
      · rename_i hopens
        split at h
        · rename_i hcloses
          cases depth with
          | zero => cases h
          | succ depth => exact ⟨[], t, rest, .nil, rfl, hcloses, .nil, h⟩
        · rename_i hcloses
          have later := ih rest.length (by simp) depth rest h rfl
          have plain {ts : List Token} {code : Code} (h : Spells make ts code) :
              Spells make (t :: ts) (.value (make t) code) :=
            .value (by simpa using hopens) (by simpa using hcloses) h
          cases depth with
          | zero =>
            obtain ⟨code, hrest⟩ := later
            exact ⟨_, plain hrest⟩
          | succ depth =>
            obtain ⟨body, u, us, code, rfl, hu, hbody, hus⟩ := later
            exact ⟨t :: body, u, us, _, rfl, hu, plain hbody, hus⟩

theorem exists_code_of_balanced (make : Token → Value) (h : balanced 0 ts = true) :
    ∃ code, Spells make ts code :=
  code_of_balanced make 0 ts h

end Token

end StackScript
