import StackScript.Proofs.Comparison.Queueing

/-!
# Values, whatever they come from

The values that the tokens of a text have can be executed in three ways: as the text, as a list of them, and
one by one as they are supplied.  The three go on for ever, or all complete, and then with the same in the
machine, up to the handles of containers and to where values come from (`texts_lists_and_supplies_agree`).

A text that cannot be read to its end makes an exception pending after its values, unless one is pending
by then.  As every exception does, it also ends the blocks that have been begun, which those who give the
values themselves leave open (`open_blocks_end_with_the_text`).
-/

namespace StackScript

open StackScript.Action

namespace Session

variable {χ : Type} {s : Session χ} {ds : List Datum} {k : Option Condition} {work work' : Work}

/-- **Work that gives the same values** comes to the same. -/
theorem Unhindered.agrees (hs : s.Unhindered) (idle : s.machine.calls.frames = [])
    (hp : s.machine.pending = none) (provides : work.Provides ds k) (hwork : ∀ vs, work ≠ .values vs)
    (provides' : work'.Provides ds none) (affords : s.Affords work) (affords' : s.Affords work') :
    (s.Diverges work ∧ s.Diverges work') ∨
      ∃ u v, s.Executes work u ∧ s.Executes work' v ∧ u.machine.Mirrors v.machine ∧
        u.machine.condition = (v.machine.condition <|> k) ∧
        u.machine.blockDepth =
          if v.machine.condition = none ∧ k.isSome then 0 else v.machine.blockDepth := by
  obtain ⟨f, t, given, queued⟩ := hs.queues idle provides affords
  obtain ⟨g, t', given', queued'⟩ := hs.queues idle provides' affords'
  rw [← List.append_nil ds] at queued'
  obtain ⟨R, paces⟩ := queued.paces (queued.plain hwork) queued' hp
  rcases paces.comes_to_end with ⟨forever, forever'⟩ | ⟨u, v, c, n, left, right, mirrors⟩
  · exact .inl ⟨⟨t, given, forever⟩, t', given', forever'⟩
  · -- the second session has nothing pending at the end but what was pending before
    have condition : v.machine.condition = c := by
      rw [right.condition]
      cases c <;> rfl
    have blockDepth : v.machine.blockDepth = n := by rw [right.blockDepth, if_neg (by simp)]
    refine .inr ⟨u, v, ⟨t, given, left.completes⟩, ⟨t', given', right.completes⟩, mirrors, ?_, ?_⟩
    · rw [left.condition, condition]
    · rw [left.blockDepth, condition, blockDepth]

end Session

open Session in
/-- **Texts, lists and supplies agree.**  Let a host have reached a session in which no work is left and no
exception is pending, and let the values be those of the tokens of a text, up to its end or to where it
cannot be read on.  If no allocation is refused, executing the text, the list of the values, and a supply
of them all go on for ever; or all complete with the same in the machine, up to the handles of containers
and to where values come from, as many blocks begun and an exception of the same kind pending or none.
But if the text cannot be read to its end and the values leave no exception pending, then the text
leaves that of the failure pending, and no block begun. -/
theorem texts_lists_and_supplies_agree {χ : Type} {options : Options} {m₀ : Machine} {owned : List Value}
    {s : Session χ} {text origin : String} {ts : List Token} {vs : List Value} {k : Option Condition}
    (hm₀ : m₀.Created options) (h : Reached m₀ owned s) (idle : s.machine.calls.frames = [])
    (hp : s.machine.pending = none) (lexes : Text.Lexes 0 text.toList ts k)
    (same : vs.map Value.datum = ts.map fun t => t.value.datum)
    (htext : s.Affords (.source text origin)) (hlist : s.Affords (.values vs))
    (hsupply : s.Affords (.supply { upcoming := vs })) :
    (s.Diverges (.source text origin) ∧ s.Diverges (.values vs) ∧
        s.Diverges (.supply { upcoming := vs })) ∨
      ∃ u v w, s.Executes (.source text origin) u ∧ s.Executes (.values vs) v ∧
        s.Executes (.supply { upcoming := vs }) w ∧
        u.machine.Mirrors v.machine ∧ w.machine.Mirrors v.machine ∧
        w.machine.condition = v.machine.condition ∧ w.machine.blockDepth = v.machine.blockDepth ∧
        u.machine.condition = (v.machine.condition <|> k) ∧
        u.machine.blockDepth =
          if v.machine.condition = none ∧ k.isSome then 0 else v.machine.blockDepth := by
  obtain ⟨Γ, -, kept⟩ := h.sound hm₀
  have unhindered := unhindered_of_idle kept.sound (h.growing hm₀) idle
  have plain : ∀ v ∈ vs, v.handle? = none := by
    intro v hv
    obtain ⟨t, ht, datum⟩ := List.mem_map.1 (same ▸ List.mem_map_of_mem hv)
    rw [Value.handle?, ← datum]
    exact lexes.handle?_eq_none t ht
  have list : (Work.values vs).Provides (ts.map fun t => t.value.datum) none := same ▸ .values plain
  have supply : (Work.supply { upcoming := vs }).Provides (ts.map fun t => t.value.datum) none :=
    same ▸ .supply plain
  have textual (us : List Value) : Work.source text origin ≠ .values us := by
    intro same
    cases same
  have supplied (us : List Value) : Work.supply { upcoming := vs } ≠ .values us := by
    intro same
    cases same
  rcases unhindered.agrees idle hp (.source lexes origin) textual list htext hlist with
    ⟨forever, forever'⟩ | ⟨u, v, hu, hv, mirrors, condition, blockDepth⟩ <;>
  rcases unhindered.agrees idle hp supply supplied list hsupply hlist with
    ⟨forever₁, forever₁'⟩ | ⟨w, v', hw, hv', mirrors₁, condition₁, blockDepth₁⟩
  · exact .inl ⟨forever, forever', forever₁⟩
  · exact absurd forever' hv'.not_diverges
  · exact absurd forever₁' hv.not_diverges
  · obtain rfl := hv.unique hv'
    refine .inr ⟨u, v, w, hu, hv, hw, mirrors, mirrors₁, ?_, ?_, condition, blockDepth⟩
    · rw [condition₁]
      cases v.machine.condition <;> rfl
    · rw [blockDepth₁, if_neg (by simp)]

/-- A block that has been begun is ended, and executed. -/
theorem values_end_an_open_block : ∃ s u v w : Session Unit,
    Session.trial {} "1 \x7b" 40 = some s ∧ s.Executes (.source "2 \x7d exec" "-") u ∧
      s.Executes (.values [.integer (.ofInt 2), .name "\x7d", .name "exec"]) v ∧
      s.Executes (.supply { upcoming := [.integer (.ofInt 2), .name "\x7d", .name "exec"] }) w ∧
      u.machine.Mirrors v.machine ∧ w.machine.Mirrors v.machine ∧
      u.machine.operands.items.length = 2 := by
  have facts : (Session.trial {} "1 \x7b" 40).map (fun s => (s.machine.calls.frames, s.machine.pending,
      s.bears (.source "2 \x7d exec" "-") 40 &&
        s.bears (.values [.integer (.ofInt 2), .name "\x7d", .name "exec"]) 40 &&
        s.bears (.supply { upcoming := [.integer (.ofInt 2), .name "\x7d", .name "exec"] }) 40,
      (s.outcome (.source "2 \x7d exec" "-") 40).map fun u => u.machine.operands.items.length)) =
      some ([], none, true, some 2) := by
    decide +kernel
  obtain ⟨s, hs, facts⟩ := Option.map_eq_some_iff.1 facts
  simp only [Prod.mk.injEq, Bool.and_eq_true] at facts
  obtain ⟨frames, pending, ⟨⟨text, list⟩, supply⟩, outcome⟩ := facts
  obtain ⟨m₀, created, reached⟩ := Reached.of_trial (by rintro t ⟨⟩) hs
  obtain ⟨u', hu', length⟩ := Option.map_eq_some_iff.1 outcome
  have executes := Session.executes_of_outcome hu'
  have lexes : Text.Lexes 0 "2 \x7d exec".toList
      [⟨.integer (.ofInt 2), 0, 1⟩, ⟨.name "\x7d", 2, 3⟩, ⟨.name "exec", 4, 8⟩] none :=
    Token.all_eq_ok_iff.1 rfl
  rcases texts_lists_and_supplies_agree created reached frames pending lexes rfl
    (Session.affords_of_bears text) (Session.affords_of_bears list)
    (Session.affords_of_bears supply) with ⟨forever, -⟩ | ⟨u, v, w, hu, hv, hw, mirrors, mirrors', -⟩
  · exact absurd forever executes.not_diverges
  · exact ⟨s, u, v, w, hs, hu, hv, hw, mirrors, mirrors', hu.unique executes ▸ length⟩

/-- **An open block ends with a text that cannot be read on.**  The text has one token, a brace.  The brace
by itself leaves a block begun, but the text does not. -/
theorem open_blocks_end_with_the_text : ∃ (m₀ : Machine) (s u v : Session Unit) (ts : List Token),
    m₀.Created {} ∧ Reached m₀ [] s ∧ s.machine.calls.frames = [] ∧ s.machine.pending = none ∧
      Text.Lexes 0 "\x7b 99999999999999999999".toList ts (some .limitCheck) ∧
      [Value.name "\x7b"].map Value.datum = ts.map (fun t => t.value.datum) ∧
      s.Affords (.source "\x7b 99999999999999999999" "-") ∧ s.Affords (.values [.name "\x7b"]) ∧
      s.Executes (.source "\x7b 99999999999999999999" "-") u ∧ s.Executes (.values [.name "\x7b"]) v ∧
      v.machine.condition = none ∧ u.machine.condition = some .limitCheck ∧
      u.machine.blockDepth ≠ v.machine.blockDepth := by
  have facts : (Session.trial {} "" 40).map (fun s => (s.machine.calls.frames, s.machine.pending,
      s.bears (.source "\x7b 99999999999999999999" "-") 40 && s.bears (.values [.name "\x7b"]) 40)) =
      some ([], none, true) := by
    decide +kernel
  have outcomes : (Session.trial {} "" 40).map (fun s =>
      ((s.outcome (.source "\x7b 99999999999999999999" "-") 40).map fun u =>
          (u.machine.condition, u.machine.blockDepth),
        (s.outcome (.values [.name "\x7b"]) 40).map fun v =>
          (v.machine.condition, v.machine.blockDepth))) =
      some (some (some .limitCheck, 0), some (none, 1)) := by
    decide +kernel
  obtain ⟨s, hs, facts⟩ := Option.map_eq_some_iff.1 facts
  rw [hs, Option.map_some, Option.some.injEq, Prod.mk.injEq] at outcomes
  simp only [Prod.mk.injEq, Bool.and_eq_true] at facts
  obtain ⟨frames, pending, text, list⟩ := facts
  obtain ⟨m₀, created, reached⟩ := Reached.of_trial (by rintro t ⟨⟩) hs
  obtain ⟨u, hu, failed⟩ := Option.map_eq_some_iff.1 outcomes.1
  obtain ⟨v, hv, begun⟩ := Option.map_eq_some_iff.1 outcomes.2
  obtain ⟨raised, depth⟩ := Prod.mk.inj failed
  obtain ⟨calm, depth'⟩ := Prod.mk.inj begun
  have follow : Token.Follow (String.ofList ([] ++ "\x7b 99999999999999999999".toList)) 0
      [⟨.name "\x7b", 0, 1⟩] 1 := .cons rfl (.nil 1)
  have lexes : Text.Lexes 0 "\x7b 99999999999999999999".toList [⟨.name "\x7b", 0, 1⟩] (some .limitCheck) :=
    Token.lexes_of_follow [] follow rfl
  exact ⟨m₀, s, u, v, _, created, reached, frames, pending, lexes, rfl, Session.affords_of_bears text,
    Session.affords_of_bears list, Session.executes_of_outcome hu, Session.executes_of_outcome hv, calm,
    raised, by rw [depth, depth']; exact Nat.zero_ne_one⟩

end StackScript
