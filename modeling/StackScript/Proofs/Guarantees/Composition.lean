import StackScript.Proofs.Comparison.Queueing
import StackScript.Proofs.Text.Joining

/-!
# Texts one after the other

A text that can be read to its end is executed without an exception, and then another one.  That comes to
the same as executing the second one below the first, in one text (`scripts_compose`).

The two sessions keep pace until the first text has come to its end.  Then the frame of the one text has
gone, and that of the whole is still there; but nothing that is executed above it depends on it.  So the
session with the second text keeps pace with that of the whole from there.
-/

namespace StackScript

open StackScript.Action

namespace Session

variable {χ : Type} {R : Renaming} {f g : Frame} {below : List Frame} {ds es : List Datum}
  {k : Option Condition} {work : Work} {s t u v : Session χ}

/-- When the first session of two that keep pace comes to its end without an exception, all that is left
in the second one is to give the rest. -/
theorem Paces.comes_to_rest_of (h : Paces R f below ds es none k s u) (ended : s.Completes t)
    (calm : t.machine.pending = none) : ∃ n v w R' f' below', After n u w ∧ v.Closes none t ∧
      v.machine.calls.length = 1 ∧ Paces R' f' below' [] es none k v w := by
  rcases h.comes_to_rest with ⟨forever, -⟩ | ⟨n, v, w, R', f', below', ds', hv, hw, paces, rests⟩
  · exact absurd forever ended.not_runsForever
  · obtain ⟨t', closes⟩ := paces.left.closes (paces.bottom rests.1).1 paces.bare paces.provides rests.2
    obtain rfl := (hv.completes_of closes.completes).unique ended
    -- what was pending then would be pending now
    have done : ds' = [] := by
      refine rests.2.resolve_left fun raised => ?_
      obtain ⟨p, hp⟩ := Option.isSome_iff_exists.1 raised
      have same := closes.condition
      rw [Machine.condition, Machine.condition, Machine.exception, Machine.exception, calm, hp] at same
      cases same
    subst done
    exact ⟨n, v, w, R', f', below', hw, closes, rests.1, paces⟩

end Session

open Session in
/-- **Scripts compose.**  Let a host have reached a session in which no work is left and no exception is
pending, and let a text that can be read to its end be executed there to an end without an exception.
If no allocation is refused, executing another text then, and executing at first the text in which that
is written below, both go on for ever; or both complete with the same in the machine, up to the handles
of containers and to where values come from, as many blocks begun and an exception of the same kind
pending or none. -/
theorem scripts_compose {χ : Type} {options : Options} {m₀ : Machine} {owned : List Value}
    {s t : Session χ} {text more origin origin' origin'' : String} {ts : List Token}
    (hm₀ : m₀.Created options) (h : Reached m₀ owned s) (idle : s.machine.calls.frames = [])
    (hp : s.machine.pending = none) (read : Token.all text = .ok ts)
    (first : s.Affords (.source text origin)) (executed : s.Executes (.source text origin) t)
    (calm : t.machine.pending = none) (second : t.Affords (.source more origin'))
    (whole : s.Affords (.source (text ++ "\n" ++ more) origin'')) :
    (t.Diverges (.source more origin') ∧ s.Diverges (.source (text ++ "\n" ++ more) origin'')) ∨
      ∃ u v, t.Executes (.source more origin') u ∧
        s.Executes (.source (text ++ "\n" ++ more) origin'') v ∧ u.machine.Mirrors v.machine ∧
        u.machine.condition = v.machine.condition ∧ u.machine.blockDepth = v.machine.blockDepth := by
  obtain ⟨Γ, -, kept⟩ := h.sound hm₀
  have unhindered := unhindered_of_idle kept.sound (h.growing hm₀) idle
  have lexes : Text.Lexes 0 text.toList ts none := Token.all_eq_ok_iff.1 read
  obtain ⟨us, k, lexes'⟩ := Text.exists_lexes 0 more.toList
  have joined := Token.lexes_joined lexes lexes'
  -- the tokens of the whole have the values of those of the two texts
  have data : (ts ++ us.map (Token.shifted (text.utf8ByteSize + 1))).map (fun t => t.value.datum) =
      ts.map (fun t => t.value.datum) ++ us.map fun t => t.value.datum := by
    rw [List.map_append, List.map_map]
    rfl
  obtain ⟨f, t₁, queue₁, queued₁⟩ := unhindered.queues idle (.source lexes origin) first
  obtain ⟨g, t₂, queue₂, queued₂⟩ := unhindered.queues idle (.source joined origin'') whole
  rw [data] at queued₂
  obtain ⟨R, paces⟩ := queued₁.paces (queued₁.plain nofun) queued₂ hp
  obtain ⟨t₁', queue₁', completes⟩ := executed
  obtain ⟨-, rfl⟩ := Outcome.done.inj (queue₁.symm.trans queue₁')
  obtain ⟨n, v, w, R', f', below, hw, closes, rests, paces⟩ := paces.comes_to_rest_of completes calm
  obtain ⟨f₃, t₃, queue₃, queued₃⟩ :=
    closes.unhindered.queues closes.completes.1 (.source lexes' origin') second
  obtain ⟨R'', paces⟩ := paces.continued rests closes calm queued₃ (queued₃.plain nofun)
  rcases paces.comes_to_end with ⟨forever, forever'⟩ | ⟨u, u', c, m, left, right, mirrors⟩
  · exact .inl ⟨⟨t₃, queue₃, forever⟩, t₂, queue₂, hw.runsForever forever'⟩
  · exact .inr ⟨u, u', ⟨t₃, queue₃, left.completes⟩,
      ⟨t₂, queue₂, hw.completes_of right.completes⟩, mirrors,
      left.condition.trans right.condition.symm, left.blockDepth.trans right.blockDepth.symm⟩

/-- A block that is begun in one text and ended in another one. -/
theorem a_block_of_two_texts : ∃ s t u v : Session Unit, Session.trial {} "" 40 = some s ∧
    s.Executes (.source "1 \x7b 2" "-") t ∧ t.Executes (.source "add \x7d exec" "-") u ∧
      s.Executes (.source ("1 \x7b 2" ++ "\n" ++ "add \x7d exec") "-") v ∧
      u.machine.Mirrors v.machine ∧ u.machine.operands.items.map Value.datum = [.integer (.ofInt 3)] := by
  have facts : (Session.trial {} "" 40).map (fun s => (s.machine.calls.frames, s.machine.pending,
      s.bears (.source "1 \x7b 2" "-") 40 &&
        s.bears (.source ("1 \x7b 2" ++ "\n" ++ "add \x7d exec") "-") 40)) = some ([], none, true) := by
    decide +kernel
  have outcomes : (Session.trial {} "" 40).map (fun s =>
      (s.outcome (.source "1 \x7b 2" "-") 40).map fun t => (t.machine.pending,
        t.bears (.source "add \x7d exec" "-") 40, (t.outcome (.source "add \x7d exec" "-") 40).map
          fun u => u.machine.operands.items.map Value.datum)) =
      some (some (none, true, some [.integer (.ofInt 3)])) := by
    decide +kernel
  obtain ⟨s, hs, facts⟩ := Option.map_eq_some_iff.1 facts
  simp only [Prod.mk.injEq, Bool.and_eq_true] at facts
  obtain ⟨frames, pending, first, whole⟩ := facts
  rw [hs, Option.map_some, Option.some.injEq] at outcomes
  obtain ⟨m₀, created, reached⟩ := Reached.of_trial (by rintro t ⟨⟩) hs
  obtain ⟨t, ht, later⟩ := Option.map_eq_some_iff.1 outcomes
  simp only [Prod.mk.injEq] at later
  obtain ⟨calm, second, outcome⟩ := later
  obtain ⟨u', hu', operands⟩ := Option.map_eq_some_iff.1 outcome
  have executes := Session.executes_of_outcome hu'
  rcases scripts_compose created reached frames pending rfl (Session.affords_of_bears first)
    (Session.executes_of_outcome ht) calm (Session.affords_of_bears second)
    (Session.affords_of_bears whole) with ⟨forever, -⟩ | ⟨u, v, hu, hv, mirrors, -⟩
  · exact absurd forever executes.not_diverges
  · exact ⟨s, t, u, v, hs, Session.executes_of_outcome ht, hu, hv, mirrors,
      hu.unique executes ▸ operands⟩

end StackScript
