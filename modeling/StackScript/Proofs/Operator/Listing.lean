import StackScript.Proofs.Machine.Scanning
import StackScript.Proofs.Memory.Outlines

/-!
# Dictionaries built from their listings

A dictionary is listed by its names in order, each followed by what it is bound to.  One that is built from
such a listing has the same names, bound to the same data (`Builtin.encloses_listing`): every name is listed
once, so no entry is replaced by a later one.
-/

namespace StackScript

namespace TextMap

variable {α : Type} {l m : TextMap α} {key : String} {a : α}

/-- What a key is bound to that occurs once. -/
theorem find?_of_mem (once : (m.map Prod.fst).Nodup) (h : (key, a) ∈ m) : m.find? key = some a := by
  induction m with
  | nil => cases h
  | cons e rest ih =>
    obtain ⟨first, rest_once⟩ := List.nodup_cons.1 once
    rcases List.mem_cons.1 h with rfl | h
    · rw [find?, if_pos rfl]
    · have other : e.1 ≠ key := by
        rintro rfl
        exact first (List.mem_map.2 ⟨_, h, rfl⟩)
      rw [find?, if_neg other, ih rest_once h]

/-- Keys that are new come last, in the order they are bound in. -/
theorem foldl_put (once : ((m ++ l).map Prod.fst).Nodup) :
    l.foldl (fun table e => table.put e.1 e.2) m = m ++ l := by
  induction l generalizing m with
  | nil => rw [List.foldl_nil, List.append_nil]
  | cons e rest ih =>
    have unbound : m.find? e.1 = none := by
      rw [find?_eq_none_iff]
      intro bound
      rw [List.map_append, List.nodup_append] at once
      exact once.2.2 _ bound _ List.mem_cons_self rfl
    rw [List.foldl_cons, put_of_unbound unbound, ih (by simpa using once), List.append_assoc,
      List.singleton_append]

end TextMap

namespace Dictionary

variable {d e : Dictionary}

theorem mem_names {name : String} : name ∈ d.names ↔ name ∈ d.entries.map Prod.fst :=
  List.mem_mergeSort

/-- Keys that are in order are the names. -/
theorem names_of_keys (h : e.entries.map Prod.fst = d.names) : e.names = d.names := by
  have trans (a b c : String) (hab : decide (a ≤ b) = true) (hbc : decide (b ≤ c) = true) :
      decide (a ≤ c) = true :=
    decide_eq_true (String.le_trans (of_decide_eq_true hab) (of_decide_eq_true hbc))
  have total (a b : String) : (decide (a ≤ b) || decide (b ≤ a)) = true := by
    simpa using String.le_total a b
  have sorted : d.names.Pairwise fun a b => decide (a ≤ b) = true :=
    List.pairwise_mergeSort trans total _
  rw [names, TextMap.sortedKeys, h]
  exact List.mergeSort_of_pairwise sorted

/-- Entries whose keys are in order are listed as they are. -/
theorem listing_of_entries (once : (d.entries.map Prod.fst).Nodup)
    (sorted : d.names = d.entries.map Prod.fst) :
    d.listing = d.entries.flatMap fun e => [.literalName e.1, e.2] := by
  rw [listing, sorted, List.flatMap_map]
  refine List.flatMap_congr fun e he => ?_
  rw [get?, TextMap.find?_of_mem once he]
  rfl

/-- Every name in the listing is bound. -/
theorem bound_of_mem_names {name : String} (h : name ∈ d.names) : d.get? name ≠ none := by
  rw [mem_names] at h
  intro unbound
  exact TextMap.find?_eq_none_iff.1 unbound h

end Dictionary

/-- A dictionary in which each name is bound once, with these values for a listing. -/
def Object.Catalogues (items : List Value) (o : Object) : Prop :=
  ∃ e : Dictionary, o = .dictionary e ∧ (e.entries.map Prod.fst).Nodup ∧
    e.listing.map Value.datum = items.map Value.datum

namespace Operation

/-- Values that look like a listing are paired to its names. -/
theorem exists_pairs_of_listing {d : Dictionary} {names : List String} {items : List Value}
    (bound : ∀ name ∈ names, d.get? name ≠ none)
    (hitems : items.map Value.plain? = (names.flatMap fun name =>
      .literalName name :: (d.get? name).toList).map Value.plain?) :
    ∃ entries, pairs items = .ok entries ∧ entries.map Prod.fst = names ∧ items.length % 2 = 0 ∧
      (entries.flatMap fun e => [Value.literalName e.1, e.2]).map Value.datum =
        items.map Value.datum := by
  induction names generalizing items with
  | nil =>
    obtain rfl := List.map_eq_nil_iff.1 hitems
    exact ⟨[], rfl, rfl, rfl, rfl⟩
  | cons name names ih =>
    obtain ⟨hname, hnames⟩ := List.forall_mem_cons.1 bound
    obtain ⟨value, hvalue⟩ := Option.ne_none_iff_exists'.1 hname
    rw [List.flatMap_cons, hvalue, Option.toList_some, List.cons_append, List.map_cons] at hitems
    obtain ⟨key, items, rfl, hkey, hitems⟩ := List.map_eq_cons_iff.1 hitems
    obtain ⟨v, items, rfl, -, hitems⟩ := List.map_eq_cons_iff.1 hitems
    obtain ⟨entries, paired, keys, even, same⟩ := ih hnames hitems
    -- the key is no container, so it is the name itself
    have datum : key.datum = .name name false := by
      unfold Value.plain? at hkey
      split at hkey
      · exact Option.some.inj hkey
      · cases hkey
    refine ⟨(name, v) :: entries, ?_, by rw [List.map_cons, keys], ?_, ?_⟩
    · rw [pairs, Value.toName?, datum, paired]
      rfl
    · simp only [List.length_cons]
      omega
    · rw [List.flatMap_cons, List.map_append, same]
      simp [datum, Value.literalName]

end Operation

/-- **A dictionary is built again** from what looks like its listing. -/
theorem Builtin.encloses_listing {d : Dictionary} {items : List Value}
    (hmark : ∀ v ∈ items, v.isMark = false) (once : (d.entries.map Prod.fst).Nodup)
    (hitems : items.map Value.plain? = d.listing.map Value.plain?) :
    Builtin.closeDictionary.Encloses items (.dictionary · true) (Object.Catalogues items) id := by
  obtain ⟨entries, paired, keys, even, same⟩ :=
    Operation.exists_pairs_of_listing (fun _ => Dictionary.bound_of_mem_names) hitems
  let e : Dictionary := { account := .user, entries := entries }
  have once' : (e.entries.map Prod.fst).Nodup := by
    rw [show e.entries.map Prod.fst = d.names from keys]
    exact (List.mergeSort_perm _ _).nodup_iff.2 once
  have built : Operation.bound { account := .user } entries = e := by
    unfold Operation.bound
    rw [TextMap.foldl_put (m := []) once', List.nil_append]
  have listing : e.listing.map Value.datum = items.map Value.datum := by
    rw [Dictionary.listing_of_entries once' ((Dictionary.names_of_keys keys).trans keys.symm), same]
  refine ⟨rfl, rfl, fun _ => rfl, ?_, fun own m below growing wf marked => ?_⟩
  · rintro _ ⟨e', rfl, -, listed⟩ v hv j hj
    obtain ⟨w, hw, datum⟩ := List.mem_map.1 (listed ▸ List.mem_map_of_mem hv)
    have container : w.handle? = some j := by rwa [Value.handle?, datum]
    obtain ⟨name, -, hw⟩ := List.mem_flatMap.1 hw
    rcases List.mem_cons.1 hw with rfl | hw
    · cases container
    · exact ⟨w, Dictionary.mem_values_of_get? (Option.mem_toList.1 hw), container⟩
  · refine (Operation.endDictionary_grants marked rfl hmark growing wf even paired []).mono ?_
    rintro _ m' ⟨i, becomes, gains⟩
    refine ⟨i, becomes, gains.unused, gains.replaces.mono ?_⟩
    rintro _ rfl
    exact ⟨e, congrArg _ built, once', listing⟩

end StackScript
