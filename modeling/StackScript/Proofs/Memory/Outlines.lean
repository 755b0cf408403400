import StackScript.Memory.Display
import StackScript.Proofs.Memory.Reaching

/-!
# What values come to

A value may be a container, which holds others.  An `Outline` is what values in a row come to when the
handles are followed: the data of those that are no containers, and for a container what it holds, the
entries of a dictionary in the order of their names.  `Heap.Outlines` says that a heap holds values with
such an outline, which they keep as long as nothing changes that they lead to
(`Heap.Outlines.of_retains`).

Two values with one outline are equal but for the handles.  If only so many levels of containers are
nested as are shown, the text of a value is that of its outline (`Heap.Outlines.formatTo`).
-/

namespace StackScript

open Memory

/-- Names and what they are bound to by turns, in the order of the names. -/
def Dictionary.listing (d : Dictionary) : List Value :=
  d.names.flatMap fun name => .literalName name :: (d.get? name).toList

/-- The access of an array that is written in a text: blocks are blocks, and any other is literal. -/
def Access.written : Access → Access
  | .block => .block
  | .literal | .mutable => .literal

theorem Access.brackets_written (access : Access) : access.written.brackets = access.brackets := by
  cases access <;> rfl

/-- Values in a row, with what the containers among them hold. -/
inductive Outline where
  | nil
  /-- A value that is no container. -/
  | plain (d : Datum) (rest : Outline)
  | array (access : Access) (items rest : Outline)
  /-- The entries are names and values by turns. -/
  | dictionary (writable : Bool) (entries rest : Outline)
deriving DecidableEq, Repr

namespace Outline

/-- How deep containers are nested. -/
def depth : Outline → ℕ
  | nil => 0
  | plain _ rest => rest.depth
  | array _ items rest => max (items.depth + 1) rest.depth
  | dictionary _ entries rest => max (entries.depth + 1) rest.depth

/-- The texts of the values. -/
def texts : Outline → List String
  | nil => []
  | plain d rest => d.text :: rest.texts
  | array access items rest => enclose access.brackets items.texts :: rest.texts
  | dictionary _ entries rest => enclose ("<<", ">>") entries.texts :: rest.texts

/-- The same values made anew: no array is one to be written to, and every dictionary is. -/
def anew : Outline → Outline
  | nil => nil
  | plain d rest => plain d rest.anew
  | array access items rest => array access.written items.anew rest.anew
  | dictionary _ entries rest => dictionary true entries.anew rest.anew

/-- More values in the row. -/
def append : Outline → Outline → Outline
  | nil, o => o
  | plain d rest, o => plain d (rest.append o)
  | array access items rest, o => array access items (rest.append o)
  | dictionary writable entries rest, o => dictionary writable entries (rest.append o)

/-- The data of the values, none for a container. -/
def data : Outline → List (Option Datum)
  | nil => []
  | plain d rest => some d :: rest.data
  | array _ _ rest | dictionary _ _ rest => none :: rest.data

@[simp] theorem texts_anew (o : Outline) : o.anew.texts = o.texts := by
  induction o with
  | nil => rfl
  | plain d rest ih => simp [anew, texts, ih]
  | array access items rest ihitems ihrest =>
    simp [anew, texts, Access.brackets_written, ihitems, ihrest]
  | dictionary writable entries rest ihentries ihrest => simp [anew, texts, ihentries, ihrest]

@[simp] theorem depth_anew (o : Outline) : o.anew.depth = o.depth := by
  induction o with
  | nil => rfl
  | plain d rest ih => simp [anew, depth, ih]
  | array access items rest ihitems ihrest => simp [anew, depth, ihitems, ihrest]
  | dictionary writable entries rest ihentries ihrest => simp [anew, depth, ihentries, ihrest]

@[simp] theorem data_anew (o : Outline) : o.anew.data = o.data := by
  induction o with
  | nil => rfl
  | plain d rest ih => simp [anew, data, ih]
  | array access items rest _ ih => simp [anew, data, ih]
  | dictionary writable entries rest _ ih => simp [anew, data, ih]

end Outline

/-- The datum of a value that is no container. -/
def Value.plain? (v : Value) : Option Datum := if v.handle? = none then some v.datum else none

namespace Heap

variable {h h' : Heap} {R : Handle → Prop} {vs ws : List Value} {o : Outline}

/-- The heap holds values with the outline. -/
inductive Outlines (h : Heap) : List Value → Outline → Prop
  | nil : Outlines h [] .nil
  | plain {v : Value} {vs : List Value} {rest : Outline} (hv : v.handle? = none)
      (hrest : Outlines h vs rest) : Outlines h (v :: vs) (.plain v.datum rest)
  | array {v : Value} {vs : List Value} {i : Handle} {access : Access} {s : Sequence}
      {items rest : Outline} (hv : v.datum = .array i access) (hs : h.object? i = some (.array s))
      (hitems : Outlines h s.toList items) (hrest : Outlines h vs rest) :
      Outlines h (v :: vs) (.array access items rest)
  /-- Each name is bound once. -/
  | dictionary {v : Value} {vs : List Value} {i : Handle} {writable : Bool} {d : Dictionary}
      {entries rest : Outline} (hv : v.datum = .dictionary i writable)
      (hd : h.object? i = some (.dictionary d)) (once : (d.entries.map Prod.fst).Nodup)
      (hentries : Outlines h d.listing entries) (hrest : Outlines h vs rest) :
      Outlines h (v :: vs) (.dictionary writable entries rest)

/-- An outline is one of data, wherever these come from. -/
theorem Outlines.of_datum (ho : h.Outlines vs o) (same : ws.map Value.datum = vs.map Value.datum) :
    h.Outlines ws o := by
  induction ho generalizing ws with
  | nil =>
    obtain rfl := List.map_eq_nil_iff.1 same
    exact .nil
  | @plain v vs rest hv _ ih =>
    obtain ⟨w, ws, rfl, hw, same⟩ := List.map_eq_cons_iff.1 same
    rw [← hw]
    exact .plain (by rwa [Value.handle?, hw]) (ih same)
  | array hv hs hitems _ _ ih =>
    obtain ⟨w, ws, rfl, hw, same⟩ := List.map_eq_cons_iff.1 same
    exact .array (hw.trans hv) hs hitems (ih same)
  | dictionary hv hd once hentries _ _ ih =>
    obtain ⟨w, ws, rfl, hw, same⟩ := List.map_eq_cons_iff.1 same
    exact .dictionary (hw.trans hv) hd once hentries (ih same)

theorem Outlines.append {o' : Outline} (ho : h.Outlines vs o) (ho' : h.Outlines ws o') :
    h.Outlines (vs ++ ws) (o.append o') := by
  induction ho with
  | nil => exact ho'
  | plain hv _ ih => exact .plain hv ih
  | array hv hs hitems _ _ ih => exact .array hv hs hitems ih
  | dictionary hv hd once hentries _ _ ih => exact .dictionary hv hd once hentries ih

/-- The values have the data of the outline. -/
theorem Outlines.plain?_eq (ho : h.Outlines vs o) : vs.map Value.plain? = o.data := by
  induction ho with
  | nil => rfl
  | plain hv _ ih => rw [List.map_cons, ih, Value.plain?, if_pos hv, Outline.data]
  | @array v _ _ _ _ _ _ hv _ _ _ _ ih | @dictionary v _ _ _ _ _ _ hv _ _ _ _ _ ih =>
    have container : v.handle? ≠ none := by
      rw [Value.handle?, hv]
      exact Option.some_ne_none _
    rw [List.map_cons, ih, Value.plain?, if_neg container, Outline.data]

theorem Outlines.of_reached (ho : h.Outlines vs o) (hr : Retains R h h')
    (hvs : ∀ v ∈ vs, ∀ i, v.handle? = some i → h.Reaches R i) : h'.Outlines vs o := by
  induction ho with
  | nil => exact .nil
  | plain hv _ ih => exact .plain hv (ih (List.forall_mem_cons.1 hvs).2)
  | @array v vs i access s items rest hv hs _ _ ihitems ihrest =>
    obtain ⟨hhead, htail⟩ := List.forall_mem_cons.1 hvs
    have reached := hhead i (by rw [Value.handle?, hv])
    refine .array hv ((hr.object? reached).trans hs) (ihitems fun w hw j hj => ?_) (ihrest htail)
    exact reached.step ⟨_, hs, w, List.mem_reverse.1 hw, hj⟩
  | @dictionary v vs i writable d entries rest hv hd once _ _ ihentries ihrest =>
    obtain ⟨hhead, htail⟩ := List.forall_mem_cons.1 hvs
    have reached := hhead i (by rw [Value.handle?, hv])
    refine .dictionary hv ((hr.object? reached).trans hd) once (ihentries fun w hw j hj => ?_)
      (ihrest htail)
    obtain ⟨name, -, hw⟩ := List.mem_flatMap.1 hw
    rcases List.mem_cons.1 hw with rfl | hw
    · cases hj
    · exact reached.step ⟨_, hd, w, Dictionary.mem_values_of_get? (Option.mem_toList.1 hw), hj⟩

/-- Values keep their outline while what they lead to does not change. -/
theorem Outlines.of_retains (ho : h.Outlines vs o) (hr : Retains R h h')
    (hvs : ∀ v ∈ vs, ∀ i, v.handle? = some i → R i) : h'.Outlines vs o :=
  ho.of_reached hr fun v hv i hi => reaches_of_root (hvs v hv i hi)

end Heap

/-! ### Texts -/

namespace Memory

variable {m : Memory} {vs : List Value} {o : Outline} {n : ℕ}

theorem formatTo_of_handle?_none {v : Value} (hv : v.handle? = none) (n : ℕ) :
    m.formatTo n v = .ok v.datum.text := by
  unfold Value.handle? at hv
  cases n <;> rw [formatTo] <;> split at hv <;> simp_all [pure, Except.pure]

/-- The entries of a dictionary, a line for each: these are names and values in a row. -/
theorem exists_lines (d : Dictionary) (names : List String) {texts : List String}
    (h : (names.flatMap fun name => .literalName name :: (d.get? name).toList).mapM (m.formatTo n) =
      .ok texts) :
    ∃ lines, names.mapM (fun name => match d.get? name with
        | none => (return "/" ++ name : Except Breach String)
        | some item => return "/" ++ name ++ " " ++ (← m.formatTo n item)) = .ok lines ∧
      String.join (lines.map (" " ++ ·)) = String.join (texts.map (" " ++ ·)) := by
  induction names generalizing texts with
  | nil =>
    cases h
    exact ⟨[], rfl, rfl⟩
  | cons name names ih =>
    have key : m.formatTo n (.literalName name) = .ok ("/" ++ name) :=
      formatTo_of_handle?_none rfl n
    rw [List.flatMap_cons, List.cons_append, List.mapM_cons, bind_of_ok key] at h
    cases hitem : d.get? name with
    | none =>
      rw [hitem, Option.toList_none, List.nil_append] at h
      cases hrest : (names.flatMap fun name => .literalName name :: (d.get? name).toList).mapM
          (m.formatTo n) with
      | error b => rw [hrest] at h; cases h
      | ok rest =>
        rw [hrest] at h
        cases h
        obtain ⟨lines, hlines, same⟩ := ih hrest
        refine ⟨("/" ++ name) :: lines, ?_, ?_⟩
        · rw [List.mapM_cons, hitem, hlines]
          rfl
        · simp only [List.map_cons, String.join_cons, same]
    | some item =>
      rw [hitem, Option.toList_some, List.singleton_append, List.mapM_cons] at h
      cases hvalue : m.formatTo n item with
      | error b => rw [hvalue] at h; cases h
      | ok value =>
        cases hrest : (names.flatMap fun name => .literalName name :: (d.get? name).toList).mapM
            (m.formatTo n) with
        | error b => rw [hvalue, hrest] at h; cases h
        | ok rest =>
          rw [hvalue, hrest] at h
          cases h
          obtain ⟨lines, hlines, same⟩ := ih hrest
          refine ⟨("/" ++ name ++ " " ++ value) :: lines, ?_, ?_⟩
          · rw [List.mapM_cons, hitem]
            dsimp only
            rw [hvalue, hlines]
            rfl
          · simp only [List.map_cons, String.join_cons, same, String.append_assoc]

end Memory

/-- **The text of values** is that of their outline, if so many levels are shown as there are. -/
theorem Heap.Outlines.formatTo {m : Memory} {vs : List Value} {o : Outline} {n : ℕ}
    (ho : m.heap.Outlines vs o) (hn : o.depth ≤ n) : vs.mapM (m.formatTo n) = .ok o.texts := by
  induction ho generalizing n with
  | nil => rfl
  | plain hv _ ih =>
    rw [List.mapM_cons, formatTo_of_handle?_none hv, ih hn]
    rfl
  | @array v vs i access s items rest hv hs _ _ ihitems ihrest =>
    obtain ⟨hitems, hrest⟩ := max_le_iff.1 hn
    obtain ⟨k, rfl⟩ : ∃ k, n = k + 1 := ⟨n - 1, by omega⟩
    have one : m.formatTo (k + 1) v = .ok (enclose access.brackets items.texts) := by
      rw [Memory.formatTo, hv]
      dsimp only
      rw [bind_of_ok (array_of_object? hs), ihitems (Nat.le_of_succ_le_succ hitems)]
      rfl
    rw [List.mapM_cons, one, ihrest hrest]
    rfl
  | @dictionary v vs i writable d entries rest hv hd _ _ _ ihentries ihrest =>
    obtain ⟨hentries, hrest⟩ := max_le_iff.1 hn
    obtain ⟨k, rfl⟩ : ∃ k, n = k + 1 := ⟨n - 1, by omega⟩
    obtain ⟨lines, hlines, same⟩ :=
      exists_lines d d.names (ihentries (Nat.le_of_succ_le_succ hentries))
    have one : m.formatTo (k + 1) v = .ok (enclose ("<<", ">>") entries.texts) := by
      rw [Memory.formatTo, hv]
      dsimp only
      rw [bind_of_ok (dictionary_of_object? hd)]
      exact (bind_of_ok hlines _).trans
        (congrArg (fun text => Except.ok ("<<" ++ text ++ " " ++ ">>")) same)
    rw [List.mapM_cons, one, ihrest hrest]
    rfl

/-- The text of one value is that of its outline, if its levels are shown. -/
theorem Heap.Outlines.format {m : Memory} {v : Value} {o : Outline} (ho : m.heap.Outlines [v] o)
    (shown : o.depth ≤ Memory.maxDepth) : ∃ text, m.format v = .ok text ∧ o.texts = [text] := by
  have texts := ho.formatTo shown
  rw [List.mapM_cons, List.mapM_nil] at texts
  unfold Memory.format
  cases formatted : m.formatTo Memory.maxDepth v with
  | error b => rw [formatted] at texts; cases texts
  | ok text =>
    rw [formatted] at texts
    exact ⟨text, rfl, (Except.ok.inj texts).symm⟩

end StackScript
