import CBoundary.Proofs.History
import Mathlib.Data.List.Basic

/-!
What reading and merging do to a symbol table, name by name. A further sighting is combined with
what the table holds for the name: definitions are folded, the first target of a typedef name
and the first definition of a macro stay. A merge combines what the two tables hold in the same
way, since each of them holds one thing for a name. Main statements: `definition?_merge_eq`,
`typedefs_merge` and `macros_merge`.
-/
namespace CBoundary

/-- Combines, in order, what a view shows of the entries of a list, if it shows anything. -/
def combined {α β : Type} (op : β → β → β) (view : α → Option β) (entries : List α) : Option β :=
  entries.foldl (fun found entry => found.merge op (view entry)) none

section Combined

variable {α β : Type} {op : β → β → β} {view : α → Option β}

theorem foldl_merge_eq [Std.Associative op] (found : Option β) (entries : List α) :
    entries.foldl (fun found entry => found.merge op (view entry)) found =
      found.merge op (combined op view entries) := by
  induction entries generalizing found with
  | nil => simp [combined]
  | cons entry rest ih =>
    have hstart : combined op view (entry :: rest) =
        (view entry).merge op (combined op view rest) := by
      rw [combined, List.foldl_cons, Option.merge_none_left, ih]
    rw [List.foldl_cons, ih, hstart]
    exact Std.Associative.assoc found (view entry) (combined op view rest)

theorem combined_append [Std.Associative op] (first second : List α) :
    combined op view (first ++ second) =
      (combined op view first).merge op (combined op view second) := by
  rw [combined, List.foldl_append, foldl_merge_eq]
  rfl

/-- What two values have together as soon as one of them has it, all have together as soon as one of
them has it. -/
theorem any_combined {f : β → Bool} (hop : ∀ a b, f (op a b) = (f a || f b)) (entries : List α) :
    (combined op view entries).any f = entries.any fun entry => (view entry).any f := by
  have hmerge (found shown : Option β) :
      (found.merge op shown).any f = (found.any f || shown.any f) := by
    cases found <;> cases shown <;> simp [hop]
  have hfold (found : Option β) :
      (entries.foldl (fun found entry => found.merge op (view entry)) found).any f =
        (found.any f || entries.any fun entry => (view entry).any f) := by
    induction entries generalizing found with
    | nil => simp
    | cons entry rest ih => rw [List.foldl_cons, ih, hmerge, List.any_cons, Bool.or_assoc]
  exact (hfold none).trans (Bool.false_or _)

/-- What is not shown does not count. -/
theorem foldl_merge_eq_filterMap (found : Option β) (entries : List α) :
    entries.foldl (fun found entry => found.merge op (view entry)) found =
      (entries.filterMap view).foldl (fun found shown => found.merge op (some shown)) found := by
  induction entries generalizing found with
  | nil => rfl
  | cons entry rest ih =>
    cases hview : view entry with
    | none => rw [List.foldl_cons, ih, List.filterMap_cons_none hview, hview,
        Option.merge_none_right]
    | some shown => rw [List.foldl_cons, ih, List.filterMap_cons_some hview, hview,
        List.foldl_cons]

/-- Where at most one entry is shown, it is combined as it is. -/
theorem foldl_merge_of_filterMap {entries : List α} {shown : Option β}
    (h : entries.filterMap view = shown.toList) (found : Option β) :
    entries.foldl (fun found entry => found.merge op (view entry)) found =
      found.merge op shown := by
  rw [foldl_merge_eq_filterMap, h]
  cases shown <;> simp

/-- A table lists one entry for each key it has. -/
theorem filterMap_toList (m : Std.ExtTreeMap String β) (key : String) :
    m.toList.filterMap (fun entry => if entry.1 = key then some entry.2 else none) =
      m[key]?.toList := by
  have hmem (value : β) : (key, value) ∈ m.toList ↔ m[key]? = some value :=
    Std.ExtTreeMap.mem_toList_iff_getElem?_eq_some
  have hdistinct := Std.ExtTreeMap.distinct_keys_toList (t := m)
  cases hkey : m[key]? with
  | none =>
    rw [Option.toList_none, List.filterMap_eq_nil_iff]
    rintro ⟨other, value⟩ hentry
    rw [if_neg]
    rintro rfl
    simp [(hmem value).1 hentry] at hkey
  | some value =>
    obtain ⟨before, behind, hsplit⟩ := List.append_of_mem ((hmem value).2 hkey)
    rw [hsplit] at hdistinct ⊢
    obtain ⟨-, hbehind, hbefore⟩ := List.pairwise_append.1 hdistinct
    have hnone {entries : List (String × β)} (h : ∀ entry ∈ entries, entry.1 ≠ key) :
        entries.filterMap (fun entry => if entry.1 = key then some entry.2 else none) = [] :=
      List.filterMap_eq_nil_iff.2 fun entry hentry => if_neg (h entry hentry)
    have hbefore : ∀ entry ∈ before, entry.1 ≠ key := by
      intro entry hentry heq
      exact hbefore entry hentry _ List.mem_cons_self (by simp [heq])
    have hbehind : ∀ entry ∈ behind, entry.1 ≠ key := by
      intro entry hentry heq
      exact (List.pairwise_cons.1 hbehind).1 entry hentry (by simp [heq])
    rw [List.filterMap_append, hnone hbefore, List.filterMap_cons, if_pos rfl, hnone hbehind]
    rfl

end Combined

namespace Sighting

/-- The definition that is sighted, if it belongs to the place. -/
def definitionAt? (p : Place) (x : Sighting) : Option Definition :=
  x.entry?.bind fun entry => if entry.1 = p then some entry.2 else none

/-- What a typedef name stands for, if the sighting is one of that name. -/
def targetOf? (name : String) : Sighting → Option String
  | .typedef other target => if other = name then some target else none
  | _ => none

/-- The macro that is defined, if it has the name. -/
def macroOf? (name : String) : Sighting → Option MacroDefinition
  | .macroDefinition d => if d.name.text = name then some d else none
  | _ => none

@[simp] theorem definitionAt?_record (p : Place) (d : Definition) :
    (record d).definitionAt? p = if .record d.name = p then some d else none := rfl

@[simp] theorem definitionAt?_function (p : Place) (d : Definition) :
    (function d).definitionAt? p = if .function d.name = p then some d else none := rfl

@[simp] theorem definitionAt?_field (p : Place) (owner : String) (d : Definition) :
    (field owner d).definitionAt? p = if .field owner d.name = p then some d else none := rfl

@[simp] theorem definitionAt?_typedef (p : Place) (name target : String) :
    (typedef name target).definitionAt? p = none := rfl

theorem definitionAt?_eq_some_iff {p : Place} {x : Sighting} {d : Definition} :
    x.definitionAt? p = some d ↔ x.entry? = some (p, d) := by
  unfold definitionAt?
  cases x.entry? with
  | none => simp
  | some entry =>
    obtain ⟨q, e⟩ := entry
    by_cases hplace : q = p <;> simp [hplace]

end Sighting

namespace MacroTable

/-- Every definition is kept under its name. -/
def Keyed (m : MacroTable) : Prop := ∀ name d, m.get? name = some d → d.name.text = name

theorem get?_offer (m : MacroTable) (d : MacroDefinition) (name : String) :
    (m.offer d).get? name = (m.get? name).merge MacroDefinition.absorb
      (if d.name.text = name then some d else none) := by
  unfold offer
  by_cases hname : d.name.text = name
  · subst hname
    cases hfirst : m.get? d.name.text with
    | none => simp [get?_insert]
    | some first => simp [get?]
  · rw [if_neg hname, Option.merge_none_right]
    cases hfirst : m.get? d.name.text with
    | none => simp [get?_insert, hname]
    | some first => simp [get?, Std.ExtTreeMap.getElem?_insert, hname]

/-- A merge of macros combines the two definitions of a name. -/
theorem get?_merge (m : MacroTable) {other : MacroTable} (hkeyed : other.Keyed) (name : String) :
    (m.merge other).get? name =
      (m.get? name).merge MacroDefinition.absorb (other.get? name) := by
  have hfold (entries : List (String × MacroDefinition)) (m : MacroTable) :
      (entries.foldl (fun m entry => m.offer entry.2) m).get? name =
        entries.foldl (fun found entry => found.merge MacroDefinition.absorb
          (if entry.2.name.text = name then some entry.2 else none)) (m.get? name) := by
    induction entries generalizing m with
    | nil => rfl
    | cons entry rest ih => rw [List.foldl_cons, ih, get?_offer, List.foldl_cons]
  have hlisted : other.toList.filterMap
      (fun entry => if entry.2.name.text = name then some entry.2 else none) =
        (other.get? name).toList := by
    rw [get?, ← filterMap_toList]
    apply List.filterMap_congr
    rintro ⟨key, d⟩ hentry
    have hkey : d.name.text = key :=
      hkeyed key d (Std.ExtTreeMap.mem_toList_iff_getElem?_eq_some.1 hentry)
    rw [hkey]
  rw [merge, hfold, foldl_merge_of_filterMap hlisted]

theorem keyed_empty : empty.Keyed := by
  intro name d hd
  simp [empty, get?] at hd

theorem Keyed.offer {m : MacroTable} (h : m.Keyed) (d : MacroDefinition) : (m.offer d).Keyed := by
  intro name e he
  rw [get?_offer] at he
  by_cases hname : d.name.text = name
  · rw [if_pos hname] at he
    cases hfirst : m.get? name with
    | none =>
      rw [hfirst, Option.merge_none_left] at he
      exact Option.some.inj he ▸ hname
    | some first =>
      rw [hfirst, Option.merge_some_some] at he
      exact Option.some.inj he ▸ h name first hfirst
  · rw [if_neg hname, Option.merge_none_right] at he
    exact h name e he

theorem Keyed.merge {m : MacroTable} (h : m.Keyed) (other : MacroTable) : (m.merge other).Keyed :=
  List.foldlRecOn other.toList _ h fun _ hm entry _ => hm.offer entry.2

end MacroTable

namespace Codebase

theorem definition?_take_eq (c : Codebase) (x : Sighting) (p : Place) :
    (c.take x).definition? p = (c.definition? p).merge Definition.merge (x.definitionAt? p) := by
  rw [definition?_take, Sighting.definitionAt?]
  cases x.entry? with
  | none => simp
  | some entry =>
    obtain ⟨q, d⟩ := entry
    by_cases hplace : q = p
    · cases c.definition? p <;> simp [hplace, folded]
    · simp [hplace]

theorem definition?_foldl_take (c : Codebase) (xs : List Sighting) (p : Place) :
    (xs.foldl take c).definition? p =
      xs.foldl (fun found x => found.merge Definition.merge (x.definitionAt? p))
        (c.definition? p) := by
  induction xs generalizing c with
  | nil => rfl
  | cons x xs ih => rw [List.foldl_cons, ih, definition?_take_eq, List.foldl_cons]

theorem typedefs_take (c : Codebase) (x : Sighting) (name : String) :
    (c.take x).typedefs[name]? =
      (c.typedefs[name]?).merge (fun first _ => first) (x.targetOf? name) := by
  cases x with
  | typedef other target =>
    change (c.typedefs.insertIfNew other target)[name]? = _
    simp only [Std.ExtTreeMap.getElem?_insertIfNew, Std.LawfulEqCmp.compare_eq_iff_eq,
      Std.ExtTreeMap.mem_iff_isSome_getElem?, Sighting.targetOf?]
    by_cases hname : other = name
    · subst hname
      cases c.typedefs[other]? <;> simp
    · simp [hname]
  | _ => exact Option.merge_none_right.symm

theorem typedefs_foldl_take (c : Codebase) (xs : List Sighting) (name : String) :
    (xs.foldl take c).typedefs[name]? =
      xs.foldl (fun found x => found.merge (fun first _ => first) (x.targetOf? name))
        c.typedefs[name]? := by
  induction xs generalizing c with
  | nil => rfl
  | cons x xs ih => rw [List.foldl_cons, ih, typedefs_take, List.foldl_cons]

theorem macros_take (c : Codebase) (x : Sighting) (name : String) :
    (c.take x).macros.get? name =
      (c.macros.get? name).merge MacroDefinition.absorb (x.macroOf? name) := by
  cases x with
  | macroDefinition d => exact MacroTable.get?_offer c.macros d name
  | _ => exact Option.merge_none_right.symm

theorem macros_foldl_take (c : Codebase) (xs : List Sighting) (name : String) :
    (xs.foldl take c).macros.get? name =
      xs.foldl (fun found x => found.merge MacroDefinition.absorb (x.macroOf? name))
        (c.macros.get? name) := by
  induction xs generalizing c with
  | nil => rfl
  | cons x xs ih => rw [List.foldl_cons, ih, macros_take, List.foldl_cons]

theorem flatMap_nothing {α β : Type} (entries : List α) :
    entries.flatMap (fun _ => ([] : List β)) = [] :=
  List.flatMap_eq_nil_iff.2 fun _ _ => rfl

theorem flatMap_toList {β γ : Type} (m : Std.ExtTreeMap String β) (key : String)
    (f : β → List γ) :
    m.toList.flatMap (fun entry => if entry.1 = key then f entry.2 else []) =
      m[key]?.toList.flatMap f := by
  rw [← filterMap_toList]
  induction m.toList with
  | nil => rfl
  | cons entry rest ih =>
    by_cases hkey : entry.1 = key <;> simp [hkey, ih]

/-- A table of definitions under their names passes on one definition for each name. -/
theorem filterMap_definitions {definitions : Definitions}
    (hkeyed : ∀ (key : String) d, definitions[key]? = some d → d.name = key) (name : String) :
    definitions.toList.filterMap
        (fun entry => if entry.2.name = name then some entry.2 else none) =
      definitions[name]?.toList := by
  rw [← filterMap_toList]
  apply List.filterMap_congr
  rintro ⟨key, d⟩ hentry
  have hkey : d.name = key :=
    hkeyed key d (Std.ExtTreeMap.mem_toList_iff_getElem?_eq_some.1 hentry)
  rw [hkey]

theorem filterMap_fields {c : Codebase} (hkeyed : c.Keyed) (owner name : String) :
    c.fields.toList.flatMap (fun fields => fields.2.toList.filterMap fun entry =>
        if fields.1 = owner ∧ entry.2.name = name then some entry.2 else none) =
      (c.field? owner name).toList := by
  have hinner : ∀ fields ∈ c.fields.toList,
      (fields.2.toList.filterMap fun entry =>
        if fields.1 = owner ∧ entry.2.name = name then some entry.2 else none) =
      if fields.1 = owner then fields.2[name]?.toList else [] := by
    rintro ⟨other, fields⟩ hmem
    by_cases howner : other = owner
    · subst howner
      have hfields : c.fields[other]? = some fields :=
        Std.ExtTreeMap.mem_toList_iff_getElem?_eq_some.1 hmem
      have hnamed : ∀ (key : String) d, fields[key]? = some d → d.name = key := by
        intro key d hd
        refine hkeyed (.field other key) d ?_
        rw [definition?, field?, hfields, Option.bind_some, hd]
      simpa using filterMap_definitions hnamed name
    · simp [howner]
  rw [List.flatMap_congr hinner, flatMap_toList c.fields owner (fun fields => fields[name]?.toList),
    field?]
  cases c.fields[owner]? <;> simp

/-- For each place, a keyed table passes on the definition that it holds there. -/
theorem filterMap_contents {c : Codebase} (hkeyed : c.Keyed) (p : Place) :
    c.contents.filterMap (Sighting.definitionAt? p) = (c.definition? p).toList := by
  simp only [contents, List.filterMap_append, List.filterMap_flatMap, List.filterMap_map]
  cases p with
  | record name =>
    have htypes := filterMap_definitions (fun key d => hkeyed (.record key) d) name
    simpa [Function.comp_def, flatMap_nothing, definition?] using htypes
  | function name =>
    have hfunctions := filterMap_definitions (fun key d => hkeyed (.function key) d) name
    simpa [Function.comp_def, flatMap_nothing, definition?] using hfunctions
  | field owner name =>
    simpa [Function.comp_def, definition?] using filterMap_fields hkeyed owner name

/-- A merge folds, place by place, the definition of the other table into that of the first. -/
theorem definition?_merge_eq (s : SourceScan) {other : Codebase} (hkeyed : other.Keyed)
    (p : Place) :
    (s.merge other).codebase.definition? p =
      (s.codebase.definition? p).merge Definition.merge (other.definition? p) := by
  rw [definition?_merge, definition?_foldl_take,
    foldl_merge_of_filterMap (filterMap_contents hkeyed p)]

theorem filterMap_targets (c : Codebase) (name : String) :
    c.contents.filterMap (Sighting.targetOf? name) = (c.typedefs[name]?).toList := by
  simp only [contents, List.filterMap_append, List.filterMap_flatMap, List.filterMap_map]
  simpa [Function.comp_def, Sighting.targetOf?, flatMap_nothing] using
    filterMap_toList c.typedefs name

/-- After a merge, a typedef name stands for what it stood for, if anything. -/
theorem typedefs_merge (s : SourceScan) (other : Codebase) (name : String) :
    (s.merge other).codebase.typedefs[name]? =
      (s.codebase.typedefs[name]?).merge (fun first _ => first) other.typedefs[name]? := by
  have hcontents : (s.merge other).codebase.typedefs =
      (other.contents.foldl take s.codebase).typedefs := by rw [merge_codebase]
  rw [hcontents, typedefs_foldl_take, foldl_merge_of_filterMap (filterMap_targets other name)]

/-- After a merge, a macro is what it was, if anything, and at most gains a comment. -/
theorem macros_merge (s : SourceScan) {other : Codebase} (hkeyed : other.macros.Keyed)
    (name : String) :
    (s.merge other).codebase.macros.get? name =
      (s.codebase.macros.get? name).merge MacroDefinition.absorb (other.macros.get? name) := by
  have hcontents : other.contents.filterMap (Sighting.macroOf? name) = Option.toList none := by
    simp only [contents, List.filterMap_append, List.filterMap_flatMap, List.filterMap_map]
    simp [Function.comp_def, Sighting.macroOf?, flatMap_nothing]
  have hmacros : (s.merge other).codebase.macros =
      (other.contents.foldl take s.codebase).macros.merge other.macros := by rw [merge_codebase]
  rw [hmacros, MacroTable.get?_merge _ hkeyed, macros_foldl_take,
    foldl_merge_of_filterMap hcontents, Option.merge_none_right]

end Codebase

end CBoundary
