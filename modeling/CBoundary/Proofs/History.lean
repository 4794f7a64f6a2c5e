import CBoundary.Proofs.Sighting

/-!
How symbol tables come about: from the empty table by reading texts and by merging tables that
came about in the same way. What went into a table are the sightings of the texts that were
read, wherever they were read. Main statement: what every sighting has, and what folding two
definitions keeps, every definition of a table has.
-/
namespace CBoundary

/-- A text, where it starts in its file, and the context it is read in. -/
structure Reading where
  context : ScanContext
  base : Nat
  text : String

def Reading.sightings (r : Reading) : List Sighting := Sighting.ofText r.context r.base r.text

/-- How a symbol table came about. -/
inductive History where
  | empty
  | read (before : History) (r : Reading)
  | merge (before other : History)

namespace History

/-- The table that came about. -/
def codebase : History → Codebase
  | .empty => Codebase.empty
  | .read before r =>
      (SourceScan.readText r.context r.base (SourceScan.ofCodebase before.codebase)
        r.text).codebase
  | .merge before other => ((SourceScan.ofCodebase before.codebase).merge other.codebase).codebase

/-- The texts that were read. -/
def readings : History → List Reading
  | .empty => []
  | .read before r => before.readings ++ [r]
  | .merge before other => before.readings ++ other.readings

/-- The sightings that went in. -/
def sightings (h : History) : List Sighting := h.readings.flatMap Reading.sightings

@[simp] theorem sightings_empty : History.empty.sightings = [] := rfl

@[simp] theorem sightings_read (before : History) (r : Reading) :
    (before.read r).sightings = before.sightings ++ r.sightings := by
  simp [sightings, readings]

@[simp] theorem sightings_merge (before other : History) :
    (before.merge other).sightings = before.sightings ++ other.sightings := by
  simp [sightings, readings]

theorem codebase_read (before : History) (r : Reading) :
    (before.read r).codebase = r.sightings.foldl Codebase.take before.codebase :=
  Codebase.readText_codebase r.context r.base (SourceScan.ofCodebase before.codebase) r.text

end History

namespace Codebase

/-- Every definition has the property, which may speak of the place it is kept at. -/
def Everywhere (P : Place → Definition → Prop) (c : Codebase) : Prop :=
  ∀ p d, c.definition? p = some d → P p d

/-- Every definition is kept under its name. -/
def Keyed (c : Codebase) : Prop := c.Everywhere fun p d => d.name = p.name

theorem everywhere_empty (P : Place → Definition → Prop) : empty.Everywhere P := by
  intro p d hd
  cases p <;> simp [definition?, field?, empty] at hd

variable {P : Place → Definition → Prop} {c : Codebase}

theorem Everywhere.take (h : c.Everywhere P)
    (hmerge : ∀ p d e, P p d → P p e → P p (d.merge e)) {x : Sighting}
    (hx : ∀ p d, x.entry? = some (p, d) → P p d) : (c.take x).Everywhere P := by
  intro p d hd
  rw [definition?_take] at hd
  split at hd
  · rename_i q e hentry
    split at hd
    · rename_i hplace
      subst hplace
      have hnew := hx q e hentry
      cases hfirst : c.definition? q with
      | none =>
        simp only [hfirst, folded, Option.map_none, Option.getD_none, Option.some.injEq] at hd
        exact hd ▸ hnew
      | some first =>
        simp only [hfirst, folded, Option.map_some, Option.getD_some, Option.some.injEq] at hd
        exact hd ▸ hmerge q first e (h q first hfirst) hnew
    · exact h p d hd
  · exact h p d hd

theorem Everywhere.foldl_take (h : c.Everywhere P)
    (hmerge : ∀ p d e, P p d → P p e → P p (d.merge e)) {xs : List Sighting}
    (hxs : ∀ x ∈ xs, ∀ p d, x.entry? = some (p, d) → P p d) :
    (xs.foldl Codebase.take c).Everywhere P := by
  induction xs generalizing c with
  | nil => exact h
  | cons x xs ih =>
    refine ih (h.take hmerge (hxs x List.mem_cons_self)) ?_
    intro y hy
    exact hxs y (List.mem_cons_of_mem x hy)

theorem record_mem_contents {d : Definition} :
    Sighting.record d ∈ c.contents ↔ ∃ name : String, c.types[name]? = some d := by
  simp [contents, Std.ExtTreeMap.mem_toList_iff_getElem?_eq_some]

theorem function_mem_contents {d : Definition} :
    Sighting.function d ∈ c.contents ↔ ∃ name : String, c.functions[name]? = some d := by
  simp [contents, Std.ExtTreeMap.mem_toList_iff_getElem?_eq_some]

theorem field_mem_contents {owner : String} {d : Definition} :
    Sighting.field owner d ∈ c.contents ↔ ∃ name, c.field? owner name = some d := by
  simp only [contents, List.mem_append, List.mem_map, List.mem_flatMap, reduceCtorEq, and_false,
    exists_false, or_false, false_or, Sighting.field.injEq, Prod.exists,
    Std.ExtTreeMap.mem_toList_iff_getElem?_eq_some, field?, Option.bind_eq_some_iff]
  constructor
  · rintro ⟨_, fields, hfields, name, _, hd, rfl, rfl⟩
    exact ⟨name, fields, hfields, hd⟩
  · rintro ⟨name, fields, hfields, hd⟩
    exact ⟨owner, fields, hfields, name, d, hd, rfl, rfl⟩

/-- What a keyed table passes on for a place is what it holds there. -/
theorem mem_contents_iff (hkeyed : c.Keyed) {p : Place} {d : Definition} :
    (∃ x ∈ c.contents, x.entry? = some (p, d)) ↔ c.definition? p = some d := by
  constructor
  · rintro ⟨x, hx, hentry⟩
    cases x with
    | record e =>
      obtain ⟨rfl, rfl⟩ := Prod.mk.inj (Option.some.inj hentry)
      obtain ⟨name, hname⟩ := record_mem_contents.1 hx
      obtain rfl : e.name = name := hkeyed (.record name) e hname
      exact hname
    | function e =>
      obtain ⟨rfl, rfl⟩ := Prod.mk.inj (Option.some.inj hentry)
      obtain ⟨name, hname⟩ := function_mem_contents.1 hx
      obtain rfl : e.name = name := hkeyed (.function name) e hname
      exact hname
    | field owner e =>
      obtain ⟨rfl, rfl⟩ := Prod.mk.inj (Option.some.inj hentry)
      obtain ⟨name, hname⟩ := field_mem_contents.1 hx
      obtain rfl : e.name = name := hkeyed (.field owner name) e hname
      exact hname
    | typedef name target => simp [Sighting.entry?] at hentry
    | macroDefinition e => simp [Sighting.entry?] at hentry
    | remark reports => simp [Sighting.entry?] at hentry
  · intro hd
    have hname : d.name = p.name := hkeyed p d hd
    cases p with
    | record name =>
      refine ⟨.record d, record_mem_contents.2 ⟨name, hd⟩, ?_⟩
      rw [Sighting.entry?, hname, Place.name]
    | function name =>
      refine ⟨.function d, function_mem_contents.2 ⟨name, hd⟩, ?_⟩
      rw [Sighting.entry?, hname, Place.name]
    | field owner name =>
      refine ⟨.field owner d, field_mem_contents.2 ⟨name, hd⟩, ?_⟩
      rw [Sighting.entry?, hname, Place.name]

theorem name_of_entry? {x : Sighting} {p : Place} {d : Definition}
    (h : x.entry? = some (p, d)) : d.name = p.name := by
  cases x <;> simp only [Sighting.entry?, Option.some.injEq, Prod.mk.injEq, reduceCtorEq] at h
  all_goals
    obtain ⟨rfl, rfl⟩ := h
    rfl

end Codebase

namespace Definition

theorem name_merge {d e : Definition} (h : d.name = e.name) : (d.merge e).name = d.name := by
  unfold merge ranked
  by_cases hlt : d.priority < e.priority
  · simp [hlt, h]
  · simp [hlt]

end Definition

namespace History

open Codebase

/-- The tables that come about keep every definition under its name. -/
theorem keyed (h : History) : h.codebase.Keyed := by
  have hmerge : ∀ (p : Place) (d e : Definition), d.name = p.name → e.name = p.name →
      (d.merge e).name = p.name := by
    intro p d e hd he
    rw [Definition.name_merge (hd.trans he.symm), hd]
  induction h with
  | empty => exact everywhere_empty _
  | read before r ih =>
    rw [codebase_read]
    exact ih.foldl_take hmerge fun x _ p d hentry => name_of_entry? hentry
  | merge before other ih _ =>
    intro p d hd
    rw [codebase, definition?_merge] at hd
    exact ih.foldl_take hmerge (fun x _ p d hentry => name_of_entry? hentry) p d hd

/-- What every sighting that went in has, and what folding keeps, every definition has. -/
theorem everywhere (h : History) {P : Place → Definition → Prop}
    (hmerge : ∀ p d e, P p d → P p e → P p (d.merge e))
    (hsighted : ∀ x ∈ h.sightings, ∀ p d, x.entry? = some (p, d) → P p d) :
    h.codebase.Everywhere P := by
  induction h with
  | empty => exact everywhere_empty P
  | read before r ih =>
    rw [sightings_read] at hsighted
    rw [codebase_read]
    refine (ih fun x hx => hsighted x (List.mem_append_left _ hx)).foldl_take hmerge ?_
    intro x hx
    exact hsighted x (List.mem_append_right _ hx)
  | merge before other ih ihother =>
    rw [sightings_merge] at hsighted
    have hbefore := ih fun x hx => hsighted x (List.mem_append_left _ hx)
    have hother := ihother fun x hx => hsighted x (List.mem_append_right _ hx)
    intro p d hd
    rw [codebase, definition?_merge] at hd
    refine hbefore.foldl_take hmerge ?_ p d hd
    intro x hx q e hentry
    exact hother q e ((mem_contents_iff other.keyed).1 ⟨x, hx, hentry⟩)

end History

end CBoundary
