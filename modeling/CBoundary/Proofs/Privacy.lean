import CBoundary.Proofs.History

/-!
Privacy in a symbol table. A definition is private exactly if one of its sightings was, since
folding two definitions takes privacy from either. The sets of restricted names are kept beside
the definitions by hand, and every step keeps them equal to the names of the private ones.
Main statement: `restricted_iff_sighted_private`.
-/
namespace CBoundary

namespace Definition

/-- Folded definitions are private if either was, whichever stands for both. -/
theorem isPrivate_merge (d e : Definition) :
    (d.merge e).isPrivate = some true ↔ d.isPrivate = some true ∨ e.isPrivate = some true := by
  have hjoin : ∀ a b : Option Bool,
      joinPrivacy a b = some true ↔ a = some true ∨ b = some true := by
    intro a b
    rcases a with _ | _ | _ <;> rcases b with _ | _ | _ <;> simp [joinPrivacy]
  unfold merge ranked
  by_cases hlt : d.priority < e.priority
  · simp only [if_pos hlt, hjoin]
    exact Or.comm
  · simp only [if_neg hlt, hjoin]

end Definition

namespace Codebase

/-- The definition at the place is private. -/
def PrivateAt (c : Codebase) (p : Place) : Prop :=
  ∃ d, c.definition? p = some d ∧ d.isPrivate = some true

/-- The name of the place is restricted. No set of restricted names is kept for fields. -/
def RestrictedAt (c : Codebase) : Place → Prop
  | .record name => name ∈ c.restrictedTypes
  | .function name => name ∈ c.restrictedFunctions
  | .field _ _ => False

/-- The restricted names are those of the private definitions. -/
def Listed (c : Codebase) : Prop :=
  ∀ p : Place, p.isField = false → (c.RestrictedAt p ↔ c.PrivateAt p)

theorem privateAt_iff_any {c : Codebase} {p : Place} :
    c.PrivateAt p ↔ (c.definition? p).any Definition.isKnownPrivate = true := by
  unfold PrivateAt
  cases c.definition? p <;> simp [Definition.isKnownPrivate]

/-- A place is private after a sighting if it was before, or if the sighting is a private one
of that place. -/
theorem privateAt_take (c : Codebase) (x : Sighting) (p : Place) :
    (c.take x).PrivateAt p ↔
      c.PrivateAt p ∨ ∃ d, x.entry? = some (p, d) ∧ d.isPrivate = some true := by
  have hfolded : ∀ (first : Option Definition) (d : Definition),
      (folded first d).isPrivate = some true ↔
        (∃ e, first = some e ∧ e.isPrivate = some true) ∨ d.isPrivate = some true := by
    intro first d
    cases first with
    | none => simp [folded]
    | some e => simp [folded, Definition.isPrivate_merge]
  unfold PrivateAt
  rw [definition?_take]
  cases hentry : x.entry? with
  | none => simp
  | some entry =>
    obtain ⟨q, d⟩ := entry
    by_cases hplace : q = p
    · subst hplace
      simp [hfolded]
    · simp [hplace]

theorem privateAt_foldl_take (c : Codebase) (xs : List Sighting) (p : Place) :
    (xs.foldl take c).PrivateAt p ↔
      c.PrivateAt p ∨ ∃ x ∈ xs, ∃ d, x.entry? = some (p, d) ∧ d.isPrivate = some true := by
  induction xs generalizing c with
  | nil => simp
  | cons x xs ih =>
    rw [List.foldl_cons, ih, privateAt_take, or_assoc]
    simp only [List.mem_cons, or_and_right, exists_or, exists_eq_left]

theorem mem_restrict {restricted : Std.ExtTreeSet String} {definitions : Definitions}
    {name other : String} :
    other ∈ restrict restricted definitions name ↔ other ∈ restricted ∨
      (name = other ∧ (definitions[other]?).any Definition.isKnownPrivate = true) := by
  unfold restrict
  by_cases h : (definitions[name]?).any Definition.isKnownPrivate = true
  · rw [if_pos h, Std.ExtTreeSet.mem_insert, Std.LawfulEqCmp.compare_eq_iff_eq]
    constructor
    · rintro (rfl | hold)
      · exact Or.inr ⟨rfl, h⟩
      · exact Or.inl hold
    · rintro (hold | ⟨rfl, -⟩)
      · exact Or.inr hold
      · exact Or.inl rfl
  · rw [if_neg h]
    constructor
    · exact Or.inl
    · rintro (hold | ⟨rfl, hprivate⟩)
      · exact hold
      · exact absurd hprivate h

/-- A sighting restricts the name of its own place at most, and that one if the definition is
private by then. -/
theorem restrictedAt_take (c : Codebase) (x : Sighting) {p : Place} (hp : p.isField = false) :
    (c.take x).RestrictedAt p ↔ c.RestrictedAt p ∨
      ((∃ d, x.entry? = some (p, d)) ∧ (c.take x).PrivateAt p) := by
  have hkept (h : ∀ d, x.entry? ≠ some (p, d)) :
      ¬ ((∃ d, x.entry? = some (p, d)) ∧ (c.take x).PrivateAt p) :=
    fun ⟨⟨d, hd⟩, _⟩ => h d hd
  cases p with
  | field owner name => simp [Place.isField] at hp
  | record name =>
    cases x with
    | record d =>
      rw [privateAt_iff_any]
      refine mem_restrict.trans (or_congr Iff.rfl (and_congr ?_ Iff.rfl))
      simp [Sighting.entry?]
    | _ => exact (or_iff_left (hkept (by simp [Sighting.entry?]))).symm
  | function name =>
    cases x with
    | function d =>
      rw [privateAt_iff_any]
      refine mem_restrict.trans (or_congr Iff.rfl (and_congr ?_ Iff.rfl))
      simp [Sighting.entry?]
    | _ => exact (or_iff_left (hkept (by simp [Sighting.entry?]))).symm

theorem listed_empty : empty.Listed := by
  intro p hp
  cases p <;> simp [RestrictedAt, PrivateAt, definition?, field?, empty]

theorem Listed.take {c : Codebase} (h : c.Listed) (x : Sighting) : (c.take x).Listed := by
  intro p hp
  rw [restrictedAt_take c x hp, h p hp]
  constructor
  · rintro (hold | ⟨-, hprivate⟩)
    · exact (privateAt_take c x p).2 (Or.inl hold)
    · exact hprivate
  · intro hprivate
    rcases (privateAt_take c x p).1 hprivate with hold | ⟨d, hd, -⟩
    · exact Or.inl hold
    · exact Or.inr ⟨⟨d, hd⟩, hprivate⟩

theorem Listed.foldl_take {c : Codebase} (h : c.Listed) (xs : List Sighting) :
    (xs.foldl Codebase.take c).Listed := by
  induction xs generalizing c with
  | nil => exact h
  | cons x xs ih => exact ih (h.take x)

theorem restrictedAt_merge (s : SourceScan) (other : Codebase) (p : Place) :
    (s.merge other).codebase.RestrictedAt p ↔
      (other.contents.foldl take s.codebase).RestrictedAt p ∨ other.RestrictedAt p := by
  rw [merge_codebase]
  cases p with
  | record name => exact Std.ExtTreeSet.mem_union_iff
  | function name => exact Std.ExtTreeSet.mem_union_iff
  | field owner name => simp [RestrictedAt]

/-- A place is private after a merge if it was private in either table. -/
theorem privateAt_merge (s : SourceScan) {other : Codebase} (hkeyed : other.Keyed) (p : Place) :
    (s.merge other).codebase.PrivateAt p ↔ s.codebase.PrivateAt p ∨ other.PrivateAt p := by
  have hcontents : (∃ x ∈ other.contents, ∃ d, x.entry? = some (p, d) ∧ d.isPrivate = some true) ↔
      other.PrivateAt p := by
    constructor
    · rintro ⟨x, hx, d, hentry, hprivate⟩
      exact ⟨d, (mem_contents_iff hkeyed).1 ⟨x, hx, hentry⟩, hprivate⟩
    · rintro ⟨d, hd, hprivate⟩
      obtain ⟨x, hx, hentry⟩ := (mem_contents_iff hkeyed).2 hd
      exact ⟨x, hx, d, hentry, hprivate⟩
  rw [← hcontents, ← privateAt_foldl_take]
  unfold PrivateAt
  rw [definition?_merge]

theorem Listed.merge {s : SourceScan} {other : Codebase} (h : s.codebase.Listed)
    (hother : other.Listed) (hkeyed : other.Keyed) : (s.merge other).codebase.Listed := by
  intro p hp
  have hcontents := (h.foldl_take other.contents) p hp
  have hprivate : (other.contents.foldl Codebase.take s.codebase).PrivateAt p ↔
      (s.merge other).codebase.PrivateAt p := by
    unfold PrivateAt
    rw [definition?_merge]
  rw [restrictedAt_merge, hcontents, hother p hp, hprivate, privateAt_merge s hkeyed, or_assoc,
    or_self]

end Codebase

namespace History

open Codebase

/-- Every table that comes about lists the names of its private definitions. -/
theorem listed (h : History) : h.codebase.Listed := by
  induction h with
  | empty => exact listed_empty
  | read before r ih =>
    rw [codebase_read]
    exact ih.foldl_take r.sightings
  | merge before other ih ihother => exact Listed.merge ih ihother other.keyed

/-- A definition is private exactly if one of its sightings that went in was. -/
theorem privateAt_iff (h : History) (p : Place) :
    h.codebase.PrivateAt p ↔
      ∃ x ∈ h.sightings, ∃ d, x.entry? = some (p, d) ∧ d.isPrivate = some true := by
  induction h with
  | empty => cases p <;> simp [PrivateAt, codebase, definition?, field?, Codebase.empty]
  | read before r ih =>
    rw [codebase_read, privateAt_foldl_take, ih, sightings_read]
    simp only [List.mem_append, or_and_right, exists_or]
  | merge before other ih ihother =>
    rw [codebase, privateAt_merge _ other.keyed, sightings_merge, ihother]
    simp only [List.mem_append, or_and_right, exists_or]
    exact or_congr ih Iff.rfl

/-- A function is private exactly if one of its sightings that went in was. -/
theorem privateAt_function_iff (h : History) (name : String) :
    h.codebase.PrivateAt (.function name) ↔
      ∃ d, Sighting.function d ∈ h.sightings ∧ d.name = name ∧ d.isPrivate = some true := by
  rw [privateAt_iff]
  constructor
  · rintro ⟨x, hx, d, hentry, hprivate⟩
    cases x <;> simp [Sighting.entry?] at hentry
    obtain ⟨rfl, rfl⟩ := hentry
    exact ⟨_, hx, rfl, hprivate⟩
  · rintro ⟨d, hx, rfl, hprivate⟩
    exact ⟨_, hx, d, rfl, hprivate⟩

/-- A record is private exactly if one of its sightings that went in was. -/
theorem privateAt_record_iff (h : History) (name : String) :
    h.codebase.PrivateAt (.record name) ↔
      ∃ d, Sighting.record d ∈ h.sightings ∧ d.name = name ∧ d.isPrivate = some true := by
  rw [privateAt_iff]
  constructor
  · rintro ⟨x, hx, d, hentry, hprivate⟩
    cases x <;> simp [Sighting.entry?] at hentry
    obtain ⟨rfl, rfl⟩ := hentry
    exact ⟨_, hx, rfl, hprivate⟩
  · rintro ⟨d, hx, rfl, hprivate⟩
    exact ⟨_, hx, d, rfl, hprivate⟩

/-- In every table that comes about, the restricted names are those of the private definitions,
and these are the names with a private sighting among those that went in. Nothing else about
the sightings matters, so neither does the order of texts, of sightings or of merges. -/
theorem restricted_iff_sighted_private (h : History) :
    (∀ name : String,
      (name ∈ h.codebase.restrictedFunctions ↔
        ∃ d, h.codebase.functions[name]? = some d ∧ d.isPrivate = some true) ∧
      (name ∈ h.codebase.restrictedFunctions ↔
        ∃ d, Sighting.function d ∈ h.sightings ∧ d.name = name ∧ d.isPrivate = some true)) ∧
    (∀ name : String,
      (name ∈ h.codebase.restrictedTypes ↔
        ∃ d, h.codebase.types[name]? = some d ∧ d.isPrivate = some true) ∧
      (name ∈ h.codebase.restrictedTypes ↔
        ∃ d, Sighting.record d ∈ h.sightings ∧ d.name = name ∧ d.isPrivate = some true)) ∧
    ∀ other : History, (∀ x, x ∈ other.sightings ↔ x ∈ h.sightings) →
      other.codebase.restrictedFunctions = h.codebase.restrictedFunctions ∧
        other.codebase.restrictedTypes = h.codebase.restrictedTypes := by
  have hfunction (h : History) (name : String) :
      name ∈ h.codebase.restrictedFunctions ↔ h.codebase.PrivateAt (.function name) :=
    h.listed (.function name) rfl
  have hrecord (h : History) (name : String) :
      name ∈ h.codebase.restrictedTypes ↔ h.codebase.PrivateAt (.record name) :=
    h.listed (.record name) rfl
  refine ⟨?_, ?_, ?_⟩
  · intro name
    exact ⟨hfunction h name, (hfunction h name).trans (h.privateAt_function_iff name)⟩
  · intro name
    exact ⟨hrecord h name, (hrecord h name).trans (h.privateAt_record_iff name)⟩
  · intro other hsame
    constructor
    · apply Std.ExtTreeSet.ext_mem
      intro name
      simp only [hfunction, privateAt_function_iff, hsame]
    · apply Std.ExtTreeSet.ext_mem
      intro name
      simp only [hrecord, privateAt_record_iff, hsame]

end History

end CBoundary
