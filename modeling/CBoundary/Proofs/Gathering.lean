import CBoundary.Proofs.Privacy
import CBoundary.Proofs.SightingOrigin
import CBoundary.Proofs.TableMerge
import Mathlib.Data.List.Induction

/-!
What a symbol table gathers from the sightings of a name. Which sighting stands for a definition
may depend on how they were folded together. Its privacy, whether it has a body and its comments
do not: they add up, and adding up is associative. So do typedef names and macros, whose first
sighting stays. Hence all of these depend only on the sightings that went in, in order. Main
statements: `gathered_eq`, and `mergedScan_gathersAs_jointScan` for files scanned one by one or into
one table.
-/
namespace CBoundary

/-- What a definition adds up from its sightings. -/
structure Gathered where
  isPrivate : Option Bool
  hasBody : Bool
  preComments : List Token
  postComments : List Token
deriving DecidableEq, Repr

/-- What two runs of sightings add up to. -/
def Gathered.join (a b : Gathered) : Gathered :=
  ⟨Definition.joinPrivacy a.isPrivate b.isPrivate, a.hasBody || b.hasBody,
    a.preComments ++ b.preComments, a.postComments ++ b.postComments⟩

namespace Definition

def gathered (d : Definition) : Gathered :=
  ⟨d.isPrivate, d.details.hasBody, d.preComments, d.postComments⟩

theorem joinPrivacy_comm (a b : Option Bool) : joinPrivacy a b = joinPrivacy b a := by
  rcases a with _ | _ | _ <;> rcases b with _ | _ | _ <;> rfl

theorem joinPrivacy_assoc (a b c : Option Bool) :
    joinPrivacy (joinPrivacy a b) c = joinPrivacy a (joinPrivacy b c) := by
  rcases a with _ | _ | _ <;> rcases b with _ | _ | _ <;> rcases c with _ | _ | _ <;> rfl

/-- Of two sightings of one kind, both count for whether there is a body. -/
theorem hasBody_absorb {d e : Details} (h : d.kind = e.kind) :
    (d.absorb e).hasBody = (d.hasBody || e.hasBody) := by
  cases d <;> cases e <;> simp only [Details.kind, reduceCtorEq] at h
  · simp [Details.absorb, Details.hasBody, FunctionDecl.absorb, FunctionDecl.hasBody]
  · rfl
  · rfl

theorem kind_absorb (d e : Details) : (d.absorb e).kind = d.kind := by
  cases d <;> cases e <;> rfl

theorem kind_merge {d e : Definition} (h : d.kind = e.kind) : (d.merge e).kind = d.kind := by
  unfold merge ranked
  by_cases hlt : d.priority < e.priority
  · simp only [if_pos hlt]
    exact (kind_absorb e.details d.details).trans h.symm
  · simp only [if_neg hlt]
    exact kind_absorb d.details e.details

theorem details_merge (d e : Definition) :
    (d.merge e).details = d.details.absorb e.details ∨
      (d.merge e).details = e.details.absorb d.details := by
  unfold merge ranked
  by_cases hlt : d.priority < e.priority
  · exact Or.inr (by simp only [if_pos hlt])
  · exact Or.inl (by simp only [if_neg hlt])

/-- Whichever of two sightings stands for both, they add up to the same. -/
theorem gathered_merge {d e : Definition} (h : d.kind = e.kind) :
    (d.merge e).gathered = d.gathered.join e.gathered := by
  unfold merge ranked gathered Gathered.join
  by_cases hlt : d.priority < e.priority
  · simp only [if_pos hlt, hasBody_absorb h.symm, joinPrivacy_comm e.isPrivate,
      Bool.or_comm e.details.hasBody]
  · simp only [if_neg hlt, hasBody_absorb h]

end Definition

namespace Gathered

theorem join_assoc (a b c : Gathered) : (a.join b).join c = a.join (b.join c) := by
  simp only [join, Definition.joinPrivacy_assoc, Bool.or_assoc, List.append_assoc]

instance : Std.Associative join := ⟨join_assoc⟩

end Gathered

instance : Std.Associative MacroDefinition.absorb where
  assoc d e f := by simp only [MacroDefinition.absorb, Option.or_assoc]

/-- What a place is for. -/
def Place.kind : Place → DefinitionKind
  | .record _ => .record
  | .function _ => .function
  | .field _ _ => .field

namespace Sighting

theorem HasForm.kind {c : ScanContext} {x : Sighting} (h : HasForm c x) {p : Place}
    {d : Definition} (hentry : x.entry? = some (p, d)) : d.kind = p.kind := by
  cases h <;> simp only [Sighting.entry?, Option.some.injEq, Prod.mk.injEq, reduceCtorEq] at hentry
  all_goals
    obtain ⟨rfl, rfl⟩ := hentry
    rfl

/-- What the sightings of a place add up to, if there are any. -/
def gatheredAt (p : Place) (xs : List Sighting) : Option Gathered :=
  combined Gathered.join (fun x => (x.definitionAt? p).map Definition.gathered) xs

end Sighting

namespace Codebase

/-- Every definition is of the kind of its place. -/
def Kinded (c : Codebase) : Prop := c.Everywhere fun p d => d.kind = p.kind

/-- No record is listed without a field. -/
def FieldsListed (c : Codebase) : Prop :=
  ∀ owner : String, owner ∈ c.fields ↔ ∃ name, (c.field? owner name).isSome = true

/-- Two tables have the same names, and for each of them gathered the same. -/
structure GathersAs (c other : Codebase) : Prop where
  types (name : String) :
    c.types[name]?.map Definition.gathered = other.types[name]?.map Definition.gathered
  functions (name : String) :
    c.functions[name]?.map Definition.gathered = other.functions[name]?.map Definition.gathered
  owners (owner : String) : owner ∈ c.fields ↔ owner ∈ other.fields
  fields (owner name : String) :
    (c.field? owner name).map Definition.gathered =
      (other.field? owner name).map Definition.gathered
  restrictedTypes : c.restrictedTypes = other.restrictedTypes
  restrictedFunctions : c.restrictedFunctions = other.restrictedFunctions
  typedefs : c.typedefs = other.typedefs
  macros : c.macros = other.macros

theorem gathered_merge_option {k : DefinitionKind} {first second : Option Definition}
    (hfirst : ∀ d, first = some d → d.kind = k) (hsecond : ∀ d, second = some d → d.kind = k) :
    (first.merge Definition.merge second).map Definition.gathered =
      (first.map Definition.gathered).merge Gathered.join (second.map Definition.gathered) := by
  cases first with
  | none => simp
  | some d =>
    cases second with
    | none => simp
    | some e =>
      have hkind : d.kind = e.kind := (hfirst d rfl).trans (hsecond e rfl).symm
      simp [Definition.gathered_merge hkind]

theorem kind_merge_of_kind {k : DefinitionKind} {d e : Definition} (hd : d.kind = k)
    (he : e.kind = k) : (d.merge e).kind = k :=
  (Definition.kind_merge (hd.trans he.symm)).trans hd

theorem gathered_foldl_take {c : Codebase} (h : c.Kinded) {xs : List Sighting}
    (hxs : ∀ x ∈ xs, ∀ p d, x.entry? = some (p, d) → d.kind = p.kind) (p : Place) :
    ((xs.foldl take c).definition? p).map Definition.gathered =
      ((c.definition? p).map Definition.gathered).merge Gathered.join
        (Sighting.gatheredAt p xs) := by
  rw [Sighting.gatheredAt, ← foldl_merge_eq]
  induction xs generalizing c with
  | nil => rfl
  | cons x xs ih =>
    have hx := hxs x List.mem_cons_self
    have htake : (c.take x).Kinded :=
      h.take (fun p d e hd he => kind_merge_of_kind hd he) hx
    rw [List.foldl_cons, ih htake fun y hy => hxs y (List.mem_cons_of_mem x hy),
      definition?_take_eq, gathered_merge_option (h p), List.foldl_cons]
    intro d hd
    exact hx p d (Sighting.definitionAt?_eq_some_iff.1 hd)

theorem fieldsListed_empty : empty.FieldsListed := by
  intro owner
  simp [empty, field?]

theorem FieldsListed.take {c : Codebase} (h : c.FieldsListed) (x : Sighting) :
    (c.take x).FieldsListed := by
  intro owner
  have hfield (name : String) : ((c.take x).field? owner name).isSome =
      ((c.field? owner name).isSome || (x.definitionAt? (.field owner name)).isSome) := by
    have htake := definition?_take_eq c x (.field owner name)
    simp only [definition?] at htake
    rw [htake, Option.isSome_merge]
  have howners : owner ∈ (c.take x).fields ↔
      owner ∈ c.fields ∨ ∃ name, (x.definitionAt? (.field owner name)).isSome = true := by
    cases x with
    | field other d =>
      change owner ∈ c.fields.insert other _ ↔ _
      rw [Std.ExtTreeMap.mem_insert, Std.LawfulEqCmp.compare_eq_iff_eq, or_comm]
      simp [Option.isSome_ite]
    | _ => simp [Sighting.definitionAt?, Sighting.entry?]; rfl
  simp only [howners, h owner, hfield, Bool.or_eq_true, exists_or]

theorem FieldsListed.foldl_take {c : Codebase} (h : c.FieldsListed) (xs : List Sighting) :
    (xs.foldl Codebase.take c).FieldsListed := by
  induction xs generalizing c with
  | nil => exact h
  | cons x xs ih => exact ih (h.take x)

theorem FieldsListed.merge {s : SourceScan} (h : s.codebase.FieldsListed) (other : Codebase) :
    (s.merge other).codebase.FieldsListed := by
  rw [merge_codebase]
  exact h.foldl_take other.contents

end Codebase

namespace History

open Codebase

theorem kinded (h : History) : h.codebase.Kinded := by
  refine h.everywhere (fun p d e hd he => kind_merge_of_kind hd he) ?_
  intro x hx p d hentry
  obtain ⟨r, -, hx⟩ := List.mem_flatMap.1 hx
  obtain ⟨c, -, -, hform⟩ := Sighting.form_of_mem_ofText hx
  exact hform.kind hentry

theorem fieldsListed (h : History) : h.codebase.FieldsListed := by
  induction h with
  | empty => exact fieldsListed_empty
  | read before r ih =>
    rw [codebase_read]
    exact ih.foldl_take r.sightings
  | merge before other ih _ => exact FieldsListed.merge ih other.codebase

theorem macros_keyed (h : History) : h.codebase.macros.Keyed := by
  have hread {c : Codebase} (hc : c.macros.Keyed) (xs : List Sighting) :
      (xs.foldl Codebase.take c).macros.Keyed := by
    refine List.foldlRecOn (motive := fun c : Codebase => c.macros.Keyed) xs _ hc ?_
    intro c hc x _
    cases x with
    | macroDefinition d => exact hc.offer d
    | _ => exact hc
  induction h with
  | empty => exact MacroTable.keyed_empty
  | read before r ih =>
    rw [codebase_read]
    exact hread ih r.sightings
  | merge before other ih _ =>
    rw [codebase, merge_codebase]
    exact (hread ih other.codebase.contents).merge other.codebase.macros

/-- What a definition gathered depends only on the sightings that went in, in order. -/
theorem gathered_eq (h : History) (p : Place) :
    (h.codebase.definition? p).map Definition.gathered = Sighting.gatheredAt p h.sightings := by
  induction h with
  | empty =>
    cases p <;> simp [codebase, Codebase.empty, definition?, field?, Sighting.gatheredAt, combined]
  | read before r ih =>
    have hkind : ∀ x ∈ r.sightings, ∀ p d, x.entry? = some (p, d) → d.kind = p.kind := by
      intro x hx p d hentry
      obtain ⟨c, -, -, hform⟩ := Sighting.form_of_mem_ofText hx
      exact hform.kind hentry
    rw [codebase_read, gathered_foldl_take before.kinded hkind, ih, sightings_read]
    exact (combined_append _ _).symm
  | merge before other ih ihother =>
    have hmerge : (before.merge other).codebase.definition? p =
        (before.codebase.definition? p).merge Definition.merge (other.codebase.definition? p) :=
      definition?_merge_eq _ other.keyed p
    rw [hmerge, gathered_merge_option (before.kinded p) (other.kinded p), ih, ihother,
      sightings_merge]
    exact (combined_append _ _).symm

/-- A typedef name stands for what its first sighting says. -/
theorem typedefs_eq (h : History) (name : String) :
    h.codebase.typedefs[name]? =
      combined (fun first _ => first) (Sighting.targetOf? name) h.sightings := by
  have : Std.Associative fun (first _ : String) => first := ⟨fun _ _ _ => rfl⟩
  induction h with
  | empty => simp [codebase, Codebase.empty, combined]
  | read before r ih =>
    rw [codebase_read, typedefs_foldl_take, foldl_merge_eq, ih, sightings_read, combined_append]
  | merge before other ih ihother =>
    have hmerge : (before.merge other).codebase.typedefs[name]? =
        (before.codebase.typedefs[name]?).merge (fun first _ => first)
          other.codebase.typedefs[name]? := typedefs_merge _ other.codebase name
    rw [hmerge, ih, ihother, sightings_merge, combined_append]

/-- A macro is what its first sighting says, with the first comment of any sighting. -/
theorem macros_eq (h : History) (name : String) :
    h.codebase.macros.get? name =
      combined MacroDefinition.absorb (Sighting.macroOf? name) h.sightings := by
  induction h with
  | empty => simp [codebase, Codebase.empty, MacroTable.empty, MacroTable.get?, combined]
  | read before r ih =>
    rw [codebase_read, macros_foldl_take, foldl_merge_eq, ih, sightings_read, combined_append]
  | merge before other ih ihother =>
    have hmerge : (before.merge other).codebase.macros.get? name =
        (before.codebase.macros.get? name).merge MacroDefinition.absorb
          (other.codebase.macros.get? name) := macros_merge _ other.macros_keyed name
    rw [hmerge, ih, ihother, sightings_merge, combined_append]

/-- A place is private if the privacy that was gathered for it says so. -/
theorem privateAt_iff_gathered (h : History) (p : Place) :
    h.codebase.PrivateAt p ↔
      ∃ g, Sighting.gatheredAt p h.sightings = some g ∧ g.isPrivate = some true := by
  rw [← gathered_eq]
  simp only [PrivateAt, Option.map_eq_some_iff]
  constructor
  · rintro ⟨d, hd, hprivate⟩
    exact ⟨d.gathered, ⟨d, hd, rfl⟩, hprivate⟩
  · rintro ⟨-, ⟨d, hd, rfl⟩, hprivate⟩
    exact ⟨d, hd, hprivate⟩

/-- Tables that came about from the same sightings in the same order gathered the same. -/
theorem gathersAs_of_sightings_eq {h other : History} (hsame : h.sightings = other.sightings) :
    h.codebase.GathersAs other.codebase := by
  have hgathered (p : Place) : (h.codebase.definition? p).map Definition.gathered =
      (other.codebase.definition? p).map Definition.gathered := by
    rw [gathered_eq, gathered_eq, hsame]
  have hprivate (p : Place) : h.codebase.PrivateAt p ↔ other.codebase.PrivateAt p := by
    rw [privateAt_iff_gathered, privateAt_iff_gathered, hsame]
  have hrestricted (p : Place) (hp : p.isField = false) :
      h.codebase.RestrictedAt p ↔ other.codebase.RestrictedAt p := by
    rw [h.listed p hp, other.listed p hp, hprivate]
  exact {
    types := fun name => hgathered (.record name)
    functions := fun name => hgathered (.function name)
    owners := by
      intro owner
      have hfields (name : String) := congrArg Option.isSome (hgathered (.field owner name))
      simp only [Option.isSome_map, definition?] at hfields
      simp only [h.fieldsListed owner, other.fieldsListed owner, hfields]
    fields := fun owner name => hgathered (.field owner name)
    restrictedTypes := Std.ExtTreeSet.ext_mem fun name => hrestricted (.record name) rfl
    restrictedFunctions := Std.ExtTreeSet.ext_mem fun name => hrestricted (.function name) rfl
    typedefs := by
      apply Std.ExtTreeMap.ext_getElem?
      intro name
      rw [typedefs_eq, typedefs_eq, hsame]
    macros := by
      apply congrArg MacroTable.mk
      apply Std.ExtTreeMap.ext_getElem?
      intro name
      have hmacros := (h.macros_eq name).trans (hsame ▸ (other.macros_eq name).symm)
      exact hmacros }

end History

namespace Reading

/-- The table of a text that is scanned on its own. -/
def codebase (r : Reading) : Codebase :=
  (SourceScan.readText r.context r.base SourceScan.start r.text).codebase

/-- Texts are scanned on their own, and their tables are merged in order. -/
def mergedScan (readings : List Reading) : SourceScan :=
  readings.foldl (fun s r => s.merge r.codebase) SourceScan.start

/-- Texts are scanned into one table, one after the other. -/
def jointScan (readings : List Reading) : SourceScan :=
  readings.foldl (fun s r => SourceScan.readText r.context r.base s r.text) SourceScan.start

theorem exists_history_mergedScan (readings : List Reading) :
    ∃ h : History, h.codebase = (mergedScan readings).codebase ∧
      h.sightings = readings.flatMap Reading.sightings := by
  induction readings using List.reverseRecOn with
  | nil => exact ⟨.empty, rfl, rfl⟩
  | append_singleton readings r ih =>
    obtain ⟨h, hcodebase, hsightings⟩ := ih
    refine ⟨h.merge (History.empty.read r), ?_, ?_⟩
    · rw [mergedScan, List.foldl_append, List.foldl_cons, List.foldl_nil, ← mergedScan,
        History.codebase, hcodebase, Codebase.merge_codebase, Codebase.merge_codebase]
      rfl
    · rw [History.sightings_merge, hsightings, List.flatMap_append]
      simp

theorem exists_history_jointScan (readings : List Reading) :
    ∃ h : History, h.codebase = (jointScan readings).codebase ∧
      h.sightings = readings.flatMap Reading.sightings := by
  induction readings using List.reverseRecOn with
  | nil => exact ⟨.empty, rfl, rfl⟩
  | append_singleton readings r ih =>
    obtain ⟨h, hcodebase, hsightings⟩ := ih
    refine ⟨h.read r, ?_, ?_⟩
    · rw [jointScan, List.foldl_append, List.foldl_cons, List.foldl_nil, ← jointScan,
        History.codebase, hcodebase, Codebase.readText_codebase, Codebase.readText_codebase]
      rfl
    · rw [History.sightings_read, hsightings, List.flatMap_append]
      simp

/-- Texts that are scanned on their own and merged in order give a table with the names of the
table that all of them are scanned into. For every name it has the same privacy, the same comments
and a body in the same cases; restricted names, typedef names and macros are the same as well. -/
theorem mergedScan_gathersAs_jointScan (readings : List Reading) :
    (mergedScan readings).codebase.GathersAs (jointScan readings).codebase := by
  obtain ⟨merged, hmerged, hmergedSightings⟩ := exists_history_mergedScan readings
  obtain ⟨joint, hjoint, hjointSightings⟩ := exists_history_jointScan readings
  rw [← hmerged, ← hjoint]
  exact History.gathersAs_of_sightings_eq (hmergedSightings.trans hjointSightings.symm)

end Reading

end CBoundary
