import CBoundary.ProjectScan
import CBoundary.Proofs.DefinitionOffset
import CBoundary.Proofs.ReportOrder
import CBoundary.Proofs.SightingOrigin
import Mathlib.Data.List.TakeWhile

/-!
Where the reports of a file point. While a file is scanned on its own, its table holds definitions
of that file only, so every report starts with a place in it, and the location of the place starts
with the path and a colon. Reading a location back keeps all that stands in front of its first
colon. Hence reports of files with different paths have different keys, whatever else their
locations look like. Main statements: `sortKey?_ne` and `ProjectScan.startsIn_scanText`.
-/
namespace CBoundary

namespace Report

/-- The text starts with the path and a colon. -/
def Locates (path location : String) : Prop :=
  ∃ rest, location = path ++ ":" ++ rest

/-- The first record is about a place in the file at the path. -/
def StartsIn (path : String) (r : Report) : Prop :=
  ∃ location, r.head?.bind Warning.location = some location ∧ Locates path location

theorem Locates.append {path location : String} (h : Locates path location) (rest : String) :
    Locates path (location ++ rest) := by
  obtain ⟨tail, rfl⟩ := h
  exact ⟨tail ++ rest, by rw [String.append_assoc]⟩

namespace SortKey

theorem splitLast?_eq_some {text front back : List Char}
    (h : splitLast? text = some (front, back)) :
    text = front ++ ':' :: back := by
  unfold splitLast? at h
  split at h
  · simp at h
  · rename_i c before hdrop
    obtain ⟨rfl, rfl⟩ := Prod.mk.inj (Option.some.inj h)
    have hc : c = ':' := by
      have hhead := List.head?_dropWhile_not (· != ':') text.reverse
      simpa [hdrop] using hhead
    have hsplit := List.takeWhile_append_dropWhile (p := (· != ':')) (l := text.reverse)
    rw [hdrop, hc] at hsplit
    have hback := congrArg List.reverse hsplit
    simpa using hback.symm

/-- A location is its own path, or the path with two more parts behind it. -/
theorem ofLocation_path (location : String) :
    (ofLocation location).path = location ∨ ∃ line column,
      location.toList = (ofLocation location).path.toList ++ ':' :: line ++ ':' :: column := by
  unfold ofLocation
  cases hfront : splitLast? location.toList with
  | none => exact Or.inl rfl
  | some found =>
    obtain ⟨front, column⟩ := found
    cases hpath : splitLast? front with
    | none => exact Or.inl (by simp [hpath])
    | some found =>
      obtain ⟨path, line⟩ := found
      have hlocation := splitLast?_eq_some hfront
      rw [splitLast?_eq_some hpath] at hlocation
      cases hline : DecimalNumeral.read? bound line with
      | none => exact Or.inl (by simp [hpath, hline])
      | some lineNumber =>
        cases hcolumn : DecimalNumeral.read? bound column with
        | none => exact Or.inl (by simp [hpath, hcolumn])
        | some columnNumber =>
          refine Or.inr ⟨line, column, ?_⟩
          simpa [hpath, hline, hcolumn] using hlocation

theorem takeWhile_append_colon (front back : List Char) :
    (front ++ ':' :: back).takeWhile (· != ':') = front.takeWhile (· != ':') := by
  induction front with
  | nil => simp
  | cons c front ih => simp only [List.cons_append, List.takeWhile_cons, ih]

/-- Reading a location keeps what stands in front of its first colon, since numbers are only ever
taken off its end. -/
theorem takeWhile_path_ofLocation (location : String) :
    (ofLocation location).path.toList.takeWhile (· != ':') =
      location.toList.takeWhile (· != ':') := by
  rcases ofLocation_path location with hpath | ⟨line, column, hlocation⟩
  · rw [hpath]
  · rw [hlocation, takeWhile_append_colon, takeWhile_append_colon]

end SortKey

/-- The key of a report of a file says which file it is, if its path has no colon. -/
theorem StartsIn.sortKey? {path : String} {r : Report} (h : r.StartsIn path)
    (hcolon : ':' ∉ path.toList) :
    ∃ key, r.sortKey? = some key ∧ key.path.toList.takeWhile (· != ':') = path.toList := by
  obtain ⟨location, hlocation, rest, rfl⟩ := h
  refine ⟨SortKey.ofLocation (path ++ ":" ++ rest), by rw [Report.sortKey?, hlocation]; rfl, ?_⟩
  have hsplit : (path ++ ":" ++ rest).toList = path.toList ++ ':' :: rest.toList := by simp
  have hall : ∀ c ∈ path.toList, (c != ':') = true := by
    intro c hc
    simpa using ne_of_mem_of_not_mem hc hcolon
  rw [SortKey.takeWhile_path_ofLocation, hsplit, SortKey.takeWhile_append_colon]
  exact List.takeWhile_eq_self_iff.2 hall

/-- Reports of files with different paths have different keys. -/
theorem sortKey?_ne {path path' : String} {r r' : Report} (hr : r.StartsIn path)
    (hr' : r'.StartsIn path') (hcolon : ':' ∉ path.toList) (hcolon' : ':' ∉ path'.toList)
    (hne : path ≠ path') : r.sortKey? ≠ r'.sortKey? := by
  intro hsame
  obtain ⟨key, hkey, hpath⟩ := hr.sortKey? hcolon
  obtain ⟨key', hkey', hpath'⟩ := hr'.sortKey? hcolon'
  obtain rfl : key = key' := Option.some.inj (hkey.symm.trans (hsame.trans hkey'))
  exact hne (String.toList_inj.1 (hpath.symm.trans hpath'))

end Report

theorem Scope.locates (s : Scope) (offset : Nat) :
    Report.Locates s.file.path (s.location offset) := by
  have hpath : Report.Locates s.file.path (s.file.path ++ ":") := ⟨"", by simp⟩
  exact ((hpath.append _).append _).append _

open Report

namespace Definition

theorem locates_conflictLocation (d : Definition) :
    Locates d.scope.file.path d.conflictLocation := by
  have hlocation : Locates d.scope.file.path d.location := d.scope.locates d.offset
  exact ((((((hlocation.append _).append _).append _).append _).append _).append _).append _

theorem startsIn_conflictReport (category : Category) (what : String) (winner loser : Definition)
    (messages : List String) :
    (conflictReport category what winner loser messages).StartsIn winner.scope.file.path :=
  ⟨winner.conflictLocation, rfl, winner.locates_conflictLocation⟩

/-- What there is to report about a fold starts with the definition that stands for both. -/
theorem startsIn_of_mem_mergeReports {d e : Definition} {r : Report} (hr : r ∈ d.mergeReports e) :
    r.StartsIn (d.ranked e).1.scope.file.path := by
  simp only [mergeReports, List.mem_append, List.mem_ite_nil_left, List.mem_singleton] at hr
  rcases hr with (⟨-, rfl⟩ | ⟨-, rfl⟩) | hr
  · exact startsIn_conflictReport _ _ _ _ _
  · exact startsIn_conflictReport _ _ _ _ _
  · split at hr
    · simp at hr
    · obtain rfl := List.mem_singleton.1 hr
      exact startsIn_conflictReport _ _ _ _ _

end Definition

theorem Visibility.startsIn_of_mem_reports {c : ScanContext} {preComment postComment : Option Token}
    {name : String} {offset : Nat} {useNaming : Bool} {r : Report}
    (hr : r ∈ reports c preComment postComment name offset useNaming) :
    r.StartsIn c.scope.file.path := by
  unfold reports at hr
  simp only at hr
  split at hr
  · split at hr
    · simp at hr
    · obtain rfl := List.mem_singleton.1 hr
      exact ⟨c.location offset, rfl, c.scope.locates offset⟩
  · simp at hr

namespace Sighting.HasForm

variable {c : ScanContext} {x : Sighting}

theorem file (h : HasForm c x) {p : Place} {d : Definition} (hentry : x.entry? = some (p, d)) :
    d.scope.file = c.scope.file := by
  cases h <;> simp only [Sighting.entry?, Option.some.injEq, Prod.mk.injEq, reduceCtorEq] at hentry
  all_goals
    obtain ⟨-, rfl⟩ := hentry
    rfl

theorem startsIn {reports : List Report} (h : HasForm c (.remark reports)) {r : Report}
    (hr : r ∈ reports) : r.StartsIn c.scope.file.path := by
  cases h
  exact Visibility.startsIn_of_mem_reports hr

end Sighting.HasForm

namespace SourceScan

/-- All that was found and reported belongs to one file. -/
structure Within (file : FileInfo) (s : SourceScan) : Prop where
  definitions : s.codebase.Everywhere fun _ d => d.scope.file = file
  reports : ∀ r ∈ s.reports, r.StartsIn file.path

theorem mem_upsertReports {definitions : Definitions} {d : Definition} {r : Report}
    (hr : r ∈ Codebase.upsertReports definitions d) :
    ∃ first, definitions[d.name]? = some first ∧ r ∈ first.mergeReports d := by
  unfold Codebase.upsertReports at hr
  cases hfirst : definitions[d.name]? with
  | none => simp [hfirst] at hr
  | some first => exact ⟨first, rfl, by simpa [hfirst] using hr⟩

/-- What is reported when a sighting is added was reported before, comes with the sighting, or is
about folding its definition into that of its place. -/
theorem mem_reports_addTo {s : SourceScan} {x : Sighting} {r : Report}
    (hr : r ∈ (x.addTo s).reports) :
    r ∈ s.reports ∨ (∃ reports, x = .remark reports ∧ r ∈ reports) ∨
      ∃ p d first, x.entry? = some (p, d) ∧ s.codebase.definition? p = some first ∧
        r ∈ first.mergeReports d := by
  cases x with
  | record d =>
    rcases List.mem_append.1 hr with hr | hr
    · exact Or.inl hr
    · obtain ⟨first, hfirst, hr⟩ := mem_upsertReports hr
      exact Or.inr (Or.inr ⟨.record d.name, d, first, rfl, hfirst, hr⟩)
  | function d =>
    rcases List.mem_append.1 hr with hr | hr
    · exact Or.inl hr
    · obtain ⟨first, hfirst, hr⟩ := mem_upsertReports hr
      exact Or.inr (Or.inr ⟨.function d.name, d, first, rfl, hfirst, hr⟩)
  | field owner d =>
    rcases List.mem_append.1 hr with hr | hr
    · exact Or.inl hr
    · obtain ⟨first, hfirst, hr⟩ := mem_upsertReports hr
      refine Or.inr (Or.inr ⟨.field owner d.name, d, first, rfl, ?_, hr⟩)
      rw [Codebase.definition?, Codebase.field?]
      cases hfields : s.codebase.fields[owner]? with
      | none => simp [hfields] at hfirst
      | some fields => simpa [hfields] using hfirst
  | remark reports =>
    rcases List.mem_append.1 hr with hr | hr
    · exact Or.inl hr
    · exact Or.inr (Or.inl ⟨reports, rfl, hr⟩)
  | typedef name target => exact Or.inl hr
  | macroDefinition d => exact Or.inl hr

variable {file : FileInfo} {s : SourceScan}

theorem within_start : start.Within file where
  definitions := Codebase.everywhere_empty _
  reports := by simp [start]

/-- Adding a sighting of the file keeps everything in it. -/
theorem Within.addTo (h : s.Within file) {x : Sighting}
    (hdefinition : ∀ p d, x.entry? = some (p, d) → d.scope.file = file)
    (hremark : ∀ reports, x = .remark reports → ∀ r ∈ reports, r.StartsIn file.path) :
    (x.addTo s).Within file where
  definitions := by
    rw [Codebase.addTo_codebase]
    refine h.definitions.take ?_ hdefinition
    intro p d e hd he
    obtain ⟨winner, rfl | rfl, -, hscope, -⟩ := Definition.placement_merge d e
    · rw [hscope, hd]
    · rw [hscope, he]
  reports := by
    intro r hr
    rcases mem_reports_addTo hr with hr | ⟨reports, hx, hr⟩ | ⟨p, d, first, hentry, hfirst, hr⟩
    · exact h.reports r hr
    · exact hremark reports hx r hr
    · have hd := hdefinition p d hentry
      have hfile := h.definitions p first hfirst
      have hstarts := Definition.startsIn_of_mem_mergeReports hr
      unfold Definition.ranked at hstarts
      split at hstarts
      · rwa [hd] at hstarts
      · rwa [hfile] at hstarts

theorem Within.foldl_addTo (h : s.Within file) {xs : List Sighting}
    (hxs : ∀ x ∈ xs, ∃ c : ScanContext, c.scope.file = file ∧ Sighting.HasForm c x) :
    (xs.foldl Sighting.addTo s).Within file := by
  induction xs generalizing s with
  | nil => exact h
  | cons x xs ih =>
    obtain ⟨c, hfile, hform⟩ := hxs x List.mem_cons_self
    refine ih (h.addTo ?_ ?_) fun y hy => hxs y (List.mem_cons_of_mem x hy)
    · intro p d hentry
      rw [hform.file hentry, hfile]
    · intro reports hx r hr
      subst hx
      exact hfile ▸ hform.startsIn hr

/-- A scan of one text finds and reports nothing outside its file. -/
theorem readText_within (c : ScanContext) (base : Nat) (text : String) :
    (readText c base start text).Within c.scope.file := by
  rw [readText, readStatements_eq]
  refine within_start.foldl_addTo ?_
  intro x hx
  obtain ⟨c', -, hfile, hform⟩ := Sighting.form_of_mem_ofText hx
  exact ⟨c', hfile, hform⟩

end SourceScan

/-- Every report of the scan of a file starts with a place in it. -/
theorem ProjectScan.startsIn_scanText (config : ModuleConfig) (path : SourcePath) (text : String)
    {r : Report} (hr : r ∈ (scanText config path text).reports) : r.StartsIn path.text :=
  (SourceScan.readText_within (ScanContext.forFile config path text) 0 text).reports r hr

end CBoundary
