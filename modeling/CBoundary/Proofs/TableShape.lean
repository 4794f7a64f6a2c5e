import CBoundary.Proofs.AnnotationReach
import CBoundary.Proofs.ReportOrigin

/-!
The shape of a symbol table. Each definition is kept under its name and is a declaration of that
name, of the kind that its place is for; a record that has fields is there itself, since the text
that has a sighting of a member has one of its record; and no typedef stands for itself or for
nothing, since no token of a text is empty. Folding and merging keep all of it. So sightings that
are folded are never of different kinds, and following typedefs never has to look for fields. Main
statement: `wellFormed`.
-/
namespace CBoundary

/-- No token of the statement is empty. -/
def Statement.Written (s : Statement) : Prop := ∀ t ∈ s.tokens, t.chars ≠ []

theorem TokenStream.chars_ne_nil_of_mem_ofChars {mode : Lexeme.Mode} {index offset : Nat}
    {text : List Char} {t : Token} (h : t ∈ ofChars mode index offset text) : t.chars ≠ [] := by
  obtain ⟨before, behind, hsplit⟩ := List.append_of_mem h
  have htiles := TokenCoverage.tiles_ofChars mode index offset text
  rw [hsplit] at htiles
  exact htiles.at_split.2.2.1

namespace Statement

theorem written_of_mem_ofSource {base : Nat} {text : String} {s : Statement}
    (hs : s ∈ ofSource base text) : s.Written := by
  intro t ht
  exact TokenStream.chars_ne_nil_of_mem_ofChars (mem_of_mem_ofTokens hs ht)

theorem written_of_mem_within {inner : Token} {s : Statement} (hs : s ∈ within inner) :
    s.Written := by
  intro t ht
  exact TokenStream.chars_ne_nil_of_mem_ofChars (mem_of_mem_ofTokens hs ht)

end Statement

namespace Record

/-- A record takes its name from its own tokens. -/
theorem header?_name_mem {parent : Option String} {tokens : List Token} {r : Record} {name : Token}
    (h : header? parent tokens = some r) (hname : r.name = some name) : name ∈ tokens := by
  simp only [header?, Option.bind_eq_bind, Option.bind_eq_some_iff, Option.pure_def,
    Option.some.injEq, Prod.exists] at h
  obtain ⟨isTypedef, kind, behindKind, hkind, tag, body, behindBody, hbody, rfl⟩ := h
  have hbehind : ∀ t ∈ behindKind, t ∈ tokens := by
    intro t ht
    have hcode := readKind?_mem hkind t ht
    exact List.mem_of_mem_drop (List.mem_filter.1 hcode).1
  rcases Option.or_eq_some_iff.1 hname with htag | ⟨-, hfirst⟩
  · rcases readBody?_tag hbody htag with hnone | hmem
    · cases hnone
    · exact hbehind name hmem
  · obtain ⟨v, hv, rfl⟩ := Option.map_eq_some_iff.1 hfirst
    split at hv
    · obtain ⟨t, ht, rfl⟩ := List.mem_map.1 (List.mem_of_head? hv)
      exact hbehind t (readBody?_rest hbody (List.mem_filter.1 ht).1)
    · cases hv

theorem Encloses.written {s t : Statement} (h : Encloses s t) : t.Written := by
  obtain ⟨⟨r, -, ht⟩, -⟩ := h
  exact Statement.written_of_mem_within ht

end Record

/-- The records that a statement defines have names with characters in them. -/
theorem RecordDecl.name_ne_of_mem_listed {parent : Option String} {s : Statement} {r : RecordDecl}
    {inner : Record} {name : Token} (hs : s.Written) (hr : ofTokens? parent s.tokens = some r)
    (hinner : inner ∈ r.listed) (hname : inner.name = some name) : name.text ≠ "" := by
  obtain ⟨t, parent', found, hreach, hfound, -, rfl⟩ := exists_of_mem_listed hr hinner
  obtain ⟨header, hread⟩ := exists_readAs hfound
  have ht : t.Written := by
    rcases Relation.ReflTransGen.cases_tail hreach with rfl | ⟨u, -, hencloses⟩
    · exact hs
    · exact hencloses.written
  have hmem := Record.header?_name_mem hread.head (hread.name ▸ hname)
  intro hempty
  exact ht name hmem (by rw [Token.chars, hempty]; rfl)

/-- The place is for declarations like this one: of its kind and of its name. The records inside a
record are kept at places of their own. -/
def Place.Admits : Place → Details → Prop
  | .record name, .record r => r.name? = some name ∧ r.nested = []
  | .function name, .function f => f.name.text = name
  | .field _ name, .field v => v.name.text = name
  | _, _ => False

theorem Place.admits_record_iff {name : String} {d : Details} :
    (Place.record name).Admits d ↔ ∃ r, d = .record r ∧ r.name? = some name ∧ r.nested = [] := by
  cases d <;> simp [Admits]

theorem Place.admits_function_iff {name : String} {d : Details} :
    (Place.function name).Admits d ↔ ∃ f, d = .function f ∧ f.name.text = name := by
  cases d <;> simp [Admits]

theorem Place.admits_field_iff {owner name : String} {d : Details} :
    (Place.field owner name).Admits d ↔ ∃ v, d = .field v ∧ v.name.text = name := by
  cases d <;> simp [Admits]

theorem Place.Admits.absorb {p : Place} {d : Details} (h : p.Admits d) (e : Details) :
    p.Admits (d.absorb e) := by
  cases p <;> cases d <;> first | exact h.elim | (cases e <;> exact h)

theorem Place.Admits.merge {p : Place} {d e : Definition} (hd : p.Admits d.details)
    (he : p.Admits e.details) : p.Admits (d.merge e).details := by
  rcases d.details_merge e with heq | heq <;> rw [heq]
  · exact hd.absorb e.details
  · exact he.absorb d.details

namespace Sighting

open SourceScan

variable {c c' : ScanContext} {carry carry' : TypeCarry} {base : Nat} {text : String}
  {x : Sighting} {p : Place} {d : Definition}

theorem ComesTo.written {statements : List Statement} {statement : Statement}
    (h : ComesTo c carry statements c' carry' statement)
    (hwritten : ∀ s ∈ statements, s.Written) : statement.Written := by
  induction h with
  | here => exact hwritten _ List.mem_cons_self
  | later _ _ ih => exact ih fun s hs => hwritten s (List.mem_cons_of_mem _ hs)
  | inside _ _ ih => exact ih fun s hs => Statement.written_of_mem_within hs
  | behind _ _ ih => exact ih fun s hs => hwritten s (List.mem_cons_of_mem _ hs)

/-- What a sighting among others is read from. A record comes with all that is sighted of it. -/
inductive ReadOff (all : List Sighting) (x : Sighting) : Prop
  | macroDefinition (d : MacroDefinition) (hx : x = .macroDefinition d)
  | typedef (v : Variable) (hx : x ∈ ofTypedef v)
  | function (c : ScanContext) (f : FunctionDecl) (hx : x ∈ ofFunction c f)
  | record (c : ScanContext) (r : Record) (hx : x ∈ ofRecord c r) (hall : ofRecord c r ⊆ all)
      (hname : ∀ name, r.name = some name → name.text ≠ "")

theorem ReadOff.mono {all more : List Sighting} (h : ReadOff all x) (hsub : all ⊆ more) :
    ReadOff more x := by
  cases h with
  | macroDefinition d hx => exact .macroDefinition d hx
  | typedef v hx => exact .typedef v hx
  | function c f hx => exact .function c f hx
  | record c r hx hall hname => exact .record c r hx (List.Subset.trans hall hsub) hname

theorem readOff_of_mem_ofStatement {statement : Statement} (hs : statement.Written)
    (hx : x ∈ (ofStatement c carry statement).1) :
    ReadOff (ofStatement c carry statement).1 x := by
  have hfunction {annotations : List String} {tokens : List Token}
      (hx : x ∈ ((FunctionDecl.ofTokens? annotations tokens).map (ofFunction c)).getD []) :
      ∃ f, x ∈ ofFunction c f := by
    cases hf : FunctionDecl.ofTokens? annotations tokens with
    | none => simp [hf] at hx
    | some f => exact ⟨f, by simpa [hf] using hx⟩
  have hrecord {r : RecordDecl} (hr : RecordDecl.ofStatement? statement = some r)
      (hx : x ∈ ofRecordDecl c r) : ReadOff (ofRecordDecl c r) x := by
    have hnamed : r.name.isSome = true := by
      cases hname : r.name with
      | none => simp [ofRecordDecl, hname] at hx
      | some name => rfl
    rw [ofRecordDecl_eq hnamed] at hx ⊢
    obtain ⟨inner, hinner, hx⟩ := List.mem_flatMap.1 hx
    refine .record c inner hx ?_ fun name hname =>
      RecordDecl.name_ne_of_mem_listed hs hr hinner hname
    exact fun y hy => List.mem_flatMap.2 ⟨inner, hinner, hy⟩
  unfold ofStatement at hx
  simp only at hx
  split at hx
  · obtain ⟨d, -, rfl⟩ := List.mem_map.1 hx
    exact .macroDefinition d rfl
  · rename_i hdirective
    split at hx
    · split at hx
      · exact .typedef _ hx
      · simp at hx
    · rename_i hcarry
      split at hx
      · obtain ⟨f, hf⟩ := hfunction hx
        exact .function c f hf
      · obtain ⟨f, hf⟩ := hfunction hx
        exact .function c f hf
      · rename_i hkind
        split at hx
        · rename_i r hr
          refine (hrecord hr hx).mono fun y hy => ?_
          rw [hkind] at hdirective hcarry
          simpa only [ofStatement, hkind, if_neg hdirective, if_neg hcarry, hr] using hy
        · simp at hx
      · simp at hx

theorem readOff_of_mem_ofText (hx : x ∈ ofText c base text) : ReadOff (ofText c base text) x := by
  obtain ⟨c', carry', statement, hcome, hx⟩ := mem_ofStatements_iff.1 hx
  have hwritten := hcome.written fun s hs => Statement.written_of_mem_ofSource hs
  exact (readOff_of_mem_ofStatement hwritten hx).mono fun y hy =>
    mem_ofStatements_iff.2 ⟨c', carry', statement, hcome, hy⟩

/-- A definition of what its place is for, or a typedef that leads to another name. -/
def Proper : Sighting → Prop
  | .record d => (Place.record d.name).Admits d.details
  | .function d => (Place.function d.name).Admits d.details
  | .field owner d => (Place.field owner d.name).Admits d.details
  | .typedef name target => target ≠ name ∧ target ≠ ""
  | .macroDefinition _ => True
  | .remark _ => True

theorem Proper.admits (h : x.Proper) (hentry : x.entry? = some (p, d)) : p.Admits d.details := by
  cases x <;> simp only [Sighting.entry?, Option.some.injEq, Prod.mk.injEq, reduceCtorEq] at hentry
  all_goals
    obtain ⟨rfl, rfl⟩ := hentry
    exact h

theorem proper_of_mem_ofTypedef {v : Variable} (hx : x ∈ ofTypedef v) : x.Proper := by
  unfold ofTypedef at hx
  split at hx
  · simp at hx
  · rename_i hnamed
    obtain rfl := List.mem_singleton.1 hx
    simpa [Proper, and_comm] using hnamed

theorem proper_of_mem_ofFunction {f : FunctionDecl} (hx : x ∈ ofFunction c f) : x.Proper := by
  rcases List.mem_cons.1 hx with rfl | hx
  · exact trivial
  · obtain rfl := List.mem_singleton.1 hx
    exact rfl

theorem proper_of_mem_ofMember {owner : String} {v : Variable} (hx : x ∈ ofMember c owner v) :
    x.Proper := by
  rcases List.mem_cons.1 hx with rfl | hx
  · exact trivial
  · obtain rfl := List.mem_singleton.1 hx
    exact rfl

theorem proper_of_mem_ofRecord {r : Record} (hnamed : ∀ name, r.name = some name → name.text ≠ "")
    (hx : x ∈ ofRecord c r) : x.Proper := by
  unfold ofRecord at hx
  split at hx
  · simp at hx
  · rename_i name hname
    rcases List.mem_append.1 hx with hx | hx
    · rcases List.mem_append.1 hx with hx | hx
      · rcases List.mem_cons.1 hx with rfl | hx
        · exact trivial
        · obtain ⟨v, -, hx⟩ := List.mem_flatMap.1 hx
          exact proper_of_mem_ofMember hx
      · obtain ⟨v, hv, rfl⟩ := List.mem_map.1 hx
        have hother : v.name.text ≠ name.text := by simpa using (List.mem_filter.1 hv).2
        exact ⟨hother.symm, hnamed name hname⟩
    · obtain rfl := List.mem_singleton.1 hx
      exact ⟨by rw [Record.name?, hname]; rfl, rfl⟩

theorem proper_of_mem_ofText (hx : x ∈ ofText c base text) : x.Proper := by
  cases readOff_of_mem_ofText hx with
  | macroDefinition m hx => exact hx ▸ trivial
  | typedef v hx => exact proper_of_mem_ofTypedef hx
  | function c' f hx => exact proper_of_mem_ofFunction hx
  | record c' r hx hall hname => exact proper_of_mem_ofRecord hname hx

/-- A text with a sighting of a member has one of its record. -/
theorem exists_record_of_field {owner name : String} (hx : x ∈ ofText c base text)
    (hentry : x.entry? = some (.field owner name, d)) :
    ∃ y ∈ ofText c base text, ∃ e, y.entry? = some (.record owner, e) := by
  cases readOff_of_mem_ofText hx with
  | macroDefinition m hx => simp [hx, Sighting.entry?] at hentry
  | typedef v hx =>
    unfold ofTypedef at hx
    split at hx
    · simp at hx
    · obtain rfl := List.mem_singleton.1 hx
      simp [Sighting.entry?] at hentry
  | function c' f hx =>
    rcases List.mem_cons.1 hx with rfl | hx
    · simp [Sighting.entry?] at hentry
    · obtain rfl := List.mem_singleton.1 hx
      simp [Sighting.entry?] at hentry
  | record c' r hx hall hname =>
    obtain ⟨tag, htag, howner⟩ := entry_of_mem_ofRecord hx hentry
    obtain ⟨y, hy, e, hrecord, -⟩ := record_entry_mem_ofRecord (c := c') htag
    rcases howner with ⟨hplace, -⟩ | ⟨v, -, hplace, -⟩
    · cases hplace
    · obtain ⟨rfl, -⟩ := Place.field.inj hplace
      exact ⟨y, hall hy, e, hrecord⟩

end Sighting

/-- The report has no record of a kind mismatch. -/
def Report.KindsAgree (r : Report) : Prop := ∀ w ∈ r, w.categories.contains .kindMismatch = false

theorem Definition.kindsAgree_conflictReport {category : Category}
    (hother : category ≠ .kindMismatch) (what : String) (winner loser : Definition) (messages : List String) :
    (conflictReport category what winner loser messages).KindsAgree := by
  have hcategory : (Categories.only category).contains .kindMismatch = false := by
    cases category <;> first | exact absurd rfl hother | rfl
  intro w hw
  simp only [conflictReport, Report.conflict, List.mem_cons, List.mem_map] at hw
  rcases hw with rfl | rfl | ⟨message, -, rfl⟩ <;> exact hcategory

/-- Folding two definitions of a kind reports no mismatch of kinds. -/
theorem Definition.kindsAgree_of_mem_mergeReports {d e : Definition} (hkind : d.kind = e.kind)
    {r : Report} (hr : r ∈ d.mergeReports e) : r.KindsAgree := by
  have hranked : (d.ranked e).1.kind = (d.ranked e).2.kind := by
    unfold ranked
    split
    · exact hkind.symm
    · exact hkind
  simp only [mergeReports, hranked, beq_self_eq_true, if_true, List.nil_append, List.mem_append,
    List.mem_ite_nil_left, List.mem_singleton] at hr
  rcases hr with ⟨-, rfl⟩ | hr
  · exact kindsAgree_conflictReport (by decide) _ _ _ _
  · split at hr
    · simp at hr
    · obtain rfl := List.mem_singleton.1 hr
      exact kindsAgree_conflictReport (by decide) _ _ _ _

theorem Visibility.kindsAgree_of_mem_reports {c : ScanContext}
    {preComment postComment : Option Token} {name : String} {offset : Nat} {useNaming : Bool} {r : Report}
    (hr : r ∈ reports c preComment postComment name offset useNaming) : r.KindsAgree := by
  unfold reports at hr
  simp only at hr
  split at hr
  · split at hr
    · simp at hr
    · obtain rfl := List.mem_singleton.1 hr
      intro w hw
      obtain rfl := List.mem_singleton.1 hw
      rfl
  · simp at hr

namespace SourceScan

/-- What adds to a table of its own kinds: sightings whose definitions are of the kinds of their
places, and remarks that are not about kinds. -/
def AddsKinded (xs : List Sighting) : Prop :=
  ∀ x ∈ xs, (∀ p d, x.entry? = some (p, d) → d.kind = p.kind) ∧
    ∀ reports, x = .remark reports → ∀ r ∈ reports, r.KindsAgree

/-- A run of sightings of the right kinds reports no mismatch of kinds. -/
theorem kindsAgree_foldl_addTo {s : SourceScan} {xs : List Sighting} (hxs : AddsKinded xs)
    (hkinded : s.codebase.Kinded) (hreports : ∀ r ∈ s.reports, r.KindsAgree) :
    ∀ r ∈ (xs.foldl Sighting.addTo s).reports, r.KindsAgree := by
  induction xs generalizing s with
  | nil => exact hreports
  | cons x xs ih =>
    obtain ⟨hentry, hremark⟩ := hxs x List.mem_cons_self
    refine ih (fun y hy => hxs y (List.mem_cons_of_mem x hy)) ?_ ?_
    · rw [Codebase.addTo_codebase]
      exact hkinded.take (fun p d e hd he => Codebase.kind_merge_of_kind hd he) hentry
    · intro r hr
      rcases mem_reports_addTo hr with hr | ⟨reports, hx, hr⟩ | ⟨p, d, first, hx, hfirst, hr⟩
      · exact hreports r hr
      · exact hremark reports hx r hr
      · have hkind : first.kind = d.kind := (hkinded p first hfirst).trans (hentry p d hx).symm
        exact Definition.kindsAgree_of_mem_mergeReports hkind hr

theorem addsKinded_ofText (c : ScanContext) (base : Nat) (text : String) :
    AddsKinded (Sighting.ofText c base text) := by
  intro x hx
  obtain ⟨c', -, -, hform⟩ := Sighting.form_of_mem_ofText hx
  refine ⟨fun p d hentry => hform.kind hentry, ?_⟩
  rintro reports rfl r hr
  cases hform
  exact Visibility.kindsAgree_of_mem_reports hr

theorem addsKinded_contents {c : Codebase} (hkeyed : c.Keyed) (hkinded : c.Kinded) :
    AddsKinded c.contents := by
  intro x hx
  refine ⟨fun p d hentry => hkinded p d ((Codebase.mem_contents_iff hkeyed).1 ⟨x, hx, hentry⟩), ?_⟩
  rintro reports rfl
  simp [Codebase.contents] at hx

theorem merge_reports (s : SourceScan) (other : Codebase) :
    (s.merge other).reports = (other.contents.foldl Sighting.addTo s).reports := by
  simp only [Codebase.contents, List.foldl_append, List.foldl_map, List.foldl_flatMap]
  rfl

end SourceScan

/-- The first of the things that a view shows stays. -/
theorem combined_first_eq_findSome? {α β : Type} (view : α → Option β) (entries : List α) :
    combined (fun first _ => first) view entries = entries.findSome? view := by
  have : Std.Associative fun (first _ : β) => first := ⟨fun _ _ _ => rfl⟩
  induction entries with
  | nil => rfl
  | cons entry rest ih =>
    rw [combined, List.foldl_cons, Option.merge_none_left, foldl_merge_eq, ih, List.findSome?_cons]
    cases view entry <;> cases rest.findSome? view <;> rfl

namespace Codebase

/-- Every definition is kept under its name and declares that name, in a table for its kind. -/
structure WellFormed (c : Codebase) : Prop where
  types (name : String) (d : Definition) : c.types[name]? = some d → d.name = name ∧
    ∃ r, d.details = .record r ∧ r.name? = some name ∧ r.nested = []
  functions (name : String) (d : Definition) : c.functions[name]? = some d → d.name = name ∧
    ∃ f, d.details = .function f ∧ f.name.text = name
  fields (owner name : String) (fields : Definitions) (d : Definition) :
    c.fields[owner]? = some fields → fields[name]? = some d → d.name = name ∧
      ∃ v, d.details = .field v ∧ v.name.text = name
  /-- A record with fields has at least one, and is a record of the table. -/
  owners (owner : String) (fields : Definitions) :
    c.fields[owner]? = some fields → (∃ name, name ∈ fields) ∧ owner ∈ c.types
  /-- A typedef leads to another name, and to some name. -/
  typedefs (name target : String) : c.typedefs[name]? = some target → target ≠ name ∧ target ≠ ""

/-- Where only records have fields, following typedefs never stops at a name because it has
fields. -/
theorem untypedef_eq {c : Codebase} (h : ∀ owner : String, owner ∈ c.fields → owner ∈ c.types)
    (name : String) :
    c.untypedef name =
      ((typedefChain c.typedefs name).find? c.types.contains).getD
        ((typedefChain c.typedefs name).getLast?.getD name) := by
  simp only [untypedef]
  cases hrecord : (typedefChain c.typedefs name).find? c.types.contains with
  | some record => simp only [Option.some_or]
  | none =>
    have hfields : (typedefChain c.typedefs name).find? c.fields.contains = none := by
      rw [List.find?_eq_none] at hrecord ⊢
      intro other hother hfields
      exact hrecord other hother (Std.ExtTreeMap.mem_iff_contains.1
        (h other (Std.ExtTreeMap.mem_iff_contains.2 hfields)))
    simp only [hfields, Option.or_none]

end Codebase

namespace History

open Codebase

/-- All that was reported while the table came about, and while the tables merged into it did. -/
def reports : History → List Report
  | .empty => []
  | .read before r => before.reports ++ (SourceScan.readText r.context r.base
      (SourceScan.ofCodebase before.codebase) r.text).reports
  | .merge before other => before.reports ++ other.reports ++
      ((SourceScan.ofCodebase before.codebase).merge other.codebase).reports

theorem kindsAgree (h : History) : ∀ r ∈ h.reports, r.KindsAgree := by
  induction h with
  | empty => simp [reports]
  | read before r ih =>
    intro report hreport
    rcases List.mem_append.1 hreport with hreport | hreport
    · exact ih report hreport
    · rw [SourceScan.readText, SourceScan.readStatements_eq] at hreport
      exact SourceScan.kindsAgree_foldl_addTo (SourceScan.addsKinded_ofText _ _ _) before.kinded
        (by simp [SourceScan.ofCodebase]) report hreport
  | merge before other ih ihother =>
    intro report hreport
    rcases List.mem_append.1 hreport with hreport | hreport
    · rcases List.mem_append.1 hreport with hreport | hreport
      · exact ih report hreport
      · exact ihother report hreport
    · rw [SourceScan.merge_reports] at hreport
      exact SourceScan.kindsAgree_foldl_addTo
        (SourceScan.addsKinded_contents other.keyed other.kinded) before.kinded
        (by simp [SourceScan.ofCodebase]) report hreport

/-- A table has a definition for the places that were sighted. -/
theorem isSome_definition?_iff (h : History) (p : Place) :
    (h.codebase.definition? p).isSome = true ↔
      ∃ x ∈ h.sightings, ∃ d, x.entry? = some (p, d) := by
  have hany : (Sighting.gatheredAt p h.sightings).any (fun _ => true) =
      h.sightings.any fun x => ((x.definitionAt? p).map Definition.gathered).any fun _ => true :=
    any_combined (fun _ _ => rfl) _
  rw [← gathered_eq] at hany
  have hsome : (h.codebase.definition? p).isSome =
      h.sightings.any fun x => (x.definitionAt? p).isSome := by
    simpa [Option.any_map] using hany
  rw [hsome, List.any_eq_true]
  simp only [Option.isSome_iff_exists, Sighting.definitionAt?_eq_some_iff]

theorem admits (h : History) : h.codebase.Everywhere fun p d => p.Admits d.details := by
  refine h.everywhere (fun p d e hd he => hd.merge he) ?_
  intro x hx p d hentry
  obtain ⟨r, -, hx⟩ := List.mem_flatMap.1 hx
  exact (Sighting.proper_of_mem_ofText hx).admits hentry

theorem owner_mem_types (h : History) {owner name : String}
    (hfield : (h.codebase.definition? (.field owner name)).isSome = true) :
    owner ∈ h.codebase.types := by
  obtain ⟨x, hx, d, hentry⟩ := (h.isSome_definition?_iff _).1 hfield
  obtain ⟨r, hr, hx⟩ := List.mem_flatMap.1 hx
  obtain ⟨y, hy, e, hrecord⟩ := Sighting.exists_record_of_field hx hentry
  have hsighted : y ∈ h.sightings := List.mem_flatMap.2 ⟨r, hr, hy⟩
  have hsome : (h.codebase.definition? (.record owner)).isSome = true :=
    (h.isSome_definition?_iff _).2 ⟨y, hsighted, e, hrecord⟩
  exact Std.ExtTreeMap.mem_iff_isSome_getElem?.2 hsome

theorem typedef_leads (h : History) {name target : String}
    (htarget : h.codebase.typedefs[name]? = some target) : target ≠ name ∧ target ≠ "" := by
  rw [typedefs_eq, combined_first_eq_findSome?] at htarget
  obtain ⟨x, hx, hshown⟩ := List.exists_of_findSome?_eq_some htarget
  obtain ⟨r, -, hx⟩ := List.mem_flatMap.1 hx
  have hproper := Sighting.proper_of_mem_ofText hx
  cases x with
  | typedef other leadsTo =>
    simp only [Sighting.targetOf?, Option.ite_none_right_eq_some, Option.some.injEq] at hshown
    obtain ⟨rfl, rfl⟩ := hshown
    exact hproper
  | _ => simp [Sighting.targetOf?] at hshown

/-- The tables that come about are well-formed. Hence no mismatch of kinds is ever reported, and a
name stands for the first record behind it, or else for the end of its chain of typedefs. -/
theorem wellFormed (h : History) :
    h.codebase.WellFormed ∧ (∀ r ∈ h.reports, r.KindsAgree) ∧
      ∀ name, h.codebase.untypedef name =
        ((typedefChain h.codebase.typedefs name).find? h.codebase.types.contains).getD
          ((typedefChain h.codebase.typedefs name).getLast?.getD name) := by
  have howner (owner : String) (hmem : owner ∈ h.codebase.fields) : owner ∈ h.codebase.types := by
    obtain ⟨name, hfield⟩ := (h.fieldsListed owner).1 hmem
    exact h.owner_mem_types hfield
  have hfield {owner : String} {fields : Definitions}
      (hfields : h.codebase.fields[owner]? = some fields) (name : String) :
      h.codebase.definition? (.field owner name) = fields[name]? := by
    rw [definition?, field?, hfields, Option.bind_some]
  refine ⟨{ types := ?_, functions := ?_, fields := ?_, owners := ?_, typedefs := ?_ },
    h.kindsAgree, untypedef_eq howner⟩
  · intro name d hd
    exact ⟨h.keyed (.record name) d hd, Place.admits_record_iff.1 (h.admits (.record name) d hd)⟩
  · intro name d hd
    exact ⟨h.keyed (.function name) d hd,
      Place.admits_function_iff.1 (h.admits (.function name) d hd)⟩
  · intro owner name fields d hfields hd
    rw [← hfield hfields] at hd
    exact ⟨h.keyed (.field owner name) d hd,
      Place.admits_field_iff.1 (h.admits (.field owner name) d hd)⟩
  · intro owner fields hfields
    have hmem : owner ∈ h.codebase.fields :=
      Std.ExtTreeMap.mem_iff_isSome_getElem?.2 (by rw [hfields]; rfl)
    refine ⟨?_, howner owner hmem⟩
    obtain ⟨name, hsome⟩ := (h.fieldsListed owner).1 hmem
    refine ⟨name, Std.ExtTreeMap.mem_iff_isSome_getElem?.2 ?_⟩
    rw [← hfield hfields]
    exact hsome
  · exact fun name target => h.typedef_leads

end History

end CBoundary
