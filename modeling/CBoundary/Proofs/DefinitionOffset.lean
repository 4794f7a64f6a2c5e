import CBoundary.Proofs.History
import CBoundary.Proofs.NamePlacement

/-!
Every definition of a symbol table points at its name: its offset is where the name stands in
the text of its file. A sighting takes name and offset from one token of the text it is read
from, however deep in it, and folding two definitions of a name keeps those of one of them.
Main statement: `name_at_offset`.
-/
namespace CBoundary

open TextPosition TextSlice

namespace Definition

/-- The definition takes its name and its offset from a token of a text that starts at byte
`base` of the given file. -/
def TakenFrom (file : FileInfo) (base : Nat) (text : List Char) (d : Definition) : Prop :=
  d.scope.file = file ∧
    ∃ t : Token, t.StandsIn base text ∧ d.name = t.text ∧ d.offset = t.span.start

variable {file : FileInfo} {base : Nat} {text : List Char} {d e : Definition}

/-- Folding two definitions keeps name, scope and offset of one of them. -/
theorem placement_merge (d e : Definition) :
    ∃ winner, (winner = d ∨ winner = e) ∧ (d.merge e).name = winner.name ∧
      (d.merge e).scope = winner.scope ∧ (d.merge e).offset = winner.offset := by
  refine ⟨(ranked d e).1, ?_, rfl, rfl, rfl⟩
  unfold ranked
  by_cases hlt : d.priority < e.priority
  · exact Or.inr (by rw [if_pos hlt])
  · exact Or.inl (by rw [if_neg hlt])

/-- At the offset of a definition stands its name. -/
theorem TakenFrom.slice (h : d.TakenFrom file base text) :
    base ≤ d.offset ∧ slice? text (d.offset - base) (d.offset - base + byteLength d.name.toList) =
      some d.name.toList := by
  obtain ⟨-, t, hstands, hname, hoffset⟩ := h
  obtain ⟨hbase, hat⟩ := hstands.standsAt
  rw [hname, hoffset]
  exact ⟨hbase, slice?_eq_some_iff.2 hat⟩

end Definition

namespace Sighting

open SourceScan

/-- A definition that is sighted takes its name and its offset from the text. -/
def Stands (file : FileInfo) (base : Nat) (text : List Char) (x : Sighting) : Prop :=
  ∀ p d, x.entry? = some (p, d) → d.TakenFrom file base text

variable {c : ScanContext} {base : Nat} {text : List Char} {x : Sighting}

theorem stands_of_entry?_eq_none {file : FileInfo} (h : x.entry? = none) :
    x.Stands file base text := by
  intro p d hentry
  rw [h] at hentry
  simp at hentry

theorem ofFunction_stands {f : FunctionDecl} (hname : f.name.StandsIn base text)
    (hx : x ∈ ofFunction c f) : x.Stands c.scope.file base text := by
  rcases List.mem_cons.1 hx with rfl | hx
  · exact stands_of_entry?_eq_none rfl
  · obtain rfl := List.mem_singleton.1 hx
    intro p d hentry
    obtain ⟨-, rfl⟩ := Prod.mk.inj (Option.some.inj hentry)
    exact ⟨rfl, f.name, hname, rfl, rfl⟩

theorem ofMember_stands {owner : String} {v : Variable} (hname : v.name.StandsIn base text)
    (hx : x ∈ ofMember c owner v) : x.Stands c.scope.file base text := by
  rcases List.mem_cons.1 hx with rfl | hx
  · exact stands_of_entry?_eq_none rfl
  · obtain rfl := List.mem_singleton.1 hx
    intro p d hentry
    obtain ⟨-, rfl⟩ := Prod.mk.inj (Option.some.inj hentry)
    exact ⟨rfl, v.name, hname, rfl, rfl⟩

theorem ofRecord_stands {r : Record} (hr : r.Stands base text) (hx : x ∈ ofRecord c r) :
    x.Stands c.scope.file base text := by
  unfold ofRecord at hx
  split at hx
  · simp at hx
  · rename_i name hname
    rcases List.mem_append.1 hx with hx | hx
    · rcases List.mem_append.1 hx with hx | hx
      · rcases List.mem_cons.1 hx with rfl | hx
        · exact stands_of_entry?_eq_none rfl
        · obtain ⟨v, hv, hx⟩ := List.mem_flatMap.1 hx
          exact ofMember_stands (hr.members v hv) hx
      · obtain ⟨v, -, rfl⟩ := List.mem_map.1 hx
        exact stands_of_entry?_eq_none rfl
    · obtain rfl := List.mem_singleton.1 hx
      intro p d hentry
      obtain ⟨-, rfl⟩ := Prod.mk.inj (Option.some.inj hentry)
      exact ⟨rfl, name, hr.name name hname, rfl, rfl⟩

theorem ofRecordDecl_stands {r : RecordDecl} (hr : r.Stands base text)
    (hx : x ∈ ofRecordDecl c r) : x.Stands c.scope.file base text := by
  unfold ofRecordDecl at hx
  split at hx
  · simp at hx
  · rcases List.mem_append.1 hx with hx | hx
    · exact ofRecord_stands hr.record hx
    · obtain ⟨inner, hinner, hx⟩ := List.mem_flatMap.1 hx
      exact ofRecord_stands (hr.nested inner hinner) hx

theorem ofTypedef_stands {file : FileInfo} {v : Variable} (hx : x ∈ ofTypedef v) :
    x.Stands file base text := by
  unfold ofTypedef at hx
  split at hx
  · simp at hx
  · obtain rfl := List.mem_singleton.1 hx
    exact stands_of_entry?_eq_none rfl

theorem ofDeclaration_stands {annotations : List String} {tokens : List Token}
    (ht : ∀ t ∈ tokens, t.ReadFrom base text)
    (hx : x ∈ ((FunctionDecl.ofTokens? annotations tokens).map (ofFunction c)).getD []) :
    x.Stands c.scope.file base text := by
  cases hf : FunctionDecl.ofTokens? annotations tokens with
  | none => simp [hf] at hx
  | some f =>
    rw [hf, Option.map_some, Option.getD_some] at hx
    exact ofFunction_stands (FunctionDecl.ofTokens?_name ht hf) hx

theorem linkageBody?_eq_some {carry : TypeCarry} {statement : Statement} {body : Token}
    (h : linkageBody? carry statement = some body) :
    ∃ group ∈ statement.tokens, group.interior? = some body := by
  unfold linkageBody? at h
  split at h
  · obtain ⟨group, hgroup, hbody⟩ := Option.bind_eq_some_iff.1 h
    exact ⟨group, List.mem_of_find?_eq_some hgroup, hbody⟩
  · simp at h

theorem ofStatement_stands {carry : TypeCarry} {statement : Statement}
    (ht : ∀ t ∈ statement.tokens, t.ReadFrom base text)
    (hx : x ∈ (ofStatement c carry statement).1) : x.Stands c.scope.file base text := by
  unfold ofStatement at hx
  simp only at hx
  split at hx
  · obtain ⟨d, -, rfl⟩ := List.mem_map.1 hx
    exact stands_of_entry?_eq_none rfl
  · split at hx
    · split at hx
      · exact ofTypedef_stands hx
      · simp at hx
    · split at hx
      · exact ofDeclaration_stands ht hx
      · exact ofDeclaration_stands ht hx
      · split at hx
        · rename_i r hr
          exact ofRecordDecl_stands (RecordDecl.ofTokens?_stands ht hr) hx
        · simp at hx
      · simp at hx

/-- What is read inside a linkage specification stands in the text around it. -/
theorem ofStatements_stands {carry : TypeCarry} {statements : List Statement}
    (ht : ∀ s ∈ statements, ∀ t ∈ s.tokens, t.ReadFrom base text)
    (hx : x ∈ ofStatements c carry statements) : x.Stands c.scope.file base text := by
  fun_induction ofStatements c carry statements with
  | case1 => simp at hx
  | case2 c carry statement rest body hbody ihinside ihrest =>
    have hstatement := ht statement List.mem_cons_self
    rcases List.mem_append.1 hx with hx | hx
    · refine ihinside ?_ hx
      obtain ⟨group, hgroup, hinterior⟩ := linkageBody?_eq_some hbody
      intro s hs t hmem
      exact Statement.readFrom_of_mem_within ((hstatement group hgroup).interior hinterior) hs hmem
    · exact ihrest (fun s hs => ht s (List.mem_cons_of_mem statement hs)) hx
  | case3 c carry statement rest hbody ihrest =>
    rcases List.mem_append.1 hx with hx | hx
    · exact ofStatement_stands (ht statement List.mem_cons_self) hx
    · exact ihrest (fun s hs => ht s (List.mem_cons_of_mem statement hs)) hx

theorem ofText_stands {source : String} (hx : x ∈ ofText c base source) :
    x.Stands c.scope.file base source.toList :=
  ofStatements_stands (fun _ hs _ ht => Statement.readFrom_of_mem_ofSource hs ht) hx

end Sighting

namespace Reading

/-- The definition has its name at its offset in the text that was read, and belongs to the file
of the text. -/
def Names (r : Reading) (d : Definition) : Prop :=
  d.scope.file = r.context.scope.file ∧ r.base ≤ d.offset ∧
    slice? r.text.toList (d.offset - r.base) (d.offset - r.base + byteLength d.name.toList) =
      some d.name.toList

theorem names_of_mem_sightings {r : Reading} {x : Sighting} (hx : x ∈ r.sightings) {p : Place}
    {d : Definition} (hentry : x.entry? = some (p, d)) : r.Names d := by
  have htaken := Sighting.ofText_stands hx p d hentry
  exact ⟨htaken.1, htaken.slice⟩

theorem Names.congr {r : Reading} {d e : Definition} (h : r.Names d) (hname : e.name = d.name)
    (hscope : e.scope = d.scope) (hoffset : e.offset = d.offset) : r.Names e := by
  rw [Names, hname, hscope, hoffset]
  exact h

end Reading

namespace History

/-- Every text that was read is the whole text of the file at its path. -/
def OfFiles (h : History) (contents : String → String) : Prop :=
  ∀ r ∈ h.readings, r.base = 0 ∧ r.text = contents r.context.scope.file.path

/-- Every record, function and field of a table has its name at its offset, in one of the texts
that were read; if these are the texts of whole files, then in the text of its file. -/
theorem name_at_offset (h : History) :
    h.codebase.Everywhere fun _ d =>
      (∃ r ∈ h.readings, r.Names d) ∧
        ∀ contents, h.OfFiles contents →
          slice? (contents d.scope.file.path).toList d.offset
            (d.offset + byteLength d.name.toList) = some d.name.toList := by
  have hnames : h.codebase.Everywhere fun _ d => ∃ r ∈ h.readings, r.Names d := by
    refine h.everywhere ?_ ?_
    · rintro - d e ⟨r, hr, hd⟩ ⟨s, hs, he⟩
      obtain ⟨winner, rfl | rfl, hname, hscope, hoffset⟩ := Definition.placement_merge d e
      · exact ⟨r, hr, hd.congr hname hscope hoffset⟩
      · exact ⟨s, hs, he.congr hname hscope hoffset⟩
    · intro x hx p d hentry
      obtain ⟨r, hr, hx⟩ := List.mem_flatMap.1 hx
      exact ⟨r, hr, Reading.names_of_mem_sightings hx hentry⟩
  intro p d hd
  obtain ⟨r, hr, hfile, hbase, hslice⟩ := hnames p d hd
  refine ⟨⟨r, hr, hfile, hbase, hslice⟩, ?_⟩
  intro contents hcontents
  obtain ⟨hzero, htext⟩ := hcontents r hr
  rw [hzero, htext, ← hfile] at hslice
  exact hslice

end History

end CBoundary
