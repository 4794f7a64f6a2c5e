import CBoundary.Proofs.SightingOrigin
import CBoundary.Proofs.StatementFront
import CBoundary.Proofs.TableMerge
import CBoundary.Proofs.TokenPlacement

/-!
Which macros a text registers. A directive stands at the end of its statement, behind trivia only,
and the statement is looked at for a definition through at most one comment. So a definition is
registered if at most one comment stands in front of it in its statement, whatever blanks, newlines
and line continuations do, and nothing else is registered. Main statements:
`ofStatement?_eq_ofDirective?` and `macroNames_eq_definedNames`.
-/
namespace CBoundary

open AdjacentComment Statement

namespace MacroDefinition

variable {lead : List Token} {d : Token}

/-- The first token that is no space among trivia and a directive is a comment or the directive. -/
theorem find?_not_isSpace (hlead : ∀ t ∈ lead, t.kind.isTrivia = true)
    (hkind : d.kind = .directive) :
    (lead ++ [d]).find? (fun t => !t.kind.isSpace) = some ((front (lead ++ [d])).head?.getD d) := by
  have hd : d.kind.isTrivia = false := by rw [hkind]; rfl
  induction lead with
  | nil => simp [front_cons_other [] hd, hkind, TokenKind.isSpace]
  | cons t lead ih =>
    have hlead' : ∀ u ∈ lead, u.kind.isTrivia = true := fun u hu =>
      hlead u (List.mem_cons_of_mem t hu)
    rw [List.cons_append]
    rcases TokenKind.isTrivia_iff.1 (hlead t List.mem_cons_self) with hspace | hcomment
    · rw [front_cons_space _ hspace, ← ih hlead', List.find?_cons_of_neg (by simp [hspace])]
    · rw [front_cons_comment _ hcomment, List.find?_cons_of_pos
        (by simp [TokenKind.isSpace_of_isComment hcomment]), List.head?_cons, Option.getD_some]

/-- Behind the comment in front of a directive, the second comment hides the directive. -/
theorem find?_behind_leading (hlead : ∀ t ∈ lead, t.kind.isTrivia = true)
    (hkind : d.kind = .directive) :
    ((lead ++ [d]).drop (leading (lead ++ [d])).2).find? (fun t => !t.kind.isSpace) =
      some ((front (lead ++ [d])).tail.head?.getD d) := by
  have hd : d.kind.isTrivia = false := by rw [hkind]; rfl
  induction lead with
  | nil =>
    rw [List.nil_append, leading_cons_other [] hd, front_cons_other [] hd]
    simp [hkind, TokenKind.isSpace]
  | cons t lead ih =>
    have hlead' : ∀ u ∈ lead, u.kind.isTrivia = true := fun u hu =>
      hlead u (List.mem_cons_of_mem t hu)
    rw [List.cons_append]
    rcases TokenKind.isTrivia_iff.1 (hlead t List.mem_cons_self) with hspace | hcomment
    · rw [leading_cons_space _ hspace, front_cons_space _ hspace, List.drop_succ_cons, ih hlead']
    · rw [leading_cons_comment _ hcomment, front_cons_comment _ hcomment, List.drop_one,
        List.tail_cons, List.tail_cons, find?_not_isSpace hlead' hkind]

theorem ofStatement?_eq (s : Statement) :
    ofStatement? s =
      (((s.tokens.drop (leading s.tokens).2).find? fun t => !t.kind.isSpace).filter
        (·.kind == .directive)).bind fun directive =>
          (ofDirective? directive).map fun m =>
            { m with preComment := (front s.tokens).head? } := by
  rw [← leading_fst]
  unfold ofStatement?
  simp only [Option.bind_eq_bind, Option.pure_def]
  congr 1
  funext directive
  exact (Option.map_eq_bind).symm

/-- A statement that ends in a directive defines what the directive does, if at most one comment
stands in front of it, and else nothing. -/
theorem ofStatement?_eq_ofDirective? {s : Statement} (hcut : Cut s.tokens) (hd : d ∈ s.tokens)
    (hkind : d.kind = .directive) :
    ofStatement? s =
      if (front s.tokens).length ≤ 1 then
        (ofDirective? d).map fun m => { m with preComment := (front s.tokens).head? }
      else none := by
  obtain ⟨lead, htokens, hlead⟩ := hcut.eq_concat_directive hd hkind
  have hfilter : (some d).filter (fun t => t.kind == .directive) = some d := by
    simp [Option.filter_some, hkind]
  rw [ofStatement?_eq, htokens, find?_behind_leading hlead hkind]
  match hfront : front (lead ++ [d]) with
  | [] => simp [hfilter]
  | [_] => simp [hfilter]
  | first :: second :: rest =>
    have hsecond : second.kind.isComment = true :=
      mem_front (by rw [hfront]; simp)
    have hne : second.kind ≠ .directive := by
      intro h
      simp [h, TokenKind.isComment] at hsecond
    simp [hne]

theorem exists_directive_of_ofStatement? {s : Statement} {m : MacroDefinition}
    (h : ofStatement? s = some m) : ∃ d ∈ s.tokens, d.kind = .directive := by
  simp only [ofStatement?, Option.bind_eq_bind, Option.bind_eq_some_iff,
    Option.filter_eq_some_iff] at h
  obtain ⟨d, ⟨hfound, hkind⟩, -⟩ := h
  exact ⟨d, List.mem_of_mem_drop (List.mem_of_find?_eq_some hfound), by simpa using hkind⟩

/-- A directive among the tokens defines the name. -/
def Defines (tokens : List Token) (name : String) : Prop :=
  ∃ d ∈ tokens, d.kind = .directive ∧ ∃ m, ofDirective? d = some m ∧ m.name.text = name

instance (tokens : List Token) (name : String) : Decidable (Defines tokens name) :=
  decidable_of_iff
    (∃ d ∈ tokens, d.kind = .directive ∧ (ofDirective? d).any (·.name.text = name) = true)
    (by simp [Defines, Option.any_eq_true])

/-- A statement registers the names that its directive defines, if at most one comment stands in
front of it. -/
theorem ofStatement?_name_iff {s : Statement} (hcut : Cut s.tokens) (name : String) :
    (∃ m, ofStatement? s = some m ∧ m.name.text = name) ↔
      (front s.tokens).length ≤ 1 ∧ Defines s.tokens name := by
  constructor
  · rintro ⟨m, hm, rfl⟩
    obtain ⟨d, hd, hkind⟩ := exists_directive_of_ofStatement? hm
    rw [ofStatement?_eq_ofDirective? hcut hd hkind] at hm
    split at hm
    · rename_i hfront
      obtain ⟨found, hfound, rfl⟩ := Option.map_eq_some_iff.1 hm
      exact ⟨hfront, d, hd, hkind, found, hfound, rfl⟩
    · simp at hm
  · rintro ⟨hfront, d, hd, hkind, m, hm, rfl⟩
    refine ⟨{ m with preComment := (front s.tokens).head? }, ?_, rfl⟩
    rw [ofStatement?_eq_ofDirective? hcut hd hkind, if_pos hfront, hm, Option.map_some]

end MacroDefinition

namespace Sighting

open MacroDefinition

variable {c : ScanContext}

theorem macroDefinition_not_mem_ofRecord (r : Record) (m : MacroDefinition) :
    .macroDefinition m ∉ ofRecord c r := by
  unfold ofRecord
  cases r.name <;> simp [ofMember]

theorem macroDefinition_not_mem_ofRecordDecl (r : RecordDecl) (m : MacroDefinition) :
    .macroDefinition m ∉ ofRecordDecl c r := by
  unfold ofRecordDecl
  split
  · exact List.not_mem_nil
  · simp [macroDefinition_not_mem_ofRecord]

/-- Only a directive makes a sighting of a macro. -/
theorem macroDefinition_mem_ofStatement_iff {carry : TypeCarry} {s : Statement}
    {m : MacroDefinition} :
    .macroDefinition m ∈ (ofStatement c carry s).1 ↔
      s.kind = .directive ∧ ofStatement? s = some m := by
  by_cases hkind : s.kind = .directive
  · simp [ofStatement, hkind]
  · refine iff_of_false ?_ (fun h => hkind h.1)
    unfold ofStatement
    simp only [if_neg hkind]
    split
    · split
      · unfold ofTypedef
        split <;> simp
      · simp
    · split
      · cases FunctionDecl.ofTokens? c.config.annotations s.tokens <;> simp [ofFunction]
      · cases FunctionDecl.ofTokens? c.config.annotations s.tokens <;> simp [ofFunction]
      · cases RecordDecl.ofStatement? s <;> simp [macroDefinition_not_mem_ofRecordDecl]
      · simp

theorem macroDefinition_mem_ofText_iff {base : Nat} {text : String} {m : MacroDefinition} :
    .macroDefinition m ∈ ofText c base text ↔
      ∃ s, Reaches c base text s ∧ s.kind = .directive ∧ ofStatement? s = some m := by
  unfold ofText Reaches
  rw [mem_ofStatements_iff]
  simp only [macroDefinition_mem_ofStatement_iff]
  constructor
  · rintro ⟨c', carry', s, h, hs⟩
    exact ⟨s, ⟨c', carry', h⟩, hs⟩
  · rintro ⟨s, ⟨c', carry', h⟩, hs⟩
    exact ⟨c', carry', s, h, hs⟩

end Sighting

namespace MacroTable

open MacroDefinition

theorem mem_names_insertStatement {m : MacroTable} {s : Statement} {name : String} :
    name ∈ (m.insertStatement s).names ↔
      name ∈ m.names ∨ ∃ d, ofStatement? s = some d ∧ d.name.text = name := by
  unfold insertStatement
  cases ofStatement? s with
  | none => simp
  | some d =>
    by_cases hname : d.name.text = name
    · simp [mem_names, get?_insert, hname]
    · simp [mem_names, get?_insert, hname]

theorem mem_names_foldl_insertStatement {m : MacroTable} {statements : List Statement}
    {name : String} :
    name ∈ (statements.foldl insertStatement m).names ↔
      name ∈ m.names ∨ ∃ s ∈ statements, ∃ d, ofStatement? s = some d ∧ d.name.text = name := by
  induction statements generalizing m with
  | nil => simp
  | cons s rest ih =>
    rw [List.foldl_cons, ih, mem_names_insertStatement, or_assoc]
    simp only [List.mem_cons, or_and_right, exists_or, exists_eq_left]

end MacroTable

namespace Codebase

theorem mem_macroNames_take {c : Codebase} {x : Sighting} {name : String} :
    name ∈ (c.take x).macros.names ↔
      name ∈ c.macros.names ∨ ∃ d, x = .macroDefinition d ∧ d.name.text = name := by
  rw [MacroTable.mem_names, macros_take, MacroTable.mem_names]
  cases x with
  | macroDefinition d =>
    by_cases hname : d.name.text = name
    · cases c.macros.get? name <;> simp [Sighting.macroOf?, hname]
    · cases c.macros.get? name <;> simp [Sighting.macroOf?, hname]
  | _ => simp [Sighting.macroOf?]

theorem mem_macroNames_foldl_take {c : Codebase} {xs : List Sighting} {name : String} :
    name ∈ (xs.foldl take c).macros.names ↔
      name ∈ c.macros.names ∨ ∃ d, .macroDefinition d ∈ xs ∧ d.name.text = name := by
  induction xs generalizing c with
  | nil => simp
  | cons x xs ih =>
    rw [List.foldl_cons, ih, mem_macroNames_take, or_assoc]
    simp only [List.mem_cons, or_and_right, exists_or, eq_comm]

end Codebase

namespace Sighting

open MacroDefinition

variable {base : Nat} {text : String}

theorem defines_ofSource_iff {name : String} :
    Defines (TokenStream.ofSource base text) name ↔
      ∃ s ∈ Statement.ofSource base text, Defines s.tokens name := by
  constructor
  · rintro ⟨d, hd, hdefines⟩
    obtain ⟨s, hs, hmem⟩ := exists_mem_ofTokens hd
    exact ⟨s, hs, d, hmem, hdefines⟩
  · rintro ⟨s, hs, d, hd, hdefines⟩
    exact ⟨d, mem_of_mem_ofTokens hs hd, hdefines⟩

/-- Statements by themselves register the names that their directives define. -/
theorem mem_names_insertStatements_iff {table : MacroTable} {name : String} :
    name ∈ ((Statement.ofSource base text).foldl MacroTable.insertStatement table).names ↔
      name ∈ table.names ∨ ∃ s ∈ Statement.ofSource base text,
        (front s.tokens).length ≤ 1 ∧ Defines s.tokens name := by
  rw [MacroTable.mem_names_foldl_insertStatement]
  refine or_congr Iff.rfl (exists_congr fun s => and_congr_right fun hs => ?_)
  exact ofStatement?_name_iff (cut_of_mem_ofTokens hs) name

/-- A text registers the names that its directives define, those inside linkage specifications
included. -/
theorem mem_macroNames_readText_iff {c : ScanContext} {scan : SourceScan} {name : String} :
    name ∈ (SourceScan.readText c base scan text).codebase.macros.names ↔
      name ∈ scan.codebase.macros.names ∨ ∃ s, Reaches c base text s ∧
        (front s.tokens).length ≤ 1 ∧ Defines s.tokens name := by
  rw [Codebase.readText_codebase, Codebase.mem_macroNames_foldl_take]
  refine or_congr Iff.rfl ?_
  simp only [macroDefinition_mem_ofText_iff]
  constructor
  · rintro ⟨m, ⟨s, hs, -, hm⟩, hname⟩
    exact ⟨s, hs, (ofStatement?_name_iff hs.cut name).1 ⟨m, hm, hname⟩⟩
  · rintro ⟨s, hs, hdefines⟩
    obtain ⟨m, hm, hname⟩ := (ofStatement?_name_iff hs.cut name).2 hdefines
    obtain ⟨d, hd, hkind⟩ := exists_directive_of_ofStatement? hm
    exact ⟨m, ⟨s, hs, hs.cut.kind_eq_directive hd hkind, hm⟩, hname⟩

/-- A definition that has at most one comment in front of it in its statement is not dropped,
whatever else stands in front of it: its statement gives the definition that its directive gives,
with that comment. The names that a text registers are those of such definitions, and where no
directive has more comments in front of it, those of all definitions in the text. -/
theorem macroNames_eq_definedNames (c : ScanContext) (base : Nat) (text : String) :
    (∀ d ∈ TokenStream.ofSource base text, d.kind = .directive →
      (∃ s ∈ Statement.ofSource base text, d ∈ s.tokens ∧ Reaches c base text s) ∧
      ∀ s ∈ Statement.ofSource base text, d ∈ s.tokens → (front s.tokens).length ≤ 1 →
        ∀ m, ofDirective? d = some m →
          ofStatement? s = some { m with preComment := (front s.tokens).head? }) ∧
    (∀ (table : MacroTable) (name : String),
      name ∈ ((Statement.ofSource base text).foldl MacroTable.insertStatement table).names ↔
        name ∈ table.names ∨ ∃ s ∈ Statement.ofSource base text,
          (front s.tokens).length ≤ 1 ∧ Defines s.tokens name) ∧
    (∀ (scan : SourceScan) (name : String),
      name ∈ (SourceScan.readText c base scan text).codebase.macros.names ↔
        name ∈ scan.codebase.macros.names ∨ ∃ s, Reaches c base text s ∧
          (front s.tokens).length ≤ 1 ∧ Defines s.tokens name) ∧
    ((∀ s ∈ Statement.ofSource base text, s.kind = .directive → (front s.tokens).length ≤ 1) →
      ∀ (table : MacroTable) (name : String),
        name ∈ ((Statement.ofSource base text).foldl MacroTable.insertStatement table).names ↔
          name ∈ table.names ∨ Defines (TokenStream.ofSource base text) name) := by
  refine ⟨?_, fun _ _ => mem_names_insertStatements_iff, fun _ _ => mem_macroNames_readText_iff, ?_⟩
  · intro d hd hkind
    refine ⟨?_, ?_⟩
    · obtain ⟨s, hs, hmem⟩ := exists_mem_ofTokens hd
      have hdirective := (cut_of_mem_ofTokens hs).kind_eq_directive hmem hkind
      exact ⟨s, hs, hmem, Reaches.of_mem hs (by simp [hdirective])⟩
    intro s hs hmem hfront m hm
    rw [ofStatement?_eq_ofDirective? (cut_of_mem_ofTokens hs) hmem hkind, if_pos hfront, hm,
      Option.map_some]
  · intro hfront table name
    rw [mem_names_insertStatements_iff, defines_ofSource_iff]
    refine or_congr Iff.rfl (exists_congr fun s => and_congr_right fun hs => ?_)
    constructor
    · exact fun h => h.2
    · rintro ⟨d, hd, hkind, hdefines⟩
      exact ⟨hfront s hs ((cut_of_mem_ofTokens hs).kind_eq_directive hd hkind), d, hd, hkind,
        hdefines⟩

/-- A definition behind the comment of a declaration, blank lines, a comment of its own and a line
continuation. -/
theorem macroNames_behind_one_comment :
    (∀ s ∈ Statement.ofSource 0 "int n; // left\n\n/* most */ \\\n\n#define MOST(x) x\n",
      s.kind = .directive → (front s.tokens).length ≤ 1) ∧
    Defines (TokenStream.ofSource 0 "int n; // left\n\n/* most */ \\\n\n#define MOST(x) x\n")
      "MOST" ∧
    (∃ s ∈ Statement.ofSource 0 "int n; // left\n\n/* most */ \\\n\n#define MOST(x) x\n",
      ∃ d ∈ s.tokens, (front s.tokens).length = 1 ∧ ∃ m, ofDirective? d = some m ∧
        ofStatement? s = some { m with preComment := (front s.tokens).head? }) ∧
    "MOST" ∈ ((Statement.ofSource 0
      "int n; // left\n\n/* most */ \\\n\n#define MOST(x) x\n").foldl
        MacroTable.insertStatement MacroTable.empty).names := by
  have hkept := macroNames_eq_definedNames default 0
    "int n; // left\n\n/* most */ \\\n\n#define MOST(x) x\n"
  have hfront : ∀ s ∈ Statement.ofSource 0
      "int n; // left\n\n/* most */ \\\n\n#define MOST(x) x\n",
      s.kind = .directive → (front s.tokens).length = 1 := by decide +kernel
  have hdefines : Defines (TokenStream.ofSource 0
      "int n; // left\n\n/* most */ \\\n\n#define MOST(x) x\n") "MOST" := by decide +kernel
  refine ⟨fun s hs h => Nat.le_of_eq (hfront s hs h), hdefines, ?_, ?_⟩
  · obtain ⟨d, hd, hkind, m, hm, -⟩ := hdefines
    obtain ⟨⟨s, hs, hmem, -⟩, hyields⟩ := hkept.1 d hd hkind
    have hlength := hfront s hs ((cut_of_mem_ofTokens hs).kind_eq_directive hmem hkind)
    exact ⟨s, hs, d, hmem, hlength, m, hm, hyields s hs hmem (Nat.le_of_eq hlength) m hm⟩
  · exact (hkept.2.2.2 (fun s hs h => Nat.le_of_eq (hfront s hs h)) MacroTable.empty "MOST").2
      (Or.inr hdefines)

/-- A second comment in front of a definition hides it: no statement of the text gives the macro,
and no name is registered. -/
theorem definition_behind_two_comments_dropped :
    Defines (TokenStream.ofSource 0 "// a\n// b\n#define X 1\n") "X" ∧
      (∀ s ∈ Statement.ofSource 0 "// a\n// b\n#define X 1\n", ofStatement? s = none) ∧
      ((Statement.ofSource 0 "// a\n// b\n#define X 1\n").foldl
        MacroTable.insertStatement MacroTable.empty).names = [] ∧
      (SourceScan.readText default 0 SourceScan.start
        "// a\n// b\n#define X 1\n").codebase.macros.names = [] := by
  refine ⟨?_, ?_, ?_, ?_⟩
  · decide +kernel
  · decide +kernel
  · decide +kernel
  · have hread : ∃ s ∈ Statement.ofSource 0 "// a\n// b\n#define X 1\n",
        Statement.ofSource 0 "// a\n// b\n#define X 1\n" = [s] ∧
        SourceScan.linkageBody? TypeCarry.idle s = none ∧
        (ofStatement default TypeCarry.idle s).1.length = 0 := by
      decide +kernel
    obtain ⟨s, -, hs, hbody, hnone⟩ := hread
    rw [Codebase.readText_codebase, ofText_singleton hs hbody, List.length_eq_zero_iff.1 hnone]
    rfl

end Sighting

end CBoundary
