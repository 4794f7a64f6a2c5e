import CBoundary.Proofs.RecordHead
import CBoundary.Proofs.SecondReading
import CBoundary.Proofs.TableShape

/-!
Typedefs with a list of names. The first name is read with the type, or with the record, the others
with what is carried to them, and all are bound to the one name that identifies the type. The
semicolon ends what is carried, so nothing behind the list is taken for a name. Main statements:
`ofStatements_spelled`, `typedefs_of_sightings` and `typedef_list_registers`.
-/
namespace CBoundary

open Keyword TokenList

/-- The stars of a declarator do not identify the type. -/
theorem Declarator.baseType_append_ownStars (type : List Token) (d : Declarator) :
    baseType (type ++ d.ownStars) = baseType type := by
  have hnone : (code d.ownStars).reverse.find?
      (fun t => t.isIdent && !isQualifier t.text && !isRecordWord t.text) = none := by
    rw [List.find?_eq_none]
    intro t ht
    have hstar := (List.mem_filter.1 (List.mem_filter.1 (List.mem_reverse.1 ht)).1).2
    simp only [Token.isPunct, Bool.and_eq_true, beq_iff_eq] at hstar
    simp [Token.isIdent, hstar.1]
  rw [baseType, code_append, List.reverse_append, List.find?_append, hnone, Option.none_or]
  rfl

/-- Qualifiers do not identify the type. -/
theorem Keyword.baseType_withoutQualifiers (tokens : List Token) :
    baseType (withoutQualifiers tokens) = baseType tokens := by
  rw [baseType, baseType, code, code, withoutQualifiers, List.filter_filter, ← List.filter_reverse,
    ← List.filter_reverse, List.find?_filter, List.find?_filter]
  congr 2
  funext t
  cases isQualifier t.text <;> simp

namespace Statement

variable {s : Statement} {front : List Token} {separator : Token}

theorem terminator?_of_withoutTrivia (hseparator : separator.isSeparator = true)
    (hs : withoutTrivia s.tokens = front ++ [separator]) :
    s.terminator? = some separator.text := by
  have hlast : s.tokens.reverse.find? (fun t => !t.kind.isTrivia) = some separator := by
    rw [← List.head?_filter, List.filter_reverse, ← withoutTrivia, hs]
    simp
  rw [terminator?, hlast]
  simp [hseparator]

theorem kind_ne_directive (h : ∀ t ∈ (withoutTrivia s.tokens).head?, t.kind ≠ .directive) :
    s.kind ≠ .directive := by
  rw [kind_eq_classifyCode h]
  exact Classification.classifyCode_ne_directive _

/-- A statement behind the typedef word that has no brace group is a typedef. -/
theorem kind_eq_typedef {word : Token} {rest : List Token} (hword : word.isWord "typedef" = true)
    (hs : withoutTrivia s.tokens = word :: rest) (hbrace : ∀ t ∈ rest, t.isGroup .brace = false) :
    s.kind = .typedef := by
  have htypedef : word.kind = .word ∧ word.text = "typedef" := by simpa [Token.isWord] using hword
  have hbare : s.bareCode =
      word :: Classification.withoutAnnotations defaultAnnotations (code rest) := by
    have hplain : isWordAmong defaultAnnotations word = false := by
      rw [isWordAmong, htypedef.1, htypedef.2]
      decide
    rw [bareCode, ← code_withoutTrivia, hs, code_cons_of_isCode _ (Token.isCode_of_kind_word
      htypedef.1), Classification.withoutAnnotations_cons, if_neg (by simp [hplain])]
  have hnone : Classification.afterRecordBody? s.bareCode = none := by
    cases hbody : Classification.afterRecordBody? s.bareCode with
    | none => rfl
    | some behind =>
      obtain ⟨lead, record, body, hform⟩ := Classification.exists_isRecord hbody
      have hmem : body ∈ code s.tokens :=
        Classification.Leaves.subset (Or.inl hform.split) (by simp)
      rw [← code_withoutTrivia, hs] at hmem
      have hbody := hform.body
      rcases List.mem_cons.1 (List.mem_filter.1 hmem).1 with rfl | hmem
      · simp [Token.isGroup, htypedef.1] at hbody
      · simp [hbrace body hmem] at hbody
  rw [kind_eq_classifyCode (by simp [hs, htypedef.1])]
  rw [hbare] at hnone ⊢
  have hcontrol : isWordAmong controlWords word = false := by
    rw [isWordAmong, htypedef.1, htypedef.2]
    decide
  have hextern : word.isWord "extern" = false := by
    simp [Token.isWord, htypedef.2]
  rw [Classification.classifyCode, hextern, Bool.false_and, Bool.false_and, if_neg (by simp),
    if_neg (by simp [hcontrol])]
  simp [hnone, hword]

end Statement

namespace Sighting

open SourceScan

variable {carry : TypeCarry} {lead : List Token} {l : DeclaratorList} {s : Statement}
  {statements later : List Statement} {target : String}

/-- A name that differs from the target is bound to it. -/
def ofName (target : String) (d : Declarator) : List Sighting :=
  if d.name.text = target then [] else [.typedef d.name.text target]

/-- The names of a list are bound to a target. -/
def ofNames (target : String) (entries : List (Declarator × Token)) : List Sighting :=
  entries.flatMap fun entry => ofName target entry.1

/-- A name is read where a type is carried, and in a typedef. -/
theorem ofStatement_name (c : ScanContext) {v : Variable} {next : TypeCarry}
    (hdirective : s.kind ≠ .directive) (hcarry : carry.isCarrying = true ∨ s.kind = .typedef)
    (hparse : carry.parse s.tokens = (some v, next)) :
    ofStatement c carry s = (ofTypedef v, next) := by
  have hread : (carry.isCarrying || s.kind = .typedef) = true := by simpa using hcarry
  unfold ofStatement
  simp only [if_neg hdirective, if_pos hread, hparse]

theorem linkageBody?_eq_none (hcarry : carry.isCarrying = true ∨ s.kind = .typedef) :
    linkageBody? carry s = none := by
  rcases hcarry with h | h <;> simp [linkageBody?, h]

theorem ofStatements_cons (c : ScanContext) (h : linkageBody? carry s = none) :
    ofStatements c carry (s :: later) =
      (ofStatement c carry s).1 ++ ofStatements c (ofStatement c carry s).2 later := by
  rw [ofStatements]
  split
  · rename_i body hbody
    simp [h] at hbody
  · rfl

/-- One name of a list, and what is carried behind it. -/
theorem ofStatement_written (c : ScanContext) (d : Declarator) {separator : Token}
    (hc : carry.type = [] ∨ lead = []) (hcarried : ∀ t ∈ carry.type, t.isPunct "*" = false)
    (hlead : ∀ t ∈ lead, t.IsTypeWord) (hcarry : carry.isCarrying = true ∨ s.kind = .typedef)
    (hbase : baseType (carry.type ++ withoutQualifiers lead) = target) (htarget : target ≠ "")
    (hseparator : separator.isSeparator = true)
    (hs : withoutTrivia s.tokens = lead ++ d.written ++ [separator]) :
    ofStatement c carry s =
      (ofName target d,
        if separator.isPunct "," then TypeCarry.of (carry.type ++ withoutQualifiers lead)
        else TypeCarry.idle) := by
  obtain ⟨v, hparse, hv⟩ := TypeCarry.parse_written d hc hcarried hlead hseparator hs
  have hdirective : s.kind ≠ .directive := by
    refine Statement.kind_ne_directive fun t ht => ?_
    have hmem : t ∈ lead ++ d.written ++ [separator] := hs ▸ List.mem_of_head? ht
    rcases List.mem_append.1 hmem with hmem | hmem
    · exact (d.open_written hlead t hmem).1
    · simp [List.mem_singleton.1 hmem, Statement.kind_of_isSeparator hseparator]
  have hname : v.name = d.name := congrArg Variable.name hv
  have htype : v.baseType = target := by
    have htypename : v.typename = carry.type ++ withoutQualifiers lead ++ d.ownStars :=
      congrArg Variable.typename hv
    rw [Variable.baseType, htypename, d.baseType_append_ownStars, hbase]
  rw [ofStatement_name c hdirective hcarry hparse, ofTypedef, htype, hname, ofName]
  by_cases heq : d.name.text = target
  · simp [heq]
  · simp [heq, htarget, Ne.symm heq]

/-- The statements of a list bind its names, and nothing is carried behind them. -/
theorem ofStatements_spelled (c : ScanContext) (hspelled : l.Spelled lead statements)
    (hc : carry.type = [] ∨ lead = []) (hcarried : ∀ t ∈ carry.type, t.isPunct "*" = false)
    (hlead : ∀ t ∈ lead, t.IsTypeWord)
    (hcarry : carry.isCarrying = true ∨ ∀ s ∈ statements.head?, s.kind = .typedef)
    (hbase : baseType (carry.type ++ withoutQualifiers lead) = target) (htarget : target ≠ "") :
    ofStatements c carry (statements ++ later) =
      ofNames target l.entries ++ ofStatements c TypeCarry.idle later := by
  induction hspelled generalizing carry with
  | @last lead d semicolon hsemicolon s hs =>
    have hseparator := Statement.isSeparator_of_semicolon hsemicolon
    have hfirst : carry.isCarrying = true ∨ s.kind = .typedef := hcarry.imp id fun h => h s rfl
    have hread := ofStatement_written c d hc hcarried hlead hfirst hbase htarget hseparator hs
    have hcomma := Statement.not_comma_of_semicolon hsemicolon
    rw [if_neg (by simp [hcomma])] at hread
    rw [List.singleton_append, ofStatements_cons c (linkageBody?_eq_none hfirst), hread, ofNames,
      DeclaratorList.entries, List.flatMap_singleton]
  | @more lead d comma hcomma rest s statements hs hrest ih =>
    have hseparator := Statement.isSeparator_of_comma hcomma
    have hfirst : carry.isCarrying = true ∨ s.kind = .typedef := hcarry.imp id fun h => h s rfl
    have hread := ofStatement_written c d hc hcarried hlead hfirst hbase htarget hseparator hs
    rw [if_pos hcomma] at hread
    let next := TypeCarry.of (carry.type ++ withoutQualifiers lead)
    have hnext : ∀ t ∈ next.type, t.isPunct "*" = false := by
      intro t ht
      rcases List.mem_append.1 ht with ht | ht
      · exact hcarried t ht
      · exact TypeCarry.not_star_of_isTypeWord (hlead t (List.mem_filter.1 ht).1)
    have hothers := ih (Or.inr rfl) hnext (by simp) (Or.inl rfl)
      (by simpa [next, TypeCarry.type, TypeCarry.of, withoutQualifiers] using hbase)
    rw [List.cons_append, ofStatements_cons c (linkageBody?_eq_none hfirst), hread, hothers,
      ← List.append_assoc, ofNames, ofNames, DeclaratorList.entries, List.flatMap_cons]

/-- Statements of nothing but trivia add nothing. -/
theorem ofStatements_of_trivia (c : ScanContext)
    (h : ∀ s ∈ statements, withoutTrivia s.tokens = []) :
    ofStatements c TypeCarry.idle statements = [] := by
  induction statements with
  | nil => rw [ofStatements]
  | cons s rest ih =>
    obtain ⟨hfirst, hrest⟩ := List.forall_mem_cons.1 h
    have hkind : s.kind = .blank := by
      rw [Statement.kind_eq_classifyCode (by simp [hfirst]), Statement.bareCode,
        ← code_withoutTrivia, hfirst]
      rfl
    have hbody : linkageBody? TypeCarry.idle s = none := by simp [linkageBody?, hkind]
    have hread : ofStatement c TypeCarry.idle s = ([], TypeCarry.idle) := by
      simp [ofStatement, hkind, TypeCarry.isCarrying, TypeCarry.idle]
    rw [ofStatements_cons c hbody, hread, ih hrest]
    rfl

/-- A typedef with a list of names binds them to what identifies the type. -/
theorem ofText_names (c : ScanContext) {base : Nat} {text : String} {word : Token}
    {type : List Token} (hword : word.isWord "typedef" = true) (htype : ∀ t ∈ type, t.IsTypeWord)
    (hbase : baseType type ≠ "") (hending : ∀ entry ∈ l.entries, entry.1.ending = [])
    (h : withoutTrivia (TokenStream.ofSource base text) = word :: type ++ l.written) :
    ofText c base text = ofNames (baseType type) l.entries := by
  have htypedef : word.kind = .word ∧ word.text = "typedef" := by simpa [Token.isWord] using hword
  have hlead : ∀ t ∈ word :: type, t.IsTypeWord := by
    refine List.forall_mem_cons.2 ⟨⟨htypedef.1, ?_⟩, htype⟩
    rw [htypedef.2]
    decide
  have hwidth : ∀ entry ∈ l.entries, entry.1.WidthStaysOpen := fun entry hentry =>
    Declarator.widthStaysOpen_of_no_brace (by simp [hending entry hentry])
  obtain ⟨separator, hfirst⟩ := l.exists_first_mem
  obtain ⟨statements, rest, hsplit, hspelled, hrest⟩ := DeclaratorList.exists_spelled
    (l.first.staysOpen (hwidth _ hfirst) hlead) hwidth (h.trans (List.append_nil _).symm)
  have hkind : ∀ s ∈ statements.head?, s.kind = .typedef := by
    obtain ⟨s, others, separator, rfl, hseparator, hs⟩ := hspelled.exists_first
    intro u hu
    obtain rfl := Option.some.inj hu
    refine Statement.kind_eq_typedef hword hs fun t ht => ?_
    rcases List.mem_append.1 ht with ht | ht
    · rcases List.mem_append.1 ht with ht | ht
      · exact Token.isGroup_of_kind_word (htype t ht).1
      · exact (Declarator.isHead_of_mem_written (hending _ hfirst) t ht).isGroup.2
    · simp [List.mem_singleton.1 ht, Token.isGroup, Statement.kind_of_isSeparator hseparator]
  have hbase' : baseType (TypeCarry.idle.type ++ withoutQualifiers (word :: type)) =
      baseType type := by
    have hqualifier : withoutQualifiers (word :: type) = withoutQualifiers type := by
      rw [withoutQualifiers, List.filter_cons_of_neg]
      · rfl
      · rw [htypedef.2]
        decide
    rw [hqualifier]
    exact baseType_withoutQualifiers type
  rw [ofText, Statement.ofSource, hsplit, ofStatements_spelled c hspelled (Or.inl rfl)
    (fun _ ht => absurd ht List.not_mem_nil) hlead (Or.inr hkind) hbase' hbase,
    ofStatements_of_trivia c fun s hs => Statement.withoutTrivia_of_mem_ofTokens hrest hs,
    List.append_nil]

section Record

variable {c : ScanContext} {r : RecordDecl} {name : Token} {h : RecordHead} {d : Declarator}
  {separator : Token}

theorem typedef_mem_ofNames_iff {entries : List (Declarator × Token)} {bound type : String} :
    .typedef bound type ∈ ofNames target entries ↔
      bound ∈ entries.map (·.1.name.text) ∧ bound ≠ target ∧ type = target := by
  simp only [ofNames, ofName, List.mem_flatMap, List.mem_map]
  constructor
  · rintro ⟨entry, hentry, hmem⟩
    split at hmem
    · simp at hmem
    · rename_i hne
      simp only [List.mem_singleton, typedef.injEq] at hmem
      obtain ⟨rfl, rfl⟩ := hmem
      exact ⟨⟨entry, hentry, rfl⟩, hne, rfl⟩
  · rintro ⟨⟨entry, hentry, rfl⟩, hne, rfl⟩
    exact ⟨entry, hentry, by simp [hne]⟩

theorem typedef_mem_ofRecord_iff {r : Record} {bound type : String} :
    .typedef bound type ∈ ofRecord c r ↔ ∃ name, r.name = some name ∧ type = name.text ∧
      bound ≠ name.text ∧ bound ∈ r.typedefs.map (·.name.text) := by
  unfold ofRecord
  cases hname : r.name with
  | none => simp
  | some name =>
    simp only [ofMember, List.mem_append, List.mem_cons, List.mem_flatMap, List.mem_map,
      List.mem_filter, List.not_mem_nil, reduceCtorEq, false_or, or_false, and_false, exists_false,
      typedef.injEq, bne_iff_ne, Option.some.injEq, exists_eq_left']
    constructor
    · rintro ⟨v, ⟨hv, hne⟩, rfl, rfl⟩
      exact ⟨rfl, hne, v, hv, rfl⟩
    · rintro ⟨rfl, hne, v, hv, rfl⟩
      exact ⟨v, ⟨hv, hne⟩, rfl, rfl⟩

/-- A record binds the names that it is read with if no record inside it is bound to a name. -/
theorem typedef_mem_ofRecordDecl_iff (hname : r.name = some name)
    (hnested : ∀ inner ∈ r.nested, inner.typedefs = []) {bound type : String} :
    .typedef bound type ∈ ofRecordDecl c r ↔
      bound ∈ r.typedefs.map (·.name.text) ∧ bound ≠ name.text ∧ type = name.text := by
  rw [ofRecordDecl_eq (by simp [hname]), RecordDecl.listed, hname]
  simp only [List.mem_flatMap, typedef_mem_ofRecord_iff]
  constructor
  · rintro ⟨inner, hinner, other, hother, rfl, hne, hbound⟩
    rcases List.mem_append.1 hinner with hself | hnested'
    · obtain rfl : inner = r.toRecord := by simpa using hself
      obtain rfl := Option.some.inj (hname.symm.trans hother)
      exact ⟨hbound, hne, rfl⟩
    · simp [hnested inner hnested'] at hbound
  · rintro ⟨hbound, hne, rfl⟩
    exact ⟨r.toRecord, by simp, name, hname, rfl, hne, hbound⟩

/-- The record is read with the first name of the list, and the name that identifies the record is
carried to the others. -/
theorem exists_ofStatement_record (c : ScanContext) (ht : ∀ t ∈ s.tokens, t.Bracketed)
    (htypedef : h.isTypedef = true) (hd : d.ending = [])
    (hplain : isWordAmong defaultAnnotations d.name = false)
    (hseparator : separator.isSeparator = true)
    (hs : withoutTrivia s.tokens = h.written ++ d.written ++ [separator]) :
    ∃ r, RecordDecl.ofStatement? s = some r ∧ r.name = some (h.boundName d) ∧
      r.typedefs.map Variable.name = [d.name] ∧ linkageBody? TypeCarry.idle s = none ∧
      ofStatement c TypeCarry.idle s = (ofRecordDecl c r,
        if separator.isPunct ","
        then TypeCarry.of [h.word, h.boundName d] else TypeCarry.idle) := by
  obtain ⟨isTypedef, declares, hkind, hflag⟩ := RecordHead.exists_kind (by simpa using hs)
  obtain rfl := hflag htypedef
  obtain ⟨r, hr, hreads⟩ := RecordHead.exists_ofTokens? none ht hd hplain hseparator hs
  have hname : r.name = some (h.boundName d) := by
    rw [hreads.name, htypedef, RecordHead.boundName]
    cases h.tag <;> rfl
  have htypedefs : r.typedefs.map Variable.name = [d.name] := by
    have hone := congrArg (List.map Variable.name) hreads.typedefs
    rw [List.map_map, htypedef, if_pos rfl] at hone
    exact hone
  have hcomma : (some separator.text == some ",") = separator.isPunct "," := by
    simp [Token.isPunct, Statement.kind_of_isSeparator hseparator]
  have hcarry : carryOf s true r = if separator.isPunct "," then
      TypeCarry.of [h.word, h.boundName d] else TypeCarry.idle := by
    rw [carryOf, hname, hreads.kind, Statement.terminator?_of_withoutTrivia hseparator hs]
    simp only [Bool.true_and, hcomma]
  refine ⟨r, hr, hname, htypedefs, by simp [linkageBody?, hkind], ?_⟩
  have hr : RecordDecl.ofStatement? s = some r := hr
  simp [ofStatement, hkind, hr, hcarry, TypeCarry.isCarrying, TypeCarry.idle]

/-- Behind the record and its first name, the other names of the list are bound. -/
theorem exists_ofStatements_record (c : ScanContext)
    (ht : ∀ s ∈ statements, ∀ t ∈ s.tokens, t.Bracketed) (htypedef : h.isTypedef = true)
    (hending : ∀ entry ∈ l.entries, entry.1.ending = [])
    (hplain : isWordAmong defaultAnnotations l.first.name = false)
    (htarget : (h.boundName l.first).text ≠ "") (hspelled : l.Spelled h.written statements) :
    ∃ s r, statements.head? = some s ∧ RecordDecl.ofStatement? s = some r ∧
      r.name = some (h.boundName l.first) ∧ r.typedefs.map Variable.name = [l.first.name] ∧
      ofStatements c TypeCarry.idle (statements ++ later) = ofRecordDecl c r ++
        (ofNames (h.boundName l.first).text l.entries.tail ++
          ofStatements c TypeCarry.idle later) := by
  cases hspelled with
  | @last _ d semicolon hsemicolon s hs =>
    have hseparator := Statement.isSeparator_of_semicolon hsemicolon
    have hcomma := Statement.not_comma_of_semicolon hsemicolon
    obtain ⟨r, hr, hname, hnames, hbody, hread⟩ := exists_ofStatement_record c
      (ht s List.mem_cons_self) htypedef (hending _ List.mem_cons_self) hplain hseparator hs
    rw [if_neg (by simp [hcomma])] at hread
    refine ⟨s, r, rfl, hr, hname, hnames, ?_⟩
    rw [List.singleton_append, ofStatements_cons c hbody, hread]
    rfl
  | @more _ d comma hcomma rest s statements hs hrest =>
    have hseparator := Statement.isSeparator_of_comma hcomma
    obtain ⟨r, hr, hname, hnames, hbody, hread⟩ := exists_ofStatement_record c
      (ht s List.mem_cons_self) htypedef (hending _ List.mem_cons_self) hplain hseparator hs
    rw [if_pos hcomma] at hread
    have hbound : isName (h.boundName d) = true := by
      rw [RecordHead.boundName]
      cases htag : h.tag with
      | none => exact d.name_isName
      | some tag => exact h.tag_isName tag htag
    have hbase : baseType ((TypeCarry.of [h.word, h.boundName d]).type ++ withoutQualifiers []) =
        (h.boundName d).text :=
      @RecordHead.baseType_record h.word (some (h.boundName d)) h.word_isRecordWord
        (by simpa using hbound)
    have hstar : ∀ t ∈ (TypeCarry.of [h.word, h.boundName d]).type, t.isPunct "*" = false := by
      have hword := Token.kind_of_isWordAmong h.word_isRecordWord
      have hother := (isTypeWord_of_isName hbound).1
      simp [TypeCarry.type, TypeCarry.of, Token.isPunct, hword, hother]
    refine ⟨s, r, rfl, hr, hname, hnames, ?_⟩
    rw [List.cons_append, ofStatements_cons c hbody, hread, ofStatements_spelled c hrest
      (Or.inr rfl) hstar (by simp) (Or.inl rfl) hbase htarget]
    rfl

/-- A typedef of a record with its body binds the names behind the body to the name that identifies
the record, and records the record. -/
theorem exists_ofText_record (c : ScanContext) {base : Nat} {text : String}
    (htypedef : h.isTypedef = true) (hending : ∀ entry ∈ l.entries, entry.1.ending = [])
    (hplain : isWordAmong defaultAnnotations l.first.name = false)
    (htext : withoutTrivia (TokenStream.ofSource base text) = h.written ++ l.written) :
    ∃ s r, (Statement.ofSource base text).head? = some s ∧ RecordDecl.ofStatement? s = some r ∧
      r.name = some (h.boundName l.first) ∧ ofRecord c r.toRecord ⊆ ofText c base text ∧
      ((∀ inner ∈ r.nested, inner.typedefs = []) → ∀ bound type,
        .typedef bound type ∈ ofText c base text ↔ bound ∈ l.entries.map (·.1.name.text) ∧
          bound ≠ (h.boundName l.first).text ∧ type = (h.boundName l.first).text) := by
  obtain ⟨statements, rest, hsplit, hspelled, hrest⟩ :=
    RecordHead.exists_statements hending (htext.trans (List.append_nil _).symm)
  have hsource : Statement.ofSource base text = statements ++ Statement.ofTokens rest := hsplit
  have hnothing : ofStatements c TypeCarry.idle (Statement.ofTokens rest) = [] :=
    ofStatements_of_trivia c fun s hs => Statement.withoutTrivia_of_mem_ofTokens hrest hs
  have hbracketed : ∀ s ∈ statements, ∀ t ∈ s.tokens, t.Bracketed := by
    intro s hs t ht
    have hmem : s ∈ Statement.ofSource base text := hsource ▸ List.mem_append_left _ hs
    exact (Statement.readFrom_of_mem_ofSource hmem ht).bracketed
  have htarget : (h.boundName l.first).text ≠ "" := by
    have hmem : h.boundName l.first ∈ withoutTrivia (TokenStream.ofSource base text) := by
      rw [htext, RecordHead.boundName]
      cases htag : h.tag with
      | some tag => simp [RecordHead.written, RecordHead.front, RecordHead.type, htag]
      | none =>
        obtain ⟨separator, hfirst⟩ := l.exists_first_mem
        refine List.mem_append_right _ (List.mem_flatMap.2 ⟨_, hfirst, ?_⟩)
        simp [Declarator.written]
    intro hempty
    exact TokenStream.chars_ne_nil_of_mem_ofChars (List.mem_filter.1 hmem).1
      (by simp [Token.chars, hempty])
  obtain ⟨s, r, hs, hr, hname, hnames, hall⟩ := exists_ofStatements_record c hbracketed htypedef
    hending hplain htarget hspelled
  have hofText : ofText c base text =
      ofRecordDecl c r ++ ofNames (h.boundName l.first).text l.entries.tail := by
    rw [ofText, hsource, hall, hnothing, List.append_nil]
  refine ⟨s, r, ?_, hr, hname, ?_, ?_⟩
  · rw [hsource, List.head?_append, hs, Option.some_or]
  · intro x hx
    rw [hofText, ofRecordDecl_eq (by simp [hname]), RecordDecl.listed, hname]
    exact List.mem_append_left _ (List.mem_flatMap.2 ⟨r.toRecord, by simp, hx⟩)
  · intro hnested bound type
    have hfirst : r.typedefs.map (·.name.text) = [l.first.name.text] := by
      have htexts := congrArg (List.map Token.text) hnames
      rwa [List.map_map] at htexts
    have hentries : l.entries.map (·.1.name.text) =
        l.first.name.text :: l.entries.tail.map (·.1.name.text) := by
      cases l <;> rfl
    rw [hofText, List.mem_append, typedef_mem_ofRecordDecl_iff hname hnested,
      typedef_mem_ofNames_iff, hfirst, hentries]
    simp only [List.mem_cons, List.not_mem_nil, or_false]
    tauto

end Record

end Sighting

namespace Codebase

variable {c : Codebase} {l : DeclaratorList} {target : String}

/-- No name of the list, the target apart, is bound. -/
def LacksNames (c : Codebase) (l : DeclaratorList) (target : String) : Prop :=
  ∀ bound ∈ l.entries.map (·.1.name.text), bound ≠ target → c.typedefs[bound]? = none

/-- The names of the list, the target apart, are bound to the target, and no others are added. -/
def AddsNames (before after : Codebase) (l : DeclaratorList) (target : String) : Prop :=
  ∀ name : String, after.typedefs[name]? =
    if name ∈ l.entries.map (·.1.name.text) ∧ name ≠ target then some target
    else before.typedefs[name]?

/-- The record is a type of the given name, and its members are the fields of that type. -/
def RecordsType (c : Codebase) (name : String) (r : RecordDecl) : Prop :=
  (∃ d, c.types[name]? = some d ∧ d.details.Covers (.record { r with nested := [] })) ∧
    ∀ v ∈ r.members, ∃ d, c.field? name v.name.text = some d ∧ d.details.Covers (.field v)

/-- Where all sightings of typedefs bind names of the list to the target, these names are added. -/
theorem addsNames_of_sightings {xs : List Sighting}
    (hxs : ∀ bound type, .typedef bound type ∈ xs ↔
      bound ∈ l.entries.map (·.1.name.text) ∧ bound ≠ target ∧ type = target)
    (hnew : c.LacksNames l target) : c.AddsNames (xs.foldl take c) l target := by
  intro name
  have hshown (type : String) : type ∈ xs.filterMap (Sighting.targetOf? name) ↔
      .typedef name type ∈ xs := by
    rw [List.mem_filterMap]
    constructor
    · rintro ⟨x, hx, hshown⟩
      cases x with
      | typedef bound bindsTo =>
        simp only [Sighting.targetOf?, Option.ite_none_right_eq_some, Option.some.injEq] at hshown
        obtain ⟨rfl, rfl⟩ := hshown
        exact hx
      | _ => simp [Sighting.targetOf?] at hshown
    · intro hx
      exact ⟨_, hx, by simp [Sighting.targetOf?]⟩
  simp only [hxs] at hshown
  rw [typedefs_foldl_take, foldl_merge_eq_filterMap]
  cases hadded : xs.filterMap (Sighting.targetOf? name) with
  | nil =>
    simp only [hadded, List.not_mem_nil, false_iff, not_and] at hshown
    rw [if_neg fun h => hshown target h.1 h.2 rfl]
    rfl
  | cons first others =>
    obtain ⟨hname, hne, hfirst⟩ := (hshown first).1 (by simp [hadded])
    rw [if_pos ⟨hname, hne⟩, hnew name hname hne, foldl_merge_none, hfirst, List.foldl_fixed]

end Codebase

namespace History

/-- What a text has a sighting of, the table covers. -/
theorem exists_covers (before : History) {r : Reading} {x : Sighting} {p : Place}
    {e : Definition} (hx : x ∈ r.sightings) (hentry : x.entry? = some (p, e)) :
    ∃ d, (before.read r).codebase.definition? p = some d ∧ d.Covers e := by
  have hmem : e ∈ r.sightings.filterMap (Sighting.definitionAt? p) :=
    List.mem_filterMap.2 ⟨x, hx, Sighting.definitionAt?_eq_some_iff.2 hentry⟩
  rw [codebase_read]
  cases hd : (r.sightings.foldl Codebase.take before.codebase).definition? p with
  | none =>
    rw [Codebase.definitions_eq_nil_of_foldl_take hd] at hmem
    exact absurd hmem List.not_mem_nil
  | some d =>
    exact ⟨d, rfl, Codebase.covers_of_foldl_take before.kinded r.kind_of_sighted hd e hmem⟩

/-- A record whose sightings are among those of a text is recorded with its fields. -/
theorem recordsType_of_subset (before : History) {r : Reading} {decl : RecordDecl} {name : Token}
    (hname : decl.name = some name)
    (hsub : Sighting.ofRecord r.context decl.toRecord ⊆ r.sightings) :
    (before.read r).codebase.RecordsType name.text decl := by
  constructor
  · obtain ⟨x, hx, e, hentry, hdetails⟩ := Sighting.record_entry_mem_ofRecord hname
    obtain ⟨d, hd, hcovers⟩ := before.exists_covers (hsub hx) hentry
    exact ⟨d, hd, hdetails ▸ hcovers.details⟩
  · intro v hv
    obtain ⟨x, hx, e, hentry, hdetails⟩ := Sighting.field_entry_mem_ofRecord hname hv
    obtain ⟨d, hd, hcovers⟩ := before.exists_covers (hsub hx) hentry
    exact ⟨d, hd, hdetails ▸ hcovers.details⟩

/-- A typedef with a list of new names adds them all, bound to what identifies the type, and no
others. If the type is a record with its body, this is its tag, or else the first name, and the
record is recorded under it with its fields. There, an annotation word cannot be the first name, and
a record inside the body that is bound to names of its own adds these too. -/
theorem typedef_list_registers (before : History) (r : Reading) (l : DeclaratorList)
    (hending : ∀ entry ∈ l.entries, entry.1.ending = []) :
    (∀ (word : Token) (type : List Token), word.isWord "typedef" = true →
      (∀ t ∈ type, t.IsTypeWord) → baseType type ≠ "" →
      withoutTrivia (TokenStream.ofSource r.base r.text) = word :: type ++ l.written →
      before.codebase.LacksNames l (baseType type) →
      before.codebase.AddsNames (before.read r).codebase l (baseType type)) ∧
    ∀ head : RecordHead, head.isTypedef = true →
      isWordAmong defaultAnnotations l.first.name = false →
      withoutTrivia (TokenStream.ofSource r.base r.text) = head.written ++ l.written →
      before.codebase.LacksNames l (head.boundName l.first).text →
      ∃ s decl, (Statement.ofSource r.base r.text).head? = some s ∧
        RecordDecl.ofStatement? s = some decl ∧
        (before.read r).codebase.RecordsType (head.boundName l.first).text decl ∧
        ((∀ inner ∈ decl.nested, inner.typedefs = []) →
          before.codebase.AddsNames (before.read r).codebase l (head.boundName l.first).text) := by
  rw [codebase_read]
  constructor
  · intro word type hword htype hbase htext hnew
    have hsightings := Sighting.ofText_names r.context hword htype hbase hending htext
    refine Codebase.addsNames_of_sightings (fun bound target => ?_) hnew
    rw [Reading.sightings, hsightings]
    exact Sighting.typedef_mem_ofNames_iff
  · intro head htypedef hplain htext hnew
    obtain ⟨s, decl, hs, hdecl, hname, hsub, hsightings⟩ :=
      Sighting.exists_ofText_record r.context htypedef hending hplain htext
    refine ⟨s, decl, hs, hdecl, ?_, ?_⟩
    · rw [← codebase_read]
      exact before.recordsType_of_subset hname hsub
    · intro hnested
      exact Codebase.addsNames_of_sightings (hsightings hnested) hnew

/-- A name and a pointer to it, for a built-in type and for a record with its body. -/
theorem names_and_pointers_registered :
    let record := "typedef struct s \x7b int a; \x7d s_t, *s_p;"
    let ints := (History.empty.read ⟨default, 0, "typedef const int i_t, *i_p;"⟩).codebase
    let records := (History.empty.read ⟨default, 0, record⟩).codebase
    ints.typedefs["i_t"]? = some "int" ∧ ints.typedefs["i_p"]? = some "int" ∧
      records.typedefs["s_t"]? = some "s" ∧ records.typedefs["s_p"]? = some "s" ∧
      ∃ decl, (Statement.ofSource 0 record).head?.bind RecordDecl.ofStatement? = some decl ∧
        records.RecordsType "s" decl := by
  intro record ints records
  have hempty (l : DeclaratorList) (target : String) :
      History.empty.codebase.LacksNames l target := fun _ _ _ => rfl
  have hints : ints.typedefs["i_t"]? = some "int" ∧ ints.typedefs["i_p"]? = some "int" := by
    let name := Declarator.ofName [] (.wordAt 6 18 "i_t") (by simp) (by decide +kernel)
    let pointer := Declarator.ofName [.signAt 9 23 "*"] (.wordAt 10 24 "i_p") (by decide +kernel)
      (by decide +kernel)
    let l : DeclaratorList := .more name (.signAt 7 21 ",") (by decide +kernel)
      (.last pointer (.signAt 11 27 ";") (by decide +kernel))
    have hadds := (typedef_list_registers .empty ⟨default, 0, "typedef const int i_t, *i_p;"⟩ l
      (by decide +kernel)).1 (.wordAt 0 0 "typedef") [.wordAt 2 8 "const", .wordAt 4 14 "int"]
      (by decide +kernel) (by unfold Token.IsTypeWord; decide +kernel) (by decide +kernel)
      (by decide +kernel) (hempty _ _)
    exact ⟨(hadds "i_t").trans (by decide +kernel), (hadds "i_p").trans (by decide +kernel)⟩
  let name := Declarator.ofName [] (.wordAt 8 28 "s_t") (by simp) (by decide +kernel)
  let pointer := Declarator.ofName [.signAt 11 33 "*"] (.wordAt 12 34 "s_p") (by decide +kernel)
    (by decide +kernel)
  let l : DeclaratorList := .more name (.signAt 9 31 ",") (by decide +kernel)
    (.last pointer (.signAt 13 37 ";") (by decide +kernel))
  let head : RecordHead :=
    { lead := [.wordAt 0 0 "typedef"], word := .wordAt 2 8 "struct", tag := some (.wordAt 4 15 "s")
      body := ⟨6, ⟨17, 27⟩, .group .brace, "\x7b int a; \x7d"⟩
      lead_qualifiers := by decide +kernel
      lead_plain := by decide +kernel
      word_isRecordWord := by decide +kernel
      tag_isName := by
        rintro t ⟨⟩
        decide +kernel
      tag_plain := by
        rintro t ⟨⟩
        decide +kernel
      body_isBrace := by decide +kernel }
  obtain ⟨s, decl, hs, hdecl, htype, hadds⟩ := (typedef_list_registers .empty ⟨default, 0, record⟩ l
    (by decide +kernel)).2 head (by decide +kernel) (by decide +kernel) (by decide +kernel)
    (hempty _ _)
  have hread : (Statement.ofSource 0 record).head?.bind RecordDecl.ofStatement? = some decl := by
    rw [hs, Option.bind_some, hdecl]
  have hnested : ((Statement.ofSource 0 record).head?.bind RecordDecl.ofStatement?).all
      (fun decl => decl.nested.all (·.typedefs.isEmpty)) = true := by decide +kernel
  have hadds := hadds (by simpa [hread] using hnested)
  exact ⟨hints.1, hints.2, hadds "s_t", hadds "s_p", decl, hread, htype⟩

/-- A record inside the body is bound to a name of its own, and an annotation word stands in the
place of the first name. -/
theorem inner_name_added_annotation_dropped :
    let inner := "typedef struct s \x7b typedef struct t \x7b int a; \x7d t_t; \x7d s_t;"
    let annotated := "typedef struct s \x7b int a; \x7d WT_INLINE;"
    (History.empty.read ⟨default, 0, inner⟩).codebase.typedefs["t_t"]? = some "t" ∧
      (History.empty.read ⟨default, 0, annotated⟩).codebase.typedefs["WT_INLINE"]? = none ∧
      isReserved "WT_INLINE" = false := by
  intro inner annotated
  let bound (s : Statement) (name : String) : Option String :=
    (Sighting.ofStatement default TypeCarry.idle s).1.foldl
      (fun found x => found.merge (fun first _ => first) (x.targetOf? name)) none
  have hbound {text : String} {s : Statement} (hs : Statement.ofSource 0 text = [s])
      (hbody : SourceScan.linkageBody? TypeCarry.idle s = none) (name : String) :
      (History.empty.read ⟨default, 0, text⟩).codebase.typedefs[name]? = bound s name := by
    rw [codebase_read, Codebase.typedefs_foldl_take, Reading.sightings,
      Sighting.ofText_singleton hs hbody]
    rfl
  have hread : (∃ s ∈ Statement.ofSource 0 inner, Statement.ofSource 0 inner = [s] ∧
        SourceScan.linkageBody? TypeCarry.idle s = none ∧ bound s "t_t" = some "t") ∧
      ∃ s ∈ Statement.ofSource 0 annotated, Statement.ofSource 0 annotated = [s] ∧
        SourceScan.linkageBody? TypeCarry.idle s = none ∧ bound s "WT_INLINE" = none := by
    decide +kernel
  obtain ⟨⟨s, -, hs, hbody, hname⟩, u, -, hu, hother, hnone⟩ := hread
  exact ⟨(hbound hs hbody _).trans hname, (hbound hu hother _).trans hnone, by decide⟩

end History

end CBoundary
