import CBoundary.Proofs.RecordHead

/-!
Members whose type is a record that is defined with them. The first declarator behind the body is
read with the record and has its type. The others are statements of their own, and no type is
carried to them: they are members of the record around too, in order, but with no more of a type
than their own stars. Main statement: `members_inline`.
-/
namespace CBoundary

open Keyword TokenList

/-- The members that a list of declarators adds. Only the first has the type. -/
def RecordHead.toFields (head : RecordHead) : DeclaratorList → List Variable
  | .last d semicolon _ => [head.toVariable d semicolon]
  | .more d comma _ rest => head.toVariable d comma :: rest.toVariables []

namespace RecordHead

variable (head : RecordHead) (l : DeclaratorList)

theorem map_name_toFields : (head.toFields l).map Variable.name = l.entries.map (·.1.name) := by
  cases l with
  | last d semicolon h => rfl
  | more d comma h rest =>
    simp only [toFields, DeclaratorList.toVariables, List.map_cons, List.map_map,
      DeclaratorList.entries]
    rfl

theorem map_typename_toFields : (head.toFields l).map Variable.typename =
    head.type :: l.entries.tail.map (·.1.ownStars) := by
  cases l with
  | last d semicolon h => rfl
  | more d comma h rest =>
    simp only [toFields, DeclaratorList.toVariables, List.map_cons, List.map_map,
      DeclaratorList.entries, List.tail_cons]
    rfl

end RecordHead

namespace RecordDecl

open Record

variable {parent : Option String} {tokens rest behind : List Token} {r : RecordDecl}
  {around : Record} {b : BodyState} {statements before : List Statement} {s : Statement}
  {head : RecordHead} {l : DeclaratorList} {separator : Token} {d : Declarator}

/-- What is read of the statements of a body. -/
def readBody (around : Record) (b : BodyState) (statements : List Statement) : BodyState :=
  statements.foldl (fun b s => b.step s (inner? around s)) b

theorem readBody_append (around : Record) (b : BodyState) (first second : List Statement) :
    readBody around b (first ++ second) = readBody around (readBody around b first) second :=
  List.foldl_append

theorem members_eq (h : ofTokens? parent tokens = some r) :
    r.members = (readBody r.toRecord .start (Statement.within r.body)).members := by
  rw [ofTokens?_eq] at h
  obtain ⟨header, -, rfl⟩ := Option.map_eq_some_iff.1 h
  rfl

/-- Members stay where they are. -/
theorem exists_members_append (around : Record) (b : BodyState) (statements : List Statement) :
    ∃ later, (readBody around b statements).members = b.members ++ later := by
  induction statements generalizing b with
  | nil => exact ⟨[], (List.append_nil _).symm⟩
  | cons s rest ih =>
    obtain ⟨later, hlater⟩ := ih (b.step s (inner? around s))
    have hstep : ∃ added, (b.step s (inner? around s)).members = b.members ++ added := by
      unfold BodyState.step
      split
      · cases inner? around s with
        | none => exact ⟨[], (List.append_nil _).symm⟩
        | some inner => exact ⟨_, rfl⟩
      · exact ⟨_, rfl⟩
    obtain ⟨added, hadded⟩ := hstep
    refine ⟨added ++ later, ?_⟩
    rw [readBody, List.foldl_cons]
    exact hlater.trans (by rw [hadded, List.append_assoc])

/-- Statements that are no records are read as a list of declarators. -/
theorem readBody_of_not_isRecord (around : Record) (b : BodyState)
    (h : ∀ s ∈ statements, s.kind.isRecord = false) :
    (readBody around b statements).members = b.members ++ b.carry.parseAll statements := by
  induction statements generalizing b with
  | nil => exact (List.append_nil _).symm
  | cons s rest ih =>
    obtain ⟨hfirst, hrest⟩ := List.forall_mem_cons.1 h
    have hstep : b.step s (inner? around s) =
        { b with
          members := b.members ++ (b.carry.parse s.tokens).1.toList
          carry := (b.carry.parse s.tokens).2 } := by
      unfold BodyState.step
      rw [if_neg (by simp [hfirst])]
    have hlater := ih (b.step s (inner? around s)) hrest
    rw [readBody, List.foldl_cons]
    rw [readBody] at hlater
    rw [hlater, hstep, TypeCarry.parseAll, List.append_assoc]

/-- The record adds its first declarator as a member, and carries no type on. -/
theorem exists_step_inline (around : Record) (b : BodyState) (ht : ∀ t ∈ s.tokens, t.Bracketed)
    (htypedef : head.isTypedef = false) (hd : d.ending = [])
    (hname : isWordAmong defaultAnnotations d.name = false)
    (hseparator : separator.isSeparator = true)
    (hs : withoutTrivia s.tokens = head.written ++ d.written ++ [separator]) :
    ∃ v, v.uncommented = head.toVariable d separator ∧
      (b.step s (inner? around s)).members = b.members ++ [v] ∧
      (b.step s (inner? around s)).carry = TypeCarry.idle := by
  obtain ⟨isTypedef, declares, hkind, -⟩ := RecordHead.exists_kind (by simpa using hs)
  obtain ⟨inner, hinner, hreads⟩ :=
    RecordHead.exists_ofTokens? (some (around.name?.getD "")) ht hd hname hseparator hs
  have hone := hreads.declared
  rw [htypedef, if_neg (by simp)] at hone
  obtain ⟨v, hdeclared, hv⟩ := List.map_eq_singleton_iff.1 hone
  have hstep : b.step s (inner? around s) =
      { members := b.members ++ inner.declared
        nested := b.nested ++ (if inner.name.isSome then [inner.toRecord] else []) ++ inner.nested
        carry := TypeCarry.idle } := by
    unfold BodyState.step
    rw [if_pos (by rw [hkind]; rfl), inner?, hinner]
    simp [hdeclared]
  rw [hstep, hdeclared]
  exact ⟨v, hv, rfl, rfl⟩

theorem not_isRecord_of_spelled (hspelled : l.Spelled [] statements)
    (hending : ∀ entry ∈ l.entries, entry.1.ending = []) :
    ∀ s ∈ statements, s.kind.isRecord = false := by
  intro s hmem
  obtain ⟨entry, hentry, hseparator, hs⟩ := hspelled.exists_entry s hmem
  exact RecordHead.not_isRecord (hending entry hentry) hseparator hs

/-- The statements of a record and its declarators add the members of the list. -/
theorem exists_readBody_inline (around : Record) (b : BodyState)
    (ht : ∀ s ∈ statements, ∀ t ∈ s.tokens, t.Bracketed) (htypedef : head.isTypedef = false)
    (hending : ∀ entry ∈ l.entries, entry.1.ending = [])
    (hname : isWordAmong defaultAnnotations l.first.name = false)
    (hspelled : l.Spelled head.written statements) :
    ∃ fields, fields.map Variable.uncommented = head.toFields l ∧
      (readBody around b statements).members = b.members ++ fields := by
  cases hspelled with
  | @last _ d semicolon hsemicolon s hs =>
    obtain ⟨v, hv, hmembers, -⟩ := exists_step_inline around b (ht s List.mem_cons_self) htypedef
      (hending _ List.mem_cons_self) hname (Statement.isSeparator_of_semicolon hsemicolon) hs
    exact ⟨[v], by rw [List.map_singleton, hv]; rfl, hmembers⟩
  | @more _ d comma hcomma rest s statements hs hrest =>
    obtain ⟨v, hv, hmembers, hcarry⟩ := exists_step_inline around b (ht s List.mem_cons_self)
      htypedef (hending _ List.mem_cons_self) hname (Statement.isSeparator_of_comma hcomma) hs
    have hothers : ∀ entry ∈ rest.entries, entry.1.ending = [] := fun entry hentry =>
      hending entry (List.mem_cons_of_mem _ hentry)
    obtain ⟨hvariables, -⟩ := TypeCarry.parseAll_spelled (c := TypeCarry.idle) hrest (Or.inl rfl)
      (fun _ ht => absurd ht List.not_mem_nil) (by simp)
    refine ⟨v :: TypeCarry.idle.parseAll statements, ?_, ?_⟩
    · rw [List.map_cons, hv, hvariables]
      rfl
    · have hread := readBody_of_not_isRecord around (b.step s (inner? around s))
        (not_isRecord_of_spelled hrest hothers)
      rw [hmembers, hcarry, List.append_assoc] at hread
      exact hread

/-- In the body of a record, a list of declarators behind a record with its body adds one member for
each declarator. The first has the record as its type; the others have nothing but their stars. -/
theorem members_inline (hr : ofTokens? parent tokens = some r)
    (hbody : Statement.within r.body = before ++ Statement.ofTokens rest)
    (hrest : withoutTrivia rest = head.written ++ l.written ++ behind)
    (htypedef : head.isTypedef = false) (hending : ∀ entry ∈ l.entries, entry.1.ending = [])
    (hname : isWordAmong defaultAnnotations l.first.name = false) :
    ∃ fields later,
      r.members = (readBody r.toRecord .start before).members ++ fields ++ later ∧
      fields.map Variable.name = l.entries.map (·.1.name) ∧
      fields.map Variable.typename = head.type :: l.entries.tail.map (·.1.ownStars) ∧
      fields.head?.map Variable.baseType = some ((head.tag.map Token.text).getD "") := by
  obtain ⟨statements, others, hsplit, hspelled, -⟩ := RecordHead.exists_statements hending hrest
  have ht : ∀ s ∈ statements, ∀ t ∈ s.tokens, t.Bracketed := by
    intro s hs t ht
    have hmem : s ∈ Statement.ofSource r.body.span.start r.body.text := by
      have hwithin : s ∈ Statement.within r.body := by
        rw [hbody, hsplit]
        simp [hs]
      exact hwithin
    exact (Statement.readFrom_of_mem_ofSource hmem ht).bracketed
  obtain ⟨fields, hfields, hmembers⟩ := exists_readBody_inline r.toRecord
    (readBody r.toRecord .start before) ht htypedef hending hname hspelled
  obtain ⟨later, hlater⟩ := exists_members_append r.toRecord
    (readBody r.toRecord (readBody r.toRecord .start before) statements)
    (Statement.ofTokens others)
  have hnames : fields.map Variable.name = l.entries.map (·.1.name) := by
    have hnames := congrArg (List.map Variable.name) hfields
    rw [List.map_map] at hnames
    exact hnames.trans (head.map_name_toFields l)
  have htypes : fields.map Variable.typename = head.type :: l.entries.tail.map (·.1.ownStars) := by
    have htypes := congrArg (List.map Variable.typename) hfields
    rw [List.map_map] at htypes
    exact htypes.trans (head.map_typename_toFields l)
  refine ⟨fields, later, ?_, hnames, htypes, ?_⟩
  · rw [members_eq hr, hbody, hsplit, readBody_append, readBody_append, hlater, hmembers]
  · obtain ⟨v, others, rfl, htype, -⟩ := List.map_eq_cons_iff.1 htypes
    rw [List.head?_cons, Option.map_some, Variable.baseType, htype, RecordHead.type,
      RecordHead.baseType_record head.word_isRecordWord head.tag_isName]

/-- A pointer and an array of pointers behind the same record, between other members: the array has
stars but no type. -/
theorem pointer_and_array_inline :
    let text := "struct s \x7b int n; struct t \x7b int a; \x7d *x, **y[2]; int m; \x7d;"
    ∃ (r : RecordDecl) (fields later : List Variable) (before : List Statement),
      (Statement.ofSource 0 text).head?.bind ofStatement? = some r ∧
      r.members = (readBody r.toRecord .start before).members ++ fields ++ later ∧
      fields.map (·.name.text) = ["x", "y"] ∧
      fields.map (TokenList.texts ·.typename) = [["struct", "t"], ["*", "*"]] ∧
      fields.head?.map Variable.baseType = some "t" := by
  intro text
  let r := ((Statement.ofSource 0 text).head?.bind ofStatement?).getD default
  let rest := (TokenStream.within r.body).drop 6
  let head : RecordHead :=
    { lead := [], word := .wordAt 6 18 "struct", tag := some (.wordAt 8 25 "t")
      body := ⟨10, ⟨27, 37⟩, .group .brace, "\x7b int a; \x7d"⟩
      lead_qualifiers := by decide +kernel
      lead_plain := by decide +kernel
      word_isRecordWord := by decide +kernel
      tag_isName := by
        rintro t ⟨⟩
        decide +kernel
      tag_plain := by
        rintro t ⟨⟩
        decide +kernel
      body_isBrace := by decide +kernel }
  let x := Declarator.ofName [.signAt 12 38 "*"] (.wordAt 13 39 "x") (by decide +kernel)
    (by decide +kernel)
  let y : Declarator :=
    { stars := [.signAt 16 42 "*", .signAt 17 43 "*"], name := .wordAt 18 44 "y"
      bounds := [⟨19, ⟨45, 48⟩, .group .bracket, "[2]"⟩], ending := []
      stars_or_qualifiers := by decide +kernel
      name_isName := by decide +kernel
      bounds_brackets := by decide +kernel
      ending_marked := Or.inl rfl }
  let l : DeclaratorList := .more x (.signAt 14 40 ",") (by decide +kernel)
    (.last y (.signAt 20 48 ";") (by decide +kernel))
  obtain ⟨hstatement, hbody, hrest⟩ :
      (Statement.ofSource 0 text).head?.bind ofStatement? = some r ∧
      Statement.within r.body = (Statement.within r.body).take 1 ++ Statement.ofTokens rest ∧
      withoutTrivia rest = head.written ++ l.written ++ (withoutTrivia rest).drop 11 := by
    decide +kernel
  obtain ⟨s, -, hr⟩ := Option.bind_eq_some_iff.1 hstatement
  obtain ⟨fields, later, hmembers, hnames, htypes, hbase⟩ := members_inline hr hbody hrest
    (by decide +kernel) (by decide +kernel) (by decide +kernel)
  refine ⟨r, fields, later, (Statement.within r.body).take 1, hstatement, hmembers, ?_, ?_, ?_⟩
  · have htexts := congrArg (List.map Token.text) hnames
    rw [List.map_map] at htexts
    exact htexts.trans (by decide +kernel)
  · have htexts := congrArg (List.map TokenList.texts) htypes
    rw [List.map_map] at htexts
    exact htexts.trans (by decide +kernel)
  · exact hbase.trans (by decide +kernel)

/-- Of two declarators behind the same record, the second is a member with no type. -/
theorem second_declarator_untyped :
    let read := fun (r : RecordDecl) => r.members.map fun v =>
      (TokenList.texts v.typename, v.name.text, v.baseType)
    let text := "struct outer \x7b struct inner \x7b int a; \x7d x, y; \x7d;"
    ((Statement.ofSource 0 text).head?.bind ofStatement?).map read =
      some [(["struct", "inner"], "x", "inner"), ([], "y", "")] := by
  decide +kernel

end RecordDecl

end CBoundary
