import CBoundary.Proofs.Declarator

/-!
Lists of declarators behind one type. A list is cut at its commas, so that only its first statement
holds the type. The others get it from what is carried, each with its own stars in place of those of
the others, and the semicolon ends the list. Main statements: `exists_spelled`, `parse_written` and
`parseAll_list`.
-/
namespace CBoundary

open Keyword TokenList

/-- Declarators with commas between them and a semicolon behind the last. -/
inductive DeclaratorList where
  | last (d : Declarator) (semicolon : Token) (h : semicolon.isPunct ";" = true)
  | more (d : Declarator) (comma : Token) (h : comma.isPunct "," = true) (rest : DeclaratorList)

namespace DeclaratorList

/-- The declarators, each with the separator behind it. -/
def entries : DeclaratorList → List (Declarator × Token)
  | last d semicolon _ => [(d, semicolon)]
  | more d comma _ rest => (d, comma) :: rest.entries

def first : DeclaratorList → Declarator
  | last d _ _ => d
  | more d _ _ _ => d

def written (l : DeclaratorList) : List Token :=
  l.entries.flatMap fun entry => entry.1.written ++ [entry.2]

/-- What the list declares behind a type. -/
def toVariables (type : List Token) (l : DeclaratorList) : List Variable :=
  l.entries.map fun entry => entry.1.toVariable type entry.2

theorem exists_first_mem (l : DeclaratorList) : ∃ separator, (l.first, separator) ∈ l.entries := by
  cases l <;> exact ⟨_, List.mem_cons_self⟩

end DeclaratorList

/-- All declarators of a list end in a comma but the last, which ends in the semicolon. -/
theorem DeclaratorList.map_terminator_toVariables (type : List Token) (l : DeclaratorList) :
    (l.toVariables type).map Variable.terminator =
      List.replicate (l.entries.length - 1) "," ++ [";"] := by
  have htext {t : Token} {p : String} (h : t.isPunct p = true) : t.text = p := by
    simp only [Token.isPunct, Bool.and_eq_true, beq_iff_eq] at h
    exact h.2
  induction l with
  | last d semicolon h =>
    simp [toVariables, entries, Declarator.toVariable, htext h]
  | more d comma h rest ih =>
    have hpos : 0 < rest.entries.length := by cases rest <;> simp [entries]
    obtain ⟨n, hn⟩ := Nat.exists_eq_add_one.2 hpos
    simp only [toVariables] at ih
    simp only [toVariables, entries, List.map_cons, ih, List.length_cons, hn,
      Nat.add_sub_cancel, List.replicate_succ, List.cons_append]
    exact congrArg (· :: _) (htext h)

/-- The statements of a list. The first of them holds what stands in front of its declarator too. -/
inductive DeclaratorList.Spelled : List Token → DeclaratorList → List Statement → Prop
  | last {lead : List Token} {d : Declarator} {semicolon : Token}
      {h : semicolon.isPunct ";" = true} {s : Statement}
      (hs : withoutTrivia s.tokens = lead ++ d.written ++ [semicolon]) :
      Spelled lead (.last d semicolon h) [s]
  | more {lead : List Token} {d : Declarator} {comma : Token} {h : comma.isPunct "," = true}
      {rest : DeclaratorList} {s : Statement} {statements : List Statement}
      (hs : withoutTrivia s.tokens = lead ++ d.written ++ [comma])
      (hrest : Spelled [] rest statements) : Spelled lead (.more d comma h rest) (s :: statements)

theorem DeclaratorList.Spelled.exists_first {lead : List Token} {l : DeclaratorList}
    {statements : List Statement} (h : l.Spelled lead statements) :
    ∃ s rest separator, statements = s :: rest ∧ separator.isSeparator = true ∧
      withoutTrivia s.tokens = lead ++ l.first.written ++ [separator] := by
  cases h with
  | @last _ d semicolon hsemicolon s hs =>
    exact ⟨s, [], semicolon, rfl, Statement.isSeparator_of_semicolon hsemicolon, hs⟩
  | @more _ d comma hcomma rest s statements hs hrest =>
    exact ⟨s, statements, comma, rfl, Statement.isSeparator_of_comma hcomma, hs⟩

theorem DeclaratorList.Spelled.exists_entry {l : DeclaratorList} {statements : List Statement}
    (h : l.Spelled [] statements) :
    ∀ s ∈ statements, ∃ entry ∈ l.entries, entry.2.isSeparator = true ∧
      withoutTrivia s.tokens = entry.1.written ++ [entry.2] := by
  induction l generalizing statements with
  | last d semicolon hsemicolon =>
    obtain ⟨hs⟩ := h
    intro s hmem
    rw [List.mem_singleton.1 hmem]
    exact ⟨_, List.mem_cons_self, Statement.isSeparator_of_semicolon hsemicolon, hs⟩
  | more d comma hcomma l ih =>
    obtain ⟨⟩ | ⟨hs, hrest⟩ := h
    intro s hmem
    rcases List.mem_cons.1 hmem with rfl | hmem
    · exact ⟨_, List.mem_cons_self, Statement.isSeparator_of_comma hcomma, hs⟩
    · obtain ⟨entry, hentry, hall⟩ := ih hrest s hmem
      exact ⟨entry, List.mem_cons_of_mem _ hentry, hall⟩

/-- The list is cut at its commas and behind its semicolon. -/
theorem DeclaratorList.exists_spelled {l : DeclaratorList} {lead tokens behind : List Token}
    (hfirst : Statement.StaysOpen (lead ++ l.first.written))
    (hwidth : ∀ entry ∈ l.entries, entry.1.WidthStaysOpen)
    (h : withoutTrivia tokens = lead ++ l.written ++ behind) :
    ∃ statements rest, Statement.ofTokens tokens = statements ++ Statement.ofTokens rest ∧
      l.Spelled lead statements ∧ withoutTrivia rest = behind := by
  induction l generalizing lead tokens with
  | last d semicolon hsemicolon =>
    have hseparator := Statement.isSeparator_of_semicolon hsemicolon
    have hfront : withoutTrivia tokens = lead ++ d.written ++ semicolon :: behind := by
      rw [h]
      simp [written, entries]
    obtain ⟨s, rest, hsplit, hs, hrest⟩ := Statement.exists_split hfirst hseparator hfront
    exact ⟨[s], rest, hsplit, .last hs, hrest⟩
  | more d comma hcomma l ih =>
    have hseparator := Statement.isSeparator_of_comma hcomma
    have hfront : withoutTrivia tokens =
        lead ++ d.written ++ comma :: ([] ++ l.written ++ behind) := by
      rw [h]
      simp [written, entries]
    obtain ⟨s, later, hsplit, hs, hlater⟩ := Statement.exists_split hfirst hseparator hfront
    have hothers : ∀ entry ∈ l.entries, entry.1.WidthStaysOpen := fun entry hentry =>
      hwidth entry (List.mem_cons_of_mem _ hentry)
    obtain ⟨separator, hmem⟩ := l.exists_first_mem
    have hopen : Statement.StaysOpen ([] ++ l.first.written) :=
      l.first.staysOpen (hothers _ hmem) (by simp)
    obtain ⟨statements, rest, hstatements, hspelled, hrest⟩ := ih hopen hothers hlater
    refine ⟨s :: statements, rest, ?_, .more hs hspelled, hrest⟩
    rw [hsplit, hstatements, List.cons_append]

namespace TypeCarry

/-- What is carried past a list of statements. -/
def behind (c : TypeCarry) (statements : List Statement) : TypeCarry :=
  statements.foldl (fun c s => (c.parse s.tokens).2) c

/-- The type that a declarator without type words gets. -/
def type (c : TypeCarry) : List Token := c.carried.getD []

theorem parseAll_append (c : TypeCarry) (first second : List Statement) :
    c.parseAll (first ++ second) = c.parseAll first ++ (c.behind first).parseAll second := by
  induction first generalizing c with
  | nil => rfl
  | cons s rest ih => rw [List.cons_append, parseAll, ih, parseAll, List.append_assoc]; rfl

theorem behind_append (c : TypeCarry) (first second : List Statement) :
    c.behind (first ++ second) = (c.behind first).behind second :=
  List.foldl_append

/-- Statements of nothing but trivia change nothing. -/
theorem parseAll_of_trivia {statements : List Statement} (c : TypeCarry)
    (h : ∀ s ∈ statements, withoutTrivia s.tokens = []) :
    c.parseAll statements = [] ∧ c.behind statements = c := by
  induction statements with
  | nil => exact ⟨rfl, rfl⟩
  | cons s rest ih =>
    obtain ⟨hfirst, hrest⟩ := List.forall_mem_cons.1 h
    have hparse : c.parse s.tokens = (none, c) := by
      rw [parse, Variable.ofTokens?_of_trivia hfirst]
    obtain ⟨hnothing, hcarry⟩ := ih hrest
    refine ⟨?_, ?_⟩
    · rw [parseAll, hparse]
      exact hnothing
    · rw [behind, List.foldl_cons, hparse]
      exact hcarry

theorem complete_of_type_eq_nil {c : TypeCarry} (h : c.type = []) (v : Variable) :
    c.complete v = v := by
  have hnone : c.carried.getD [] = [] := h
  rw [complete, hnone, List.nil_append, ite_self]

/-- A declarator without type words gets the carried type in front of its own stars. -/
theorem complete_uncommented {c : TypeCarry} {v : Variable} {d : Declarator} {separator : Token}
    (h : v.uncommented = d.toVariable [] separator) :
    (c.complete v).uncommented = d.toVariable c.type separator := by
  have htypename : v.typename = d.ownStars := congrArg Variable.typename h
  have hnone : v.typename.any (·.kind == .word) = false := by
    rw [htypename, List.any_eq_false]
    intro t ht
    have hstar := (List.mem_filter.1 ht).2
    simp only [Token.isPunct, Bool.and_eq_true, beq_iff_eq] at hstar
    simp [hstar]
  rw [complete, if_neg (by simp [hnone]), htypename]
  have hshape : { v.uncommented with typename := c.type ++ d.ownStars } =
      d.toVariable c.type separator := by rw [h]; rfl
  exact hshape

/-- Past a comma the type is carried, without the stars of the declarator in front of it. -/
theorem after_uncommented {v : Variable} {type : List Token} {d : Declarator} {separator : Token}
    (h : v.uncommented = d.toVariable type separator)
    (htype : ∀ t ∈ type, t.isPunct "*" = false) (hseparator : separator.isSeparator = true) :
    after v = if separator.isPunct "," then of type else idle := by
  have htypename : v.typename = type ++ d.ownStars := congrArg Variable.typename h
  have hterminator : v.terminator = separator.text := congrArg Variable.terminator h
  have hcomma : separator.isPunct "," = (separator.text == ",") := by
    simp [Token.isPunct, Statement.kind_of_isSeparator hseparator]
  have hstars : d.ownStars.filter (fun t => !t.isPunct "*") = [] := by
    rw [List.filter_eq_nil_iff]
    intro t ht
    simp [(List.mem_filter.1 ht).2]
  have hkept : type.filter (fun t => !t.isPunct "*") = type := by
    rw [List.filter_eq_self]
    simpa using htype
  rw [after, hterminator, hcomma, htypename, List.filter_append, hkept, hstars, List.append_nil]

section Parse

variable {c : TypeCarry} {lead : List Token} {separator : Token} {s : Statement}

theorem not_star_of_isTypeWord {t : Token} (h : t.IsTypeWord) : t.isPunct "*" = false := by
  simp [Token.isPunct, h.1]

/-- The type of a declarator is what stands in front of it, or else what is carried. -/
theorem parse_written (d : Declarator) (hc : c.type = [] ∨ lead = [])
    (hcarried : ∀ t ∈ c.type, t.isPunct "*" = false) (hlead : ∀ t ∈ lead, t.IsTypeWord)
    (hseparator : separator.isSeparator = true)
    (hs : withoutTrivia s.tokens = lead ++ d.written ++ [separator]) :
    ∃ v, c.parse s.tokens = (some v,
        if separator.isPunct "," then of (c.type ++ withoutQualifiers lead) else idle) ∧
      v.uncommented = d.toVariable (c.type ++ withoutQualifiers lead) separator := by
  obtain ⟨v, hv, hshape⟩ := Variable.ofTokens?_written d hlead hseparator hs
  have hcomplete : (c.complete v).uncommented =
      d.toVariable (c.type ++ withoutQualifiers lead) separator := by
    rcases hc with hnone | rfl
    · rw [complete_of_type_eq_nil hnone, hshape, hnone, List.nil_append]
    · rw [complete_uncommented hshape, withoutQualifiers, List.filter_nil, List.append_nil]
  refine ⟨c.complete v, ?_, hcomplete⟩
  rw [parse, hv]
  refine congrArg (some (c.complete v), ·) (after_uncommented hcomplete ?_ hseparator)
  intro t ht
  rcases List.mem_append.1 ht with ht | ht
  · exact hcarried t ht
  · exact not_star_of_isTypeWord (hlead t (List.mem_filter.1 ht).1)

/-- The statements of a list declare what it is written for, and nothing is carried behind it. -/
theorem parseAll_spelled {l : DeclaratorList} {statements : List Statement}
    (h : l.Spelled lead statements) (hc : c.type = [] ∨ lead = [])
    (hcarried : ∀ t ∈ c.type, t.isPunct "*" = false) (hlead : ∀ t ∈ lead, t.IsTypeWord) :
    (c.parseAll statements).map Variable.uncommented =
        l.toVariables (c.type ++ withoutQualifiers lead) ∧
      c.behind statements = idle := by
  induction h generalizing c with
  | @last lead d semicolon hsemicolon s hs =>
    have hseparator := Statement.isSeparator_of_semicolon hsemicolon
    obtain ⟨v, hparse, hv⟩ := parse_written d hc hcarried hlead hseparator hs
    have hcomma := Statement.not_comma_of_semicolon hsemicolon
    rw [if_neg (by simp [hcomma])] at hparse
    refine ⟨?_, ?_⟩
    · rw [parseAll, hparse]
      simp [parseAll, hv, DeclaratorList.toVariables, DeclaratorList.entries]
    · rw [behind, List.foldl_cons, hparse, List.foldl_nil]
  | @more lead d comma hcomma rest s statements hs hrest ih =>
    have hseparator := Statement.isSeparator_of_comma hcomma
    obtain ⟨v, hparse, hv⟩ := parse_written d hc hcarried hlead hseparator hs
    rw [if_pos hcomma] at hparse
    let next := of (c.type ++ withoutQualifiers lead)
    have hnext : ∀ t ∈ next.type, t.isPunct "*" = false := by
      intro t ht
      rcases List.mem_append.1 ht with ht | ht
      · exact hcarried t ht
      · exact not_star_of_isTypeWord (hlead t (List.mem_filter.1 ht).1)
    obtain ⟨hvariables, hbehind⟩ := ih (c := next) (Or.inr rfl) hnext (by simp)
    refine ⟨?_, ?_⟩
    · rw [parseAll, hparse, List.map_append, hvariables]
      simp [hv, DeclaratorList.toVariables, DeclaratorList.entries, next, type, of,
        withoutQualifiers]
    · rw [behind, List.foldl_cons, hparse]
      exact hbehind

end Parse

/-- Behind a type, a list declares its names in order, each with the type, its own stars and no
others, and all but the last end in a comma. The semicolon ends what is carried. In a bit width, no
brace group may stand behind a parenthesized group. -/
theorem parseAll_list {type : List Token} {l : DeclaratorList} {base : Nat} {text : String}
    (htype : ∀ t ∈ type, t.IsTypeWord) (hwidth : ∀ entry ∈ l.entries, entry.1.WidthStaysOpen)
    (h : withoutTrivia (TokenStream.ofSource base text) = type ++ l.written) :
    (idle.parseAll (Statement.ofSource base text)).map Variable.uncommented =
        l.toVariables (withoutQualifiers type) ∧
      (idle.parseAll (Statement.ofSource base text)).map Variable.terminator =
        List.replicate (l.entries.length - 1) "," ++ [";"] ∧
      (idle.behind (Statement.ofSource base text)).isCarrying = false := by
  obtain ⟨separator, hfirst⟩ := l.exists_first_mem
  obtain ⟨statements, rest, hsplit, hspelled, hrest⟩ := DeclaratorList.exists_spelled
    (l.first.staysOpen (hwidth _ hfirst) htype) hwidth (h.trans (List.append_nil _).symm)
  obtain ⟨hvariables, hbehind⟩ := parseAll_spelled (c := idle) hspelled (Or.inl rfl)
    (fun _ ht => absurd ht List.not_mem_nil) htype
  obtain ⟨hnothing, hidle⟩ := idle.parseAll_of_trivia fun s hs =>
    Statement.withoutTrivia_of_mem_ofTokens hrest hs
  have hall : (idle.parseAll (Statement.ofSource base text)).map Variable.uncommented =
      l.toVariables (withoutQualifiers type) := by
    rw [Statement.ofSource, hsplit, parseAll_append, hbehind, hnothing, List.append_nil]
    exact hvariables
  refine ⟨hall, ?_, ?_⟩
  · have hterminators := congrArg (List.map Variable.terminator) hall
    rw [List.map_map, DeclaratorList.map_terminator_toVariables] at hterminators
    exact hterminators
  · rw [Statement.ofSource, hsplit, behind_append, hbehind, hidle]
    rfl

/-- A type with a qualifier; an array, a constant pointer with an initializer and a bit width. -/
theorem three_declarators_share_type :
    ∃ (type : List Token) (l : DeclaratorList),
      (∀ t ∈ type, t.IsTypeWord) ∧ (∀ entry ∈ l.entries, entry.1.WidthStaysOpen) ∧
      withoutTrivia (TokenStream.ofSource 0 "const T *a[2], * const b = f(1, 2), c : 3;") =
        type ++ l.written ∧
      (idle.parseAll (Statement.ofSource 0 "const T *a[2], * const b = f(1, 2), c : 3;")).map
        Variable.uncommented = l.toVariables (withoutQualifiers type) ∧
      (idle.behind (Statement.ofSource 0
        "const T *a[2], * const b = f(1, 2), c : 3;")).isCarrying = false := by
  let a : Declarator :=
    { stars := [.signAt 4 8 "*"], name := .wordAt 5 9 "a"
      bounds := [⟨6, ⟨10, 13⟩, .group .bracket, "[2]"⟩], ending := []
      stars_or_qualifiers := by decide +kernel
      name_isName := by decide +kernel
      bounds_brackets := by decide +kernel
      ending_marked := Or.inl rfl }
  let b : Declarator :=
    { stars := [.signAt 9 15 "*", .wordAt 11 17 "const"], name := .wordAt 13 23 "b", bounds := []
      ending := [.signAt 15 25 "=", .wordAt 17 27 "f", ⟨18, ⟨28, 34⟩, .group .paren, "(1, 2)"⟩]
      stars_or_qualifiers := by decide +kernel
      name_isName := by decide +kernel
      bounds_brackets := by decide +kernel
      ending_marked := Or.inr ⟨_, _, rfl, Or.inl (by decide +kernel),
        by unfold Statement.Open; decide +kernel⟩ }
  let c : Declarator :=
    { stars := [], name := .wordAt 21 36 "c", bounds := []
      ending := [.signAt 23 38 ":", .wordAt 25 40 "3"]
      stars_or_qualifiers := by decide +kernel
      name_isName := by decide +kernel
      bounds_brackets := by decide +kernel
      ending_marked := Or.inr ⟨_, _, rfl, Or.inr (by decide +kernel),
        by unfold Statement.Open; decide +kernel⟩ }
  let l : DeclaratorList := .more a (.signAt 7 13 ",") (by decide +kernel)
    (.more b (.signAt 19 34 ",") (by decide +kernel)
      (.last c (.signAt 26 41 ";") (by decide +kernel)))
  let type : List Token := [.wordAt 0 0 "const", .wordAt 2 6 "T"]
  have htype : ∀ t ∈ type, t.IsTypeWord := by
    unfold Token.IsTypeWord
    decide +kernel
  have hwidth : ∀ entry ∈ l.entries, entry.1.WidthStaysOpen := by
    have hbrace : ∀ entry ∈ l.entries, ∀ t ∈ entry.1.ending, t.isGroup .brace = false := by
      decide +kernel
    exact fun entry hentry => Declarator.widthStaysOpen_of_no_brace (hbrace entry hentry)
  have hwritten : withoutTrivia
      (TokenStream.ofSource 0 "const T *a[2], * const b = f(1, 2), c : 3;") =
        type ++ l.written := by
    decide +kernel
  obtain ⟨hvariables, -, hcarry⟩ := parseAll_list htype hwidth hwritten
  exact ⟨type, l, htype, hwidth, hwritten, hvariables, hcarry⟩

/-- The size of a compound literal as a bit width: the statement is cut behind the literal, and the
next declarator has no type. -/
theorem literal_in_width_cuts_list :
    let read := fun text => (idle.parseAll (Statement.ofSource 0 text)).map fun v =>
      (TokenList.texts v.typename, v.name.text, v.terminator)
    read "unsigned a : sizeof (int)\x7b3\x7d, b;" =
      [(["unsigned"], "a", ""), ([], "b", ";")] := by
  decide +kernel

end TypeCarry

end CBoundary
