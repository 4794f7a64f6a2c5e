import CBoundary.Proofs.CallArguments

/-!
Macros with one parameter whose body is nothing but the parameter, quoted or plain. A quoted
argument is put in as it is written; no quote in it can close the literal, so the second scan
leaves it as it is, whatever macros there are. A plain argument is put in expanded and scanned
again: names that the first scan had to leave alone are looked up once more, and the argument comes
out as it went in only if the second scan finds nothing to expand. Main statements:
`passes_escapeChars`, `quoting_call` and `plain_call`.
-/
namespace CBoundary.MacroExpansion

open CharacterClass Extent

section Words

variable {mode : Lexeme.Mode} {c : Char} {rest word : List Char}

theorem ne_of_isWordChar (h : isWordChar c = true) {mark : Char} (hmark : isWordChar mark = false) :
    c ≠ mark := by
  rintro rfl
  simp [h] at hmark

theorem isBlank_of_isWordChar (h : isWordChar c = true) : isBlank c = false := by
  cases hblank : isBlank c with
  | false => rfl
  | true =>
    simp only [isBlank, Bool.or_eq_true, beq_iff_eq] at hblank
    rcases hblank with (((rfl | rfl) | rfl) | rfl) | rfl <;> exact absurd h (by decide)

/-- No operator starts with a character of words. -/
theorem operator?_of_isWordChar (h : isWordChar c = true) (rest : List Char) :
    Lexeme.operator? (c :: rest) = none :=
  Lexeme.operator?_eq_none (by decide) h rest

/-- A word is a single lexeme, up to where the word characters end. -/
theorem first_word {behind : List Char} (h : ∀ d ∈ c :: rest, isWordChar d = true)
    (hbehind : ∀ d ∈ behind.head?, isWordChar d = false) :
    Lexeme.first mode c (rest ++ behind) = (.word, rest.length + 1) := by
  have hc : isWordChar c = true := h c List.mem_cons_self
  have hopener : Delim.ofOpener? c = none := by
    cases hopen : Delim.ofOpener? c with
    | none => rfl
    | some d =>
      rw [Lexeme.ofOpener?_eq_some hopen] at hc
      cases d <;> exact absurd hc (by decide)
  have htake : (c :: (rest ++ behind)).takeWhile isWordChar = c :: rest := by
    rw [← List.cons_append, List.takeWhile_append_of_pos h]
    cases behind with
    | nil => rw [List.takeWhile_nil, List.append_nil]
    | cons d behind => rw [List.takeWhile_cons_of_neg (by simp [hbehind d rfl]), List.append_nil]
  have hatom : Lexeme.atom? mode c (rest ++ behind) = some (.word, rest.length + 1) := by
    rw [Lexeme.atom?_default (ne_of_isWordChar hc (by decide)) (ne_of_isWordChar hc (by decide))
      (ne_of_isWordChar hc (by decide)) (ne_of_isWordChar hc (by decide))
      (ne_of_isWordChar hc (by decide))
      (fun _ hslash _ => ne_of_isWordChar hc (by decide) hslash)
      (fun _ hslash _ => ne_of_isWordChar hc (by decide) hslash),
      if_neg (by simp [isBlank_of_isWordChar hc]), Lexeme.operatorOrWord?,
      operator?_of_isWordChar hc, Option.none_or, Lexeme.word?, htake]
    rfl
  rw [Lexeme.first, hopener]
  simp [hatom]

/-- The tokens of a word in a body: one word. -/
theorem kind_of_mem_word {index offset : ℕ} {t : Token} (hne : word ≠ [])
    (h : ∀ c ∈ word, isWordChar c = true)
    (ht : t ∈ TokenStream.ofChars .definitionBody index offset word) : t.kind = .word := by
  obtain ⟨c, rest, rfl⟩ := List.exists_cons_of_ne_nil hne
  have hfirst : Lexeme.first .definitionBody c (rest ++ []) = (.word, rest.length + 1) :=
    first_word h (by simp)
  rw [List.append_nil] at hfirst
  rw [TokenStream.ofChars_cons, hfirst, List.drop_of_length_le (by simp),
    TokenStream.ofChars_nil, List.mem_singleton] at ht
  rw [ht]

/-- In a body, a number sign in front of a word is an operator. -/
theorem first_number_sign (hne : word ≠ []) (h : ∀ c ∈ word, isWordChar c = true) :
    Lexeme.first .definitionBody '#' word = (.punctuation, 1) := by
  obtain ⟨c, rest, rfl⟩ := List.exists_cons_of_ne_nil hne
  have hc : '#' ≠ c := (ne_of_isWordChar (h c List.mem_cons_self) (by decide)).symm
  have hoperator : Lexeme.operator? ('#' :: c :: rest) = some (.punctuation, 1) := by
    simp [Lexeme.operator?, Lexeme.operators, List.isPrefixOf, hc]
  have hatom : Lexeme.atom? .definitionBody '#' (c :: rest) = some (.punctuation, 1) := by
    simp [Lexeme.atom?, Lexeme.operatorOrWord?, hoperator]
  rw [Lexeme.first]
  simp [Delim.ofOpener?, hatom]

end Words

/-- The table has a macro with one parameter, a word, under a name. -/
structure OneParameter (table : MacroTable) (word : List Char) (definition : MacroDefinition)
    (parameter body : Token) : Prop where
  isName : IsName word
  registered : table.get? (String.ofList word) = some definition
  parameters : definition.parameters = some [parameter]
  nonempty : parameter.chars ≠ []
  wordChars : ∀ c ∈ parameter.chars, isWordChar c = true
  body : definition.body = some body

/-- An argument that is balanced between parentheses and has no comma outside groups and
literals. -/
structure SingleArgument (argument : List Char) : Prop where
  balanced : ∃ t, TokenStream.ofChars .source 0 0 ('(' :: argument ++ [')']) = [t] ∧
    t.kind = .group .paren
  noComma : ∀ t ∈ TokenStream.ofChars .source 0 0 argument, t.isPunct "," = false

section OneParameter

variable {table : MacroTable} {word argument : List Char} {definition : MacroDefinition}
  {parameter body : Token}

theorem SingleArgument.entries_eq (h : SingleArgument argument) :
    entries argument = [argument] := by
  rw [entries, between_of_no_comma h.noComma, TokenStream.flatMap_chars_ofChars]

theorem SingleArgument.of_kinds
    (hgroup : (TokenStream.ofChars .source 0 0 ('(' :: argument ++ [')'])).map Token.kind =
      [.group .paren])
    (hcomma : ∀ t ∈ TokenStream.ofChars .source 0 0 argument, t.isPunct "," = false) :
    SingleArgument argument := by
  obtain ⟨t, htokens, hkind⟩ := List.map_eq_singleton_iff.1 hgroup
  exact ⟨⟨t, htokens, hkind⟩, hcomma⟩

theorem isWellFormed_of_body (hbody : definition.body = some body)
    (h : ∀ t ∈ TokenStream.ofChars .definitionBody 0 0 body.chars, t.kind ≠ .unknown) :
    definition.isWellFormed = true := by
  rw [MacroDefinition.isWellFormed, hbody, Option.map_some, Option.getD_some,
    TokenStream.isWellFormed, TokenStream.ofText, List.all_eq_true]
  intro t ht
  simpa using h t ht

/-- A macro whose one parameter is written `x`. -/
theorem exists_oneParameter {name written : String} (hname : IsName name.toList)
    (hget : table.get? name = some (MacroDefinition.make name (some ["x"]) written))
    (hwritten : trim (CommentBlanking.blankChars (MacroDefinition.joinLines written.toList)) =
      written.toList) (hne : written.toList ≠ []) :
    ∃ parameter body, OneParameter table name.toList
        (MacroDefinition.make name (some ["x"]) written) parameter body ∧
      parameter.chars = ['x'] ∧ body.chars = written.toList := by
  have hread : ∃ parameter ∈ (MacroDefinition.readParameters 0 ['x']).1,
      (MacroDefinition.readParameters 0 ['x']).1 = [parameter] ∧ parameter.chars = ['x'] := by
    decide +kernel
  obtain ⟨parameter, -, hlist, hchars⟩ := hread
  have hparameters : (MacroDefinition.make name (some ["x"]) written).parameters =
      some [MacroDefinition.unplaced parameter] :=
    congrArg (fun tokens : List Token => some (tokens.map MacroDefinition.unplaced)) hlist
  have hbody : ∃ body, (MacroDefinition.make name (some ["x"]) written).body = some body ∧
      body.chars = written.toList := by
    simp [MacroDefinition.make, MacroDefinition.readBody, hwritten, hne, MacroDefinition.unplaced,
      Token.chars]
  obtain ⟨body, hsome, hbody⟩ := hbody
  have hword : (MacroDefinition.unplaced parameter).chars = ['x'] := hchars
  refine ⟨MacroDefinition.unplaced parameter, body, ⟨hname, ?_, hparameters, ?_, ?_, hsome⟩, hword,
    hbody⟩
  · rw [String.ofList_toList, hget]
  · simp [hword]
  · rw [hword]
    exact List.forall_mem_singleton.2 (by decide)

/-- A macro that quotes its parameter has a body without unknown characters. -/
theorem OneParameter.isWellFormed_of_quoted (h : OneParameter table word definition parameter body)
    (hbody : body.chars = '#' :: parameter.chars) : definition.isWellFormed = true := by
  refine isWellFormed_of_body h.body ?_
  rw [hbody, TokenStream.ofChars_cons, first_number_sign h.nonempty h.wordChars]
  intro t ht
  rcases List.mem_cons.1 ht with rfl | ht
  · simp
  · have hkind := kind_of_mem_word h.nonempty h.wordChars ht
    simp [hkind]

/-- So has a macro whose body is its parameter. -/
theorem OneParameter.isWellFormed_of_plain (h : OneParameter table word definition parameter body)
    (hbody : body.chars = parameter.chars) : definition.isWellFormed = true := by
  refine isWellFormed_of_body h.body ?_
  intro t ht
  rw [hbody] at ht
  have hkind := kind_of_mem_word h.nonempty h.wordChars ht
  simp [hkind]

/-- A single argument is enough for one parameter, which gets all of it. -/
theorem SingleArgument.passed_eq (ha : SingleArgument argument) (isVariadic : Bool) :
    fewest isVariadic 1 ≤ (entries argument).length ∧
      passed isVariadic 1 (entries argument) = [argument] := by
  rw [ha.entries_eq, fewest, passed]
  cases isVariadic <;> simp

/-- Such a call, as a whole text, comes to what its one argument makes of the body. -/
theorem OneParameter.expand_eq_applied {aside : List String}
    (h : OneParameter table word definition parameter body) (hfree : String.ofList word ∉ aside)
    (ha : SingleArgument argument) :
    expand table aside (word ++ ('(' :: argument ++ [')'])) =
      applied table aside (String.ofList word) definition [parameter] body [argument] := by
  have hreads := reads_call h.isName h.registered hfree h.parameters ha.balanced
  have henough : fewest definition.isVariadic [parameter].length ≤ (entries argument).length :=
    (ha.passed_eq definition.isVariadic).1
  have hexpansion :
      (Stretch.invocation (.call word definition [parameter] [] argument)).expansion
        table aside =
        applied table aside (String.ofList word) definition [parameter] body [argument] := by
    refine (pieceExpansion_of_enough h.body henough).trans ?_
    rw [List.length_singleton, (ha.passed_eq definition.isVariadic).2]
  rw [hreads.expand_eq, List.map_singleton, hexpansion]
  simp [Expansion.join]

end OneParameter

section Bodies

variable {parameter : Token} (argument : List Char × List Char)

theorem find?_parameter (name written expanded : List Char) :
    Substitution.find? [⟨name, written, expanded⟩] name = some ⟨name, written, expanded⟩ := by
  simp [Substitution.find?]

theorem joinChain_nil : Substitution.joinChain [] = ([], []) := by
  rw [Substitution.joinChain]
  rfl

/-- A quoted parameter becomes the literal of the argument as it is written. -/
theorem substituted_quoted (hne : parameter.chars ≠ [])
    (h : ∀ c ∈ parameter.chars, isWordChar c = true) :
    substituted [parameter] [argument] ('#' :: parameter.chars) =
      LiteralEscape.quote argument.1 := by
  obtain ⟨written, expanded⟩ := argument
  have hblank : parameter.chars.dropWhile isBlank = parameter.chars := by
    obtain ⟨c, rest, hchars⟩ := List.exists_cons_of_ne_nil hne
    have hc : isBlank c = false := isBlank_of_isWordChar (h c (by simp [hchars]))
    simp [hchars, hc]
  have hstep : Substitution.step [⟨parameter.chars, written, expanded⟩] '#' parameter.chars =
      (LiteralEscape.quote written, []) := by
    unfold Substitution.step
    split
    · rename_i hchars
      exact absurd (h '#' (by simp [hchars])) (by decide)
    · simp [hblank, List.takeWhile_eq_self_iff.2 h, List.dropWhile_eq_nil_iff.2 h, hne,
        Substitution.quoted, find?_parameter]
  simp [substituted, bound, Substitution.substitute, hstep]

/-- A plain parameter becomes the argument expanded. -/
theorem substituted_plain (hne : parameter.chars ≠ [])
    (h : ∀ c ∈ parameter.chars, isWordChar c = true) :
    substituted [parameter] [argument] parameter.chars = argument.2 := by
  obtain ⟨written, expanded⟩ := argument
  obtain ⟨c, rest, hchars⟩ := List.exists_cons_of_ne_nil hne
  rw [hchars] at h
  have hc : isWordChar c = true := h c List.mem_cons_self
  have hrest : ∀ d ∈ rest, isWordChar d = true := fun d hd => h d (List.mem_cons_of_mem c hd)
  have hword : c :: rest.takeWhile isWordChar = parameter.chars := by
    rw [List.takeWhile_eq_self_iff.2 hrest, hchars]
  have hstep : Substitution.step [⟨parameter.chars, written, expanded⟩] c rest =
      (expanded, []) := by
    unfold Substitution.step
    split
    · exact absurd hc (by decide)
    · have hdouble : c ≠ '"' := ne_of_isWordChar hc (by decide)
      have hsingle : c ≠ '\'' := ne_of_isWordChar hc (by decide)
      have hnumber : c ≠ '#' := ne_of_isWordChar hc (by decide)
      rw [if_neg (by simp [hdouble, hsingle]), if_neg hnumber, if_pos hc,
        List.dropWhile_eq_nil_iff.2 hrest, joinChain_nil, hword]
      simp [Substitution.plain, find?_parameter]
  have hbody : Substitution.substitute [⟨parameter.chars, written, expanded⟩] (c :: rest) =
      expanded := by
    rw [Substitution.substitute, hstep]
    simp [Substitution.substitute]
  rw [← hchars] at hbody
  exact hbody

end Bodies

/-- In an escaped text a quote stands only behind a backslash that is not escaped itself. -/
theorem passes_escapeChars (text : List Char) :
    Passes '"' '\\' (LiteralEscape.escapeChars text) := by
  induction text with
  | nil => exact .nil
  | cons c rest ih =>
    change Passes '"' '\\' (LiteralEscape.escapeChar c ++ LiteralEscape.escapeChars rest)
    unfold LiteralEscape.escapeChar
    split
    · exact .escaped '\\' ih
    · exact .escaped 'n' ih
    · exact .escaped 't' ih
    · exact .escaped '"' ih
    · rename_i hbackslash _ _ hquote
      exact .plain hquote hbackslash ih

/-- A stretch at the front is replaced by itself, and the scan goes on behind it. -/
theorem expand_stretch {table : MacroTable} {aside : List String} {s : Stretch} {behind : List Char}
    (hs : s.Stands table aside behind) :
    expand table aside (s.written ++ behind) =
      Expansion.join [s.expansion table aside, expand table aside behind] := by
  obtain ⟨parts, hreads⟩ := exists_reads table aside behind
  rw [(Reads.cons hs hreads).expand_eq, hreads.expand_eq]
  simp [Expansion.join]

theorem expand_nil (table : MacroTable) (aside : List String) :
    expand table aside [] = Expansion.copied [] := by
  rw [(Reads.nil : Reads table aside [] []).expand_eq]
  rfl

/-- A literal with an escaped text expands to itself, whatever stands behind it. -/
theorem expand_quote_append (table : MacroTable) (aside : List String) (text behind : List Char) :
    expand table aside (LiteralEscape.quote text ++ behind) =
      Expansion.join [Expansion.copied (LiteralEscape.quote text), expand table aside behind] := by
  have hstands : (Stretch.skipped (.literal '"' (LiteralEscape.escapeChars text))).Stands table
      aside behind := ⟨Or.inl rfl, passes_escapeChars text⟩
  exact expand_stretch hstands

theorem expand_quote (table : MacroTable) (aside : List String) (text : List Char) :
    expand table aside (LiteralEscape.quote text) =
      Expansion.copied (LiteralEscape.quote text) := by
  have hwhole := expand_quote_append table aside text []
  rw [List.append_nil, expand_nil] at hwhole
  rw [hwhole]
  simp [Expansion.join, Expansion.copied]

theorem toList_call (name argument : String) : (name ++ "(" ++ argument ++ ")").toList =
    name.toList ++ ('(' :: argument.toList ++ [')']) := by simp

section Calls

variable {table : MacroTable} {aside : List String} {word argument : List Char}
  {definition : MacroDefinition} {parameter body : Token}

/-- The argument is expanded once on its own, and once more in the body. -/
theorem OneParameter.expand_of_isWellFormed (h : OneParameter table word definition parameter body)
    (hwell : definition.isWellFormed = true) (hfree : String.ofList word ∉ aside)
    (ha : SingleArgument argument) :
    let once := argumentExpansion table aside argument
    let twice := expand table (String.ofList word :: aside)
      (substituted [parameter] [prepared table aside argument] body.chars)
    expand table aside (word ++ ('(' :: argument ++ [')'])) =
      ⟨twice.text, once.errors ++ twice.errors⟩ := by
  intro once twice
  rw [h.expand_eq_applied hfree ha, applied, if_neg (by simp [hwell]), if_neg (by simp),
    List.map_singleton, List.flatMap_singleton]

/-- Quoting looks at the argument as it is written, though what is wrong in it is reported. -/
theorem OneParameter.expand_quoted (h : OneParameter table word definition parameter body)
    (hbody : body.chars = '#' :: parameter.chars) (hfree : String.ofList word ∉ aside)
    (ha : SingleArgument argument) :
    expand table aside (word ++ ('(' :: argument ++ [')'])) =
      ⟨LiteralEscape.quote (cleanArgument argument),
        (argumentExpansion table aside argument).errors⟩ := by
  rw [h.expand_of_isWellFormed (h.isWellFormed_of_quoted hbody) hfree ha, hbody,
    substituted_quoted _ h.nonempty h.wordChars, expand_quote]
  simp [prepared, Expansion.copied]

/-- Passing an argument on expands it twice, the second time with the macro set aside. -/
theorem OneParameter.expand_plain (h : OneParameter table word definition parameter body)
    (hbody : body.chars = parameter.chars) (hfree : String.ofList word ∉ aside)
    (ha : SingleArgument argument) :
    let once := argumentExpansion table aside argument
    let twice := expand table (String.ofList word :: aside) once.text
    expand table aside (word ++ ('(' :: argument ++ [')'])) =
      ⟨twice.text, once.errors ++ twice.errors⟩ := by
  intro once twice
  rw [h.expand_of_isWellFormed (h.isWellFormed_of_plain hbody) hfree ha, hbody,
    substituted_plain _ h.nonempty h.wordChars]
  rfl

end Calls

/-- A call of a macro that quotes its parameter is the literal of the argument, without comments and
without white space around it, whatever other macros there are. -/
theorem quoting_call (table : MacroTable) {name argument : String} {definition : MacroDefinition}
    {parameter body : Token} (h : OneParameter table name.toList definition parameter body)
    (hbody : body.chars = '#' :: parameter.chars) (ha : SingleArgument argument.toList) :
    (table.expand (name ++ "(" ++ argument ++ ")")).text =
      LiteralEscape.quote (trim (CommentBlanking.blankChars argument.toList)) := by
  rw [MacroTable.expand, toList_call, h.expand_quoted hbody List.not_mem_nil ha]
  rfl

/-- An argument with a literal and a comment in it that mentions another macro. -/
theorem quoted_as_written :
    ∃ table : MacroTable, (table.get? "A").isSome = true ∧
      (table.expand "S(f(\"\\n\", A) /* c */)").text = "\"f(\\\"\\\\n\\\", A)\"".toList := by
  let table := (MacroTable.empty.insert (MacroDefinition.make "S" (some ["x"]) "#x")).insert
    (MacroDefinition.make "A" none "1")
  have hget : table.get? "S" = some (MacroDefinition.make "S" (some ["x"]) "#x") := by
    simp [table, MacroTable.get?_insert, MacroDefinition.make]
  obtain ⟨parameter, body, hone, hparameter, hbody⟩ := exists_oneParameter
    (by decide) hget (by decide +kernel) (by decide)
  have hargument : SingleArgument "f(\"\\n\", A) /* c */".toList := by
    apply SingleArgument.of_kinds
    · decide +kernel
    · decide +kernel
  have hquoted := quoting_call table hone (by rw [hbody, hparameter]; rfl) hargument
  refine ⟨table, by simp [table, MacroTable.get?_insert, MacroDefinition.make], hquoted.trans ?_⟩
  decide +kernel

/-- A text without invocations stays as it is. -/
theorem Reads.expand_of_no_invocation {table : MacroTable} {aside : List String} {text : List Char}
    {parts : List Stretch} (h : Reads table aside text parts)
    (hnone : ∀ i, Stretch.invocation i ∉ parts) :
    expand table aside text = Expansion.copied text := by
  have hcopied : ∀ s ∈ parts, s.expansion table aside = Expansion.copied s.written := by
    intro s hs
    cases s with
    | invocation i => exact absurd hs (hnone i)
    | _ => rfl
  rw [h.expand_eq, List.map_congr_left hcopied, join_copied, h.flatMap_written]

/-- Blanking the comments changes nothing where there are none. -/
theorem blankChars_of_no_comment {text : List Char}
    (h : ∀ t ∈ TokenStream.ofChars .definitionBody 0 0 text, t.kind.isComment = false) :
    CommentBlanking.blankChars text = text := by
  have hblank : ∀ t ∈ TokenStream.ofChars .definitionBody 0 0 text,
      CommentBlanking.blankToken t = t.chars := by
    intro t ht
    simp [CommentBlanking.blankToken, h t ht]
  rw [CommentBlanking.blankChars, List.flatMap_def, List.map_congr_left hblank, ← List.flatMap_def,
    TokenStream.flatMap_chars_ofChars]

/-- A call of a macro whose body is its parameter comes to the expansion of the argument, expanded
once more with the macro set aside. It is that expansion itself if nothing in it is an invocation
any more. -/
theorem plain_call (table : MacroTable) {name argument : String} {definition : MacroDefinition}
    {parameter body : Token} (h : OneParameter table name.toList definition parameter body)
    (hbody : body.chars = parameter.chars) (ha : SingleArgument argument.toList)
    (htrim : trim argument.toList = argument.toList)
    (hcomment : ∀ t ∈ TokenStream.ofChars .definitionBody 0 0 argument.toList,
      t.kind.isComment = false) :
    let once := (table.expand argument).text
    let through := (table.expand (name ++ "(" ++ argument ++ ")")).text
    through = (MacroExpansion.expand table [name] once).text ∧
      ∀ parts, Reads table [name] once parts → (∀ i, .invocation i ∉ parts) → through = once := by
  intro once through
  have hclean : cleanArgument argument.toList = argument.toList := by
    rw [cleanArgument, blankChars_of_no_comment hcomment, htrim]
  have hthrough : through = (MacroExpansion.expand table [name] once).text := by
    simp only [through, MacroTable.expand]
    rw [toList_call, h.expand_plain hbody List.not_mem_nil ha, argumentExpansion, hclean,
      String.ofList_toList]
    rfl
  refine ⟨hthrough, ?_⟩
  intro parts hparts hnone
  rw [hthrough, hparts.expand_of_no_invocation hnone]
  rfl

/-- An argument that mentions a macro whose body has nothing left to expand. -/
theorem argument_passed_through :
    ∃ table : MacroTable, (table.expand "B").text = "1 + 2".toList ∧
      (table.expand "ID(B)").text = (table.expand "B").text := by
  let table := (MacroTable.empty.insert (MacroDefinition.make "ID" (some ["x"]) "x")).insert
    (MacroDefinition.make "B" none "1 + 2")
  have honce : (table.expand "B").text = "1 + 2".toList := by
    have hname : pieces table [] "B".toList =
        .name "B" (MacroDefinition.make "B" none "1 + 2") :: [].map .copied := by decide +kernel
    have hbody : pieces table ["B"] "1 + 2".toList =
        [['1'], [' '], ['+'], [' '], ['2']].map .copied := by decide +kernel
    rw [MacroTable.expand, expand_of_pieces_name "1 + 2".toList hname (by decide +kernel)
      (by decide +kernel), expand_of_pieces_copied hbody]
    rfl
  have hget : table.get? "ID" = some (MacroDefinition.make "ID" (some ["x"]) "x") := by
    simp [table, MacroTable.get?_insert, MacroDefinition.make]
  obtain ⟨parameter, body, hone, hparameter, hbody⟩ := exists_oneParameter
    (by decide) hget (by decide +kernel) (by decide)
  have hargument : SingleArgument "B".toList := by
    apply SingleArgument.of_kinds
    · decide +kernel
    · decide +kernel
  obtain ⟨-, hstays⟩ := plain_call table hone (by rw [hbody, hparameter]; rfl) hargument
    (by decide) (by decide +kernel)
  obtain ⟨parts, hparts⟩ := exists_reads table ["ID"] (table.expand "B").text
  have hpieces : pieces table ["ID"] "1 + 2".toList =
      [.copied ['1'], .copied [' '], .copied ['+'], .copied [' '], .copied ['2']] := by
    decide +kernel
  refine ⟨table, honce, hstays parts hparts ?_⟩
  intro i hi
  have hpiece : i.piece ∈ pieces table ["ID"] (table.expand "B").text := by
    rw [hparts.pieces_eq]
    exact List.mem_map_of_mem hi
  rw [honce, hpieces] at hpiece
  cases i <;> simp [Invocation.piece] at hpiece

/-- A name that was left alone in its own body is expanded once more behind the call, so the call
does not come to what its argument comes to. -/
theorem self_reference_expanded_again :
    ∃ (table : MacroTable) (definition : MacroDefinition) (parameter body : Token),
      OneParameter table "ID".toList definition parameter body ∧ body.chars = parameter.chars ∧
      SingleArgument "A".toList ∧ trim "A".toList = "A".toList ∧
      (∀ t ∈ TokenStream.ofChars .definitionBody 0 0 "A".toList, t.kind.isComment = false) ∧
      (table.expand "A").text = "A + 1".toList ∧
      (table.expand "ID(A)").text = "A + 1 + 1".toList := by
  let table := (MacroTable.empty.insert (MacroDefinition.make "ID" (some ["x"]) "x")).insert
    (MacroDefinition.make "A" none "A + 1")
  have hargument : SingleArgument "A".toList := by
    apply SingleArgument.of_kinds
    · decide +kernel
    · decide +kernel
  have hget : table.get? "ID" = some (MacroDefinition.make "ID" (some ["x"]) "x") := by
    simp [table, MacroTable.get?_insert, MacroDefinition.make]
  obtain ⟨parameter, body, hone, hparameter, hbody⟩ := exists_oneParameter
    (by decide) hget (by decide +kernel) (by decide)
  have hplain : body.chars = parameter.chars := by rw [hbody, hparameter]; rfl
  let own := MacroDefinition.make "A" none "A + 1"
  -- In its own body the name is left alone, whether the call is going on or not.
  have hleft : ∀ aside ∈ [["A"], ["A", "ID"]], expand table aside "A + 1".toList =
      Expansion.copied "A + 1".toList := by
    have hpieces : ∀ aside ∈ [["A"], ["A", "ID"]], pieces table aside "A + 1".toList =
        [['A'], [' '], ['+'], [' '], ['1']].map .copied := by decide +kernel
    exact fun aside haside => expand_of_pieces_copied (hpieces aside haside)
  have halone : (table.expand "A").text = "A + 1".toList := by
    have hpieces : pieces table [] "A".toList = .name "A" own :: [].map .copied := by
      decide +kernel
    rw [MacroTable.expand, expand_of_pieces_name "A + 1".toList hpieces (by decide +kernel)
      (by decide +kernel), hleft _ List.mem_cons_self]
    rfl
  have hcalled : (table.expand "ID(A)").text = "A + 1 + 1".toList := by
    have hpieces : pieces table ["ID"] "A + 1".toList =
        .name "A" own :: [[' '], ['+'], [' '], ['1']].map .copied := by decide +kernel
    refine (plain_call table hone hplain hargument (by decide) (by decide +kernel)).1.trans ?_
    rw [halone, expand_of_pieces_name "A + 1".toList hpieces (by decide +kernel)
      (by decide +kernel), hleft _ (List.mem_cons_of_mem _ List.mem_cons_self)]
    rfl
  exact ⟨table, _, parameter, body, hone, hplain, hargument, by decide, by decide +kernel, halone,
    hcalled⟩

end CBoundary.MacroExpansion
