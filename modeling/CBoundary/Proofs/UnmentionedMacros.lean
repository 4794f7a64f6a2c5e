import CBoundary.Proofs.TableMerge
import CBoundary.Proofs.WordRuns

/-!
Macros that are not mentioned. Expansion looks up no name but the words of the texts it scans, and
these are words of the text and of the bodies, unless the text that a call comes to meets a word
directly behind the call. So a macro whose name is none of these words, nor several of them glued
together where words stand behind closing parentheses, makes no difference. Main statements:
`expand_congr` and `expand_of_unmentioned`.
-/
namespace CBoundary.MacroExpansion

open CharacterClass Substitution TextPosition

/-- The text is the body of a macro in the table. -/
def IsBody (table : MacroTable) (text : List Char) : Prop :=
  ∃ name definition body, table.get? name = some definition ∧ definition.body = some body ∧
    text = body.chars

/-- The bodies of the table are spelled in the vocabulary, and have no operators. -/
def Vocabulary.SpellsBodies (V : Vocabulary) (table : MacroTable) : Prop :=
  ∀ body, IsBody table body → '#' ∉ body ∧ V.Spells body

/-- The tables have the same macros under the words of the vocabulary. -/
def Vocabulary.Agree (V : Vocabulary) (table other : MacroTable) : Prop :=
  ∀ word, V.Has word → other.get? (String.ofList word) = table.get? (String.ofList word)

/-- Two tables give the same expansion of a text, and it is spelled in the vocabulary. -/
def SameExpansion (V : Vocabulary) (table other : MacroTable) (aside : List String)
    (text : List Char) : Prop :=
  expand other aside text = expand table aside text ∧ V.Spells (expand table aside text).text

section Agreement

variable {V : Vocabulary} {table other : MacroTable} {aside : List String} {text behind : List Char}

theorem firstPiece_congr {c : Char} {rest : List Char}
    (h : isWordChar c = true → other.get? (String.ofList (c :: rest.takeWhile isWordChar)) =
      table.get? (String.ofList (c :: rest.takeWhile isWordChar))) :
    firstPiece other aside c rest = firstPiece table aside c rest := by
  unfold firstPiece
  split
  · rename_i hc
    simp only [wordPiece, h hc]
  · rfl

/-- The word at the front of a text is in its vocabulary. -/
theorem has_front {c : Char} {rest : List Char} (hs : V.Spells (c :: rest))
    (hc : isWordChar c = true) : V.Has (c :: rest.takeWhile isWordChar) := by
  obtain ⟨word, behind, hsplit, hw⟩ := exists_isWord hc rest
  have htake := takeWhile_of_isWord hw
  rw [← hsplit, List.takeWhile_cons_of_pos hc] at htake
  rw [htake]
  exact (hs [] word behind hsplit ⟨hw, by simp⟩).1

/-- Tables that agree on the words of a text find the same pieces in it. -/
theorem pieces_congr {parts : List Stretch} (h : Reads table aside text parts)
    (hs : V.Spells text) (hagree : V.Agree table other) :
    pieces other aside text = pieces table aside text := by
  induction h with
  | nil => simp [pieces]
  | @cons s behind rest hstands hrest ih =>
    obtain ⟨c, tail, hsplit, hfirst⟩ := firstPiece_of_stands hstands
    have hbehind : V.Spells behind := hs.back hstands.apart
    rw [hsplit] at hs ⊢
    have hsame : firstPiece other aside c tail = firstPiece table aside c tail :=
      firstPiece_congr fun hc => hagree _ (has_front hs hc)
    rw [pieces, pieces, hsame, hfirst, ih hbehind]

/-- The argument list of a call that stands in a text. -/
theorem spells_arguments {word gap arguments : List Char} {definition : MacroDefinition}
    {parameters : List Token}
    (hs : V.Spells ((Invocation.call word definition parameters gap arguments).written ++ behind)) :
    V.Spells arguments := by
  have hsplit : (Invocation.call word definition parameters gap arguments).written ++ behind =
      (word ++ gap ++ ['(']) ++ (arguments ++ ')' :: behind) := by
    simp [Invocation.written, Invocation.word, Invocation.list]
  rw [hsplit] at hs
  exact (hs.back (apart_append_mark _ (by decide))).front (apart_mark (by decide))

/-- A call comes to the same for both tables if its arguments and the text in its place do. -/
theorem applied_congr {name : String} {definition : MacroDefinition} {parameters : List Token}
    {body : Token} {values : List (List Char)} (hbody : '#' ∉ body.chars ∧ V.Spells body.chars)
    (hinner : ∀ text, V.Spells text → SameExpansion V table other (name :: aside) text)
    (hvalues : ∀ value ∈ values, SameExpansion V table other aside (cleanArgument value)) :
    applied other aside name definition parameters body values =
        applied table aside name definition parameters body values ∧
      V.Spells (applied table aside name definition parameters body values).text := by
  have hargument : ∀ value ∈ values,
      argumentExpansion other aside value = argumentExpansion table aside value :=
    fun value hvalue => (hvalues value hvalue).1
  have hprepared : values.map (prepared other aside) = values.map (prepared table aside) := by
    refine List.map_congr_left fun value hvalue => ?_
    rw [prepared, prepared, hargument value hvalue]
  have herrors : values.flatMap (fun value => (argumentExpansion other aside value).errors) =
      values.flatMap fun value => (argumentExpansion table aside value).errors := by
    rw [List.flatMap_def, List.flatMap_def]
    refine congrArg List.flatten (List.map_congr_left fun value hvalue => ?_)
    rw [hargument value hvalue]
  have hbindings : ∀ b ∈ bound parameters (values.map (prepared table aside)),
      V.Spells b.expanded := by
    intro b hb
    have hexpanded := expanded_mem_of_mem_bound hb
    rw [List.map_map] at hexpanded
    obtain ⟨value, hvalue, hexpansion⟩ := List.mem_map.1 hexpanded
    rw [← hexpansion]
    exact (hvalues value hvalue).2
  obtain ⟨hplain, hbody⟩ := hbody
  have hscanned := hinner _ ((turns_substitute hplain hbindings).spells hbody)
  rw [applied, applied, hprepared, herrors]
  by_cases hwell : (!definition.isWellFormed) = true
  · rw [if_pos hwell, if_pos hwell]
    exact ⟨rfl, hbody⟩
  · rw [if_neg hwell, if_neg hwell]
    by_cases hempty : parameters.isEmpty = true
    · rw [if_pos hempty, if_pos hempty]
      exact hinner body.chars hbody
    · rw [if_neg hempty, if_neg hempty]
      refine ⟨?_, hscanned.2⟩
      rw [substituted, hscanned.1]

/-- An invocation that stands in a text comes to the same for both tables, if that is so for the
bodies and for the shorter texts which it leads to. -/
theorem invocation_congr {i : Invocation} {size : ℕ} (hi : i.Stands table aside behind)
    (hs : V.Spells (i.written ++ behind)) (hfits : Fits table aside size i.piece)
    (hbodies : V.SpellsBodies table)
    (hinner : ∀ name ∈ available table aside, ∀ text, V.Spells text →
      SameExpansion V table other (name :: aside) text)
    (hshorter : ∀ argument, byteLength argument < size → V.Spells argument →
      SameExpansion V table other aside argument) :
    pieceExpansion other aside i.piece = pieceExpansion table aside i.piece ∧
      V.Spells (pieceExpansion table aside i.piece).text := by
  have hempty : V.Spells [] := spells_of_no_word (by simp)
  cases i with
  | name word definition =>
    rw [Invocation.piece, pieceExpansion, pieceExpansion]
    cases hbody : definition.body with
    | none => exact ⟨rfl, hempty⟩
    | some body =>
      have hspells := (hbodies _ ⟨_, _, _, hi.names.registered, hbody, rfl⟩).2
      by_cases hwell : definition.isWellFormed = true
      · simp only [hwell, if_true]
        exact hinner _ hfits body.chars hspells
      · simp only [hwell, Bool.false_eq_true, if_false]
        exact ⟨trivial, hspells⟩
  | call word definition parameters gap arguments =>
    cases hbody : definition.body with
    | none =>
      rw [Invocation.piece, pieceExpansion, pieceExpansion, hbody]
      exact ⟨rfl, hempty⟩
    | some body =>
      rw [Invocation.piece, pieceExpansion_call hbody, pieceExpansion_call hbody]
      split
      · -- the call stays as it is written
        refine ⟨rfl, ?_⟩
        have hwritten := hs.front (Stretch.Stands.apart (s := .invocation _) hi)
        simpa [Invocation.written, Invocation.word, Invocation.list] using hwritten
      · refine applied_congr (hbodies _ ⟨_, _, _, hi.names.registered, hbody, rfl⟩)
          (hinner _ hfits.1) ?_
        intro argument hargument
        have hle := byteLength_le_of_mem_rawArguments hargument
        have hclean := byteLength_cleanArgument_le argument
        have hlt : byteLength arguments < size := hfits.2
        exact hshorter _ (by omega)
          (spells_cleanArgument (spells_of_mem_rawArguments (spells_arguments hs) hargument))

/-- An invocation starts with a word, and it ends in one or in a closing parenthesis. -/
theorem put_invocation {i : Invocation} {value : List Char} (hi : i.Stands table aside behind)
    (hvalue : V.Spells value) : Put V i.written value := by
  have hfirst : StartsWithWord i.written := by
    obtain ⟨c, hc, hword⟩ := hi.isWord.startsWithWord
    exact ⟨c, List.mem_head?_append_of_mem_head? hc, hword⟩
  refine .replaced hfirst ?_ hvalue
  cases i with
  | name word definition =>
    obtain ⟨c, hc, hword⟩ := hi.isWord.getLast?
    exact ⟨c, by simpa [Invocation.written, Invocation.list] using hc, .inl hword⟩
  | call word definition parameters gap arguments =>
    refine ⟨')', ?_, .inr rfl⟩
    simp [Invocation.written, Invocation.list, List.getLast?_cons]

theorem put_expansion {s : Stretch} (hs : s.Stands table aside behind)
    (hinvocation : ∀ i, s = .invocation i → V.Spells (pieceExpansion table aside i.piece).text) :
    Put V s.written (s.expansion table aside).text := by
  cases s with
  | invocation i => exact put_invocation hs (hinvocation i rfl)
  | skipped p => exact .kept (by cases p <;> simp [Stretch.written, Skipped.written])
  | word w => exact .kept hs.1.nonempty
  | mark c => exact .kept (by simp [Stretch.written])

/-- A text turns into its expansion. -/
theorem turns_expansion {parts : List Stretch} (h : Reads table aside text parts)
    (hinvocations : ∀ i, .invocation i ∈ parts →
      V.Spells (pieceExpansion table aside i.piece).text) :
    Turns V text (parts.flatMap fun s => (s.expansion table aside).text) := by
  induction h with
  | nil => exact .nil
  | @cons s behind rest hstands hrest ih =>
    rw [List.flatMap_cons]
    refine .cons (put_expansion hstands ?_) hstands.apart
      (ih fun i hi => hinvocations i (List.mem_cons_of_mem s hi))
    rintro i rfl
    exact hinvocations i List.mem_cons_self

/-- The text from an invocation on is spelled as the whole text is. -/
theorem spells_from_invocation {before after : List Stretch} {i : Invocation}
    (h : Reads table aside text (before ++ .invocation i :: after)) (hs : V.Spells text) :
    V.Spells (i.written ++ after.flatMap Stretch.written) := by
  obtain ⟨hi, hbefore⟩ := h.stands_of_mem
  rw [← h.flatMap_written, List.flatMap_append, List.flatMap_cons] at hs
  refine hs.back fun a ha b hb => hbefore a ha b ?_
  have hne : (Stretch.invocation i).written ≠ [] :=
    List.append_ne_nil_of_left_ne_nil hi.isWord.nonempty _
  rwa [List.head?_append_of_ne_nil _ hne] at hb

/-- Tables that agree on the words of a text and of the bodies give the same expansion. -/
theorem expand_congr (hbodies : V.SpellsBodies table) (hagree : V.Agree table other)
    (aside : List String) (text : List Char) (hs : V.Spells text) :
    SameExpansion V table other aside text := by
  obtain ⟨parts, hreads⟩ := exists_reads table aside text
  have hinvocations : ∀ i, .invocation i ∈ parts →
      pieceExpansion other aside i.piece = pieceExpansion table aside i.piece ∧
        V.Spells (pieceExpansion table aside i.piece).text := by
    intro i hi
    have hpiece : i.piece ∈ pieces table aside text := by
      rw [hreads.pieces_eq]
      exact List.mem_map_of_mem hi
    obtain ⟨before, after, rfl⟩ := List.append_of_mem hi
    refine invocation_congr hreads.stands_of_mem.1 (spells_from_invocation hreads hs)
      (fits_of_mem_pieces hpiece) hbodies ?_ ?_
    · intro name hname body hbody
      have hdeeper := length_available_lt hname
      exact expand_congr hbodies hagree (name :: aside) body hbody
    · intro argument hlt hargument
      exact expand_congr hbodies hagree aside argument hargument
  constructor
  · rw [expand_eq_join, expand_eq_join, pieces_congr hreads hs hagree, hreads.pieces_eq,
      List.map_map, List.map_map]
    refine congrArg Expansion.join (List.map_congr_left fun s hmem => ?_)
    cases s with
    | invocation i => exact (hinvocations i hmem).1
    | _ => rfl
  · have hturns := turns_expansion hreads fun i hi => (hinvocations i hi).2
    rw [hreads.expand_eq, Expansion.join, List.flatMap_map]
    exact hturns.spells hs
termination_by ((available table aside).length, byteLength text)
decreasing_by
  · exact Prod.Lex.left _ _ hdeeper
  · exact Prod.Lex.right _ hlt

end Agreement

/-- The texts that words come from: the text to expand and the bodies of the table. -/
def IsSource (table : MacroTable) (text source : List Char) : Prop :=
  source = text ∨ IsBody table source

/-- The word is one of the words of the text or of a body, as long as it can be. -/
def Mentions (table : MacroTable) (text word : List Char) : Prop :=
  ∃ source, IsSource table text source ∧ IsRun source word

/-- In the text or in a body a word stands directly behind a closing parenthesis. -/
def Glues (table : MacroTable) (text : List Char) : Prop :=
  ∃ source, IsSource table text source ∧ HasRunBehindParen source

/-- The word is made of words of the text and of the bodies, written one behind the other. -/
def IsGlued (table : MacroTable) (text word : List Char) : Prop :=
  ∃ words, words ≠ [] ∧ (∀ w ∈ words, Mentions table text w) ∧ words.flatten = word

section Unmentioned

variable {table : MacroTable} {text word v w : List Char}

theorem Mentions.isGlued (h : Mentions table text word) : IsGlued table text word :=
  ⟨[word], by simp, by simpa using h, by simp⟩

theorem IsGlued.append (hv : IsGlued table text v) (hw : IsGlued table text w) :
    IsGlued table text (v ++ w) := by
  obtain ⟨first, hne, hfirst, rfl⟩ := hv
  obtain ⟨second, -, hsecond, rfl⟩ := hw
  refine ⟨first ++ second, by simp [hne], ?_, List.flatten_append⟩
  intro u hu
  exact (List.mem_append.1 hu).elim (hfirst u) (hsecond u)

/-- The words that expansion may meet. -/
def wordsOf (table : MacroTable) (text : List Char) : Vocabulary where
  Has word := Mentions table text word ∨ (Glues table text ∧ IsGlued table text word)
  glued := Glues table text
  append := by
    intro hglued v w hv hw
    have hone : ∀ {u}, Mentions table text u ∨ (Glues table text ∧ IsGlued table text u) →
        IsGlued table text u := fun hu => hu.elim Mentions.isGlued And.right
    exact .inr ⟨hglued, (hone hv).append (hone hw)⟩

theorem spells_source {source : List Char} (h : IsSource table text source) :
    (wordsOf table text).Spells source := by
  intro before word behind hsplit hrun
  refine ⟨.inl ⟨source, h, before, behind, hsplit, hrun⟩, ?_⟩
  by_cases hlast : before.getLast? = some ')'
  · exact .inl ⟨source, h, before, word, behind, hsplit, hrun, hlast⟩
  · exact .inr hlast

theorem Mentions.within_source (h : Mentions table text word) :
    ∃ source, IsSource table text source ∧ word <:+: source := by
  obtain ⟨source, hsource, before, behind, rfl, -⟩ := h
  exact ⟨_, hsource, before, behind, List.append_assoc _ _ _⟩

end Unmentioned

/-- A macro whose name is no word of a text and of the bodies makes no difference for the text,
provided the name is not made of several such words either, or no word stands directly behind a
closing parenthesis. This is so whether the macro is put in or offered. -/
theorem expand_of_unmentioned {table : MacroTable} {text : String} {d : MacroDefinition}
    (hplain : ∀ body, IsBody table body → '#' ∉ body)
    (hunmentioned : ¬ Mentions table text.toList d.name.text.toList)
    (hglued : Glues table text.toList → ¬ IsGlued table text.toList d.name.text.toList) :
    (table.insert d).expand text = table.expand text ∧
      (table.offer d).expand text = table.expand text := by
  have hbodies : (wordsOf table text.toList).SpellsBodies table :=
    fun body hbody => ⟨hplain body hbody, spells_source (.inr hbody)⟩
  have htext : (wordsOf table text.toList).Spells text.toList := spells_source (.inl rfl)
  have hother : ∀ word, (wordsOf table text.toList).Has word →
      d.name.text ≠ String.ofList word := by
    intro word hhas hname
    have hword : d.name.text.toList = word := by rw [hname, String.toList_ofList]
    rw [hword] at hunmentioned hglued
    rcases hhas with hhas | ⟨hbehind, hhas⟩
    · exact hunmentioned hhas
    · exact hglued hbehind hhas
  have hinsert : (wordsOf table text.toList).Agree table (table.insert d) := by
    intro word hhas
    rw [MacroTable.get?_insert, if_neg (hother word hhas)]
  have hoffer : (wordsOf table text.toList).Agree table (table.offer d) := by
    intro word hhas
    rw [MacroTable.get?_offer, if_neg (hother word hhas), Option.merge_none_right]
  exact ⟨(expand_congr hbodies hinsert [] _ htext).1, (expand_congr hbodies hoffer [] _ htext).1⟩

section Behind

variable {table : MacroTable} {d : MacroDefinition} {source : List Char}

theorem isBody_insert (h : IsBody (table.insert d) source) :
    IsBody table source ∨ ∃ body ∈ d.body, source = body.chars := by
  obtain ⟨name, definition, body, hget, hbody, rfl⟩ := h
  rw [MacroTable.get?_insert] at hget
  split at hget
  · obtain rfl := Option.some.inj hget
    exact .inr ⟨body, hbody, rfl⟩
  · exact .inl ⟨name, definition, body, hget, hbody, rfl⟩

theorem not_isBody_empty : ¬ IsBody MacroTable.empty source := by
  rintro ⟨name, definition, body, hget, -⟩
  simp [MacroTable.get?, MacroTable.empty] at hget

end Behind

/-- A text with a word behind a call, and a macro whose name has a letter that is in no word. -/
theorem unmentioned_behind_call :
    ∃ (table : MacroTable) (d : MacroDefinition), d.name.text = "boom" ∧
      (table.get? "F").isSome = true ∧ Glues table "F(a)b".toList ∧
      (table.insert d).expand "F(a)b" = table.expand "F(a)b" := by
  let first := MacroDefinition.make "F" (some ["x"]) "x + 1"
  let table := MacroTable.empty.insert first
  have hfirst : ∀ body ∈ first.body, '#' ∉ body.chars ∧ 'o' ∉ body.chars := by decide +kernel
  have hbodies : ∀ body, IsBody table body → '#' ∉ body ∧ 'o' ∉ body := by
    intro body hbody
    obtain ⟨token, htoken, rfl⟩ := (isBody_insert hbody).resolve_left not_isBody_empty
    exact hfirst token htoken
  have hmentions : ∀ word, Mentions table "F(a)b".toList word → 'o' ∉ word := by
    intro word hword ho
    obtain ⟨source, rfl | hsource, hwithin⟩ := hword.within_source
    · exact absurd (hwithin.subset ho) (by decide)
    · exact (hbodies source hsource).2 (hwithin.subset ho)
  have hrun : RunAt "F(a)".toList "b".toList [] := by
    refine ⟨⟨by decide, List.all_eq_true.1 (by decide), by simp⟩, fun a ha => ?_⟩
    obtain rfl : ')' = a := Option.some.inj ha
    decide
  have hglues : Glues table "F(a)b".toList :=
    ⟨_, .inl rfl, "F(a)".toList, "b".toList, [], rfl, hrun, rfl⟩
  refine ⟨table, MacroDefinition.make "boom" none "1", rfl, ?_, hglues, ?_⟩
  · simp [table, first, MacroTable.get?_insert, MacroDefinition.make]
  · refine (expand_of_unmentioned (fun body hbody => (hbodies body hbody).1) ?_ ?_).1
    · exact fun h => hmentions _ h (by decide)
    · rintro - ⟨words, -, hwords, hname⟩
      have ho : 'o' ∈ words.flatten := by
        rw [hname]
        decide
      obtain ⟨word, hword, ho⟩ := List.mem_flatten.1 ho
      exact hmentions word (hwords word hword) ho

/-- The argument `F()b` comes to `cb`, which is scanned as one word in the body of `G`. -/
theorem expand_behind_call {table : MacroTable}
    (hget : table.get? "G" = some (MacroDefinition.make "G" (some ["x"]) "x"))
    (hpieces : pieces table [] "F()b".toList =
      [.call "F" (MacroDefinition.make "F" (some []) "c") [] "F()".toList [], .copied ['b']])
    (hbody : pieces table ["F"] "c".toList = [['c']].map .copied) :
    (table.expand "G(F()b)").text = (expand table ["G"] "cb".toList).text := by
  obtain ⟨parameter, body, hone, hparameter, hwritten⟩ := exists_oneParameter
    (by decide) hget (by decide +kernel) (by decide)
  have hargument : SingleArgument "F()b".toList := by
    apply SingleArgument.of_kinds
    · decide +kernel
    · decide +kernel
  have hclean : cleanArgument "F()b".toList = "F()b".toList := by decide +kernel
  have honce : (argumentExpansion table [] "F()b".toList).text = "cb".toList := by
    rw [argumentExpansion, hclean, expand_eq_join, hpieces, List.map_cons,
      pieceExpansion_bare_call "c".toList (by decide +kernel) (by decide +kernel),
      expand_of_pieces_copied hbody]
    rfl
  have hexpand := congrArg Expansion.text
    (hone.expand_plain (by rw [hwritten, hparameter]; rfl) List.not_mem_nil hargument)
  simp only [honce, String.ofList_toList] at hexpand
  exact hexpand

/-- What a call comes to and the word behind it are scanned as one word. -/
theorem expansions_behind_call :
    let table := (MacroTable.empty.insert (MacroDefinition.make "G" (some ["x"]) "x")).insert
      (MacroDefinition.make "F" (some []) "c")
    (table.expand "G(F()b)").text = "cb".toList ∧
      ((table.insert (MacroDefinition.make "cb" none "boom")).expand "G(F()b)").text =
        "boom".toList := by
  intro table
  constructor
  · have hword : pieces table ["G"] "cb".toList = ["cb".toList].map .copied := by decide +kernel
    rw [expand_behind_call (by simp [table, MacroTable.get?_insert, MacroDefinition.make])
      (by decide +kernel) (by decide +kernel), expand_of_pieces_copied hword]
    rfl
  · let more := table.insert (MacroDefinition.make "cb" none "boom")
    have hname : pieces more ["G"] "cb".toList =
        .name "cb" (MacroDefinition.make "cb" none "boom") :: [].map .copied := by decide +kernel
    have hbody : pieces more ["cb", "G"] "boom".toList = ["boom".toList].map .copied := by
      decide +kernel
    rw [expand_behind_call (by simp [table, MacroTable.get?_insert, MacroDefinition.make])
      (by decide +kernel) (by decide +kernel), expand_of_pieces_name "boom".toList hname
      (by decide +kernel) (by decide +kernel), expand_of_pieces_copied hbody]
    rfl

theorem bodies_behind_call {body : List Char}
    (h : IsBody ((MacroTable.empty.insert (MacroDefinition.make "G" (some ["x"]) "x")).insert
      (MacroDefinition.make "F" (some []) "c")) body) : body = "x".toList ∨ body = "c".toList := by
  have hfirst : ∀ body ∈ (MacroDefinition.make "G" (some ["x"]) "x").body,
      body.chars = "x".toList := by decide +kernel
  have hsecond : ∀ body ∈ (MacroDefinition.make "F" (some []) "c").body,
      body.chars = "c".toList := by decide +kernel
  rcases isBody_insert h with h | ⟨token, htoken, rfl⟩
  · rcases isBody_insert h with h | ⟨token, htoken, rfl⟩
    · exact absurd h not_isBody_empty
    · exact .inl (hfirst token htoken)
  · exact .inr (hsecond token htoken)

/-- A macro whose name is no word of the text and of the bodies, and still makes a difference. -/
theorem unmentioned_name_expanded :
    ∃ (table : MacroTable) (d : MacroDefinition),
      (∀ body, IsBody table body → '#' ∉ body) ∧
      ¬ Mentions table "G(F()b)".toList d.name.text.toList ∧
      (table.expand "G(F()b)").text = "cb".toList ∧
      ((table.insert d).expand "G(F()b)").text = "boom".toList := by
  refine ⟨_, _, ?_, ?_, expansions_behind_call⟩
  · intro body hbody
    rcases bodies_behind_call hbody with rfl | rfl
    · decide
    · decide
  · intro hmentions
    obtain ⟨source, rfl | hsource, hwithin⟩ := hmentions.within_source
    · revert hwithin
      decide +kernel
    · rcases bodies_behind_call hsource with rfl | rfl
      · revert hwithin
        decide +kernel
      · revert hwithin
        decide +kernel

end CBoundary.MacroExpansion
