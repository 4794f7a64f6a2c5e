import CBoundary.Proofs.DefinitionSpans

/-!
Line continuations in a definition, against blanks in their places. Behind the name and the
parameter list it makes no difference which of the two stands there, since the body is read with
lines joined. In front of the body lines are not joined: a continuation there is no blank, so the
definition is not read, or is read with another parameter. Main statement:
`same_definition_iff`.
-/
namespace CBoundary.MacroDefinition

open CharacterClass

/-- Some of the line continuations of the first text are blanks in the second. -/
inductive SomeJoined : List Char → List Char → Prop
  | nil : SomeJoined [] []
  | keep (c : Char) {text joined : List Char} (h : SomeJoined text joined) :
      SomeJoined (c :: text) (c :: joined)
  | join {mark text joined : List Char} (hmark : mark ∈ continuations)
      (h : SomeJoined text joined) :
      SomeJoined (mark ++ text) (List.replicate mark.length ' ' ++ joined)

/-- What becomes of a backslash in front of a text whose lines are joined. -/
def joinBackslash : List Char → List Char
  | '\x0d' :: '\n' :: rest => ' ' :: ' ' :: ' ' :: rest
  | '\n' :: rest => ' ' :: ' ' :: rest
  | rest => '\\' :: rest

theorem eq_or_eq_of_mem_continuations {mark : List Char} (h : mark ∈ continuations) :
    mark = ['\\', '\n'] ∨ mark = ['\\', '\x0d', '\n'] := by
  simpa [continuations] using h

theorem joinLines_cons {c : Char} (h : c ≠ '\\') (text : List Char) :
    joinLines (c :: text) = c :: joinLines text := by
  simp [joinLines, h]

/-- What is no blank stands at the front before lines are joined. -/
theorem eq_cons_of_joinLines {text rest : List Char} {c : Char} (h : joinLines text = c :: rest)
    (hc : c ≠ ' ') : ∃ later, text = c :: later ∧ joinLines later = rest := by
  fun_cases joinLines text with
  | case1 later => exact absurd (List.cons.inj h).1.symm hc
  | case2 later => exact absurd (List.cons.inj h).1.symm hc
  | case3 d later hreturn hnewline =>
    rw [joinLines.eq_3 _ _ hreturn hnewline] at h
    obtain ⟨rfl, hrest⟩ := List.cons.inj h
    exact ⟨later, rfl, hrest⟩
  | case4 => simp [joinLines] at h

/-- Joining lines leaves what a backslash in front of the text would join on to. -/
theorem joinLines_backslash (text : List Char) :
    joinLines ('\\' :: text) = joinBackslash (joinLines text) := by
  by_cases hnewline : ∃ rest, text = '\n' :: rest
  · obtain ⟨rest, rfl⟩ := hnewline
    rfl
  by_cases hreturn : ∃ rest, text = '\x0d' :: '\n' :: rest
  · obtain ⟨rest, rfl⟩ := hreturn
    rfl
  have hjoined : joinLines ('\\' :: text) = '\\' :: joinLines text :=
    joinLines.eq_3 _ _ (fun rest _ h => hreturn ⟨rest, h⟩) fun rest _ h => hnewline ⟨rest, h⟩
  have hkept : joinBackslash (joinLines text) = '\\' :: joinLines text := by
    refine joinBackslash.eq_3 _ (fun rest h => hreturn ?_) fun rest h => hnewline ?_
    · obtain ⟨later, rfl, hlater⟩ := eq_cons_of_joinLines h (by decide)
      obtain ⟨last, rfl, -⟩ := eq_cons_of_joinLines hlater (by decide)
      exact ⟨last, rfl⟩
    · obtain ⟨later, rfl, -⟩ := eq_cons_of_joinLines h (by decide)
      exact ⟨later, rfl⟩
  rw [hjoined, hkept]

theorem SomeJoined.joinLines_eq {text joined : List Char} (h : SomeJoined text joined) :
    joinLines text = joinLines joined := by
  induction h with
  | nil => rfl
  | @keep c text joined h ih =>
    by_cases hc : c = '\\'
    · rw [hc, joinLines_backslash, joinLines_backslash, ih]
    · rw [joinLines_cons hc, joinLines_cons hc, ih]
  | join hmark h ih =>
    rcases eq_or_eq_of_mem_continuations hmark with rfl | rfl
    · simp [joinLines, ih]
    · simp [joinLines, ih]

namespace SomeJoined

variable {text joined front : List Char} {c : Char}

/-- A front that has no backslash is the same in both texts. -/
theorem exists_of_front (hfront : '\\' ∉ front) (h : SomeJoined (front ++ text) joined) :
    ∃ rest, joined = front ++ rest ∧ SomeJoined text rest := by
  induction front generalizing joined with
  | nil => exact ⟨joined, rfl, h⟩
  | cons c front ih =>
    rw [List.mem_cons, not_or] at hfront
    generalize hwhole : c :: front ++ text = whole at h
    cases h with
    | nil => simp at hwhole
    | keep d h =>
      obtain ⟨rfl, rfl⟩ := List.cons.inj hwhole
      obtain ⟨rest, rfl, hrest⟩ := ih hfront.2 h
      exact ⟨rest, rfl, hrest⟩
    | join hmark h =>
      rcases eq_or_eq_of_mem_continuations hmark with rfl | rfl
      · exact absurd (List.cons.inj hwhole).1.symm hfront.1
      · exact absurd (List.cons.inj hwhole).1.symm hfront.1

/-- Nothing is joined in a front that is the same in both texts. -/
theorem of_front (h : SomeJoined (front ++ text) (front ++ joined)) : SomeJoined text joined := by
  induction front with
  | nil => exact h
  | cons c front ih =>
    generalize hwhole : c :: front ++ text = whole at h
    generalize hblank : c :: front ++ joined = blank at h
    cases h with
    | nil => simp at hwhole
    | keep d h =>
      obtain ⟨rfl, rfl⟩ := List.cons.inj hwhole
      obtain ⟨-, rfl⟩ := List.cons.inj hblank
      exact ih h
    | join hmark h =>
      rcases eq_or_eq_of_mem_continuations hmark with rfl | rfl
      · exact absurd ((List.cons.inj hwhole).1.symm.trans (List.cons.inj hblank).1) (by decide)
      · exact absurd ((List.cons.inj hwhole).1.symm.trans (List.cons.inj hblank).1) (by decide)

theorem refl : (text : List Char) → SomeJoined text text
  | [] => .nil
  | c :: text => .keep c (refl text)

theorem append_front (h : SomeJoined text joined) :
    (front : List Char) → SomeJoined (front ++ text) (front ++ joined)
  | [] => h
  | c :: front => .keep c (append_front h front)

/-- What is joined at the front of the text is a backslash. -/
theorem head? (h : SomeJoined text joined) (hc : text.head? = some c) :
    joined.head? = some c ∨ c = '\\' := by
  cases h with
  | nil => simp at hc
  | keep d h => exact Or.inl hc
  | join hmark h =>
    rcases eq_or_eq_of_mem_continuations hmark with rfl | rfl
    · exact Or.inr (Option.some.inj hc).symm
    · exact Or.inr (Option.some.inj hc).symm

theorem takeWhile_parenthesis (h : SomeJoined text joined) :
    SomeJoined (text.takeWhile (· != ')')) (joined.takeWhile (· != ')')) := by
  induction h with
  | nil => exact .nil
  | @keep c text joined h ih =>
    rw [List.takeWhile_cons, List.takeWhile_cons]
    split
    · exact .keep c ih
    · exact .nil
  | @join mark text joined hmark h ih =>
    have hinside : ∀ c ∈ mark, (c != ')') = true := by
      rcases eq_or_eq_of_mem_continuations hmark with rfl | rfl <;> simp
    have hblanks : ∀ c ∈ List.replicate mark.length ' ', (c != ')') = true := by
      intro c hc
      rw [List.eq_of_mem_replicate hc]
      rfl
    rw [List.takeWhile_append_of_pos hinside, List.takeWhile_append_of_pos hblanks]
    exact .join hmark ih

/-- Joining takes backslashes away. -/
theorem eq_of_count (h : SomeJoined text joined) :
    joined.count '\\' ≤ text.count '\\' ∧
      (joined.count '\\' = text.count '\\' → joined = text) := by
  induction h with
  | nil => simp
  | @keep c text joined h ih =>
    rw [List.count_cons, List.count_cons]
    refine ⟨by omega, fun heq => ?_⟩
    rw [ih.2 (by omega)]
  | @join mark text joined hmark h ih =>
    have hcount : mark.count '\\' = 1 := by
      rcases eq_or_eq_of_mem_continuations hmark with rfl | rfl <;> rfl
    have hblanks : (List.replicate mark.length ' ').count '\\' = 0 := by
      rw [List.count_replicate]
      rfl
    rw [List.count_append, List.count_append, hcount, hblanks]
    exact ⟨by omega, fun heq => by omega⟩

end SomeJoined

theorem count_backslash_of_whitespace {text : List Char}
    (h : ∀ c ∈ text, isWhitespace c = true) : text.count '\\' = 0 :=
  List.count_eq_zero.2 fun hmem => absurd (h _ hmem) (by decide)

theorem count_trim (text : List Char) : (trim text).count '\\' = text.count '\\' := by
  obtain ⟨front, behind, htext, hfront, hbehind, -⟩ := exists_trim text
  have hcount := congrArg (List.count '\\') htext
  rw [List.count_append, List.count_append, count_backslash_of_whitespace hfront,
    count_backslash_of_whitespace hbehind] at hcount
  omega

theorem count_trimEnd (text : List Char) : (trimEnd text).count '\\' = text.count '\\' := by
  obtain ⟨behind, htext, hbehind⟩ := exists_trimEnd text
  have hcount := congrArg (List.count '\\') htext
  rw [List.count_append, count_backslash_of_whitespace hbehind] at hcount
  omega

/-- A parameter has all the backslashes of its piece. -/
theorem count_parameterOf (index offset : Nat) (piece : List Char) :
    (parameterOf index offset piece).1.chars.count '\\' = piece.count '\\' := by
  rw [← count_trim piece]
  unfold parameterOf
  dsimp only
  split
  · simp [Token.chars]
  · rename_i stem hdots
    rw [withoutDots?_eq_some hdots, List.count_append, ← count_trimEnd stem]
    split
    · rename_i hstem
      rw [hstem]
      simp [Token.chars, variadicName]
    · simp [Token.chars]

theorem count_parametersFrom (index offset : Nat) (inside : List Char) :
    ((parametersFrom index offset (splitAtCommas inside)).flatMap (·.1.chars)).count '\\' =
      inside.count '\\' := by
  induction hn : inside.length using Nat.strongRecOn generalizing index offset inside with
  | ind n ih =>
    rcases splitAtCommas_cases inside with hpieces | ⟨piece, later, rfl, hpieces⟩
    · rw [hpieces, parametersFrom, parametersFrom, List.flatMap_singleton]
      exact count_parameterOf index offset inside
    · have hlater : later.length < n := by
        rw [← hn, List.length_append, List.length_cons]
        omega
      rw [hpieces, parametersFrom, List.flatMap_cons, List.count_append, count_parameterOf,
        ih _ hlater _ _ _ rfl, List.count_append, List.count_cons_of_ne (by decide)]

theorem count_readParameters (offset : Nat) (inside : List Char) :
    ((readParameters offset inside).1.flatMap Token.chars).count '\\' = inside.count '\\' := by
  unfold readParameters
  split
  · rename_i hempty
    rw [← count_trim inside, List.isEmpty_iff.1 hempty]
    rfl
  · rw [List.flatMap_map]
    exact count_parametersFrom 0 offset inside

section Head

variable {head : DefinitionHead} {rest behind : List Char} {d : Token} {text : String}

/-- The text is that of a definition with the given head. -/
def Splits (text : List Char) (head : DefinitionHead) (rest : List Char) : Prop :=
  text = head.written ++ rest ∧ head.Fits rest

theorem readBody_of_joined (offset : Nat) (h : SomeJoined behind rest) :
    readBody offset behind = readBody offset rest := by
  rw [readBody, readBody, h.joinLines_eq]

theorem fits_of_joined (h : SomeJoined behind rest) (hrest : head.Fits rest) :
    head.Fits behind := by
  intro hlist c hc
  rcases h.head? hc with hsame | rfl
  · exact hrest hlist c hsame
  · exact ⟨by decide, by decide⟩

/-- Behind the head, line continuations are blanks. -/
theorem ofDirective?_of_joined (hsplit : Splits text.toList head rest)
    (hjoined : SomeJoined d.chars text.toList) (hfront : head.written <+: d.chars) :
    ofDirective? d = some (head.definition d.span.start rest) := by
  obtain ⟨behind, hbehind⟩ := hfront
  rw [hsplit.1, ← hbehind] at hjoined
  have hrest := hjoined.of_front
  rw [DefinitionHead.ofDirective?_written (fits_of_joined hrest hsplit.2) hbehind.symm]
  simp only [DefinitionHead.definition, readBody_of_joined _ hrest]

theorem backslash_notMem_front (head : DefinitionHead) : '\\' ∉ head.lead ++ head.name := by
  have hblank : isBlank '\\' = false := rfl
  have hword : isWordChar '\\' = false := by decide
  intro hmem
  simp only [DefinitionHead.lead, defineWord, List.mem_append, List.mem_cons, List.not_mem_nil]
    at hmem
  have hindent := head.indent_blank '\\'
  have hgap := head.gap_blank '\\'
  have hname := head.name_word '\\'
  simp_all

/-- Two heads in front of one text have the same lead if they have the same name. -/
theorem lead_eq_of_name_eq {other : DefinitionHead} (hname : other.name = head.name)
    (h : other.lead ++ other.name ++ behind = head.written ++ rest) :
    other.lead = head.lead ∧ behind = head.parens ++ rest := by
  have hafter := congrArg afterDefine? h
  rw [DefinitionHead.afterDefine?_lead, DefinitionHead.afterDefine?_written, hname] at hafter
  have hbehind := List.append_cancel_left (Option.some.inj hafter)
  refine ⟨?_, hbehind⟩
  rw [DefinitionHead.written, hbehind, hname, List.append_assoc, List.append_assoc,
    List.append_assoc] at h
  exact List.append_cancel_right h

theorem count_of_texts_eq {offset offset' : Nat} {inside inside' : List Char}
    (h : TokenList.texts (readParameters offset inside).1 =
      TokenList.texts (readParameters offset' inside').1) :
    inside.count '\\' = inside'.count '\\' := by
  have hchars (tokens : List Token) :
      tokens.flatMap Token.chars = (TokenList.texts tokens).flatMap String.toList := by
    rw [TokenList.texts, List.flatMap_map]
    rfl
  rw [← count_readParameters offset inside, ← count_readParameters offset' inside', hchars, hchars,
    h]

theorem parens_eq {inside : List Char} (hlist : head.list = some inside) :
    head.parens = '(' :: inside ++ [')'] := by
  rw [DefinitionHead.parens, hlist]

theorem takeWhile_parens {inside : List Char} (hlist : head.list = some inside)
    (rest : List Char) : (inside ++ ')' :: rest).takeWhile (· != ')') = inside := by
  apply takeWhile_front
  · intro c hc
    have hne : c ≠ ')' := fun h => head.list_closed inside hlist (h ▸ hc)
    simpa using hne
  · rintro c ⟨⟩
    rfl

/-- Parameters that have the same texts stand in the same parentheses: if a line continuation is
among them, it leaves its backslash in one of them. -/
theorem parens_starts {other : DefinitionHead} {start : Nat}
    (hjoined : SomeJoined (other.parens ++ behind) (head.parens ++ rest))
    (htexts : (other.definition start behind).parameters.map TokenList.texts =
      (head.definition start rest).parameters.map TokenList.texts) :
    head.parens <+: other.parens ++ behind := by
  cases hlist : head.list with
  | none =>
    rw [DefinitionHead.parens, hlist]
    exact List.nil_prefix
  | some inside =>
    simp only [DefinitionHead.definition, hlist, Option.map_some, Option.map_map,
      Option.map_eq_some_iff] at htexts
    obtain ⟨others, hothers, htexts⟩ := htexts
    have hinside : SomeJoined (others ++ ')' :: behind) (inside ++ ')' :: rest) := by
      rw [parens_eq hlist, parens_eq hothers] at hjoined
      have hopened : SomeJoined (['('] ++ (others ++ ')' :: behind))
          (['('] ++ (inside ++ ')' :: rest)) := by
        simpa using hjoined
      exact hopened.of_front
    have hsame := hinside.takeWhile_parenthesis
    rw [takeWhile_parens hothers, takeWhile_parens hlist] at hsame
    rw [parens_eq hlist, parens_eq hothers,
      hsame.eq_of_count.2 (count_of_texts_eq htexts).symm]
    exact List.prefix_append _ _

/-- A definition that is read from the text with its line continuations has its head there, if it
agrees with the one that is read with blanks in their places. -/
theorem written_prefix_of_agrees {m : MacroDefinition} (hsplit : Splits text.toList head rest)
    (hjoined : SomeJoined d.chars text.toList) (hm : ofDirective? d = some m)
    (hagrees : m.agrees (head.definition d.span.start rest) = true) :
    head.written <+: d.chars := by
  obtain ⟨other, behind, hd, -, rfl⟩ := DefinitionHead.ofDirective?_eq_some_iff.1 hm
  simp only [agrees, Token.agrees, Bool.and_eq_true, beq_iff_eq] at hagrees
  obtain ⟨⟨⟨⟨hname, hparameters⟩, -⟩, -⟩, -⟩ := hagrees
  have hname : other.name = head.name := by
    simpa [DefinitionHead.definition] using congrArg String.toList hname
  have hfront : d.chars = other.lead ++ other.name ++ (other.parens ++ behind) := by
    rw [hd, DefinitionHead.written, List.append_assoc]
  rw [hfront] at hjoined
  obtain ⟨later, htext, hlater⟩ := hjoined.exists_of_front (backslash_notMem_front other)
  obtain ⟨hlead, rfl⟩ := lead_eq_of_name_eq hname (htext.symm.trans hsplit.1)
  rw [hfront, hlead, hname, DefinitionHead.written]
  exact (List.prefix_append_right_inj _).2 (parens_starts hlater hparameters)

end Head

theorem agrees_self (m : MacroDefinition) : m.agrees m = true := by
  simp [agrees, Token.agrees]

/-- Putting blanks for line continuations of a definition gives the same definition exactly if none
of them stands in front of the body; then it is the same down to the positions. -/
theorem same_definition_iff {d : Token} {text : String} {m : MacroDefinition}
    (hjoined : SomeJoined d.chars text.toList) (hm : ofDirective? { d with text } = some m) :
    (∃ head rest, Splits text.toList head rest) ∧
      ∀ head rest, Splits text.toList head rest →
        ((∃ m', ofDirective? d = some m' ∧ m'.agrees m = true) ↔ head.written <+: d.chars) ∧
        (head.written <+: d.chars → ofDirective? d = some m) := by
  constructor
  · obtain ⟨head, rest, htext, hrest⟩ := DefinitionHead.exists_written hm
    exact ⟨head, rest, htext, hrest⟩
  · intro head rest hsplit
    have hread := DefinitionHead.ofDirective?_written (t := { d with text }) hsplit.2 hsplit.1
    obtain rfl := Option.some.inj (hm.symm.trans hread)
    have hsame (hfront : head.written <+: d.chars) := ofDirective?_of_joined hsplit hjoined hfront
    refine ⟨⟨?_, fun hfront => ⟨_, hsame hfront, agrees_self _⟩⟩, hsame⟩
    rintro ⟨m', hm', hagrees⟩
    exact written_prefix_of_agrees hsplit hjoined hm' hagrees

/-- A line continuation in the body. -/
theorem continuation_in_body :
    let text := "#define F(a) a    + 1"
    ∃ d ∈ TokenStream.ofSource 0 "#define F(a) a \\\n + 1", ∃ m,
      SomeJoined d.chars text.toList ∧ ofDirective? { d with text } = some m ∧
        ofDirective? d = some m := by
  intro text
  let d := (TokenStream.ofSource 0 "#define F(a) a \\\n + 1").head?.getD default
  let m := (ofDirective? { d with text }).getD default
  let front := "#define F(a) a ".toList
  let rest := " a    + 1".toList
  let head : DefinitionHead :=
    { indent := [], gap := [' '], name := ['F'], list := some ['a']
      indent_blank := by simp
      gap_blank := List.forall_mem_singleton.2 rfl
      gap_ne_nil := by simp
      name_word := List.forall_mem_singleton.2 rfl
      name_ne_nil := by simp
      name_no_number := rfl
      list_closed := by simp }
  obtain ⟨hmem, hd, htext, hm, hsplit, hfront⟩ :
      d ∈ TokenStream.ofSource 0 "#define F(a) a \\\n + 1" ∧
      d.chars = front ++ (['\\', '\n'] ++ " + 1".toList) ∧
      text.toList = front ++ (List.replicate 2 ' ' ++ " + 1".toList) ∧
      ofDirective? { d with text } = some m ∧ text.toList = head.written ++ rest ∧
      head.written <+: d.chars := by
    decide +kernel
  have hjoined : SomeJoined d.chars text.toList := by
    rw [hd, htext]
    exact (SomeJoined.join (.head _) (.refl _)).append_front front
  obtain ⟨-, hsame⟩ := same_definition_iff hjoined hm
  exact ⟨d, hmem, m, hjoined, hm, (hsame head rest ⟨hsplit, by simp [head, DefinitionHead.Fits]⟩).2
    hfront⟩

/-- A line continuation in front of the name is no blank, and one among the parameters is part of a
parameter. -/
theorem continuation_in_front_of_body :
    let read := fun text => ((TokenStream.ofSource 0 text).head?.bind ofDirective?).map fun m =>
      (m.name.text, m.parameters.map TokenList.texts, m.body.map Token.text)
    read "#define   X 1" = some ("X", none, some "1") ∧ read "#define \\\nX 1" = none ∧
      read "#define F(a,    b) a" = some ("F", some ["a", "b"], some "a") ∧
      read "#define F(a, \\\n b) a" = some ("F", some ["a", "\\\n b"], some "a") := by
  decide +kernel

end CBoundary.MacroDefinition
