import CBoundary.Proofs.AlikeDeclarators
import CBoundary.Proofs.BlankedText

/-!
Comments inside a declarator. A block comment is put at a place of a parenthesized group, for white
space or for nothing, between two tokens of the group or of a group in it. The names in the group
stay the same, since they are read off tokens. Whether it is a pointer declarator is read off its
text: if its star is in front of the comment it stays one, and otherwise it is one no longer. But
for that, the statement is of the same kind and declares the same. Main statements:
`isPointerGroup_commented_iff` and `declared_beside_comment`.
-/
namespace CBoundary

open CharacterClass Classification Keyword Lexeme TextPosition TokenStream

/-- In the second text there is a block comment behind `place`, where the first has nothing or white
space. The place is between two tokens of the text, or of the inside of one of its groups, and in
both texts the tokens in front of it are the same. -/
inductive Commented : List Char → List Char → List Char → Prop
  | here {gap body behind : List Char} (hgap : IsGap gap)
      (hbody : Extent.pair '*' '/' body = some body.length) :
      Commented [] (gap ++ behind) ('/' :: '*' :: body ++ behind)
  | behind {kind : TokenKind} {lexeme place text text' : List Char}
      (h : Begins .source kind lexeme text) (h' : Begins .source kind lexeme text')
      (hput : Commented place text text') :
      Commented (lexeme ++ place) (lexeme ++ text) (lexeme ++ text')
  | inside {delim : Delim} {place inner inner' behind : List Char}
      (h : Begins .source (.group delim) (delim.opener :: (inner ++ [delim.closer])) behind)
      (h' : Begins .source (.group delim) (delim.opener :: (inner' ++ [delim.closer])) behind)
      (hput : Commented place inner inner') :
      Commented (delim.opener :: place) (delim.opener :: (inner ++ [delim.closer]) ++ behind)
        (delim.opener :: (inner' ++ [delim.closer]) ++ behind)

/-- The second group is the first with a block comment put behind `place`. -/
structure CommentedGroup (place : List Char) (g g' : Token) : Prop where
  kind : g.kind = .group .paren
  kind' : g'.kind = .group .paren
  chars : ∃ inside inside', g.chars = '(' :: inside ++ [')'] ∧ g'.chars = '(' :: inside' ++ [')'] ∧
    Commented place inside inside'

variable {place text text' lexeme behind : List Char} {kind : TokenKind} {g g' t u : Token}

namespace DeclaratorState

/-- The names that are read from a text outside of its groups, without their positions. -/
def names (text : List Char) : List Token :=
  ((ofChars .source 0 0 text).filter isName).map Token.placeless

theorem names_ofChars (index offset : Nat) (text : List Char) :
    ((ofChars .source index offset text).filter isName).map Token.placeless = names text := by
  have hmoved := ofChars_add .source 0 0 index offset text
  have hsame : isName ∘ Token.moved index offset = isName := rfl
  rw [Nat.zero_add, Nat.zero_add] at hmoved
  rw [hmoved, List.filter_map, hsame, List.map_map]
  rfl

/-- A name stands in front of the names behind it. -/
theorem names_lexeme (h : Begins .source kind lexeme behind) :
    names (lexeme ++ behind) =
      [⟨0, Span.nowhere, kind, String.ofList lexeme⟩].filter isName ++ names behind := by
  have hname (s : Span) : isName ⟨0, s, kind, String.ofList lexeme⟩ =
      isName ⟨0, Span.nowhere, kind, String.ofList lexeme⟩ := rfl
  rw [names, h.ofChars_append]
  simp only [List.filter_cons, List.filter_nil, hname]
  split <;> simp [names_ofChars, Token.placeless]

/-- What is no word is no name. -/
theorem names_other (h : Begins .source kind lexeme behind) (hkind : kind ≠ .word) :
    names (lexeme ++ behind) = names behind := by
  have hname : isName ⟨0, Span.nowhere, kind, String.ofList lexeme⟩ = false := by
    simp [isName, Token.isIdent, hkind]
  rw [names_lexeme h, List.filter_cons_of_neg (by simp [hname]), List.filter_nil,
    List.nil_append]

theorem names_blank {c : Char} (h : isBlank c = true) (text : List Char) :
    names (c :: text) = names text := by
  have hdrop {d : Char} (hd : isBlank d = true) (text : List Char) :
      names (d :: text) = names (text.dropWhile isBlank) := by
    have hread := names_other (begins_blanks hd text) (by simp)
    rwa [List.cons_append, List.takeWhile_append_dropWhile] at hread
  rw [hdrop h]
  cases text with
  | nil => rfl
  | cons d text =>
    by_cases hd : isBlank d = true
    · rw [List.dropWhile_cons_of_pos hd, hdrop hd]
    · rw [List.dropWhile_cons_of_neg hd]

theorem names_gap {gap : List Char} (h : IsGap gap) : names (gap ++ text) = names text := by
  induction gap with
  | nil => rfl
  | cons c gap ih =>
    obtain ⟨hc, hrest⟩ := List.forall_mem_cons.1 h
    rw [List.cons_append]
    rcases hc with hc | rfl
    · rw [names_blank hc, ih hrest]
    · have hatom : atom? .source '\n' ([] ++ (gap ++ text)) = some (.newline, 0 + 1) := rfl
      exact (names_other (.atom rfl hatom) (by simp)).trans (ih hrest)

theorem begins_blockComment {body : List Char}
    (hbody : Extent.pair '*' '/' body = some body.length) (behind : List Char) :
    Begins .source .blockComment ('/' :: '*' :: body) behind := by
  refine .atom rfl ?_
  simp [atom?, Extent.pair_extend hbody behind]

/-- A comment leaves the names as they are. -/
theorem names_commented (h : Commented place text text') : names text' = names text := by
  induction h with
  | here hgap hbody => rw [names_gap hgap, names_other (begins_blockComment hbody _) (by simp)]
  | behind h h' _ ih => rw [names_lexeme h, names_lexeme h', ih]
  | inside h h' _ _ => rw [names_other h (by simp), names_other h' (by simp)]

/-- The name in a pointer declarator is the last one inside. -/
theorem map_placeless_nameInPointer? (t : Token) :
    (nameInPointer? t).map Token.placeless =
      (t.interior?.map Token.chars).bind fun inside => (names inside).getLast? := by
  rw [nameInPointer?]
  cases t.interior? with
  | none => rfl
  | some inner =>
    have hnames : ((within inner).filter isName).map Token.placeless = names inner.chars :=
      names_ofChars 0 inner.span.start inner.chars
    rw [Option.map_some, Option.bind_some, Option.bind_some, ← hnames, List.getLast?_map]

end DeclaratorState

/-- Both texts go on behind the place, the second with the comment. -/
theorem Commented.exists_split (h : Commented place text text') :
    ∃ rest rest', text = place ++ rest ∧ text' = place ++ '/' :: rest' := by
  induction h with
  | here => exact ⟨_, _, rfl, rfl⟩
  | behind _ _ _ ih =>
    obtain ⟨rest, rest', rfl, rfl⟩ := ih
    exact ⟨rest, rest', by simp, by simp⟩
  | @inside delim _ _ _ behind _ _ _ ih =>
    obtain ⟨rest, rest', rfl, rfl⟩ := ih
    exact ⟨rest ++ delim.closer :: behind, rest' ++ delim.closer :: behind, by simp, by simp⟩

theorem isPointerGroup_of_chars {inside : List Char} (hkind : g.kind = .group .paren)
    (hchars : g.chars = '(' :: inside ++ [')']) :
    isPointerGroup g = ((trimStart (inside ++ [')'])).head? == some '*') := by
  rw [isPointerGroup, Token.isGroup, hkind, hchars]
  rfl

/-- A pointer declarator is one with the comment, too, just if its star is in front of the place,
and nothing else becomes one. -/
theorem isPointerGroup_commented_iff (h : CommentedGroup place g g') :
    isPointerGroup g' = true ↔ isPointerGroup g = true ∧ '*' ∈ place := by
  obtain ⟨inside, inside', hchars, hchars', hput⟩ := h.chars
  obtain ⟨rest, rest', rfl, rfl⟩ := hput.exists_split
  rw [isPointerGroup_of_chars h.kind hchars, isPointerGroup_of_chars h.kind' hchars']
  simp only [trimStart, List.append_assoc, List.dropWhile_append]
  cases hplace : place.dropWhile isWhitespace with
  | nil =>
    have hspace : ∀ c ∈ place, isWhitespace c = true := List.dropWhile_eq_nil_iff.1 hplace
    have hstar : '*' ∉ place := fun hmem => absurd (hspace _ hmem) (by decide)
    simp [hstar, isWhitespace]
  | cons c behind =>
    have hmem : c ∈ place :=
      (List.dropWhile_suffix isWhitespace).subset (hplace ▸ List.mem_cons_self)
    simp only [List.isEmpty_cons, Bool.false_eq_true, if_false, List.cons_append, List.head?_cons,
      beq_iff_eq, Option.some.injEq]
    exact ⟨fun hc => ⟨hc, hc ▸ hmem⟩, And.left⟩

/-- A token at another place is read like this one. -/
theorem readsLike_of_placeless (h : t.placeless = u.placeless) : ReadsLike g t u where
  role := role_congr (Token.kind_of_placeless h) (Token.text_of_placeless h)
  name := by
    have hinterior : t.interior?.map Token.chars = u.interior?.map Token.chars := by
      unfold Token.interior?
      rw [Token.chars, Token.chars, Token.kind_of_placeless h, Token.text_of_placeless h]
      split <;> rfl
    rw [DeclaratorState.map_placeless_nameInPointer?, DeclaratorState.map_placeless_nameInPointer?,
      hinterior]
  qualifier := by rw [Token.text_of_placeless h]
  same := .inr h

theorem isQualifier_of_chars {rest : List Char} (h : t.chars = '(' :: rest) :
    isQualifier t.text = false := by
  have hplain : ∀ word ∈ qualifiers, word.toList.head? ≠ some '(' := by decide
  rw [isQualifier, List.contains_eq_mem, decide_eq_false_iff_not]
  exact fun hmem => hplain _ hmem (congrArg List.head? h)

/-- A group is read like the group without the comment, if the comment takes no star out of view. -/
theorem CommentedGroup.readsLike (h : CommentedGroup place g g')
    (hstar : isPointerGroup g = true → '*' ∈ place) : ReadsLike g g g' where
  role := by
    refine role_group_congr h.kind h.kind' (Bool.eq_iff_iff.2 ?_)
    rw [isPointerGroup_commented_iff h]
    exact ⟨fun hg => ⟨hg, hstar hg⟩, And.left⟩
  name := by
    obtain ⟨inside, inside', hchars, hchars', hput⟩ := h.chars
    rw [DeclaratorState.map_placeless_nameInPointer?, DeclaratorState.map_placeless_nameInPointer?,
      Token.interior?_of_bracketed h.kind hchars, Token.interior?_of_bracketed h.kind' hchars']
    simp only [Option.map_some, Option.bind_some, Token.chars, String.toList_ofList,
      DeclaratorState.names_commented hput]
  qualifier := by
    obtain ⟨inside, inside', hchars, hchars', -⟩ := h.chars
    rw [isQualifier_of_chars hchars, isQualifier_of_chars hchars']
  same := .inl rfl

/-- Tokens that are read alike, put side by side. -/
theorem exists_side_by_side {tokens others : List Token}
    (h : List.Forall₂ (ReadsLike g) tokens others) :
    ∃ l : List {p : Token × Token // ReadsLike g p.1 p.2},
      tokens = l.map (·.1.1) ∧ others = l.map (·.1.2) := by
  induction h with
  | nil => exact ⟨[], rfl, rfl⟩
  | cons ha _ ih =>
    obtain ⟨l, rfl, rfl⟩ := ih
    exact ⟨⟨(_, _), ha⟩ :: l, rfl, rfl⟩

theorem forall₂_of_map_placeless {tokens others : List Token}
    (h : tokens.map Token.placeless = others.map Token.placeless) :
    List.Forall₂ (ReadsLike g) tokens others := by
  have hall : List.Forall₂ (fun t u : Token => t.placeless = u.placeless) tokens others := by
    rwa [← List.forall₂_eq_eq_eq, List.forall₂_map_left_iff, List.forall₂_map_right_iff] at h
  exact hall.imp fun _ _ => readsLike_of_placeless

/-- A block comment inside a parenthesized group leaves the kind of a statement as it is, and what
is declared, if the group is no part of the type. A pointer declarator needs its star in front of
the comment. -/
theorem declared_beside_comment {before after before' after' : List Token}
    (h : CommentedGroup place g g') (hstar : isPointerGroup g = true → '*' ∈ place)
    (hbefore : before'.map Token.placeless = before.map Token.placeless)
    (hafter : after'.map Token.placeless = after.map Token.placeless) :
    classify (before' ++ g' :: after') = classify (before ++ g :: after) ∧
      ((isPointerGroup g = true ∨
          ∀ v ∈ Variable.ofTokens? (before ++ g :: after), g ∉ v.typename) →
        (Variable.ofTokens? (before' ++ g' :: after')).map Variable.placeless =
          (Variable.ofTokens? (before ++ g :: after)).map Variable.placeless) := by
  have hread : List.Forall₂ (ReadsLike g) (before ++ g :: after) (before' ++ g' :: after') :=
    List.rel_append (forall₂_of_map_placeless hbefore.symm)
      (.cons (h.readsLike hstar) (forall₂_of_map_placeless hafter.symm))
  obtain ⟨l, htokens, htokens'⟩ := exists_side_by_side hread
  rw [htokens, htokens']
  refine ⟨classify_congr ?_, Variable.ofTokens?_map (fun a => a.2) h.kind l⟩
  rw [List.map_map, List.map_map]
  exact List.map_congr_left fun a _ => a.2.role.symm

/-- A comment in the array bounds of a pointer declarator. -/
theorem comment_in_bounds :
    classify (ofSource 0 "int (*fp[/* c */2])(int);") =
        classify (ofSource 0 "int (*fp[ 2])(int);") ∧
      (Variable.ofTokens? (ofSource 0 "int (*fp[/* c */2])(int);")).map Variable.placeless =
        (Variable.ofTokens? (ofSource 0 "int (*fp[ 2])(int);")).map Variable.placeless := by
  let before : List Token := [⟨0, ⟨0, 3⟩, .word, "int"⟩, ⟨1, ⟨3, 4⟩, .blanks, " "⟩]
  let after (n : Nat) : List Token :=
    [⟨3, ⟨n, n + 5⟩, .group .paren, "(int)"⟩, ⟨4, ⟨n + 5, n + 6⟩, .punctuation, ";"⟩]
  let g : Token := ⟨2, ⟨4, 13⟩, .group .paren, "(*fp[ 2])"⟩
  let g' : Token := ⟨2, ⟨4, 19⟩, .group .paren, "(*fp[/* c */2])"⟩
  have hput : Commented "*fp[".toList "*fp[ 2]".toList "*fp[/* c */2]".toList := by
    have hstar (rest : List Char) : Begins .source .punctuation ['*'] ('f' :: rest) :=
      .atom rfl rfl
    have hname (rest : List Char) : Begins .source .word ['f', 'p'] ('[' :: rest) := .atom rfl rfl
    have hbounds : Begins .source (.group .bracket) ('[' :: ([' ', '2'] ++ [']'])) [] :=
      .group (by decide +kernel)
    have hbounds' : Begins .source (.group .bracket) ('[' :: ("/* c */2".toList ++ [']'])) [] :=
      .group (by decide +kernel)
    have hhere : Commented [] ([' '] ++ ['2']) ('/' :: '*' :: " c */".toList ++ ['2']) :=
      .here (by simp [IsGap, isBlank]) (by decide)
    exact .behind (hstar _) (hstar _) (.behind (hname _) (hname _)
      (.inside hbounds hbounds' hhere))
  have hgroup : CommentedGroup "*fp[".toList g g' := ⟨rfl, rfl, _, _, by decide, by decide, hput⟩
  have hbefore : before.map Token.placeless = before.map Token.placeless := rfl
  have hafter : (after 19).map Token.placeless = (after 13).map Token.placeless := rfl
  have htokens : ofSource 0 "int (*fp[ 2])(int);" = before ++ g :: after 13 := by decide +kernel
  have htokens' : ofSource 0 "int (*fp[/* c */2])(int);" = before ++ g' :: after 19 := by
    decide +kernel
  obtain ⟨hkind, hdeclared⟩ :=
    declared_beside_comment hgroup (fun _ => by decide) hbefore hafter
  rw [htokens, htokens']
  exact ⟨hkind, hdeclared (.inl (by decide +kernel))⟩

/-- In front of the star of a pointer declarator, a comment is not like a blank. -/
theorem comment_hides_star :
    ∃ before after after' g g', CommentedGroup [] g g' ∧
      after'.map Token.placeless = after.map Token.placeless ∧
      ofSource 0 "int ( *fp)(int);" = before ++ g :: after ∧
      ofSource 0 "int (/* c */*fp)(int);" = before ++ g' :: after' ∧
      classify (before ++ g :: after) = .variable ∧
      classify (before ++ g' :: after') = .expression ∧
      (Variable.ofTokens? (before ++ g :: after)).isSome = true ∧
      Variable.ofTokens? (before ++ g' :: after') = none := by
  let before : List Token := [⟨0, ⟨0, 3⟩, .word, "int"⟩, ⟨1, ⟨3, 4⟩, .blanks, " "⟩]
  let after (n : Nat) : List Token :=
    [⟨3, ⟨n, n + 5⟩, .group .paren, "(int)"⟩, ⟨4, ⟨n + 5, n + 6⟩, .punctuation, ";"⟩]
  let g : Token := ⟨2, ⟨4, 10⟩, .group .paren, "( *fp)"⟩
  let g' : Token := ⟨2, ⟨4, 16⟩, .group .paren, "(/* c */*fp)"⟩
  have hput : Commented [] ([' '] ++ "*fp".toList) ('/' :: '*' :: " c */".toList ++ "*fp".toList) :=
    .here (by simp [IsGap, isBlank]) (by decide)
  refine ⟨before, after 10, after 16, g, g', ⟨rfl, rfl, _, _, by decide, by decide, hput⟩, rfl, ?_⟩
  decide +kernel

end CBoundary
