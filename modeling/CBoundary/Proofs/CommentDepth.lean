import CBoundary.Proofs.BlankedText
import CBoundary.Proofs.TokenTree

/-!
Comments at any depth. A bracket group is one token, so the comments inside it are found only when
the inside is read again, and blanking leaves them where they are. So a blanked text, or a body,
holds a comment just if some group of the text that it was made of does. Trimming a body does not
matter, as no token but blanks ends in white space. Main statement: `blanked_hasComment_iff`.
-/
namespace CBoundary.CommentBlanking

open CharacterClass Lexeme Substitution TextPosition

/-- A comment stands in the text, outside bracket groups or inside them at any depth. -/
inductive HasComment : List Char → Prop
  | outside {text : List Char} {t : Token}
      (ht : t ∈ TokenStream.ofChars .definitionBody 0 0 text)
      (hcomment : t.kind.isComment = true) : HasComment text
  | inside {text : List Char} {t inner : Token}
      (ht : t ∈ TokenStream.ofChars .definitionBody 0 0 text)
      (hinner : t.interior? = some inner) (h : HasComment inner.chars) : HasComment text

/-- A comment stands inside a bracket group of the text, at any depth. -/
def HidesComment (text : List Char) : Prop :=
  ∃ t ∈ TokenStream.ofChars .definitionBody 0 0 text, ∃ inner, t.interior? = some inner ∧
    HasComment inner.chars

theorem hasComment_iff {text : List Char} : HasComment text ↔
    (∃ t ∈ TokenStream.ofChars .definitionBody 0 0 text, t.kind.isComment = true) ∨
      HidesComment text := by
  constructor
  · rintro (⟨ht, hcomment⟩ | ⟨ht, hinner, h⟩)
    · exact .inl ⟨_, ht, hcomment⟩
    · exact .inr ⟨_, ht, _, hinner, h⟩
  · rintro (⟨t, ht, hcomment⟩ | ⟨t, ht, inner, hinner, h⟩)
    · exact .outside ht hcomment
    · exact .inside ht hinner h

/-- What matters for comments: a comment, or a group with what is between its brackets. -/
inductive Landmark where
  | comment
  | group (inside : List Char)

/-- The token as a landmark, if it is one. -/
def landmark? (t : Token) : Option Landmark :=
  if t.kind.isComment then some .comment else t.interior?.map fun inner => .group inner.chars

/-- The comments and the groups of a text, in order. -/
def landmarks (text : List Char) : List Landmark :=
  (TokenStream.ofChars .definitionBody 0 0 text).filterMap landmark?

variable {kind : TokenKind} {lexeme behind text spaces : List Char} {c quote : Char} {delim : Delim}

theorem landmark?_congr {t u : Token} (hkind : t.kind = u.kind) (htext : t.text = u.text) :
    landmark? t = landmark? u := by
  unfold landmark? Token.interior? Token.chars
  rw [hkind, htext]
  split
  · rfl
  · split <;> rfl

theorem landmark?_of_space {t : Token} (h : t.kind = .blanks ∨ t.kind = .newline) :
    landmark? t = none := by
  rcases h with h | h <;> simp [landmark?, Token.interior?, TokenKind.isComment, h]

theorem landmarks_of_visible (offset : Nat) (text : List Char) :
    (visible offset text).filterMap landmark? = landmarks text := by
  have hmoved := TokenStream.ofChars_add .definitionBody 0 0 0 offset text
  rw [Nat.zero_add, Nat.zero_add] at hmoved
  rw [visible, hmoved, landmarks, List.filterMap_filter, List.filterMap_map, List.filterMap_map]
  refine List.filterMap_congr fun t _ => ?_
  have hsame : landmark? (unnumbered (t.moved 0 offset)) = landmark? t := landmark?_congr rfl rfl
  by_cases hspace : t.kind = .blanks ∨ t.kind = .newline
  · rw [landmark?_of_space hspace] at hsame ⊢
    simp [hsame]
  · rw [not_or] at hspace
    simpa [unnumbered, hspace] using hsame

/-- Blanking takes the comments out and leaves the groups as they are. -/
theorem landmarks_blankChars (text : List Char) :
    landmarks (blankChars text) = (landmarks text).filter fun m => m matches .group _ := by
  rw [← landmarks_of_visible 0, visible_blankChars, ← landmarks_of_visible 0, List.filter_filterMap,
    List.filterMap_filter]
  refine List.filterMap_congr fun t _ => ?_
  unfold landmark?
  cases hcomment : t.kind.isComment with
  | true => rfl
  | false => cases t.interior? <;> rfl

theorem landmarks_lexeme (h : Begins .definitionBody kind lexeme behind) :
    landmarks (lexeme ++ behind) =
      (landmark? ⟨0, ⟨0, byteLength lexeme⟩, kind, String.ofList lexeme⟩).toList ++
        landmarks behind := by
  rw [← landmarks_of_visible 0 (lexeme ++ behind)]
  by_cases hspace : kind = .blanks ∨ kind = .newline
  · rw [visible_space h hspace, landmarks_of_visible, landmark?_of_space hspace]
    rfl
  · rw [not_or] at hspace
    rw [visible_lexeme h hspace.1 hspace.2, List.filterMap_cons, landmarks_of_visible, Nat.zero_add]
    split <;> simp_all

theorem comment_mem_landmarks : Landmark.comment ∈ landmarks text ↔
    ∃ t ∈ TokenStream.ofChars .definitionBody 0 0 text, t.kind.isComment = true := by
  rw [landmarks, List.mem_filterMap]
  refine exists_congr fun t => and_congr_right fun _ => ?_
  unfold landmark?
  cases hcomment : t.kind.isComment <;> simp

theorem landmark?_eq_group {t : Token} {inside : List Char} :
    landmark? t = some (.group inside) ↔
      ∃ inner, t.interior? = some inner ∧ inner.chars = inside := by
  unfold landmark?
  split
  · rename_i hcomment
    refine iff_of_false (by simp) ?_
    rintro ⟨inner, hinner, -⟩
    cases hkind : t.kind <;> simp_all [TokenKind.isComment, Token.interior?]
  · simp

theorem hidesComment_iff : HidesComment text ↔
    ∃ inside, Landmark.group inside ∈ landmarks text ∧ HasComment inside := by
  simp only [HidesComment, landmarks, List.mem_filterMap, landmark?_eq_group]
  constructor
  · rintro ⟨t, ht, inner, hinner, h⟩
    exact ⟨inner.chars, ⟨t, ht, inner, hinner, rfl⟩, h⟩
  · rintro ⟨_, ⟨t, ht, inner, hinner, rfl⟩, h⟩
    exact ⟨t, ht, inner, hinner, h⟩

/-- Whether a text holds a comment is told by its landmarks. -/
theorem hasComment_congr {other : List Char} (h : landmarks text = landmarks other) :
    HasComment text ↔ HasComment other := by
  rw [hasComment_iff, hasComment_iff, ← comment_mem_landmarks, ← comment_mem_landmarks,
    hidesComment_iff, hidesComment_iff, h]

theorem hasComment_blankChars : HasComment (blankChars text) ↔ HidesComment text := by
  rw [hasComment_iff, ← comment_mem_landmarks, hidesComment_iff, hidesComment_iff,
    landmarks_blankChars]
  simp

theorem landmarks_cons_of_isWhitespace (h : isWhitespace c = true) (text : List Char) :
    landmarks (c :: text) = landmarks text := by
  by_cases hblank : isBlank c = true
  · rw [← landmarks_of_visible 0, visible_blank hblank, landmarks_of_visible]
  · by_cases hnewline : c = '\n'
    · subst hnewline
      have hatom : atom? .definitionBody '\n' ([] ++ text) = some (.newline, 0 + 1) := rfl
      exact landmarks_lexeme (.atom rfl hatom)
    · have hne (d : Char) (hd : isWhitespace d = false) : c ≠ d := by
        rintro rfl
        simp [h] at hd
      have hopen : Delim.ofOpener? c = none := by
        refine Option.eq_none_iff_forall_ne_some.2 fun delim hdelim => ?_
        exact hne delim.opener (by cases delim <;> rfl) (ofOpener?_eq_some hdelim)
      have hatom : atom? .definitionBody c text = none := by
        have hslash := hne '/' rfl
        rw [atom?_default (hne '"' rfl) (hne '\'' rfl) hnewline (hne '#' rfl) (hne '\\' rfl)
          (fun _ hc _ => hslash hc) (fun _ hc _ => hslash hc), if_neg hblank]
        exact operatorOrWord?_eq_none (by decide +kernel) h
          (MacroExpansion.isWordChar_of_isWhitespace h) text
      exact landmarks_lexeme (.stuck hopen hatom)

theorem landmarks_spaces (h : ∀ c ∈ spaces, isWhitespace c = true) (text : List Char) :
    landmarks (spaces ++ text) = landmarks text := by
  induction spaces with
  | nil => rfl
  | cons c spaces ih =>
    obtain ⟨hc, hrest⟩ := List.forall_mem_cons.1 h
    rw [List.cons_append, landmarks_cons_of_isWhitespace hc]
    exact ih hrest

/-- What ends in no white space lies in front of the white space at the end. -/
theorem length_le_of_ends {part : List Char} {mark : Char} (hmark : isWhitespace mark = false)
    (hspaces : ∀ c ∈ spaces, isWhitespace c = true) (h : part ++ [mark] <+: text ++ spaces) :
    part.length + 1 ≤ text.length := by
  obtain ⟨rest, hrest⟩ := h
  have hout : mark ∉ spaces := fun hmem => by simp [hspaces mark hmem] at hmark
  rw [List.append_assoc, List.singleton_append] at hrest
  rcases List.append_eq_append_iff.1 hrest with ⟨between, rfl, hbetween⟩ | ⟨between, -, hbetween⟩
  · cases between with
    | nil =>
      rw [List.nil_append] at hbetween
      exact absurd (hbetween ▸ List.mem_cons_self) hout
    | cons d between => simp
  · exact absurd (hbetween ▸ List.mem_append_right between List.mem_cons_self) hout

theorem group?_of_trailing {n : Nat} (hspaces : ∀ c ∈ spaces, isWhitespace c = true)
    (h : group? .definitionBody delim (text ++ spaces) = some n) :
    group? .definitionBody delim text = some n := by
  obtain ⟨inside, behind, hsplit, rfl⟩ := group?_split h
  have hpre : inside ++ [delim.closer] <+: text ++ spaces := ⟨behind, by simp [hsplit]⟩
  have hle := length_le_of_ends (by cases delim <;> rfl) hspaces hpre
  exact group?_append h (by omega)

theorem closes_of_trailing (hquote : IsQuote quote) (hspaces : ∀ c ∈ spaces, isWhitespace c = true)
    (h : Closes quote (text ++ spaces)) : Closes quote text := by
  obtain ⟨run, behind, hsplit, hrun⟩ := h
  have hpre : run ++ [quote] <+: text ++ spaces := ⟨behind, by simp [hsplit]⟩
  have hle := length_le_of_ends (by rcases hquote with rfl | rfl <;> rfl) hspaces hpre
  rw [List.append_cons] at hsplit
  obtain ⟨between, rfl, -⟩ := Extent.exists_between hsplit (by simpa using hle)
  exact ⟨run, between, by simp, hrun⟩

/-- White space behind a text does not change a lexeme in it, unless it comes directly behind the
lexeme and the lexeme may go on. -/
theorem begins_trailing (h : Begins .definitionBody kind lexeme behind)
    (hspaces : ∀ c ∈ spaces, isWhitespace c = true)
    (hends : behind = [] → kind ≠ .blanks ∧ kind ≠ .lineComment ∧ lexeme ≠ ['\\']) :
    Begins .definitionBody kind lexeme (behind ++ spaces) := by
  have hspaced : Spaced [] spaces := .of_space hspaces
  cases h with
  | @group delim inside behind h =>
    refine .group ?_
    rw [← List.append_nil (inside ++ delim.closer :: behind)] at h
    have hfound := group?_spaced hspaced h (by simp)
    rwa [List.append_assoc, List.cons_append] at hfound
  | unclosed h =>
    refine .unclosed (Option.eq_none_iff_forall_ne_some.2 fun n hn => ?_)
    rw [group?_of_trailing hspaces hn] at h
    cases h
  | @atom c tail behind kind hopen hatom =>
    refine .atom hopen ?_
    rw [← List.append_nil (tail ++ behind)] at hatom
    have hfound := atom?_spaced hspaced hatom (by simp) ?_
    · rwa [List.append_assoc] at hfound
    · intro hgoes
      have hne : behind ≠ [] := by
        intro hnil
        obtain ⟨hblanks, hline, -⟩ := hends hnil
        exact hgoes.elim hblanks hline
      have hpos := List.length_pos_iff.2 hne
      rw [List.length_append]
      omega
  | @stuck c behind hopen hatom =>
    have hspacedBehind : Spaced behind (behind ++ spaces) := by
      have hfront := hspaced.front behind
      rwa [List.append_nil] at hfront
    refine .stuck hopen (atom?_spaced_eq_none hspacedBehind hatom
      (fun quote hquote => closes_of_trailing hquote hspaces) ?_)
    rintro rfl hnil
    exact absurd rfl (hends hnil).2.2

theorem landmarks_eq_nil (h : ∀ c ∈ text, isWhitespace c = true) : landmarks text = [] := by
  have hall := landmarks_spaces h []
  rw [List.append_nil] at hall
  rw [hall]
  simp [landmarks]

theorem landmarks_backslash (hspaces : ∀ c ∈ spaces, isWhitespace c = true) :
    landmarks ('\\' :: spaces) = [] := by
  cases spaces with
  | nil => exact (landmarks_lexeme (.stuck rfl rfl)).trans (landmarks_eq_nil (by simp))
  | cons c spaces =>
    have hatom : atom? .definitionBody '\\' ([c] ++ spaces) = some (.lineContinuation, 1 + 1) := rfl
    exact (landmarks_lexeme (.atom rfl hatom)).trans
      (landmarks_eq_nil (List.forall_mem_cons.1 hspaces).2)

theorem comment_mem_slashes (text : List Char) :
    Landmark.comment ∈ landmarks ('/' :: '/' :: text) := by
  rw [comment_mem_landmarks, TokenStream.ofChars_cons]
  exact ⟨_, List.mem_cons_self, rfl⟩

theorem exists_slashes (h : Begins .definitionBody .lineComment lexeme []) :
    ∃ tail, lexeme = '/' :: '/' :: tail := by
  cases h with
  | @atom c tail behind kind hopen hatom =>
    rw [List.append_nil] at hatom
    obtain ⟨rfl, ⟨rest, rfl, -⟩ | ⟨rest, m, rfl, hpair, -⟩⟩ :=
      MacroExpansion.eq_of_atom?_isComment hatom rfl
    · exact ⟨rest, rfl⟩
    · simp [atom?, hpair] at hatom

/-- White space at the end changes no landmark, unless there is a comment that it may belong to. -/
theorem landmarks_trailing (hspaces : ∀ c ∈ spaces, isWhitespace c = true)
    (h : Landmark.comment ∉ landmarks (text ++ spaces)) :
    landmarks (text ++ spaces) = landmarks text := by
  induction text using lexeme_induction .definitionBody with
  | nil => rw [List.nil_append, landmarks_eq_nil hspaces, landmarks_eq_nil (by simp)]
  | lexeme kind lexeme behind hbegins ih =>
    by_cases hends : behind = [] → kind ≠ .blanks ∧ kind ≠ .lineComment ∧ lexeme ≠ ['\\']
    · rw [List.append_assoc, landmarks_lexeme (begins_trailing hbegins hspaces hends)] at h ⊢
      rw [List.mem_append, not_or] at h
      rw [landmarks_lexeme hbegins, ih h.2]
    · obtain ⟨rfl, hlast⟩ := Classical.not_imp.1 hends
      rw [List.append_nil] at h ⊢
      by_cases hblanks : kind = .blanks
      · subst hblanks
        have hlexeme : ∀ c ∈ lexeme, isWhitespace c = true := fun c hc =>
          isWhitespace_of_isGap (isGap_of_blanks hbegins) hc
        rw [landmarks_spaces hlexeme, landmarks_eq_nil hspaces, landmarks_eq_nil hlexeme]
      · by_cases hline : kind = .lineComment
        · subst hline
          obtain ⟨tail, rfl⟩ := exists_slashes hbegins
          exact absurd (comment_mem_slashes _) h
        · obtain rfl : lexeme = ['\\'] := by simpa [hblanks, hline] using hlast
          rw [List.singleton_append, landmarks_backslash hspaces, landmarks_backslash (by simp)]

theorem landmarks_trim (h : Landmark.comment ∉ landmarks text) :
    landmarks (trim text) = landmarks text := by
  obtain ⟨front, behind, htext, hfront, hbehind, -⟩ := exists_trim text
  have hstart : landmarks text = landmarks (trim text ++ behind) := by
    conv => lhs; rw [htext, List.append_assoc, landmarks_spaces hfront]
  rw [hstart] at h ⊢
  exact (landmarks_trailing hbehind h).symm

theorem readBody_chars {offset : Nat} {b : Token}
    (h : MacroDefinition.readBody offset text = some b) :
    b.chars = trim (blankChars (MacroDefinition.joinLines text)) := by
  simp only [MacroDefinition.readBody] at h
  split at h
  · cases h
  · rw [← Option.some.inj h, Token.chars, String.toList_ofList]

/-- A comment outlives blanking just if it stands inside a bracket group, and so it does in the body
of a macro. -/
theorem blanked_hasComment_iff (text : String) :
    (HasComment (blank text).toList ↔ HidesComment text.toList) ∧
      ∀ offset b, MacroDefinition.readBody offset text.toList = some b →
        (HasComment b.chars ↔ HidesComment (MacroDefinition.joinLines text.toList)) := by
  have hwhole : (blank text).toList = blankChars text.toList := String.toList_ofList
  refine ⟨by rw [hwhole, hasComment_blankChars], fun offset b hb => ?_⟩
  have hnone : Landmark.comment ∉
      landmarks (blankChars (MacroDefinition.joinLines text.toList)) := by
    rw [landmarks_blankChars]
    simp
  rw [readBody_chars hb, hasComment_congr (landmarks_trim hnone), hasComment_blankChars]

/-- A comment between parentheses stays in the body of a macro. -/
theorem body_keeps_hidden_comment :
    ∃ b, MacroDefinition.readBody 10 "(1 /* one */) /* two */".toList = some b ∧
      b.text = "(1 /* one */)" ∧ HasComment b.chars := by
  let group : Token := ⟨0, ⟨0, 13⟩, .group .paren, "(1 /* one */)"⟩
  let inner : Token := ⟨0, ⟨1, 12⟩, .group .paren, "1 /* one */"⟩
  let comment : Token := ⟨2, ⟨2, 11⟩, .blockComment, "/* one */"⟩
  have hgroup : group ∈ TokenStream.ofChars .definitionBody 0 0
      (MacroDefinition.joinLines "(1 /* one */) /* two */".toList) := by decide +kernel
  have hcomment : comment ∈ TokenStream.ofChars .definitionBody 0 0 inner.chars := by
    decide +kernel
  have hhides : HidesComment (MacroDefinition.joinLines "(1 /* one */) /* two */".toList) :=
    ⟨group, hgroup, inner, by decide +kernel, .outside hcomment rfl⟩
  have hbody : MacroDefinition.readBody 10 "(1 /* one */) /* two */".toList =
      some ⟨0, ⟨10, 23⟩, .directive, "(1 /* one */)"⟩ := by decide +kernel
  exact ⟨_, hbody, rfl, ((blanked_hasComment_iff "(1 /* one */) /* two */").2 10 _ hbody).2 hhides⟩

/-- Blanking leaves a comment between parentheses. -/
theorem comment_in_group_survives :
    blank "(/* c */)" = "(/* c */)" ∧ HasComment (blank "(/* c */)").toList := by
  let group : Token := ⟨0, ⟨0, 9⟩, .group .paren, "(/* c */)"⟩
  let inner : Token := ⟨0, ⟨1, 8⟩, .group .paren, "/* c */"⟩
  let comment : Token := ⟨0, ⟨0, 7⟩, .blockComment, "/* c */"⟩
  have hblank : blank "(/* c */)" = "(/* c */)" := by decide +kernel
  have hgroup : group ∈ TokenStream.ofChars .definitionBody 0 0 "(/* c */)".toList := by
    decide +kernel
  have hinner : group.interior? = some inner := by decide +kernel
  have hcomment : comment ∈ TokenStream.ofChars .definitionBody 0 0 inner.chars := by
    decide +kernel
  refine ⟨hblank, ?_⟩
  rw [hblank]
  exact .inside hgroup hinner (.outside hcomment rfl)

end CBoundary.CommentBlanking
