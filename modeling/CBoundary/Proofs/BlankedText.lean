import CBoundary.Proofs.DefinitionSpans
import CBoundary.Proofs.LexemeSteps
import CBoundary.Proofs.Relocation

/-!
A text after its comments are blanked out. Blanking closes no quote and no bracket that was open, so
every lexeme that is no comment is read again at its place, and what was a comment is read as blanks
and newlines. So the text has no comment left outside bracket groups, and blanking it again changes
nothing; lines and columns stay as they were. Main statements: `visible_blankChars` and
`blank_keeps_places`.
-/
namespace CBoundary.CommentBlanking

open CharacterClass Lexeme Substitution TextPosition

variable {kind : TokenKind} {lexeme behind text : List Char} {c quote : Char}

theorem flatMap_blankToken_ofChars (index offset : Nat) (text : List Char) :
    (TokenStream.ofChars .definitionBody index offset text).flatMap blankToken =
      blankChars text := by
  have hmoved := TokenStream.ofChars_add .definitionBody 0 0 index offset text
  rw [Nat.zero_add, Nat.zero_add] at hmoved
  rw [hmoved, List.flatMap_map]
  rfl

theorem blankChars_nil : blankChars [] = [] := by
  simp [blankChars]

theorem blankChars_comment (h : Begins .definitionBody kind lexeme behind)
    (hcomment : kind.isComment = true) :
    blankChars (lexeme ++ behind) = lexeme.flatMap blankChar ++ blankChars behind := by
  rw [blankChars, h.ofChars_append, List.flatMap_cons, flatMap_blankToken_ofChars, blankToken,
    if_pos hcomment, Token.chars, String.toList_ofList]

theorem blankChars_code (h : Begins .definitionBody kind lexeme behind)
    (hcode : kind.isComment = false) :
    blankChars (lexeme ++ behind) = lexeme ++ blankChars behind := by
  rw [blankChars, h.ofChars_append, List.flatMap_cons, flatMap_blankToken_ofChars, blankToken,
    if_neg (by simp [hcode]), Token.chars, String.toList_ofList]

theorem blankChars_blanks (hblank : isBlank c = true) (text : List Char) :
    blankChars (c :: text) =
      c :: (text.takeWhile isBlank ++ blankChars (text.dropWhile isBlank)) := by
  have hread := blankChars_code (begins_blanks hblank text) rfl
  rwa [List.cons_append, List.takeWhile_append_dropWhile, List.cons_append] at hread

/-- A blank in front stays, whatever is behind it. -/
theorem blankChars_blank (hblank : isBlank c = true) (text : List Char) :
    blankChars (c :: text) = c :: blankChars text := by
  rw [blankChars_blanks hblank]
  cases text with
  | nil => rfl
  | cons d text =>
    by_cases hd : isBlank d = true
    · rw [blankChars_blanks hd, List.takeWhile_cons_of_pos hd, List.dropWhile_cons_of_pos hd,
        List.cons_append]
    · rw [List.takeWhile_cons_of_neg hd, List.dropWhile_cons_of_neg hd, List.nil_append]

theorem mem_flatMap_blankChar (h : c ∈ lexeme.flatMap blankChar) : c = ' ' ∨ c = '\n' := by
  obtain ⟨d, -, hd⟩ := List.mem_flatMap.1 h
  exact MacroExpansion.mem_blankChar hd

theorem spaced_flatMap_blankChar (lexeme : List Char) :
    Spaced lexeme (lexeme.flatMap blankChar) := by
  induction lexeme with
  | nil => exact .nil
  | cons c lexeme ih =>
    obtain ⟨space, tail, hblank⟩ : ∃ space tail, blankChar c = space :: tail := by
      refine List.exists_cons_of_ne_nil fun hnil => ?_
      have hlength := byteLength_blankChar c
      have hpos := c.utf8Size_pos
      rw [hnil, byteLength_nil] at hlength
      omega
    have hmem (d : Char) (hd : d ∈ space :: tail) : isWhitespace d = true := by
      rw [← hblank] at hd
      rcases MacroExpansion.mem_blankChar hd with rfl | rfl <;> rfl
    have htail : Spaced [] tail := .of_space fun d hd => hmem d (List.mem_cons_of_mem space hd)
    rw [List.flatMap_cons, hblank, List.cons_append]
    exact .replace c (hmem space List.mem_cons_self) (htail.append ih)

theorem spaced_blankChars (text : List Char) : Spaced text (blankChars text) := by
  induction text using lexeme_induction .definitionBody with
  | nil => rw [blankChars_nil]; exact .nil
  | lexeme kind lexeme behind h ih =>
    cases hcomment : kind.isComment with
    | true =>
      rw [blankChars_comment h hcomment]
      exact (spaced_flatMap_blankChar lexeme).append ih
    | false =>
      rw [blankChars_code h hcomment]
      exact ih.front lexeme

theorem not_closes_blanks (hquote : IsQuote quote) (lexeme : List Char) :
    ¬ Closes quote (lexeme.flatMap blankChar) := by
  rintro ⟨run, behind, hsplit, -⟩
  have hmem : quote ∈ lexeme.flatMap blankChar := by simp [hsplit]
  rcases hquote with rfl | rfl <;> rcases mem_flatMap_blankChar hmem with h | h <;> cases h

/-- Blanking closes no quote. -/
theorem closes_of_blankChars (hquote : IsQuote quote) (h : Closes quote (blankChars text)) :
    Closes quote text := by
  induction text using lexeme_induction .definitionBody with
  | nil => rwa [blankChars_nil] at h
  | lexeme kind lexeme behind hbegins ih =>
    cases hcomment : kind.isComment with
    | true =>
      rw [blankChars_comment hbegins hcomment] at h
      have hpaired : Paired (lexeme.flatMap blankChar) := by
        refine paired_of_forall fun c hc => ?_
        rcases mem_flatMap_blankChar hc with rfl | rfl <;> decide
      rw [closes_append hquote hpaired, or_iff_right (not_closes_blanks hquote lexeme)] at h
      rcases hbegins.paired with hpaired | rfl
      · exact (closes_append hquote hpaired).2 (.inr (ih h))
      · rw [blankChars_nil] at h
        exact absurd h (not_closes_blanks hquote [])
    | false =>
      rw [blankChars_code hbegins hcomment] at h
      rcases hbegins.paired with hpaired | rfl
      · rw [closes_append hquote hpaired] at h ⊢
        exact h.imp_right ih
      · rwa [blankChars_nil] at h

theorem atom?_blankChars {tail : List Char}
    (h : atom? .definitionBody c (tail ++ behind) = some (kind, tail.length + 1))
    (hcode : kind.isComment = false) (hblanks : kind ≠ .blanks) :
    atom? .definitionBody c (tail ++ blankChars behind) = some (kind, tail.length + 1) := by
  refine atom?_spaced (spaced_blankChars behind) h le_rfl ?_
  rintro (rfl | rfl)
  · exact absurd rfl hblanks
  · cases hcode

theorem atom?_blankChars_eq_none (h : atom? .definitionBody c behind = none) :
    atom? .definitionBody c (blankChars behind) = none := by
  refine atom?_spaced_eq_none (spaced_blankChars behind) h
    (fun quote hquote hcloses => closes_of_blankChars hquote hcloses) ?_
  rintro - rfl
  exact blankChars_nil

theorem group?_blankChars {delim : Delim} {inside : List Char}
    (h : group? .definitionBody delim (inside ++ delim.closer :: behind) =
      some (inside.length + 2)) :
    group? .definitionBody delim (inside ++ delim.closer :: blankChars behind) =
      some (inside.length + 2) := by
  rw [List.append_cons] at h ⊢
  exact group?_spaced (spaced_blankChars behind) h (by simp)

theorem isGap_flatMap_blankChar (lexeme : List Char) : IsGap (lexeme.flatMap blankChar) := by
  intro c hc
  rcases mem_flatMap_blankChar hc with rfl | rfl
  · exact .inl rfl
  · exact .inr rfl

/-- Blanking closes no bracket. -/
theorem closable_of_blankChars {closers : List Char} (h : Closable closers (blankChars text)) :
    Closable closers text := by
  induction text using lexeme_induction .definitionBody generalizing closers with
  | nil => rwa [blankChars_nil] at h
  | lexeme kind lexeme behind hbegins ih =>
    cases closers with
    | nil => exact closable_nil _
    | cons closer outer =>
      cases hbegins with
      | @group delim inside behind hgroup =>
        rw [blankChars_code (.group hgroup) rfl, closable_group (group?_blankChars hgroup)] at h
        exact (closable_group hgroup).2 (ih h)
      | @unclosed delim behind hgroup =>
        rw [blankChars_code (.unclosed hgroup) rfl, List.singleton_append,
          closable_opener (Delim.ofOpener?_opener delim)] at h
        exact absurd (ih h.first) (group?_eq_none_iff.1 hgroup)
      | @atom c tail behind kind hopen hatom =>
        refine (closable_atom hopen hatom).2 (ih ?_)
        cases hcomment : kind.isComment with
        | true =>
          rw [blankChars_comment (.atom hopen hatom) hcomment] at h
          exact (closable_gap (isGap_flatMap_blankChar _)).1 h
        | false =>
          rw [blankChars_code (.atom hopen hatom) hcomment] at h
          by_cases hblanks : kind = .blanks
          · subst hblanks
            exact (closable_gap (isGap_of_blanks (.atom hopen hatom))).1 h
          · exact (closable_atom hopen (atom?_blankChars hatom hcomment hblanks)).1 h
      | @stuck c behind hopen hatom =>
        rw [blankChars_code (.stuck hopen hatom) rfl, List.singleton_append] at h
        by_cases hclose : Delim.isCloser c = true
        · rw [closable_closer hclose] at h
          exact (closable_closer hclose).2 ⟨h.1, ih h.2⟩
        · exact absurd h (not_closable_stuck hopen hclose (atom?_blankChars_eq_none hatom))

/-- What is no comment is read at its place again. Blanks may be read together with others. -/
theorem begins_blankChars (h : Begins .definitionBody kind lexeme behind)
    (hcode : kind.isComment = false) (hblanks : kind ≠ .blanks) :
    Begins .definitionBody kind lexeme (blankChars behind) := by
  cases h with
  | group hgroup => exact .group (group?_blankChars hgroup)
  | unclosed hgroup =>
    refine .unclosed (group?_eq_none_iff.2 fun hclosable => ?_)
    exact group?_eq_none_iff.1 hgroup (closable_of_blankChars hclosable)
  | atom hopen hatom => exact .atom hopen (atom?_blankChars hatom hcode hblanks)
  | stuck hopen hatom => exact .stuck hopen (atom?_blankChars_eq_none hatom)

/-- The token without its number in the stream. -/
def unnumbered (t : Token) : Token := { t with index := 0 }

/-- What is read from a text that starts at byte `offset`, but for blanks and newlines. -/
def visible (offset : Nat) (text : List Char) : List Token :=
  ((TokenStream.ofChars .definitionBody 0 offset text).map unnumbered).filter fun t =>
    t.kind != .blanks && t.kind != .newline

theorem visible_nil (offset : Nat) : visible offset [] = [] := by
  simp [visible]

theorem map_unnumbered_ofChars (index offset : Nat) (text : List Char) :
    (TokenStream.ofChars .definitionBody index offset text).map unnumbered =
      (TokenStream.ofChars .definitionBody 0 offset text).map unnumbered := by
  have hmoved := TokenStream.ofChars_add .definitionBody 0 offset index 0 text
  rw [Nat.zero_add, Nat.add_zero] at hmoved
  rw [hmoved, List.map_map]
  rfl

theorem visible_lexeme (h : Begins .definitionBody kind lexeme behind) (hblanks : kind ≠ .blanks)
    (hnewline : kind ≠ .newline) (offset : Nat) :
    visible offset (lexeme ++ behind) =
      ⟨0, ⟨offset, offset + byteLength lexeme⟩, kind, String.ofList lexeme⟩ ::
        visible (offset + byteLength lexeme) behind := by
  rw [visible, h.ofChars_append, List.map_cons, map_unnumbered_ofChars,
    List.filter_cons_of_pos (by simp [unnumbered, hblanks, hnewline])]
  rfl

theorem visible_space (h : Begins .definitionBody kind lexeme behind)
    (hspace : kind = .blanks ∨ kind = .newline) (offset : Nat) :
    visible offset (lexeme ++ behind) = visible (offset + byteLength lexeme) behind := by
  rw [visible, h.ofChars_append, List.map_cons, map_unnumbered_ofChars,
    List.filter_cons_of_neg (by rcases hspace with rfl | rfl <;> simp [unnumbered])]
  rfl

theorem visible_dropWhile (hblank : isBlank c = true) (offset : Nat) :
    visible offset (c :: text) = visible (offset + c.utf8Size + byteLength (text.takeWhile isBlank))
      (text.dropWhile isBlank) := by
  have hread := visible_space (begins_blanks hblank text) (.inl rfl) offset
  rwa [List.cons_append, List.takeWhile_append_dropWhile, byteLength_cons, ← Nat.add_assoc] at hread

theorem visible_blank (hblank : isBlank c = true) (offset : Nat) :
    visible offset (c :: text) = visible (offset + c.utf8Size) text := by
  rw [visible_dropWhile hblank]
  cases text with
  | nil => rfl
  | cons d text =>
    by_cases hd : isBlank d = true
    · rw [visible_dropWhile hd, List.takeWhile_cons_of_pos hd, List.dropWhile_cons_of_pos hd,
        byteLength_cons, Nat.add_assoc, Nat.add_assoc, Nat.add_assoc]
    · rw [List.takeWhile_cons_of_neg hd, List.dropWhile_cons_of_neg hd]
      rfl

/-- Blanks and newlines only move what is behind them. -/
theorem visible_gap {gap : List Char} (h : IsGap gap) (offset : Nat) :
    visible offset (gap ++ text) = visible (offset + byteLength gap) text := by
  induction gap generalizing offset with
  | nil => rfl
  | cons c gap ih =>
    obtain ⟨hc, hrest⟩ := List.forall_mem_cons.1 h
    rw [List.cons_append, byteLength_cons, ← Nat.add_assoc]
    rcases hc with hc | rfl
    · rw [visible_blank hc]
      exact ih hrest _
    · have hatom : atom? .definitionBody '\n' ([] ++ (gap ++ text)) = some (.newline, 0 + 1) := rfl
      exact (visible_space (.atom rfl hatom) (.inr rfl) offset).trans (ih hrest _)

/-- The blanked text reads as the text does, without the comments. -/
theorem visible_blankChars (offset : Nat) (text : List Char) :
    visible offset (blankChars text) =
      (visible offset text).filter fun t => !t.kind.isComment := by
  induction text using lexeme_induction .definitionBody generalizing offset with
  | nil => simp [blankChars_nil, visible_nil]
  | lexeme kind lexeme behind h ih =>
    cases hcomment : kind.isComment with
    | true =>
      rw [blankChars_comment h hcomment, visible_gap (isGap_flatMap_blankChar lexeme),
        byteLength_flatMap_blankChar,
        visible_lexeme h (by rintro rfl; cases hcomment) (by rintro rfl; cases hcomment),
        List.filter_cons_of_neg (by simp [hcomment])]
      exact ih _
    | false =>
      rw [blankChars_code h hcomment]
      by_cases hblanks : kind = .blanks
      · subst hblanks
        rw [visible_gap (isGap_of_blanks h), visible_space h (.inl rfl)]
        exact ih _
      · have hagain := begins_blankChars h hcomment hblanks
        by_cases hnewline : kind = .newline
        · rw [visible_space hagain (.inr hnewline), visible_space h (.inr hnewline)]
          exact ih _
        · rw [visible_lexeme hagain hblanks hnewline, visible_lexeme h hblanks hnewline,
            List.filter_cons_of_pos (by simp [hcomment]), ih]

/-- No comment is left outside bracket groups. -/
theorem isComment_of_mem_blankChars {t : Token}
    (h : t ∈ TokenStream.ofChars .definitionBody 0 0 (blankChars text)) :
    t.kind.isComment = false := by
  cases hcomment : t.kind.isComment with
  | false => rfl
  | true =>
    have hvisible : unnumbered t ∈ visible 0 (blankChars text) := by
      refine List.mem_filter.2 ⟨List.mem_map_of_mem h, ?_⟩
      cases hkind : t.kind <;> simp_all [TokenKind.isComment, unnumbered]
    rw [visible_blankChars] at hvisible
    have hcode := (List.mem_filter.1 hvisible).2
    simp [unnumbered, hcomment] at hcode

/-- Blanking a second time changes nothing. -/
theorem blankChars_blankChars (text : List Char) : blankChars (blankChars text) = blankChars text :=
  MacroExpansion.blankChars_of_no_comment fun _ ht => isComment_of_mem_blankChars ht

/-- Which bytes of the text are newlines. -/
def lineEnds (text : List Char) : List Bool := (utf8 text).map (· == newline)

theorem lineEnds_append (text other : List Char) :
    lineEnds (text ++ other) = lineEnds text ++ lineEnds other := by
  rw [lineEnds, TextSlice.utf8_append, List.map_append]
  rfl

theorem lineEnds_of_no_newline (h : '\n' ∉ text) :
    lineEnds text = List.replicate (byteLength text) false := by
  refine List.eq_replicate_iff.2 ⟨by rw [lineEnds, List.length_map, length_utf8], ?_⟩
  rintro mark hmark
  obtain ⟨byte, hbyte, rfl⟩ := List.mem_map.1 hmark
  obtain ⟨c, hc, hbyte⟩ := List.mem_flatMap.1 hbyte
  refine beq_eq_false_iff_ne.2 ?_
  rintro rfl
  have hnewline : newline = ByteExtent.byteOf '\n' := rfl
  rw [hnewline, ByteExtent.byteOf_mem_encode (by decide)] at hbyte
  exact h (hbyte ▸ hc)

theorem lineEnds_blankChar (c : Char) : lineEnds (blankChar c) = lineEnds [c] := by
  by_cases hc : c = '\n'
  · subst hc
    rfl
  · have hblank : '\n' ∉ blankChar c := by
      rw [blankChar, if_neg hc]
      intro h
      cases List.eq_of_mem_replicate h
    have hsingle : '\n' ∉ [c] := by simpa using Ne.symm hc
    rw [lineEnds_of_no_newline hblank, lineEnds_of_no_newline hsingle, byteLength_blankChar]
    rfl

theorem lineEnds_flatMap_blankChar (lexeme : List Char) :
    lineEnds (lexeme.flatMap blankChar) = lineEnds lexeme := by
  induction lexeme with
  | nil => rfl
  | cons c lexeme ih =>
    rw [List.flatMap_cons, lineEnds_append, lineEnds_blankChar, ih, ← lineEnds_append]
    rfl

theorem lineEnds_blankChars (text : List Char) : lineEnds (blankChars text) = lineEnds text := by
  induction text using lexeme_induction .definitionBody with
  | nil => rw [blankChars_nil]
  | lexeme kind lexeme behind h ih =>
    rw [lineEnds_append, ← ih]
    cases hcomment : kind.isComment with
    | true => rw [blankChars_comment h hcomment, lineEnds_append, lineEnds_flatMap_blankChar]
    | false => rw [blankChars_code h hcomment, lineEnds_append]

section Lines

variable {source result : String}

theorem lineOf_eq (source : String) (position : Nat) : lineOf source position =
    ((lineEnds source.toList).take position).count true + 1 := by
  rw [lineOf, lineEnds, ← List.map_take, List.count_eq_countP, List.count_eq_countP,
    List.countP_map]
  congr 2
  funext byte
  simp

theorem columnOf_eq (source : String) (position : Nat) : columnOf source position =
    (((lineEnds source.toList).take position).reverse.takeWhile (!·)).length + 1 := by
  rw [columnOf, lineEnds, ← List.map_take, ← List.map_reverse, List.takeWhile_map, List.length_map]
  rfl

theorem startsFrom_congr {bytes others : List UInt8}
    (h : bytes.map (· == newline) = others.map (· == newline)) (offset : Nat) :
    startsFrom offset bytes = startsFrom offset others := by
  induction bytes generalizing others offset with
  | nil =>
    rw [List.map_nil, eq_comm, List.map_eq_nil_iff] at h
    rw [h]
  | cons byte bytes ih =>
    cases others with
    | nil => cases h
    | cons other others =>
      obtain ⟨hbyte, hrest⟩ := List.cons.inj h
      have hsame : byte = newline ↔ other = newline := by
        rw [← beq_iff_eq, show (byte == newline) = (other == newline) from hbyte, beq_iff_eq]
      simp only [startsFrom, hsame, ih hrest]

end Lines

/-- The second text has the lines and columns of the first, and the same bytes outside comments;
in comments it is blank. -/
structure KeepsPlaces (text result : String) : Prop where
  byteLength_eq : byteLength result.toList = byteLength text.toList
  newlines (i : Nat) : (utf8 result.toList)[i]? = some newline ↔
    (utf8 text.toList)[i]? = some newline
  outside (i : Nat) : ¬ MacroDefinition.InComment text.toList i →
    (utf8 result.toList)[i]? = (utf8 text.toList)[i]?
  inside (i : Nat) : i < byteLength text.toList → MacroDefinition.InComment text.toList i →
    (utf8 result.toList)[i]? = some 32 ∨ (utf8 result.toList)[i]? = some newline
  lineOf_eq (position : Nat) : lineOf result position = lineOf text position
  columnOf_eq (position : Nat) : columnOf result position = columnOf text position
  lineStarts_eq : lineStarts result = lineStarts text

/-- Blanking comments keeps all places, and blanking them again changes nothing. -/
theorem blank_keeps_places (text : String) :
    KeepsPlaces text (blank text) ∧ blank (blank text) = blank text := by
  have hblank : (blank text).toList = blankChars text.toList := String.toList_ofList
  have hover := MacroDefinition.overwrites_blankChars text.toList
  have hends := lineEnds_blankChars text.toList
  refine ⟨?_, by rw [blank, hblank, blankChars_blankChars]; rfl⟩
  rw [← hblank] at hover hends
  refine ⟨hover.byteLength_eq, fun i => ?_, hover.kept, hover.blank, fun position => ?_,
    fun position => ?_, congrArg (0 :: ·) (startsFrom_congr hends 0)⟩
  · have hmark := congrArg (fun marks => marks[i]? = some true) hends
    simp only [lineEnds, List.getElem?_map, Option.map_eq_some_iff, beq_iff_eq] at hmark
    simpa using hmark
  · rw [lineOf_eq, lineOf_eq, hends]
  · rw [columnOf_eq, columnOf_eq, hends]

end CBoundary.CommentBlanking
