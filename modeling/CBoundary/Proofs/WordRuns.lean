import CBoundary.Proofs.BodyUnit
import Mathlib.Data.List.Basic

/-!
The words of a text, each as long as it can be, and what expansion does to them. A vocabulary says
which words there are and whether they may be glued, that is stand directly behind a closing
parenthesis, where the text that a call comes to may meet them. Cutting a text between words,
blanking its comments and putting texts of the vocabulary in the place of words and calls leads out
of no vocabulary. Main statements: `Turns.spells`, `spells_cleanArgument` and `turns_substitute`.
-/
namespace CBoundary.MacroExpansion

open CharacterClass Substitution

/-- A word between two texts that it does not go on into. -/
structure RunAt (before word behind : List Char) : Prop where
  isWord : IsWord word behind
  starts : ∀ a ∈ before.getLast?, isWordChar a = false

/-- The word is one of the words of the text, as long as it can be. -/
def IsRun (text word : List Char) : Prop :=
  ∃ before behind, text = before ++ (word ++ behind) ∧ RunAt before word behind

/-- A word of the text stands directly behind a closing parenthesis. -/
def HasRunBehindParen (text : List Char) : Prop :=
  ∃ before word behind, text = before ++ (word ++ behind) ∧ RunAt before word behind ∧
    before.getLast? = some ')'

/-- The text starts with a word. -/
def StartsWithWord (text : List Char) : Prop := ∃ c ∈ text.head?, isWordChar c = true

/-- Words, and whether they may be glued to what is in front of them. -/
structure Vocabulary where
  Has : List Char → Prop
  glued : Prop
  append : glued → ∀ {v w}, Has v → Has w → Has (v ++ w)

namespace Vocabulary

/-- The words of the text are in the vocabulary, and none stands behind a closing parenthesis unless
words may be glued. -/
def Spells (V : Vocabulary) (text : List Char) : Prop :=
  ∀ before word behind, text = before ++ (word ++ behind) → RunAt before word behind →
    V.Has word ∧ (V.glued ∨ before.getLast? ≠ some ')')

/-- A word at the front of `right` may stand behind `left`. -/
def MayFollow (V : Vocabulary) (left right : List Char) : Prop :=
  V.glued ∨ ∀ b ∈ right.head?, isWordChar b = true → ∀ a ∈ left.getLast?,
    isWordChar a = false ∧ a ≠ ')'

end Vocabulary

section Spelling

variable {V : Vocabulary} {left right text word behind : List Char}

theorem IsWord.startsWithWord (h : IsWord word behind) : StartsWithWord word := by
  obtain ⟨c, tail, rfl⟩ := List.exists_cons_of_ne_nil h.nonempty
  exact ⟨c, rfl, h.wordChars c List.mem_cons_self⟩

theorem IsWord.getLast? (h : IsWord word behind) : ∃ c ∈ word.getLast?, isWordChar c = true :=
  ⟨_, List.getLast?_eq_some_getLast h.nonempty,
    h.wordChars _ (List.getLast_mem h.nonempty)⟩

theorem spells_of_no_word (h : ∀ c ∈ text, isWordChar c = false) : V.Spells text := by
  rintro before word behind rfl hrun
  obtain ⟨c, hc, hword⟩ := hrun.isWord.startsWithWord
  have hplain := h c (by simp [List.mem_of_mem_head? hc])
  simp [hword] at hplain

/-- A word at the front of a text that may follow another one. -/
theorem spells_at_front (hright : V.Spells right) (hfollow : V.MayFollow left right)
    (hsplit : right = word ++ behind) (hrun : RunAt left word behind) :
    V.Has word ∧ (V.glued ∨ left.getLast? ≠ some ')') := by
  refine ⟨(hright [] word behind hsplit ⟨hrun.isWord, by simp⟩).1, ?_⟩
  refine hfollow.imp_right fun h hlast => ?_
  obtain ⟨c, hc, hword⟩ := hrun.isWord.startsWithWord
  have hfront : c ∈ right.head? := hsplit ▸ List.mem_head?_append_of_mem_head? hc
  exact (h c hfront hword ')' hlast).2 rfl

/-- A word that is split between two texts. -/
theorem has_of_split {before front back : List Char} (hleft : V.Spells (before ++ front))
    (hright : V.Spells (back ++ behind)) (hfollow : V.MayFollow (before ++ front) (back ++ behind))
    (hfront : front ≠ []) (hback : back ≠ []) (hrun : RunAt before (front ++ back) behind) :
    V.Has (front ++ back) ∧ (V.glued ∨ before.getLast? ≠ some ')') := by
  have hchars := List.forall_mem_append.1 hrun.isWord.wordChars
  have hfrontWord : IsWord front [] := ⟨hfront, hchars.1, by simp⟩
  have hbackWord : IsWord back behind := ⟨hback, hchars.2, hrun.isWord.stops⟩
  obtain ⟨hhasFront, hbefore⟩ := hleft before front [] (by simp) ⟨hfrontWord, hrun.starts⟩
  obtain ⟨hhasBack, -⟩ := hright [] back behind rfl ⟨hbackWord, by simp⟩
  refine ⟨?_, hbefore⟩
  rcases hfollow with hglued | hfollow
  · exact V.append hglued hhasFront hhasBack
  · obtain ⟨a, ha, haword⟩ := hfrontWord.getLast?
    obtain ⟨b, hb, hbword⟩ := hbackWord.startsWithWord
    have hplain := (hfollow b (List.mem_head?_append_of_mem_head? hb) hbword a
      (List.mem_getLast?_append_of_mem_getLast? ha)).1
    simp [haword] at hplain

theorem spells_append (hleft : V.Spells left) (hright : V.Spells right)
    (hfollow : V.MayFollow left right) : V.Spells (left ++ right) := by
  intro before word behind hsplit hrun
  rcases List.append_eq_append_iff.1 hsplit with ⟨rest, rfl, hright'⟩ | ⟨front, rfl, hword⟩
  · cases hrest : rest.getLast? with
    | none =>
      obtain rfl := List.getLast?_eq_none_iff.1 hrest
      rw [List.append_nil] at hrun ⊢
      exact spells_at_front hright hfollow hright' hrun
    | some last =>
      -- the word lies in the right text, with a character in front of it
      have hlast : (left ++ rest).getLast? = rest.getLast? := by
        rw [List.getLast?_append, hrest]
        rfl
      rw [hlast]
      exact hright rest word behind hright' ⟨hrun.isWord, hlast ▸ hrun.starts⟩
  · rcases List.append_eq_append_iff.1 hword with ⟨rest, rfl, rfl⟩ | ⟨back, rfl, rfl⟩
    · refine hleft before word rest rfl ⟨⟨hrun.isWord.nonempty, hrun.isWord.wordChars, ?_⟩,
        hrun.starts⟩
      exact fun c hc => hrun.isWord.stops c (List.mem_head?_append_of_mem_head? hc)
    · by_cases hfront : front = []
      · subst hfront
        rw [List.append_nil] at hfollow
        exact spells_at_front hright hfollow rfl hrun
      · by_cases hback : back = []
        · subst hback
          rw [List.append_nil] at hrun ⊢
          have hstops : IsWord front [] := ⟨hfront, hrun.isWord.wordChars, by simp⟩
          exact hleft before front [] (by simp) ⟨hstops, hrun.starts⟩
        · exact has_of_split hleft hright hfollow hfront hback hrun

/-- A text that is cut between words. -/
theorem Vocabulary.Spells.front (h : V.Spells (left ++ right)) (hapart : Apart left right) :
    V.Spells left := by
  rintro before word behind rfl hrun
  refine h before word (behind ++ right) (by simp) ⟨⟨hrun.isWord.nonempty, hrun.isWord.wordChars,
    ?_⟩, hrun.starts⟩
  intro c hc
  cases hbehind : behind.head? with
  | some d =>
    rw [List.head?_append, hbehind] at hc
    obtain rfl := Option.some.inj hc
    exact hrun.isWord.stops d hbehind
  | none =>
    obtain rfl := List.head?_eq_none_iff.1 hbehind
    obtain ⟨a, ha, hword⟩ := hrun.isWord.getLast?
    rw [List.append_nil] at hapart
    exact (hapart a (List.mem_getLast?_append_of_mem_getLast? ha) c hc).resolve_left
      (by simp [hword])

theorem Vocabulary.Spells.back (h : V.Spells (left ++ right)) (hapart : Apart left right) :
    V.Spells right := by
  rintro before word behind rfl hrun
  have hstarts : ∀ a ∈ (left ++ before).getLast?, isWordChar a = false := by
    intro a ha
    cases hbefore : before.getLast? with
    | some b =>
      rw [List.getLast?_append, hbefore] at ha
      obtain rfl := Option.some.inj ha
      exact hrun.starts b hbefore
    | none =>
      obtain rfl := List.getLast?_eq_none_iff.1 hbefore
      obtain ⟨c, hc, hword⟩ := hrun.isWord.startsWithWord
      rw [List.append_nil] at ha
      rw [List.nil_append] at hapart
      exact (hapart a ha c (List.mem_head?_append_of_mem_head? hc)).resolve_right
        (by simp [hword])
  obtain ⟨hhas, hbehind⟩ := h (left ++ before) word behind (by simp) ⟨hrun.isWord, hstarts⟩
  exact ⟨hhas, hbehind.imp_right fun hne hlast =>
    hne (List.mem_getLast?_append_of_mem_getLast? hlast)⟩

theorem Vocabulary.Spells.mayFollow (h : V.Spells (left ++ right)) (hapart : Apart left right) :
    V.MayFollow left right := by
  by_cases hglued : V.glued
  · exact .inl hglued
  · refine .inr fun b hb hword a ha => ?_
    have hplain : isWordChar a = false := (hapart a ha b hb).resolve_right (by simp [hword])
    refine ⟨hplain, ?_⟩
    rintro rfl
    obtain ⟨tail, rfl⟩ : ∃ tail, right = b :: tail := List.head?_eq_some_iff.1 hb
    obtain ⟨word, behind, hsplit, hisWord⟩ := exists_isWord hword tail
    have hstarts : ∀ c ∈ left.getLast?, isWordChar c = false := by
      intro c hc
      exact (hapart c hc b hb).resolve_right (by simp [hword])
    obtain ⟨-, hne⟩ := h left word behind (by rw [hsplit]) ⟨hisWord, hstarts⟩
    exact hne.resolve_left hglued ha

end Spelling

/-- What may be put in the place of a part: the part itself, blanks, or in the place of a word or a
call any text of the vocabulary. -/
inductive Put (V : Vocabulary) : List Char → List Char → Prop
  | kept {part : List Char} (hne : part ≠ []) : Put V part part
  | blanked {part blank : List Char} (hne : blank ≠ [])
      (hblank : ∀ c ∈ blank, isWordChar c = false ∧ c ≠ ')') : Put V part blank
  | replaced {part value : List Char} (hfirst : StartsWithWord part)
      (hlast : ∃ c ∈ part.getLast?, isWordChar c = true ∨ c = ')') (hvalue : V.Spells value) :
      Put V part value

/-- A text that is cut between words turns into another one, part by part. -/
inductive Turns (V : Vocabulary) : List Char → List Char → Prop
  | nil : Turns V [] []
  | cons {part value rest result : List Char} (hput : Put V part value) (hapart : Apart part rest)
      (hrest : Turns V rest result) : Turns V (part ++ rest) (value ++ result)

section Turning

variable {V : Vocabulary} {left right text part value result : List Char}

theorem mayFollow_of_not_starts (h : ¬ StartsWithWord right) : V.MayFollow left right :=
  .inr fun b hb hword => absurd ⟨b, hb, hword⟩ h

theorem Vocabulary.MayFollow.mono (h : V.MayFollow left right)
    (hstarts : StartsWithWord text → StartsWithWord right) : V.MayFollow left text := by
  refine h.imp_right fun hfollow b hb hword => ?_
  obtain ⟨c, hc, hcword⟩ := hstarts ⟨b, hb, hword⟩
  exact hfollow c hc hcword

/-- Behind a word or a call another word may stand only if words may be glued. -/
theorem Vocabulary.MayFollow.of_replaced (h : V.MayFollow part right)
    (hlast : ∃ c ∈ part.getLast?, isWordChar c = true ∨ c = ')') : V.MayFollow value right := by
  by_cases hstarts : StartsWithWord right
  · obtain ⟨b, hb, hword⟩ := hstarts
    refine .inl (h.resolve_right fun hfollow => ?_)
    obtain ⟨a, ha, hend⟩ := hlast
    obtain ⟨hplain, hne⟩ := hfollow b hb hword a ha
    rcases hend with hend | hend
    · simp [hend] at hplain
    · exact hne hend
  · exact mayFollow_of_not_starts hstarts

/-- One part turns, with the parts behind it turned already. -/
theorem spells_put (hput : Put V part value) (hpart : V.Spells part) (hresult : V.Spells result)
    (hfollow : V.MayFollow part result) : V.Spells (value ++ result) := by
  cases hput with
  | kept hne => exact spells_append hpart hresult hfollow
  | blanked hne hblank =>
    refine spells_append (spells_of_no_word fun c hc => (hblank c hc).1) hresult (.inr ?_)
    exact fun b _ _ a ha => hblank a (List.mem_of_mem_getLast? ha)
  | replaced hfirst hlast hvalue => exact spells_append hvalue hresult (hfollow.of_replaced hlast)

/-- What a text turns into starts with a word only if the text does. -/
theorem Turns.startsWithWord (h : Turns V text result) (hstarts : StartsWithWord result) :
    StartsWithWord text := by
  cases h with
  | nil => exact hstarts
  | @cons part value rest result hput hapart hrest =>
    obtain ⟨c, hc, hword⟩ := hstarts
    cases hput with
    | kept hne =>
      rw [List.head?_append_of_ne_nil _ hne] at hc
      exact ⟨c, List.mem_head?_append_of_mem_head? hc, hword⟩
    | blanked hne hblank =>
      rw [List.head?_append_of_ne_nil _ hne] at hc
      have hplain := (hblank c (List.mem_of_mem_head? hc)).1
      simp [hword] at hplain
    | replaced hfirst hlast hvalue =>
      obtain ⟨d, hd, hdword⟩ := hfirst
      exact ⟨d, List.mem_head?_append_of_mem_head? hd, hdword⟩

/-- What a text of the vocabulary turns into is one too. -/
theorem Turns.spells (h : Turns V text result) (hs : V.Spells text) : V.Spells result := by
  induction h with
  | nil => exact hs
  | cons hput hapart hrest ih =>
    exact spells_put hput (hs.front hapart) (ih (hs.back hapart))
      ((hs.mayFollow hapart).mono hrest.startsWithWord)

theorem Turns.keep (h : Turns V text result) (hapart : Apart left text) :
    Turns V (left ++ text) (left ++ result) := by
  by_cases hne : left = []
  · subst hne
    exact h
  · exact .cons (.kept hne) hapart h

end Turning

section Arguments

variable {V : Vocabulary} {text left right : List Char} {c d : Char}

theorem apart_append_mark (left : List Char) (hc : isWordChar c = false) :
    Apart (left ++ [c]) right :=
  apart_of_last List.getLast?_concat hc

theorem apart_mark (hc : isWordChar c = false) : Apart left (c :: right) := by
  refine apart_of_stops fun b hb => ?_
  obtain rfl := Option.some.inj hb
  exact hc

theorem isWordChar_of_isWhitespace (h : isWhitespace c = true) : isWordChar c = false := by
  have hspaces : ∀ n ∈ [9, 10, 11, 12, 13, 0x20, 0x85, 0xa0, 0x1680, 0x2000, 0x2001, 0x2002, 0x2003,
      0x2004, 0x2005, 0x2006, 0x2007, 0x2008, 0x2009, 0x200a, 0x2028, 0x2029, 0x202f, 0x205f,
      0x3000], isWordChar (Char.ofNat n) = false := by decide +kernel
  rw [← Char.ofNat_toNat c]
  apply hspaces
  simp only [isWhitespace, Bool.or_eq_true, Bool.and_eq_true, decide_eq_true_eq, beq_iff_eq] at h
  simp only [List.mem_cons, List.not_mem_nil, or_false]
  omega

theorem spells_trim (h : V.Spells text) : V.Spells (trim text) := by
  have hstart : V.Spells (trimStart text) := by
    rw [← List.takeWhile_append_dropWhile (p := isWhitespace) (l := text)] at h
    refine h.back fun a ha b hb => .inl (isWordChar_of_isWhitespace ?_)
    exact List.mem_takeWhile_imp (List.mem_of_mem_getLast? ha)
  have hend := congrArg List.reverse
    (List.takeWhile_append_dropWhile (p := isWhitespace) (l := (trimStart text).reverse))
  rw [List.reverse_reverse, List.reverse_append] at hend
  rw [← hend] at hstart
  refine hstart.front fun a ha b hb => .inr (isWordChar_of_isWhitespace ?_)
  exact List.mem_takeWhile_imp (List.mem_reverse.1 (List.mem_of_mem_head? hb))

theorem operator?_isComment {kind : TokenKind} {n : ℕ}
    (h : Lexeme.operator? text = some (kind, n)) : kind.isComment = false := by
  obtain ⟨op, -, hop⟩ := Option.map_eq_some_iff.1 h
  rw [← (Prod.mk.inj hop).1]
  rfl

theorem operatorOrWord?_isComment {kind : TokenKind} {n : ℕ}
    (h : Lexeme.operatorOrWord? text = some (kind, n)) : kind.isComment = false := by
  rcases Option.or_eq_some_iff.1 h with h | ⟨-, h⟩
  · exact operator?_isComment h
  · unfold Lexeme.word? at h
    split at h
    · cases h
    · cases h
      rfl

/-- Two of the branches of the lexer lead to a comment. -/
theorem eq_of_atom?_isComment {mode : Lexeme.Mode} {rest : List Char} {kind : TokenKind} {n : ℕ}
    (h : Lexeme.atom? mode c rest = some (kind, n)) (hcomment : kind.isComment = true) :
    c = '/' ∧ ((∃ tail, rest = '/' :: tail ∧ n = 1 + Extent.line '\n' '\\' rest) ∨
      ∃ tail m, rest = '*' :: tail ∧ Extent.pair '*' '/' tail = some m ∧ n = m + 2) := by
  have hplain : ¬ kind.isComment = false := by simp [hcomment]
  unfold Lexeme.atom? at h
  split at h
  · rename_i tail
    cases h
    exact ⟨rfl, .inl ⟨tail, rfl, rfl⟩⟩
  · rename_i tail
    split at h
    · rename_i m hpair
      cases h
      exact ⟨rfl, .inr ⟨tail, m, rfl, hpair, rfl⟩⟩
    · exact absurd (operator?_isComment h) hplain
  · obtain ⟨m, -, hm⟩ := Option.map_eq_some_iff.1 h
    cases hm
    exact absurd rfl hplain
  · obtain ⟨m, -, hm⟩ := Option.map_eq_some_iff.1 h
    cases hm
    exact absurd rfl hplain
  · cases h
    exact absurd rfl hplain
  · cases h
  · cases h
    exact absurd rfl hplain
  · split at h
    · cases h
      exact absurd rfl hplain
    · exact absurd (operatorOrWord?_isComment h) hplain
  · split at h
    · cases h
      exact absurd rfl hplain
    · exact absurd (operatorOrWord?_isComment h) hplain

/-- A comment is a part in which no name is looked for. -/
theorem exists_skipped_of_atom? {mode : Lexeme.Mode} {rest : List Char} {kind : TokenKind} {n : ℕ}
    (h : Lexeme.atom? mode c rest = some (kind, n)) (hcomment : kind.isComment = true) :
    c = '/' ∧ ∃ p : Skipped, (c :: rest).take n = p.written ∧ p.Stands ((c :: rest).drop n) := by
  obtain ⟨rfl, ⟨tail, rfl, rfl⟩ | ⟨tail, m, rfl, hpair, rfl⟩⟩ := eq_of_atom?_isComment h hcomment
  · obtain ⟨line, behind, rfl, hline, -⟩ := Extent.exists_isLine (by decide : '\\' ≠ '\n') tail
    have hlength : (Skipped.lineComment line).written.length =
        1 + Extent.line '\n' '\\' ('/' :: (line ++ behind)) := by
      rw [ByteExtent.line_cons (by decide) (by decide),
        Extent.IsLine.line_eq (by decide : '\\' ≠ '\n') hline]
      simp [Skipped.written]
      omega
    have hwhole : '/' :: '/' :: (line ++ behind) =
        (Skipped.lineComment line).written ++ behind := rfl
    refine ⟨rfl, .lineComment line, ?_, ?_⟩
    · rw [hwhole]
      exact List.take_left' hlength
    · rw [hwhole, List.drop_left' hlength]
      exact hline
  · obtain ⟨inside, behind, rfl, hinside, rfl⟩ := Extent.pair_eq_some_iff.1 hpair
    have hwhole : '/' :: '*' :: (inside ++ '*' :: '/' :: behind) =
        (Skipped.blockComment inside).written ++ behind := by simp [Skipped.written]
    refine ⟨rfl, .blockComment inside, ?_, hinside⟩
    rw [hwhole]
    exact List.take_left' (by simp [Skipped.written])

theorem exists_skipped_of_first {mode : Lexeme.Mode} {rest : List Char}
    (hcomment : (Lexeme.first mode c rest).1.isComment = true) :
    c = '/' ∧ ∃ p : Skipped, (c :: rest).take (Lexeme.first mode c rest).2 = p.written ∧
      p.Stands ((c :: rest).drop (Lexeme.first mode c rest).2) := by
  cases hopener : Delim.ofOpener? c with
  | some delim =>
    unfold Lexeme.first at hcomment
    rw [hopener] at hcomment
    cases hgroup : Lexeme.group? mode delim rest with
    | some m => simp [hgroup, TokenKind.isComment] at hcomment
    | none => simp [hgroup, TokenKind.isComment] at hcomment
  | none =>
    have hfirst : Lexeme.first mode c rest = (Lexeme.atom? mode c rest).getD (.unknown, 1) := by
      rw [Lexeme.first, hopener]
    rw [hfirst] at hcomment ⊢
    cases hatom : Lexeme.atom? mode c rest with
    | none =>
      rw [hatom] at hcomment
      cases hcomment
    | some found =>
      rw [hatom] at hcomment
      exact exists_skipped_of_atom? hatom hcomment

theorem mem_blankChar (h : c ∈ CommentBlanking.blankChar d) : c = ' ' ∨ c = '\n' := by
  unfold CommentBlanking.blankChar at h
  split at h
  · exact .inr (List.mem_singleton.1 h)
  · exact .inl (List.eq_of_mem_replicate h)

/-- A comment turns into blanks. -/
theorem put_blankToken {t : Token} (hne : t.chars ≠ []) (hcomment : t.kind.isComment = true) :
    Put V t.chars (CommentBlanking.blankToken t) := by
  rw [CommentBlanking.blankToken, if_pos hcomment]
  refine .blanked ?_ ?_
  · obtain ⟨c, rest, hchars⟩ := List.exists_cons_of_ne_nil hne
    have hlength := CommentBlanking.byteLength_blankChar c
    have hpos := c.utf8Size_pos
    intro hnil
    rw [hchars, List.flatMap_cons, List.append_eq_nil_iff] at hnil
    rw [hnil.1] at hlength
    simp at hlength
    omega
  · intro d hd
    obtain ⟨e, -, hd⟩ := List.mem_flatMap.1 hd
    rcases mem_blankChar hd with rfl | rfl <;> exact ⟨by decide, by decide⟩

/-- The first token of a text. No word goes on behind a comment, or begins in front of it. -/
theorem exists_first_token (mode : Lexeme.Mode) (index offset : ℕ) (left : List Char)
    (hne : text ≠ []) :
    ∃ t behind index' offset',
      TokenStream.ofChars mode index offset text =
          t :: TokenStream.ofChars mode index' offset' behind ∧
        text = t.chars ++ behind ∧ t.chars ≠ [] ∧
        (t.kind.isComment = true → Apart left text ∧ Apart t.chars behind) := by
  obtain ⟨c, rest, rfl⟩ := List.exists_cons_of_ne_nil hne
  have hbounds := Lexeme.first_bounds mode c rest
  refine ⟨_, _, _, _, TokenStream.ofChars_cons mode index offset c rest, ?_, ?_, ?_⟩
  · rw [Token.chars, String.toList_ofList, List.take_append_drop]
  · rw [Token.chars, String.toList_ofList]
    simp [Nat.pos_iff_ne_zero.1 hbounds.1]
  · intro hcomment
    obtain ⟨rfl, p, htake, hstands⟩ := exists_skipped_of_first hcomment
    refine ⟨apart_mark (by decide), ?_⟩
    rw [Token.chars, String.toList_ofList, htake]
    exact hstands.apart

/-- A text turns into the one with its comments blanked out. What is in front of a comment is kept
as a whole, since its tokens may end within a word. -/
theorem turns_blankTokens (kept text : List Char) (index offset : ℕ) :
    Turns V (kept ++ text) (kept ++ (TokenStream.ofChars .definitionBody index offset text).flatMap
      CommentBlanking.blankToken) := by
  induction hn : text.length using Nat.strongRecOn generalizing kept text index offset with
  | ind n ih =>
    by_cases hnil : text = []
    · rw [hnil, TokenStream.ofChars_nil, List.flatMap_nil]
      exact Turns.keep .nil apart_nil
    · obtain ⟨t, behind, index', offset', htokens, rfl, hne, happart⟩ :=
        exists_first_token .definitionBody index offset kept hnil
      have hshorter : behind.length < n := by
        have hpos := List.length_pos_iff.2 hne
        rw [List.length_append] at hn
        omega
      rw [htokens, List.flatMap_cons]
      cases hcomment : t.kind.isComment with
      | true =>
        obtain ⟨hfront, hback⟩ := happart hcomment
        exact Turns.keep (.cons (put_blankToken hne hcomment) hback
          (ih _ hshorter [] behind index' offset' rfl)) hfront
      | false =>
        rw [CommentBlanking.blankToken, if_neg (by simp [hcomment]), ← List.append_assoc,
          ← List.append_assoc]
        exact ih _ hshorter (kept ++ t.chars) behind index' offset' rfl

/-- Cleaning an argument leads out of no vocabulary. -/
theorem spells_cleanArgument (h : V.Spells text) : V.Spells (cleanArgument text) :=
  spells_trim ((turns_blankTokens [] text 0 0).spells h)

theorem spells_of_intercalate {entry : List Char} {entries : List (List Char)}
    (h : V.Spells ([','].intercalate (entry :: entries))) :
    V.Spells entry ∧ V.Spells ([','].intercalate entries) := by
  cases entries with
  | nil =>
    rw [List.intercalate_singleton] at h
    exact ⟨h, spells_of_no_word (by simp)⟩
  | cons next entries =>
    rw [List.intercalate_cons_cons, List.append_assoc] at h
    exact ⟨h.front (apart_mark (by decide)),
      (h.back (apart_mark (by decide))).back (apart_append_mark [] (by decide))⟩

theorem spells_of_mem_intercalate {entry : List Char} {entries : List (List Char)}
    (h : V.Spells ([','].intercalate entries)) (hmem : entry ∈ entries) : V.Spells entry := by
  induction entries with
  | nil => simp at hmem
  | cons first entries ih =>
    obtain ⟨hfirst, hothers⟩ := spells_of_intercalate h
    rcases List.mem_cons.1 hmem with rfl | hmem
    · exact hfirst
    · exact ih hothers hmem

theorem spells_intercalate_drop {entries : List (List Char)} (n : ℕ)
    (h : V.Spells ([','].intercalate entries)) : V.Spells ([','].intercalate (entries.drop n)) := by
  induction entries generalizing n with
  | nil => simpa using h
  | cons first entries ih =>
    cases n with
    | zero => exact h
    | succ n => exact ih n (spells_of_intercalate h).2

/-- What the parameters of a call get is spelled as the argument list is. -/
theorem spells_of_mem_rawArguments {definition : MacroDefinition} {parameters : List Token}
    {arguments argument : List Char} (h : V.Spells arguments)
    (hmem : argument ∈ rawArguments definition parameters arguments) : V.Spells argument := by
  have hentries : V.Spells ([','].intercalate (entries arguments)) := by
    rwa [entries, intercalate_between, TokenStream.flatMap_chars_ofChars]
  have hcollected : ∀ more, argument ∈ collected more (entries arguments) → V.Spells argument := by
    intro more hmem
    unfold collected at hmem
    split at hmem
    · exact spells_of_mem_intercalate hentries hmem
    · rcases List.mem_append.1 hmem with hmem | hmem
      · exact spells_of_mem_intercalate hentries (List.mem_of_mem_take hmem)
      · rw [List.mem_singleton.1 hmem]
        exact spells_intercalate_drop more hentries
  cases hvariadic : definition.isVariadic with
  | false =>
    rw [rawArguments_false hvariadic] at hmem
    exact spells_of_mem_intercalate hentries (List.mem_of_mem_take hmem)
  | true =>
    rw [rawArguments_true hvariadic] at hmem
    split at hmem
    · rcases List.mem_append.1 hmem with hmem | hmem
      · exact hcollected _ hmem
      · rw [List.mem_singleton.1 hmem]
        exact spells_of_no_word (by simp)
    · exact hcollected _ hmem

end Arguments

section Bodies

variable {V : Vocabulary} {word behind body : List Char} {bindings : List Binding}

theorem joinChain_of_no_join (h : ¬ ['#', '#'] <:+: body) : joinChain body = ([], body) := by
  have hnone : afterJoin? body = none := by
    unfold afterJoin?
    split
    · rename_i rest hrest
      refine absurd (List.IsInfix.trans ?_ (List.dropWhile_suffix isBlank).isInfix) h
      rw [hrest]
      exact (List.prefix_append ['#', '#'] rest).isInfix
    · rfl
  rw [joinChain]
  split
  · rfl
  · rename_i operand hsome
    simp [hnone] at hsome

theorem substitute_word (hw : IsWord word behind) (h : ¬ ['#', '#'] <:+: behind) :
    substitute bindings (word ++ behind) = plain bindings word ++ substitute bindings behind := by
  obtain ⟨c, tail, rfl⟩ := List.exists_cons_of_ne_nil hw.nonempty
  obtain ⟨hwords, -⟩ := joins_of_joinChain behind
  rw [joinChain_of_no_join h, List.map_eq_nil_iff] at hwords
  rw [List.cons_append, substitute, step_word bindings hw, hwords, joinChain_of_no_join h]
  rfl

/-- A word turns into what it is bound to. -/
theorem put_plain (hw : IsWord word behind) (hvalues : ∀ b ∈ bindings, V.Spells b.expanded) :
    Put V word (plain bindings word) := by
  cases hfind : find? bindings word with
  | none =>
    rw [plain, hfind]
    exact .kept hw.nonempty
  | some b =>
    rw [plain, hfind]
    obtain ⟨c, hc, hword⟩ := hw.getLast?
    exact .replaced hw.startsWithWord ⟨c, hc, .inl hword⟩
      (hvalues b (List.mem_of_find?_eq_some hfind))

/-- A body without number signs turns into the one with the arguments put in. -/
theorem turns_substitute (hbody : '#' ∉ body) (hvalues : ∀ b ∈ bindings, V.Spells b.expanded) :
    Turns V body (substitute bindings body) := by
  induction body using body_induction with
  | nil =>
    rw [substitute]
    exact .nil
  | word word behind hw ih =>
    have hbehind : '#' ∉ behind := fun h => hbody (List.mem_append_right word h)
    rw [substitute_word hw fun h => hbehind (h.subset List.mem_cons_self)]
    exact .cons (put_plain hw hvalues) (apart_of_stops hw.stops) (ih hbehind)
  | literal quote inside behind hquote hinside ih =>
    have hbehind : '#' ∉ behind := fun h => hbody (by simp [h])
    have hwhole : quote :: (inside ++ quote :: behind) =
        quote :: (inside ++ [quote]) ++ behind := by simp
    rw [substitute, step_literal bindings hquote hinside, hwhole]
    exact .cons (.kept (by simp)) (apart_append_mark (quote :: inside) hquote.isWordChar)
      (ih hbehind)
  | mark c rest hc hopen ih =>
    obtain ⟨hsign, hrest⟩ := not_or.1 (List.mem_cons.not.1 hbody)
    rw [substitute, step_mark bindings hc hopen (Ne.symm hsign)]
    have hput : Put V [c] [c] := .kept (List.cons_ne_nil c [])
    exact .cons hput (apart_append_mark [] hc) (ih hrest)

end Bodies

end CBoundary.MacroExpansion
