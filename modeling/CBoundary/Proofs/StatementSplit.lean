import CBoundary.Proofs.AnnotationGroups

/-!
Where a statement ends, told by the tokens that are no trivia. Space and comments decide nothing
here: whether a brace group closes a statement and whether a line is a bare call depend on code
tokens only. So tokens none of which ends a statement, and the separator behind them, are read as
one statement, whatever space and comments stand among them. Main statement: `exists_split`.
-/
namespace CBoundary

open Keyword

namespace TokenList

variable {trail rest : List Token}

theorem code_append (first second : List Token) :
    code (first ++ second) = code first ++ code second :=
  List.filter_append _ _

theorem code_trivia (h : ∀ t ∈ trail, t.kind.isTrivia = true) : code trail = [] := by
  rw [code, List.filter_eq_nil_iff]
  intro t ht
  simp [Token.isCode, h t ht]

theorem code_append_trivia (h : ∀ t ∈ trail, t.kind.isTrivia = true) :
    code (trail ++ rest) = code rest := by
  rw [code_append, code_trivia h, List.nil_append]

end TokenList

namespace Statement

open TokenList

variable {t separator : Token} {taken part rest tokens others front behind : List Token}

theorem ofTokens_of_ne_nil (h : tokens ≠ []) :
    ofTokens tokens = ⟨(split [] tokens).1⟩ :: ofTokens (split [] tokens).2 := by
  obtain ⟨t, rest, rfl⟩ := List.exists_cons_of_ne_nil h
  rw [ofTokens]

theorem kind_of_isSeparator (h : t.isSeparator = true) : t.kind = .punctuation := by
  simp only [Token.isSeparator, Token.isPunct, Bool.or_eq_true, Bool.and_eq_true, beq_iff_eq] at h
  exact h.elim And.left And.left

theorem isSeparator_of_comma (h : t.isPunct "," = true) : t.isSeparator = true := by
  simp [Token.isSeparator, h]

theorem isSeparator_of_semicolon (h : t.isPunct ";" = true) : t.isSeparator = true := by
  simp [Token.isSeparator, h]

theorem not_comma_of_semicolon (h : t.isPunct ";" = true) : t.isPunct "," = false := by
  simp only [Token.isPunct, Bool.and_eq_true, beq_iff_eq] at h
  simp [Token.isPunct, h]

theorem split_separator (h : t.isSeparator = true) : split taken (t :: rest) =
    (taken ++ t :: (splitTrailing rest).1, (splitTrailing rest).2) := by
  have hkind : t.kind ≠ .directive := by
    rw [kind_of_isSeparator h]
    decide
  rw [split, if_neg hkind, if_pos (by simp [h])]

/-- A statement goes on over tokens that do not end it. -/
theorem split_append_part
    (hpart : ∀ lead t later, part = lead ++ t :: later → t.kind ≠ .directive ∧
      t.isSeparator = false ∧
      (t.isGroup .brace = true → closesStatement (taken ++ lead ++ [t]) = false) ∧
      (t.kind = .newline → isBareCall (taken ++ lead ++ [t]) = false)) :
    split taken (part ++ rest) = split (taken ++ part) rest := by
  induction part generalizing taken with
  | nil => simp
  | cons t part ih =>
    obtain ⟨hdirective, hseparator, hbrace, hline⟩ := hpart [] t part rfl
    rw [List.append_nil] at hbrace hline
    have hcall : ¬ (t.kind = .newline && isBareCall (taken ++ [t]) && declarationFollows
        (part ++ rest)) = true := by
      intro h
      simp only [Bool.and_eq_true, decide_eq_true_eq] at h
      simp [hline h.1.1] at h
    rw [List.cons_append, split, if_neg hdirective, if_neg (by simpa [hseparator] using hbrace),
      if_neg hcall, ih, List.append_assoc, List.singleton_append]
    intro lead u later hsplit
    have hothers := hpart (t :: lead) u later (by rw [hsplit]; rfl)
    simpa using hothers

theorem isBareCall_congr (h : code tokens = code others) :
    isBareCall tokens = isBareCall others := by
  rw [isBareCall, isBareCall, h]

theorem closesStatement_congr (h : code tokens = code others) :
    closesStatement tokens = closesStatement others := by
  unfold closesStatement
  rw [h]

/-- None of the tokens ends the statement that starts with them. -/
structure StaysOpen (tokens : List Token) : Prop where
  plain : Open tokens
  brace : ∀ lead t later, tokens = lead ++ t :: later → t.isGroup .brace = true →
    closesStatement (lead ++ [t]) = false
  call : ∀ lead later, tokens = lead ++ later → isBareCall lead = false

theorem StaysOpen.goes_on (h : StaysOpen front) (hpart : withoutTrivia part = front) :
    ∀ lead t later, part = lead ++ t :: later → t.kind ≠ .directive ∧ t.isSeparator = false ∧
      (t.isGroup .brace = true → closesStatement (lead ++ [t]) = false) ∧
      (t.kind = .newline → isBareCall (lead ++ [t]) = false) := by
  rintro lead t later rfl
  rw [withoutTrivia_append] at hpart
  have hlead : isBareCall (withoutTrivia lead) = false := h.call _ _ hpart.symm
  rw [isBareCall_congr (code_withoutTrivia lead)] at hlead
  cases htrivia : t.kind.isTrivia with
  | true =>
    have hcode : code (lead ++ [t]) = code lead := by
      have hnone : code [t] = [] := code_trivia (by simpa using htrivia)
      rw [code_append, hnone, List.append_nil]
    refine ⟨ne_directive_of_isTrivia htrivia, isSeparator_of_isTrivia htrivia, ?_, ?_⟩
    · intro hgroup
      simp [Token.kind_of_isGroup hgroup, TokenKind.isTrivia, TokenKind.isSpace,
        TokenKind.isComment] at htrivia
    · intro _
      rw [isBareCall_congr hcode, hlead]
  | false =>
    rw [withoutTrivia_cons_of_not_isTrivia later htrivia] at hpart
    obtain ⟨hdirective, hseparator⟩ := h.plain t (hpart ▸ by simp)
    refine ⟨hdirective, hseparator, ?_, ?_⟩
    · intro hgroup
      rw [← h.brace _ t _ hpart.symm hgroup]
      exact closesStatement_congr (by simp only [code_append, code_withoutTrivia])
    · intro hnewline
      simp [hnewline, TokenKind.isTrivia, TokenKind.isSpace] at htrivia

/-- Tokens that do not end a statement and the separator behind them are one statement; the
statements behind it are those of the tokens that follow. -/
theorem exists_split (hfront : StaysOpen front) (hseparator : separator.isSeparator = true)
    (h : withoutTrivia tokens = front ++ separator :: behind) :
    ∃ s rest, ofTokens tokens = s :: ofTokens rest ∧
      withoutTrivia s.tokens = front ++ [separator] ∧ withoutTrivia rest = behind := by
  obtain ⟨first, second, rfl, hfirst, hsecond⟩ := List.filter_eq_append_iff.1 h
  obtain ⟨gap, rest, rfl, hgap, hother, hrest⟩ := List.filter_eq_cons_iff.1 hsecond
  have hgap : withoutTrivia gap = [] := withoutTrivia_eq_nil_iff.2 (by simpa using hgap)
  have hpart : withoutTrivia (first ++ gap) = front := by
    rw [withoutTrivia_append, hgap, List.append_nil]
    exact hfirst
  have hsplit : split [] (first ++ gap ++ separator :: rest) =
      (first ++ gap ++ separator :: (splitTrailing rest).1, (splitTrailing rest).2) := by
    rw [split_append_part (by simpa using hfront.goes_on hpart), List.nil_append,
      split_separator hseparator]
  have htrail := withoutTrivia_eq_nil_iff.2 (splitTrailing_isTrivia rest)
  have hall : withoutTrivia rest =
      withoutTrivia (splitTrailing rest).1 ++ withoutTrivia (splitTrailing rest).2 := by
    rw [← withoutTrivia_append, splitTrailing_append]
  refine ⟨⟨first ++ gap ++ separator :: (splitTrailing rest).1⟩, (splitTrailing rest).2,
    ?_, ?_, ?_⟩
  · rw [← List.append_assoc, ofTokens_of_ne_nil (by simp), hsplit]
  · rw [withoutTrivia_append, hpart,
      withoutTrivia_cons_of_not_isTrivia _ (by simpa using hother), htrail]
  · rw [← hrest]
    exact (hall.trans (by rw [htrail, List.nil_append])).symm

/-- Statements of nothing but trivia. -/
theorem withoutTrivia_of_mem_ofTokens (h : withoutTrivia tokens = []) {s : Statement}
    (hs : s ∈ ofTokens tokens) : withoutTrivia s.tokens = [] := by
  rw [withoutTrivia_eq_nil_iff] at h ⊢
  intro t ht
  refine h t ?_
  rw [← flatMap_tokens_ofTokens tokens]
  exact List.mem_flatMap.2 ⟨s, hs, ht⟩

end Statement

end CBoundary
