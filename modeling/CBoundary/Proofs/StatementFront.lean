import CBoundary.AdjacentComment
import CBoundary.Statement

/-!
What stands in front of a statement. A statement is cut so that a directive ends it and has only
trivia in front of it, and so that only trivia follow a comma or a semicolon. Hence all that stands
in front of its first code token is trivia. Of the comments there, the first is the one that counts
as the comment in front of the declaration. Main statements: `leading_fst` and
`cut_of_mem_ofTokens`.
-/
namespace CBoundary

theorem TokenKind.isSpace_of_isComment {kind : TokenKind} (h : kind.isComment = true) :
    kind.isSpace = false := by
  cases kind <;> simp_all [isComment, isSpace]

theorem TokenKind.isTrivia_iff {kind : TokenKind} :
    kind.isTrivia = true ↔ kind.isSpace = true ∨ kind.isComment = true := by
  simp [isTrivia]

namespace AdjacentComment

/-- The comments in front of the first token that is no trivia. -/
def front (tokens : List Token) : List Token :=
  (tokens.takeWhile (·.kind.isTrivia)).filter (·.kind.isComment)

section Front

variable {t : Token} (rest : List Token)

theorem leading_cons_space (h : t.kind.isSpace = true) :
    leading (t :: rest) = ((leading rest).1, (leading rest).2 + 1) := by
  unfold leading
  simp only [List.takeWhile_cons, h, if_true, List.length_cons, List.drop_succ_cons]
  cases rest.drop (rest.takeWhile (·.kind.isSpace)).length with
  | nil => rfl
  | cons u behind => cases hkind : u.kind.isComment <;> simp [hkind]

theorem leading_cons_comment (h : t.kind.isComment = true) :
    leading (t :: rest) = (some t, 1) := by
  simp [leading, TokenKind.isSpace_of_isComment h, h]

theorem leading_cons_other (h : t.kind.isTrivia = false) : leading (t :: rest) = (none, 0) := by
  simp only [TokenKind.isTrivia, Bool.or_eq_false_iff] at h
  simp [leading, h]

theorem front_cons_space (h : t.kind.isSpace = true) : front (t :: rest) = front rest := by
  have hcomment : t.kind.isComment = false := by
    cases hkind : t.kind <;> simp_all [TokenKind.isSpace, TokenKind.isComment]
  simp [front, TokenKind.isTrivia, h, hcomment]

theorem front_cons_comment (h : t.kind.isComment = true) :
    front (t :: rest) = t :: front rest := by
  simp [front, TokenKind.isTrivia, h]

theorem front_cons_other (h : t.kind.isTrivia = false) : front (t :: rest) = [] := by
  simp [front, h]

end Front

theorem mem_front {tokens : List Token} {t : Token} (h : t ∈ front tokens) :
    t.kind.isComment = true := (List.mem_filter.1 h).2

/-- The comments in front of the first code token. -/
def beforeCode (tokens : List Token) : List Token :=
  (tokens.takeWhile fun t => !t.isCode).filter (·.kind.isComment)

/-- The comment that counts as the one in front is the first of those in front. -/
theorem leading_fst (tokens : List Token) : (leading tokens).1 = (front tokens).head? := by
  induction tokens with
  | nil => rfl
  | cons t rest ih =>
    by_cases htrivia : t.kind.isTrivia = true
    · rcases TokenKind.isTrivia_iff.1 htrivia with hspace | hcomment
      · rw [leading_cons_space rest hspace, front_cons_space rest hspace, ih]
      · rw [leading_cons_comment rest hcomment, front_cons_comment rest hcomment, List.head?_cons]
    · have hother : t.kind.isTrivia = false := by simpa using htrivia
      rw [leading_cons_other rest hother, front_cons_other rest hother, List.head?_nil]

end AdjacentComment

namespace TokenList

open AdjacentComment

/-- The tokens without space and comments. -/
def withoutTrivia (tokens : List Token) : List Token := tokens.filter fun t => !t.kind.isTrivia

theorem withoutTrivia_append (first second : List Token) :
    withoutTrivia (first ++ second) = withoutTrivia first ++ withoutTrivia second :=
  List.filter_append _ _

theorem withoutTrivia_cons_of_isTrivia {t : Token} (rest : List Token)
    (h : t.kind.isTrivia = true) : withoutTrivia (t :: rest) = withoutTrivia rest := by
  simp [withoutTrivia, h]

theorem withoutTrivia_cons_of_not_isTrivia {t : Token} (rest : List Token)
    (h : t.kind.isTrivia = false) : withoutTrivia (t :: rest) = t :: withoutTrivia rest := by
  simp [withoutTrivia, h]

theorem withoutTrivia_eq_nil_iff {tokens : List Token} :
    withoutTrivia tokens = [] ↔ ∀ t ∈ tokens, t.kind.isTrivia = true := by
  simp [withoutTrivia]

theorem code_withoutTrivia (tokens : List Token) : code (withoutTrivia tokens) = code tokens := by
  rw [code, withoutTrivia, List.filter_filter, code]
  congr 1
  funext t
  cases htrivia : t.kind.isTrivia <;> simp [Token.isCode, htrivia]

/-- Nothing but trivia stands in front of where a declaration is read from. -/
theorem withoutTrivia_drop_leading (tokens : List Token) :
    withoutTrivia (tokens.drop (leading tokens).2) = withoutTrivia tokens := by
  induction tokens with
  | nil => rfl
  | cons t rest ih =>
    by_cases htrivia : t.kind.isTrivia = true
    · rw [withoutTrivia_cons_of_isTrivia rest htrivia]
      rcases TokenKind.isTrivia_iff.1 htrivia with hspace | hcomment
      · rw [leading_cons_space rest hspace, List.drop_succ_cons, ih]
      · rw [leading_cons_comment rest hcomment, List.drop_succ_cons, List.drop_zero]
    · rw [leading_cons_other rest (by simpa using htrivia), List.drop_zero]

end TokenList

namespace Statement

/-- What may stand behind a token in a statement: nothing behind a directive, only trivia behind a
separator, and a directive only behind trivia. -/
def Follows (t u : Token) : Prop :=
  t.kind ≠ .directive ∧ (t.isSeparator = true → u.kind.isTrivia = true) ∧
    (u.kind = .directive → t.kind.isTrivia = true)

/-- The tokens are cut out of a stream as a statement is. -/
def Cut (tokens : List Token) : Prop := tokens.Pairwise Follows

/-- The tokens of a statement that has not come to its end. -/
def Open (tokens : List Token) : Prop :=
  ∀ t ∈ tokens, t.kind ≠ .directive ∧ t.isSeparator = false

theorem Open.concat {taken : List Token} {t : Token} (h : Open taken)
    (hdirective : t.kind ≠ .directive) (hseparator : t.isSeparator = false) :
    Open (taken ++ [t]) := by
  intro u hu
  rcases List.mem_append.1 hu with hu | hu
  · exact h u hu
  · obtain rfl := List.mem_singleton.1 hu
    exact ⟨hdirective, hseparator⟩

theorem Open.cut {taken : List Token} (h : Open taken) : Cut taken := by
  refine List.pairwise_of_forall_mem_list ?_
  intro t ht u hu
  refine ⟨(h t ht).1, ?_, ?_⟩
  · intro hseparator
    simp [(h t ht).2] at hseparator
  · intro hdirective
    exact absurd hdirective (h u hu).1

theorem splitTrailing_isTrivia (tokens : List Token) :
    ∀ t ∈ (splitTrailing tokens).1, t.kind.isTrivia = true := by
  fun_induction splitTrailing tokens with
  | case1 => simp
  | case2 t rest hkind ih => simpa [hkind, TokenKind.isTrivia, TokenKind.isSpace] using ih
  | case3 t rest hkind ih => simpa [hkind, TokenKind.isTrivia, TokenKind.isComment] using ih
  | case4 t rest hkind => simp [hkind, TokenKind.isTrivia, TokenKind.isComment]
  | case5 => simp

theorem ne_directive_of_isTrivia {t : Token} (h : t.kind.isTrivia = true) :
    t.kind ≠ .directive := by
  intro hkind
  simp [hkind, TokenKind.isTrivia, TokenKind.isSpace, TokenKind.isComment] at h

theorem isSeparator_of_isTrivia {t : Token} (h : t.kind.isTrivia = true) :
    t.isSeparator = false := by
  cases hkind : t.kind <;>
    simp_all [TokenKind.isTrivia, TokenKind.isSpace, TokenKind.isComment, Token.isSeparator,
      Token.isPunct]

/-- A statement that ends in `t` and the trivia behind it. -/
theorem Open.cut_append {taken trailing : List Token} {t : Token} (h : Open taken)
    (ht : t.kind ≠ .directive) (htrailing : ∀ u ∈ trailing, u.kind.isTrivia = true) :
    Cut (taken ++ t :: trailing) := by
  have htrivia : Cut trailing := Open.cut fun u hu =>
    ⟨ne_directive_of_isTrivia (htrailing u hu), isSeparator_of_isTrivia (htrailing u hu)⟩
  refine List.pairwise_append.2 ⟨h.cut, List.pairwise_cons.2 ⟨?_, htrivia⟩, ?_⟩
  · intro u hu
    exact ⟨ht, fun _ => htrailing u hu,
      fun hkind => absurd hkind (ne_directive_of_isTrivia (htrailing u hu))⟩
  · intro u hu v hv
    have hv' : v.kind ≠ .directive := by
      rcases List.mem_cons.1 hv with rfl | hv
      · exact ht
      · exact ne_directive_of_isTrivia (htrailing v hv)
    refine ⟨(h u hu).1, ?_, fun hkind => absurd hkind hv'⟩
    intro hseparator
    simp [(h u hu).2] at hseparator

/-- What is split off is cut as a statement is. -/
theorem cut_split {taken : List Token} (tokens : List Token) (h : Open taken) :
    Cut (split taken tokens).1 := by
  fun_induction split taken tokens with
  | case1 => exact h.cut
  | case2 => exact h.cut
  | case3 taken t rest hkind hcode =>
    refine List.pairwise_append.2 ⟨h.cut, List.pairwise_singleton _ _, ?_⟩
    intro u hu v hv
    obtain rfl := List.mem_singleton.1 hv
    refine ⟨(h u hu).1, ?_, ?_⟩
    · intro hseparator
      simp [(h u hu).2] at hseparator
    · intro _
      -- in front of a directive there is no code, and what is open is no separator
      have hu' : u.isCode = false := by
        simp only [Bool.not_eq_true, List.any_eq_false] at hcode
        simpa using hcode u hu
      simpa [Token.isCode, (h u hu).1, (h u hu).2] using hu'
  | case4 taken t rest hkind _ => exact h.cut_append hkind (splitTrailing_isTrivia rest)
  | case5 taken t rest hkind hend hcall =>
    simp only [Bool.or_eq_true, not_or, Bool.not_eq_true] at hend
    exact (h.concat hkind hend.1).cut
  | case6 taken t rest hkind hend hcall ih =>
    simp only [Bool.or_eq_true, not_or, Bool.not_eq_true] at hend
    exact ih (h.concat hkind hend.1)

/-- Every statement of a stream is cut as a statement is. -/
theorem cut_of_mem_ofTokens {tokens : List Token} {s : Statement} (h : s ∈ ofTokens tokens) :
    Cut s.tokens := by
  fun_induction ofTokens tokens with
  | case1 => simp at h
  | case2 t rest ih =>
    rcases List.mem_cons.1 h with rfl | h
    · exact cut_split _ fun _ hu => absurd hu List.not_mem_nil
    · exact ih h

/-- Every token of a stream is in one of its statements. -/
theorem exists_mem_ofTokens {tokens : List Token} {t : Token} (h : t ∈ tokens) :
    ∃ s ∈ ofTokens tokens, t ∈ s.tokens := by
  rw [← flatMap_tokens_ofTokens tokens] at h
  exact List.mem_flatMap.1 h

/-- A directive ends its statement and has only trivia in front of it. -/
theorem Cut.eq_concat_directive {tokens : List Token} {d : Token} (h : Cut tokens)
    (hd : d ∈ tokens) (hkind : d.kind = .directive) :
    ∃ lead, tokens = lead ++ [d] ∧ ∀ t ∈ lead, t.kind.isTrivia = true := by
  obtain ⟨lead, behind, rfl⟩ := List.append_of_mem hd
  obtain ⟨-, hbehind, hlead⟩ := List.pairwise_append.1 h
  have hnil : behind = [] := by
    rw [List.eq_nil_iff_forall_not_mem]
    intro u hu
    exact (List.rel_of_pairwise_cons hbehind hu).1 hkind
  refine ⟨lead, by rw [hnil], ?_⟩
  intro t ht
  exact (hlead t ht d List.mem_cons_self).2.2 hkind

/-- A statement with a directive in it is a directive. -/
theorem Cut.kind_eq_directive {s : Statement} {d : Token} (h : Cut s.tokens) (hd : d ∈ s.tokens)
    (hkind : d.kind = .directive) : s.kind = .directive := by
  obtain ⟨lead, htokens, hlead⟩ := h.eq_concat_directive hd hkind
  have hnone : lead.find? (fun t => !t.kind.isTrivia) = none := by
    rw [List.find?_eq_none]
    intro t ht
    simp [hlead t ht]
  rw [Statement.kind, Classification.classify, htokens, List.find?_append, hnone]
  simp [hkind, TokenKind.isTrivia, TokenKind.isSpace, TokenKind.isComment]

/-- A statement with a code token has only trivia in front of its first one. -/
theorem Cut.takeWhile_isTrivia {tokens : List Token} (h : Cut tokens)
    (hcode : tokens.any Token.isCode = true) :
    tokens.takeWhile (·.kind.isTrivia) = tokens.takeWhile fun t => !t.isCode := by
  induction tokens with
  | nil => rfl
  | cons t rest ih =>
    obtain ⟨ht, hrest⟩ := List.pairwise_cons.1 h
    by_cases htcode : t.isCode = true
    · have htrivia : t.kind.isTrivia = false := by
        cases hkind : t.kind.isTrivia <;> simp_all [Token.isCode]
      simp [htcode, htrivia]
    · have hany : rest.any Token.isCode = true := by simpa [htcode] using hcode
      obtain ⟨u, hu, hucode⟩ := List.any_eq_true.1 hany
      have hutrivia : u.kind.isTrivia = false := by
        cases hkind : u.kind.isTrivia <;> simp_all [Token.isCode]
      have hother : t.kind.isTrivia ≠ false := by
        intro hother
        have hnosep : t.isSeparator = false := by
          cases hseparator : t.isSeparator with
          | false => rfl
          | true => simp [(ht u hu).2.1 hseparator] at hutrivia
        simp [Token.isCode, hother, (ht u hu).1, hnosep] at htcode
      have htrivia : t.kind.isTrivia = true := by simpa using hother
      simp only [List.takeWhile_cons, htrivia, if_true, htcode, Bool.not_false,
        ih hrest hany]

/-- In front of a statement with a code token, the comments are those before its first one. -/
theorem Cut.front_eq {tokens : List Token} (h : Cut tokens)
    (hcode : tokens.any Token.isCode = true) :
    AdjacentComment.front tokens = AdjacentComment.beforeCode tokens := by
  rw [AdjacentComment.front, h.takeWhile_isTrivia hcode, AdjacentComment.beforeCode]

end Statement

end CBoundary
