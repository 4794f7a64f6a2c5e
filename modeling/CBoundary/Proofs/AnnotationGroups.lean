import CBoundary.FunctionDecl
import CBoundary.Proofs.StatementFront

/-!
Annotation words are left out twice, each time with the parenthesized group behind them: among the
code tokens when a statement is classified, and among all of its tokens when a function is read.
Only space is looked past in the second case, so that a group stays which a comment keeps apart from
its annotation word; the classification leaves it out. The two leave the same code otherwise. Main
statement: `addsGroups`.
-/
namespace CBoundary

open Keyword AdjacentComment Statement

namespace Token

variable {t : Token}

theorem kind_of_isGroup {d : Delim} (h : t.isGroup d = true) : t.kind = .group d := by
  simpa [isGroup] using h

theorem isCode_of_isGroup {d : Delim} (h : t.isGroup d = true) : t.isCode = true := by
  simp [isCode, isSeparator, isPunct, kind_of_isGroup h, TokenKind.isTrivia, TokenKind.isSpace,
    TokenKind.isComment]

theorem isGroup_brace_of_paren (h : t.isGroup .paren = true) : t.isGroup .brace = false := by
  simp [isGroup, kind_of_isGroup h]

theorem isCode_of_kind_word (h : t.kind = .word) : t.isCode = true := by
  simp [isCode, isSeparator, isPunct, h, TokenKind.isTrivia, TokenKind.isSpace,
    TokenKind.isComment]

theorem isCode_of_isTrivia (h : t.kind.isTrivia = true) : t.isCode = false := by
  simp [isCode, h]

theorem isSpace_of_isCode (h : t.isCode = true) : t.kind.isSpace = false := by
  cases hspace : t.kind.isSpace with
  | false => rfl
  | true => simp [isCode, TokenKind.isTrivia, hspace] at h

theorem kind_of_isWordAmong {words : List String} (h : isWordAmong words t = true) :
    t.kind = .word := by
  simpa using (Bool.and_eq_true_iff.1 h).1

theorem isGroup_of_kind_word {d : Delim} (h : t.kind = .word) : t.isGroup d = false := by
  simp [isGroup, h]

end Token

namespace TokenList

theorem code_cons_of_isCode {t : Token} (rest : List Token) (h : t.isCode = true) :
    code (t :: rest) = t :: code rest := by
  simp [code, h]

theorem code_cons_of_not_isCode {t : Token} (rest : List Token) (h : t.isCode = false) :
    code (t :: rest) = code rest := by
  simp [code, h]

theorem code_dropWhile_group (d : Delim) (tokens : List Token) :
    code (tokens.dropWhile fun t => !t.isGroup d) =
      (code tokens).dropWhile fun t => !t.isGroup d := by
  induction tokens with
  | nil => rfl
  | cons t rest ih =>
    by_cases hgroup : t.isGroup d = true
    · simp [code_cons_of_isCode rest (Token.isCode_of_isGroup hgroup), hgroup]
    · by_cases hcode : t.isCode = true
      · simp [code_cons_of_isCode rest hcode, hgroup, ih]
      · simp [code_cons_of_not_isCode rest (Bool.eq_false_iff.2 hcode), hgroup, ih]

theorem code_takeWhile_group (d : Delim) (tokens : List Token) :
    code (tokens.takeWhile fun t => !t.isGroup d) =
      (code tokens).takeWhile fun t => !t.isGroup d := by
  induction tokens with
  | nil => rfl
  | cons t rest ih =>
    by_cases hgroup : t.isGroup d = true
    · rw [code_cons_of_isCode rest (Token.isCode_of_isGroup hgroup)]
      simp [hgroup, code]
    · by_cases hcode : t.isCode = true
      · simp [code_cons_of_isCode _ hcode, hgroup, ih]
      · have hnone : t.isCode = false := Bool.eq_false_iff.2 hcode
        simp [code_cons_of_not_isCode _ hnone, hgroup, ih]

/-- Nothing but trivia stands in front of where a declaration is read from. -/
theorem code_drop_leading (tokens : List Token) :
    code (tokens.drop (leading tokens).2) = code tokens := by
  rw [← code_withoutTrivia, withoutTrivia_drop_leading, code_withoutTrivia]

end TokenList

/-- The first list is the second with parenthesized groups put in, all of which satisfy `Q`. -/
inductive AddsGroups (Q : Token → Prop) : List Token → List Token → Prop
  | nil : AddsGroups Q [] []
  | keep (t : Token) {left kept : List Token} (h : AddsGroups Q left kept) :
      AddsGroups Q (t :: left) (t :: kept)
  | add {g : Token} {left kept : List Token} (hg : g.isGroup .paren = true) (hQ : Q g)
      (h : AddsGroups Q left kept) : AddsGroups Q (g :: left) kept

namespace AddsGroups

variable {Q : Token → Prop} {left kept head behind : List Token} {group : Token}

theorem any_brace (h : AddsGroups Q left kept) :
    left.any (·.isGroup .brace) = kept.any (·.isGroup .brace) := by
  induction h with
  | nil => rfl
  | keep t h ih => rw [List.any_cons, List.any_cons, ih]
  | @add g left kept hg hQ h ih =>
    rw [List.any_cons, Token.isGroup_brace_of_paren hg, Bool.false_or, ih]

/-- Reading up to the first group comes to the first group of the shorter list, or to one that was
put in; the same braces follow. -/
theorem first_group (h : AddsGroups Q left kept) (hkept : kept = head ++ group :: behind)
    (hgroup : group.isGroup .paren = true)
    (hhead : ∀ t ∈ head, t.isGroup .paren = false ∧ t.isGroup .brace = false) :
    ∃ found rest, left.dropWhile (fun t => !t.isGroup .paren) = found :: rest ∧
      found.isGroup .paren = true ∧
      rest.any (·.isGroup .brace) = behind.any (·.isGroup .brace) ∧
      (left.takeWhile (fun t => !t.isGroup .paren) = head ∨ Q found) := by
  induction h generalizing head with
  | nil => simp at hkept
  | @keep t left kept h ih =>
    cases head with
    | nil =>
      obtain ⟨rfl, rfl⟩ := List.cons.inj hkept
      exact ⟨t, left, by simp [hgroup], hgroup, h.any_brace, Or.inl (by simp [hgroup])⟩
    | cons u head =>
      obtain ⟨rfl, htail⟩ := List.cons.inj hkept
      obtain ⟨found, rest, hdrop, hfound, hbrace, hor⟩ :=
        ih htail fun v hv => hhead v (List.mem_cons_of_mem t hv)
      have hplain := (hhead t List.mem_cons_self).1
      refine ⟨found, rest, by simpa [hplain] using hdrop, hfound, hbrace, ?_⟩
      exact hor.imp (fun htake => by simp [hplain, htake]) id
  | @add g left kept hg hQ h ih =>
    refine ⟨g, left, by simp [hg], hg, ?_, Or.inr hQ⟩
    have hnone : head.any (·.isGroup .brace) = false := by
      simpa using fun t ht => (hhead t ht).2
    rw [h.any_brace, hkept, List.any_append, List.any_cons, hnone,
      Token.isGroup_brace_of_paren hgroup, Bool.false_or, Bool.false_or]

end AddsGroups

namespace Classification

variable (annotations : List String)

/-- What is left of the code behind an annotation word. -/
def behindWord : List Token → List Token
  | [] => []
  | t :: rest =>
      if t.isGroup .paren then withoutAnnotations annotations rest
      else withoutAnnotations annotations (t :: rest)

theorem withoutAnnotations_cons (t : Token) (rest : List Token) :
    withoutAnnotations annotations (t :: rest) =
      if isWordAmong annotations t then behindWord annotations rest
      else t :: withoutAnnotations annotations rest := by
  cases rest with
  | nil => rfl
  | cons u rest => rfl

/-- A token that is neither an annotation word nor a parenthesized group stays, and what stands
before and behind it is looked at apart. -/
theorem withoutAnnotations_append_cons {t : Token} (hword : isWordAmong annotations t = false)
    (hgroup : t.isGroup .paren = false) (lead rest : List Token) :
    withoutAnnotations annotations (lead ++ t :: rest) =
        withoutAnnotations annotations lead ++ t :: withoutAnnotations annotations rest ∧
      behindWord annotations (lead ++ t :: rest) =
        behindWord annotations lead ++ t :: withoutAnnotations annotations rest := by
  induction lead with
  | nil => simp [behindWord, hgroup, withoutAnnotations_cons, withoutAnnotations, hword]
  | cons u lead ih =>
    have hfirst : withoutAnnotations annotations (u :: lead ++ t :: rest) =
        withoutAnnotations annotations (u :: lead) ++
          t :: withoutAnnotations annotations rest := by
      rw [List.cons_append, withoutAnnotations_cons, withoutAnnotations_cons]
      split
      · exact ih.2
      · rw [ih.1, List.cons_append]
    refine ⟨hfirst, ?_⟩
    rw [List.cons_append, behindWord, behindWord]
    split
    · exact ih.1
    · exact hfirst

/-- What annotation words leave of the code, in front of it or right behind one. -/
def Leaves (annotations : List String) (code kept : List Token) : Prop :=
  withoutAnnotations annotations code = kept ∨ behindWord annotations code = kept

/-- A token of a kind that can be left out. -/
def CanGo (annotations : List String) (t : Token) : Prop :=
  t.isGroup .paren = true ∨ isWordAmong annotations t = true

namespace Leaves

variable {annotations : List String} {t : Token} {rest code kept : List Token}

theorem eq_nil (h : Leaves annotations [] kept) : kept = [] := by
  rcases h with h | h
  · exact h.symm
  · exact h.symm

/-- The first token is left out or kept. -/
theorem cons (h : Leaves annotations (t :: rest) kept) :
    (CanGo annotations t ∧ Leaves annotations rest kept) ∨
      ∃ tail, kept = t :: tail ∧ Leaves annotations rest tail := by
  have hplain : withoutAnnotations annotations (t :: rest) = kept →
      (isWordAmong annotations t = true ∧ Leaves annotations rest kept) ∨
        ∃ tail, kept = t :: tail ∧ Leaves annotations rest tail := by
    intro h
    rw [withoutAnnotations_cons] at h
    split at h
    · rename_i hword
      exact Or.inl ⟨hword, Or.inr h⟩
    · exact Or.inr ⟨_, h.symm, Or.inl rfl⟩
  rcases h with h | h
  · exact (hplain h).imp (fun h => ⟨Or.inr h.1, h.2⟩) id
  · rw [behindWord] at h
    split at h
    · rename_i hgroup
      exact Or.inl ⟨Or.inl hgroup, Or.inl h⟩
    · exact (hplain h).imp (fun h => ⟨Or.inr h.1, h.2⟩) id

theorem subset (h : Leaves annotations code kept) : kept ⊆ code := by
  induction code generalizing kept with
  | nil => simp [h.eq_nil]
  | cons t rest ih =>
    rcases h.cons with ⟨-, hrest⟩ | ⟨tail, rfl, hrest⟩
    · exact fun u hu => List.mem_cons_of_mem t (ih hrest hu)
    · exact List.cons_subset_cons t (ih hrest)

end Leaves

end Classification

/-- The tokens end in an annotation word and a gap that holds no code. -/
def EndsIn (annotations : List String) (gap tokens : List Token) : Prop :=
  ∃ before word, tokens = before ++ word :: gap ∧ isWordAmong annotations word = true ∧
    ∀ t ∈ gap, t.isCode = false

/-- The group stands behind an annotation word, and what comes between them is no code and not all
of it space. -/
def KeptApart (annotations : List String) (tokens : List Token) (group : Token) : Prop :=
  ∃ lead gap behind, tokens = lead ++ group :: behind ∧ EndsIn annotations gap lead ∧
    ∃ t ∈ gap, t.kind.isSpace = false

section Annotations

variable {annotations : List String} {gap tokens : List Token} {t : Token}

theorem EndsIn.concat (h : EndsIn annotations gap tokens) (ht : t.isCode = false) :
    EndsIn annotations (gap ++ [t]) (tokens ++ [t]) := by
  obtain ⟨before, word, rfl, hword, hgap⟩ := h
  refine ⟨before, word, by simp, hword, ?_⟩
  intro u hu
  rcases List.mem_append.1 hu with hu | hu
  · exact hgap u hu
  · rw [List.mem_singleton.1 hu, ht]

theorem endsIn_concat (h : isWordAmong annotations t = true) :
    EndsIn annotations [] (tokens ++ [t]) :=
  ⟨tokens, t, rfl, h, by simp⟩

namespace FunctionDecl

theorem withoutAnnotations_word {skipping : Bool} (rest : List Token)
    (h : isWordAmong annotations t = true) :
    withoutAnnotations annotations skipping (t :: rest) =
      withoutAnnotations annotations true rest := by
  have hkind := Token.kind_of_isWordAmong h
  simp [withoutAnnotations, h, hkind, TokenKind.isSpace, Token.isGroup]

theorem withoutAnnotations_other {skipping : Bool} (rest : List Token)
    (hword : isWordAmong annotations t = false)
    (hskip : skipping = true → t.kind.isSpace = false ∧ t.isGroup .paren = false) :
    withoutAnnotations annotations skipping (t :: rest) =
      t :: withoutAnnotations annotations false rest := by
  cases skipping with
  | false => simp [withoutAnnotations, hword]
  | true => simp [withoutAnnotations, hword, hskip rfl]

end FunctionDecl

/-- What the reader of functions leaves of the tokens is what the classification leaves of their
code, and groups that are kept apart from their annotation words. The tokens stand behind `lead` in
the whole list, which says whether an annotation word is still looked past. -/
structure LeftAlike (annotations : List String) (whole lead tokens : List Token) : Prop where
  plain : AddsGroups (KeptApart annotations whole)
    (TokenList.code (FunctionDecl.withoutAnnotations annotations false tokens))
    (Classification.withoutAnnotations annotations (TokenList.code tokens))
  /-- Nothing but space stands behind an annotation word. -/
  behind : ∀ gap, EndsIn annotations gap lead → AddsGroups (KeptApart annotations whole)
    (TokenList.code (FunctionDecl.withoutAnnotations annotations true tokens))
    (Classification.behindWord annotations (TokenList.code tokens))
  /-- Something else stands behind an annotation word, which the classification does not see. -/
  apart : ∀ gap, EndsIn annotations gap lead → (∃ t ∈ gap, t.kind.isSpace = false) →
    AddsGroups (KeptApart annotations whole)
      (TokenList.code (FunctionDecl.withoutAnnotations annotations false tokens))
      (Classification.behindWord annotations (TokenList.code tokens))

namespace LeftAlike

open FunctionDecl Classification

variable {whole lead rest : List Token}

theorem nil : LeftAlike annotations whole lead [] := ⟨.nil, fun _ _ => .nil, fun _ _ _ => .nil⟩

theorem cons_space (h : LeftAlike annotations whole (lead ++ [t]) rest)
    (hspace : t.kind.isSpace = true) : LeftAlike annotations whole lead (t :: rest) := by
  have hcode : t.isCode = false := Token.isCode_of_isTrivia (by simp [TokenKind.isTrivia, hspace])
  have hword : isWordAmong annotations t = false := by
    cases hkind : t.kind <;> simp_all [isWordAmong, TokenKind.isSpace]
  have hkept : TokenList.code (FunctionDecl.withoutAnnotations annotations false (t :: rest)) =
      TokenList.code (FunctionDecl.withoutAnnotations annotations false rest) := by
    rw [withoutAnnotations_other rest hword (by simp), TokenList.code_cons_of_not_isCode _ hcode]
  have hskipped : FunctionDecl.withoutAnnotations annotations true (t :: rest) =
      FunctionDecl.withoutAnnotations annotations true rest := by
    simp [FunctionDecl.withoutAnnotations, hspace]
  refine ⟨?_, ?_, ?_⟩
  · rw [hkept, TokenList.code_cons_of_not_isCode rest hcode]
    exact h.plain
  · intro gap hends
    rw [hskipped, TokenList.code_cons_of_not_isCode rest hcode]
    exact h.behind _ (hends.concat hcode)
  · intro gap hends happart
    rw [hkept, TokenList.code_cons_of_not_isCode rest hcode]
    obtain ⟨u, hu, hother⟩ := happart
    exact h.apart _ (hends.concat hcode) ⟨u, List.mem_append_left _ hu, hother⟩

/-- A token that is neither code nor space parts an annotation word from its group for the reader of
functions, but not for the classification. -/
theorem cons_comment (h : LeftAlike annotations whole (lead ++ [t]) rest)
    (hcode : t.isCode = false) (hspace : t.kind.isSpace = false) :
    LeftAlike annotations whole lead (t :: rest) := by
  have hword : isWordAmong annotations t = false := by
    cases hamong : isWordAmong annotations t with
    | false => rfl
    | true => simp [Token.isCode_of_kind_word (Token.kind_of_isWordAmong hamong)] at hcode
  have hgroup : t.isGroup .paren = false := by
    cases hparen : t.isGroup .paren with
    | false => rfl
    | true => simp [Token.isCode_of_isGroup hparen] at hcode
  have hkept (skipping : Bool) :
      TokenList.code (FunctionDecl.withoutAnnotations annotations skipping (t :: rest)) =
        TokenList.code (FunctionDecl.withoutAnnotations annotations false rest) := by
    rw [withoutAnnotations_other rest hword fun _ => ⟨hspace, hgroup⟩,
      TokenList.code_cons_of_not_isCode _ hcode]
  have hapart : ∀ gap, EndsIn annotations gap lead → AddsGroups (KeptApart annotations whole)
      (TokenList.code (FunctionDecl.withoutAnnotations annotations false rest))
      (behindWord annotations (TokenList.code rest)) := by
    intro gap hends
    exact h.apart _ (hends.concat hcode)
      ⟨t, List.mem_append_right _ (List.mem_singleton.2 rfl), hspace⟩
  refine ⟨?_, ?_, ?_⟩
  · rw [hkept, TokenList.code_cons_of_not_isCode rest hcode]
    exact h.plain
  · intro gap hends
    rw [hkept, TokenList.code_cons_of_not_isCode rest hcode]
    exact hapart gap hends
  · intro gap hends _
    rw [hkept, TokenList.code_cons_of_not_isCode rest hcode]
    exact hapart gap hends

theorem cons_word (h : LeftAlike annotations whole (lead ++ [t]) rest)
    (hword : isWordAmong annotations t = true) : LeftAlike annotations whole lead (t :: rest) := by
  have hkind := Token.kind_of_isWordAmong hword
  have hgroup : t.isGroup .paren = false := Token.isGroup_of_kind_word hkind
  have hcode := TokenList.code_cons_of_isCode rest (Token.isCode_of_kind_word hkind)
  have hleft := h.behind [] (endsIn_concat hword)
  have hnext : behindWord annotations (TokenList.code (t :: rest)) =
      behindWord annotations (TokenList.code rest) := by
    rw [hcode, behindWord, hgroup, withoutAnnotations_cons, if_pos hword]
    rfl
  refine ⟨?_, ?_, ?_⟩
  · rw [withoutAnnotations_word rest hword, hcode, withoutAnnotations_cons, if_pos hword]
    exact hleft
  · intro gap hends
    rw [withoutAnnotations_word rest hword, hnext]
    exact hleft
  · intro gap hends _
    rw [withoutAnnotations_word rest hword, hnext]
    exact hleft

/-- A group is left out by both behind an annotation word, unless something that is no space keeps
it apart from the word. -/
theorem cons_group (h : LeftAlike annotations whole (lead ++ [t]) rest)
    (hwhole : whole = lead ++ t :: rest) (hgroup : t.isGroup .paren = true) :
    LeftAlike annotations whole lead (t :: rest) := by
  have hcode : t.isCode = true := Token.isCode_of_isGroup hgroup
  have hspace : t.kind.isSpace = false := Token.isSpace_of_isCode hcode
  have hword : isWordAmong annotations t = false := by
    cases hamong : isWordAmong annotations t with
    | false => rfl
    | true => simp [Token.isGroup_of_kind_word (Token.kind_of_isWordAmong hamong)] at hgroup
  have hkept : TokenList.code (FunctionDecl.withoutAnnotations annotations false (t :: rest)) =
      t :: TokenList.code (FunctionDecl.withoutAnnotations annotations false rest) := by
    rw [withoutAnnotations_other rest hword (by simp), TokenList.code_cons_of_isCode _ hcode]
  have hskipped : FunctionDecl.withoutAnnotations annotations true (t :: rest) =
      FunctionDecl.withoutAnnotations annotations false rest := by
    simp [FunctionDecl.withoutAnnotations, hspace, hgroup]
  refine ⟨?_, ?_, ?_⟩
  · rw [hkept, TokenList.code_cons_of_isCode rest hcode, withoutAnnotations_cons, hword]
    exact h.plain.keep t
  · intro gap hends
    rw [hskipped, TokenList.code_cons_of_isCode rest hcode, behindWord, if_pos hgroup]
    exact h.plain
  · intro gap hends happart
    rw [hkept, TokenList.code_cons_of_isCode rest hcode, behindWord, if_pos hgroup]
    exact .add hgroup ⟨lead, gap, rest, hwhole, hends, happart⟩ h.plain

theorem cons_other (h : LeftAlike annotations whole (lead ++ [t]) rest) (hcode : t.isCode = true)
    (hword : isWordAmong annotations t = false) (hgroup : t.isGroup .paren = false) :
    LeftAlike annotations whole lead (t :: rest) := by
  have hspace : t.kind.isSpace = false := Token.isSpace_of_isCode hcode
  have hkept (skipping : Bool) :
      TokenList.code (FunctionDecl.withoutAnnotations annotations skipping (t :: rest)) =
        t :: TokenList.code (FunctionDecl.withoutAnnotations annotations false rest) := by
    rw [withoutAnnotations_other rest hword fun _ => ⟨hspace, hgroup⟩,
      TokenList.code_cons_of_isCode _ hcode]
  have hnext : behindWord annotations (TokenList.code (t :: rest)) =
      t :: Classification.withoutAnnotations annotations (TokenList.code rest) := by
    rw [TokenList.code_cons_of_isCode rest hcode, behindWord, hgroup,
      withoutAnnotations_cons, hword]
    rfl
  refine ⟨?_, ?_, ?_⟩
  · rw [hkept, TokenList.code_cons_of_isCode rest hcode, withoutAnnotations_cons, hword]
    exact h.plain.keep t
  · intro gap hends
    rw [hkept, hnext]
    exact h.plain.keep t
  · intro gap hends _
    rw [hkept, hnext]
    exact h.plain.keep t

end LeftAlike

theorem leftAlike {whole lead : List Token} (tokens : List Token)
    (hwhole : whole = lead ++ tokens) : LeftAlike annotations whole lead tokens := by
  induction tokens generalizing lead with
  | nil => exact .nil
  | cons t rest ih =>
    have h : LeftAlike annotations whole (lead ++ [t]) rest := ih (by simpa using hwhole)
    by_cases hcode : t.isCode = true
    · by_cases hword : isWordAmong annotations t = true
      · exact h.cons_word hword
      · by_cases hgroup : t.isGroup .paren = true
        · exact h.cons_group hwhole hgroup
        · exact h.cons_other hcode (by simpa using hword) (by simpa using hgroup)
    · by_cases hspace : t.kind.isSpace = true
      · exact h.cons_space hspace
      · exact h.cons_comment (by simpa using hcode) (by simpa using hspace)

/-- The reader of functions leaves what the classification leaves, and groups that are kept apart
from their annotation words. -/
theorem addsGroups (annotations : List String) (tokens : List Token) :
    AddsGroups (KeptApart annotations tokens)
      (TokenList.code (FunctionDecl.withoutAnnotations annotations false tokens))
      (Classification.withoutAnnotations annotations (TokenList.code tokens)) :=
  (leftAlike tokens (List.nil_append tokens).symm).plain

end Annotations

end CBoundary
