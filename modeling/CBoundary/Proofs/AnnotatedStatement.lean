import CBoundary.Proofs.Recognition
import CBoundary.Proofs.Relocation
import CBoundary.Proofs.Signatures

/-!
A prototype or a definition behind an annotation word and its group. An annotation word that every
project has is left out before it is decided where a statement ends and what kind it has. Any other
name, with the group behind it, looks like a function of its own. In front of a definition that
makes no difference, since the body ends the statement all the same and a single word is enough in
front of a group with a body behind it; in front of a prototype it does. Where a line ends behind
the group, the annotation is a statement of its own, and nothing is kept of that. Main statements:
`split_others` and `AnnotationTokens.exists_ofTokens`.
-/
namespace CBoundary

open Keyword

namespace Statement

open TokenList

variable {taken others lead part rest tokens : List Token} {t : Token}

theorem exists_split_append (taken tokens : List Token) :
    ∃ part rest, split taken tokens = (taken ++ part, rest) := by
  fun_induction split taken tokens with
  | case1 taken => exact ⟨[], [], by rw [List.append_nil]⟩
  | case2 taken t tokens => exact ⟨[], t :: tokens, by rw [List.append_nil]⟩
  | case3 taken t tokens => exact ⟨[t], tokens, rfl⟩
  | case4 taken t tokens => exact ⟨_, _, rfl⟩
  | case5 taken t tokens => exact ⟨[t], tokens, rfl⟩
  | case6 taken t tokens _ _ _ ih =>
    obtain ⟨part, rest, hsplit⟩ := ih
    exact ⟨t :: part, rest, by rw [hsplit, List.append_assoc, List.singleton_append]⟩

theorem append_eq_of_split (h : split taken tokens = (taken ++ part, rest)) :
    part ++ rest = tokens := by
  have happend := split_append taken tokens
  rw [h, List.append_assoc] at happend
  exact List.append_cancel_left happend

/-- The tokens of `part` end a statement at the same place, whether `taken` or `others` has been
read of it before. -/
structure EndsAlike (taken others part : List Token) : Prop where
  brace : ∀ lead t later, part = lead ++ t :: later → t.isGroup .brace = true →
    closesStatement (others ++ lead ++ [t]) = closesStatement (taken ++ lead ++ [t])
  line : ∀ lead t later, part = lead ++ t :: later → t.kind = .newline →
    isBareCall (others ++ lead ++ [t]) = true → isBareCall (taken ++ lead ++ [t]) = true

namespace EndsAlike

theorem first_brace (h : EndsAlike taken others (t :: part)) :
    (t.isGroup .brace && closesStatement (others ++ [t])) =
      (t.isGroup .brace && closesStatement (taken ++ [t])) := by
  cases hbrace : t.isGroup .brace with
  | false => rfl
  | true => simpa using h.brace [] t part rfl hbrace

theorem first_line (h : EndsAlike taken others (t :: part)) (ht : t.kind = .newline)
    (hcall : isBareCall (others ++ [t]) = true) : isBareCall (taken ++ [t]) = true := by
  simpa using h.line [] t part rfl ht (by simpa using hcall)

theorem behind_first (h : EndsAlike taken others (t :: part)) :
    EndsAlike (taken ++ [t]) (others ++ [t]) part where
  brace := by
    rintro lead u later rfl hbrace
    simpa using h.brace (t :: lead) u later rfl hbrace
  line := by
    rintro lead u later rfl hline hcall
    simpa using h.line (t :: lead) u later rfl hline (by simpa using hcall)

end EndsAlike

theorem eq_of_directive (ht : t.kind = .directive)
    (hcode : taken.any Token.isCode = others.any Token.isCode ∨
      ∀ u ∈ (t :: tokens).head?, u.isCode = true) :
    taken.any Token.isCode = others.any Token.isCode := by
  refine hcode.resolve_right fun hhead => ?_
  have hcode : t.isCode = true := hhead t rfl
  simp [Token.isCode, ht] at hcode

theorem any_isCode_concat (h : taken.any Token.isCode = others.any Token.isCode ∨
    t.isCode = true) : (taken ++ [t]).any Token.isCode = (others ++ [t]).any Token.isCode := by
  rcases h with h | h
  · simp [h]
  · simp [h]

/-- A statement that is no call ends at the same place behind other tokens. -/
theorem split_others (h : split taken tokens = (taken ++ part, rest))
    (hcall : isBareCall (taken ++ part) = false)
    (hcode : taken.any Token.isCode = others.any Token.isCode ∨
      ∀ t ∈ tokens.head?, t.isCode = true)
    (halike : EndsAlike taken others part) : split others tokens = (others ++ part, rest) := by
  fun_induction split taken tokens generalizing others part with
  | case1 taken =>
    obtain ⟨hpart, rfl⟩ := Prod.mk.inj h
    obtain rfl : part = [] := by simpa using hpart
    rw [split, List.append_nil]
  | case2 taken t tokens hdirective hany =>
    have hothers := eq_of_directive hdirective hcode
    obtain ⟨hpart, rfl⟩ := Prod.mk.inj h
    obtain rfl : part = [] := by simpa using hpart
    rw [split, if_pos hdirective, if_pos (hothers ▸ hany), List.append_nil]
  | case3 taken t tokens hdirective hany =>
    have hothers := eq_of_directive hdirective hcode
    obtain ⟨hpart, rfl⟩ := Prod.mk.inj h
    obtain rfl := List.append_cancel_left hpart
    rw [split, if_pos hdirective, if_neg (hothers ▸ hany)]
  | case4 taken t tokens hdirective hend =>
    obtain ⟨hpart, rfl⟩ := Prod.mk.inj h
    obtain rfl := List.append_cancel_left hpart
    rw [split, if_neg hdirective, if_pos (halike.first_brace ▸ hend)]
  | case5 taken t tokens hdirective hend hline =>
    obtain ⟨hpart, -⟩ := Prod.mk.inj h
    simp [hpart, hcall] at hline
  | case6 taken t tokens hdirective hend hline ih =>
    obtain ⟨later, rest', hsplit⟩ := exists_split_append (taken ++ [t]) tokens
    obtain ⟨hpart, rfl⟩ := Prod.mk.inj (hsplit.symm.trans h)
    rw [List.append_assoc, List.singleton_append] at hpart
    obtain rfl := List.append_cancel_left hpart
    have hgoes : ¬ (t.kind = .newline && isBareCall (others ++ [t]) &&
        declarationFollows tokens) = true := by
      intro hothers
      simp only [Bool.and_eq_true, decide_eq_true_eq] at hothers hline
      exact hline ⟨⟨hothers.1.1, halike.first_line hothers.1.1 hothers.1.2⟩, hothers.2⟩
    have hany : (taken ++ [t]).any Token.isCode = (others ++ [t]).any Token.isCode :=
      any_isCode_concat (hcode.imp_right fun hhead => hhead t rfl)
    rw [split, if_neg hdirective, if_neg (halike.first_brace ▸ hend), if_neg hgoes,
      ih hsplit (by simpa using hcall) (Or.inl hany) halike.behind_first, List.append_assoc,
      List.singleton_append]

/-- Space and comments do not end a statement, unless a line of them ends behind a call. -/
theorem split_append_trivia (taken : List Token) (hlead : ∀ t ∈ lead, t.kind.isTrivia = true)
    (tokens : List Token) :
    split taken (lead ++ tokens) = split (taken ++ lead) tokens ∨
      isBareCall taken = true ∧ ∃ line behind, lead = line ++ behind ∧
        split taken (lead ++ tokens) = (taken ++ line, behind ++ tokens) := by
  induction lead generalizing taken with
  | nil => exact Or.inl (by simp)
  | cons t lead ih =>
    have htrivia : t.kind.isTrivia = true := hlead t List.mem_cons_self
    have hcode : code [t] = [] := code_trivia (by simpa using htrivia)
    have hsame : isBareCall (taken ++ [t]) = isBareCall taken :=
      isBareCall_congr (by rw [code_append, hcode, List.append_nil])
    have hend : ¬ (t.isSeparator ||
        (t.isGroup .brace && closesStatement (taken ++ [t]))) = true := by
      simp [isSeparator_of_isTrivia htrivia, Token.isGroup_of_isTrivia htrivia]
    rw [List.cons_append, split, if_neg (ne_directive_of_isTrivia htrivia), if_neg hend, hsame]
    by_cases hline : (t.kind = .newline && isBareCall taken && declarationFollows
        (lead ++ tokens)) = true
    · rw [if_pos hline]
      simp only [Bool.and_eq_true] at hline
      exact Or.inr ⟨hline.1.2, [t], lead, rfl, rfl⟩
    · rw [if_neg hline]
      rcases ih (taken ++ [t]) fun u hu => hlead u (List.mem_cons_of_mem t hu) with
        h | ⟨hcall, line, behind, rfl, h⟩
      · exact Or.inl (by rw [h, List.append_assoc, List.singleton_append])
      · exact Or.inr ⟨hsame ▸ hcall, t :: line, behind, rfl, by
          rw [h, List.append_assoc, List.singleton_append]⟩

theorem split_nil_append_trivia (hlead : ∀ t ∈ lead, t.kind.isTrivia = true)
    (tokens : List Token) : split [] (lead ++ tokens) = split lead tokens := by
  rcases split_append_trivia [] hlead tokens with h | ⟨hcall, -⟩
  · exact h
  · simp [isBareCall, code] at hcall

end Statement

/-- Does a statement of the kind say nothing that a symbol table keeps? -/
def StatementKind.isUnrecorded : StatementKind → Bool
  | .blank | .control | .initialized | .variable | .expression => true
  | _ => false

theorem StatementKind.isFunction_of_isUnrecorded {kind : StatementKind}
    (h : kind.isUnrecorded = true) : kind.isFunction = false := by
  cases kind <;> first | rfl | simp [isUnrecorded] at h

namespace Classification

variable {code head behind lead later : List Token} {group t : Token} {kind : StatementKind}

/-- A function has no initializer and is no typedef. -/
theorem plain_of_isFunction (h : (classifyCode code).isFunction = true) :
    code.any (·.isWord "typedef") = false ∧ code.any (·.isPunct "=") = false := by
  unfold classifyCode at h
  split at h
  · simp [StatementKind.isFunction] at h
  · split at h
    · simp [StatementKind.isFunction] at h
    · split at h
      · simp [StatementKind.isFunction] at h
      · dsimp only at h
        split at h
        · simp [StatementKind.isFunction] at h
        · split at h
          · simp [StatementKind.isFunction] at h
          · rename_i htypedef
            refine ⟨by simpa using htypedef, ?_⟩
            unfold classifyDeclaration at h
            split at h
            · split at h <;> simp [StatementKind.isFunction] at h
            · rename_i hassign
              simpa using hassign

/-- The first group in the code of a function is no brace group, so it is no body of a record. -/
theorem IsFunction.afterRecordBody?_of_prefix (h : IsFunction code head group behind kind)
    (hlead : lead <+: code) : afterRecordBody? lead = none := by
  rw [Option.eq_none_iff_forall_not_mem]
  intro others hrecord
  obtain ⟨front, word, body, hr⟩ := exists_isRecord hrecord
  obtain ⟨later, rfl⟩ := hlead
  let plain (t : Token) : Bool := !(t.isGroup .paren || t.isGroup .brace)
  have hword (t : Token) (ht : t.kind = .word) : plain t = true := by
    simp [plain, Token.isGroup_of_kind_word ht]
  have hfunction : (lead ++ later).dropWhile plain = group :: behind := by
    rw [h.split, List.dropWhile_append_of_pos fun t ht => by simp [plain, h.plain t ht]]
    simp [plain, h.group]
  have hbody : (lead ++ later).dropWhile plain = body :: (others ++ later) := by
    have hsplit : lead ++ later =
        (front ++ word :: (recordTag? lead).toList) ++ body :: (others ++ later) := by
      conv => lhs; rw [hr.split]
      simp
    rw [hsplit, List.dropWhile_append_of_pos]
    · simp [plain, hr.body]
    · intro t ht
      rcases List.mem_append.1 ht with ht | ht
      · exact hword t (Token.kind_of_isWordAmong (hr.lead t ht))
      · rcases List.mem_cons.1 ht with rfl | ht
        · exact hword t (Token.kind_of_isWordAmong hr.word)
        · have hident := hr.tag t (by simpa using ht)
          exact hword t (by simp_all [Token.isIdent])
  obtain ⟨rfl, -⟩ := List.cons.inj (hfunction.symm.trans hbody)
  have hbrace := hr.body
  rw [Token.isGroup_brace_of_paren h.group] at hbrace
  exact absurd hbrace (by simp)

/-- Behind the parameter list of a function, a brace group ends the statement. -/
theorem closesStatement_of_paren {tokens : List Token}
    (hcode : withoutAnnotations defaultAnnotations (TokenList.code tokens) = lead ++ [t])
    (hparen : lead.any (·.isGroup .paren) = true) (hassign : lead.any (·.isPunct "=") = false)
    (hrecord : afterRecordBody? (lead ++ [t]) = none) :
    Statement.closesStatement tokens = true := by
  unfold Statement.closesStatement
  rw [hcode]
  simp only [List.dropLast_concat, hassign, hrecord, hparen]
  cases lead with
  | nil => rfl
  | cons start rest => simp

theorem closesStatement_congr_bare {tokens others : List Token}
    (h : withoutAnnotations defaultAnnotations (TokenList.code tokens) =
      withoutAnnotations defaultAnnotations (TokenList.code others)) :
    Statement.closesStatement tokens = Statement.closesStatement others := by
  unfold Statement.closesStatement
  rw [h]

/-- A brace group in a function stands behind its parameter list. -/
theorem IsFunction.any_paren (h : IsFunction code head group behind kind)
    (hcode : code = lead ++ t :: later) (hbrace : t.isGroup .brace = true) :
    lead.any (·.isGroup .paren) = true := by
  have hne : group ≠ t := by
    rintro rfl
    simp [Token.isGroup_brace_of_paren h.group] at hbrace
  rcases List.append_eq_append_iff.1 (h.split.symm.trans hcode) with
    ⟨more, rfl, hmore⟩ | ⟨more, rfl, hmore⟩
  · cases more with
    | nil => exact absurd (List.cons.inj hmore).1 hne
    | cons first more =>
      obtain ⟨rfl, -⟩ := List.cons.inj hmore
      simp [h.group]
  · cases more with
    | nil => exact absurd (List.cons.inj hmore).1.symm hne
    | cons first more =>
      obtain ⟨rfl, -⟩ := List.cons.inj hmore
      simp [(h.plain t (by simp)).2] at hbrace

section NameAndGroup

variable {word : Token} (hword : isName word = true) (hgroup : group.isGroup .paren = true)

include hword

theorem isWordAmong_of_isName {words : List String} (hwords : ∀ w ∈ words, isReserved w = true) :
    isWordAmong words word = false := by
  cases hmem : isWordAmong words word with
  | false => rfl
  | true =>
    have hreserved : isReserved word.text = true :=
      hwords _ (List.contains_iff_mem.1 (Bool.and_eq_true_iff.1 hmem).2)
    simp [isName, hreserved] at hword

theorem isWord_of_isName {w : String} (hw : isReserved w = true) : word.isWord w = false := by
  rw [Token.isWord_eq_isWordAmong]
  exact isWordAmong_of_isName hword (by simpa using hw)

theorem afterRecordBody?_of_isName (rest : List Token) :
    afterRecordBody? (word :: rest) = none := by
  have hqualifier : isWordAmong qualifiers word = false :=
    isWordAmong_of_isName hword (by decide)
  have hrecord : isWordAmong recordWords word = false := isWordAmong_of_isName hword (by decide)
  simp [afterRecordBody?, hqualifier, hrecord]

include hgroup

theorem classifyCode_name_group (hcode : code.any (·.isWord "typedef") = false) :
    classifyCode (word :: group :: code) = classifyDeclaration (word :: group :: code) := by
  have hgroupWord : group.isWord "typedef" = false := by
    simp [Token.isWord, Token.kind_of_isGroup hgroup]
  have hcontrol : isWordAmong controlWords word = false := isWordAmong_of_isName hword (by decide)
  have hextern : word.isWord "extern" = false := isWord_of_isName hword (by decide)
  have htypedef : word.isWord "typedef" = false := isWord_of_isName hword (by decide)
  simp only [classifyCode, hextern, Bool.false_and, hcontrol, afterRecordBody?_of_isName hword,
    List.any_cons, hcode, hgroupWord, htypedef, Bool.or_false]
  rfl

/-- The code of a definition stays one. -/
theorem classifyCode_function (h : classifyCode code = .function) :
    classifyCode (word :: group :: code) = .function := by
  have hfunction : (classifyCode code).isFunction = true := by rw [h]; rfl
  obtain ⟨htypedef, hassign⟩ := plain_of_isFunction hfunction
  obtain ⟨head, list, behind, hf⟩ := exists_isFunction hfunction
  have hbody : code.any (·.isGroup .brace) = true := by
    rw [hf.split, List.any_append, List.any_cons, hf.body.2 h, Bool.or_true, Bool.or_true]
  have hkind := FunctionDecl.kind_of_isName hword
  rw [classifyCode_name_group hword hgroup htypedef]
  have hw : word.isPunct "=" = false := by simp [Token.isPunct, hkind]
  have hg : group.isPunct "=" = false := by simp [Token.isPunct, Token.kind_of_isGroup hgroup]
  have hplain : word.isGroup .paren = false := Token.isGroup_of_kind_word hkind
  have hident : word.isIdent = true := (Bool.and_eq_true_iff.1 hword).1
  simp [classifyDeclaration, hassign, hw, hg, hplain, hgroup, hbody, isTypeHead, hident, hkind,
    hword]

theorem classifyCode_call : classifyCode [word, group] = .variable ∨
    classifyCode [word, group] = .expression := by
  have hkind := FunctionDecl.kind_of_isName hword
  rw [classifyCode_name_group hword hgroup rfl]
  have hw : word.isPunct "=" = false := by simp [Token.isPunct, hkind]
  have hg : group.isPunct "=" = false := by simp [Token.isPunct, Token.kind_of_isGroup hgroup]
  have hplain : word.isGroup .paren = false := Token.isGroup_of_kind_word hkind
  simp only [classifyDeclaration, List.any_cons, List.any_nil, hw, hg]
  by_cases hpointer : (isPointerGroup group && isDeclaratorHead 0 false [word, group]) = true
  · simp [hplain, hgroup, hpointer]
  · simp [hplain, hgroup, hpointer, isTypeHead, hkind]

end NameAndGroup

end Classification

namespace Statement

open Classification

theorem classify_append_trivia {lead : List Token} (hlead : ∀ t ∈ lead, t.kind.isTrivia = true)
    (tokens : List Token) : classify (lead ++ tokens) = classify tokens := by
  have hnone : lead.find? (fun t => !t.kind.isTrivia) = none := by
    rw [List.find?_eq_none]
    intro t ht
    simp [hlead t ht]
  rw [classify, classify, List.find?_append, hnone, Option.none_or,
    TokenList.code_append_trivia hlead]

/-- A call is neither a function nor anything else that a symbol table keeps. -/
theorem isUnrecorded_of_isBareCall {tokens : List Token} (h : isBareCall tokens = true) :
    (classifyCode (withoutAnnotations defaultAnnotations
      (TokenList.code tokens))).isUnrecorded = true := by
  unfold isBareCall at h
  split at h
  · rename_i name list hcode
    obtain ⟨hname, hlist⟩ := Bool.and_eq_true_iff.1 h
    have hother : isWordAmong defaultAnnotations list = false := by
      simp [isWordAmong, Token.kind_of_isGroup hlist]
    rw [hcode, withoutAnnotations_cons]
    cases hword : isWordAmong defaultAnnotations name with
    | true => rw [if_pos rfl, behindWord, if_pos hlist]; rfl
    | false =>
      rw [if_neg (by simp), withoutAnnotations, hother]
      rcases classifyCode_call hname hlist with h | h
      · exact congrArg StatementKind.isUnrecorded h
      · exact congrArg StatementKind.isUnrecorded h
  · simp at h

theorem isBareCall_of_isFunction {s : Statement} (h : s.kind.isFunction = true) :
    isBareCall s.tokens = false := by
  cases hcall : isBareCall s.tokens with
  | false => rfl
  | true =>
    have hnone := StatementKind.isFunction_of_isUnrecorded (isUnrecorded_of_isBareCall hcall)
    rw [← bareCode, ← kind_of_isFunction_or_isRecord (Or.inl h), h] at hnone
    exact hnone

/-- What space and comments stand in front does not matter to where a function ends. -/
theorem split_eq_of_trivia {lead trail body part rest : List Token} {s : Statement}
    (hlead : ∀ t ∈ lead, t.kind.isTrivia = true) (htrail : ∀ t ∈ trail, t.kind.isTrivia = true)
    (hsplit : split lead body = (lead ++ part, rest)) (hs : s.tokens = lead ++ part)
    (hfunction : s.kind.isFunction = true) : split trail body = (trail ++ part, rest) := by
  have hnone {front : List Token} (h : ∀ t ∈ front, t.kind.isTrivia = true) :
      front.any Token.isCode = false := by
    rw [List.any_eq_false]
    intro t ht
    simp [Token.isCode_of_isTrivia (h t ht)]
  have hcode : lead.any Token.isCode = trail.any Token.isCode := by
    rw [hnone hlead, hnone htrail]
  have hsame (tokens : List Token) :
      TokenList.code (trail ++ tokens) = TokenList.code (lead ++ tokens) := by
    rw [TokenList.code_append_trivia hlead, TokenList.code_append_trivia htrail]
  refine split_others hsplit (hs ▸ isBareCall_of_isFunction hfunction) (Or.inl hcode) ⟨?_, ?_⟩
  · intro before t later _ _
    rw [List.append_assoc, List.append_assoc, closesStatement_congr (hsame _)]
  · intro before t later _ _ hcall
    rwa [List.append_assoc, isBareCall_congr (hsame _), ← List.append_assoc] at hcall

theorem exists_split_of_ofTokens {lead body : List Token} {s : Statement} {others : List Statement}
    (hlead : ∀ t ∈ lead, t.kind.isTrivia = true) (hs : ofTokens (lead ++ body) = s :: others) :
    ∃ part rest, split lead body = (lead ++ part, rest) ∧ s.tokens = lead ++ part ∧
      ofTokens rest = others := by
  have hne : lead ++ body ≠ [] := by
    intro hnil
    rw [hnil, ofTokens] at hs
    exact absurd hs (by simp)
  rw [ofTokens_of_ne_nil hne, split_nil_append_trivia hlead] at hs
  obtain ⟨part, rest, hsplit⟩ := exists_split_append lead body
  rw [hsplit] at hs
  obtain ⟨rfl, hothers⟩ := List.cons.inj hs
  exact ⟨part, rest, hsplit, rfl, hothers⟩

/-- The first token of a function that is no trivia is a code token. -/
theorem exists_head_isCode {lead part : List Token} {s : Statement}
    (hlead : ∀ t ∈ lead, t.kind.isTrivia = true)
    (hpart : ∀ t ∈ part.head?, t.kind.isTrivia = false) (hcut : Cut s.tokens)
    (hs : s.tokens = lead ++ part) (hfunction : s.kind.isFunction = true) :
    ∃ t later, part = t :: later ∧ t.isCode = true := by
  have hcode : s.tokens.any Token.isCode = true := by
    cases hany : s.tokens.any Token.isCode with
    | true => rfl
    | false =>
      have hnone : TokenList.code s.tokens = [] := by
        rw [TokenList.code, List.filter_eq_nil_iff]
        simpa using hany
      rw [kind_of_isFunction_or_isRecord (Or.inl hfunction), bareCode, hnone] at hfunction
      exact absurd hfunction (by decide)
  have hfront := hcut.takeWhile_isTrivia hcode
  rw [hs, List.takeWhile_append_of_pos hlead,
    List.takeWhile_append_of_pos fun t ht => by simp [Token.isCode_of_isTrivia (hlead t ht)]]
    at hfront
  cases part with
  | nil =>
    rw [hs, List.append_nil, List.any_eq_true] at hcode
    obtain ⟨t, ht, hcode⟩ := hcode
    simp [Token.isCode_of_isTrivia (hlead t ht)] at hcode
  | cons t later =>
    refine ⟨t, later, rfl, ?_⟩
    have htrivia : t.kind.isTrivia = false := hpart t rfl
    cases ht : t.isCode with
    | true => rfl
    | false => simp [htrivia, ht] at hfront

end Statement

namespace FunctionDecl

variable {annotations : List String} {lead : List Token}

theorem withoutAnnotations_skipping (h : ∀ t ∈ lead, t.kind.isSpace = true) (rest : List Token) :
    withoutAnnotations annotations true (lead ++ rest) =
      withoutAnnotations annotations true rest := by
  induction lead with
  | nil => rfl
  | cons t lead ih =>
    rw [List.cons_append, withoutAnnotations, if_pos (by simp [h t List.mem_cons_self]),
      ih fun u hu => h u (List.mem_cons_of_mem t hu)]

theorem readParts?_withoutAnnotations (h : ∀ t ∈ lead, t.kind.isTrivia = true)
    (rest : List Token) :
    readParts? (withoutAnnotations annotations false (lead ++ rest)) =
      readParts? (withoutAnnotations annotations false rest) := by
  rw [← readParts?_append_trivia h (withoutAnnotations annotations false rest)]
  congr 1
  induction lead with
  | nil => rfl
  | cons t lead ih =>
    have hword : isWordAmong annotations t = false := by
      have htrivia := h t List.mem_cons_self
      cases hkind : t.kind <;> simp_all [isWordAmong, TokenKind.isTrivia, TokenKind.isSpace,
        TokenKind.isComment]
    rw [List.cons_append, withoutAnnotations, if_neg (by simp), if_neg (by simp), hword,
      if_neg (by simp), ih fun u hu => h u (List.mem_cons_of_mem t hu), List.cons_append]

end FunctionDecl

/-- The tokens of an annotation word, blanks and the parenthesized group behind it. -/
structure AnnotationTokens (front : List Token) (word group : Token) : Prop where
  tokens : ∃ gap, front = word :: (gap ++ [group]) ∧ ∀ t ∈ gap, t.kind = .blanks
  word : word.kind = .word
  group : group.isGroup .paren = true

/-- The annotation word is one that every project has, or it could be the name of a declaration and
stands in front of a definition. -/
def LookedPast (word : String) (kind : StatementKind) : Prop :=
  word ∈ defaultAnnotations ∨
    (word.toList.head?.any Char.isDigit = false ∧ isReserved word = false ∧ kind = .function)

namespace AnnotationTokens

open TokenList Classification Statement

variable {front lead part rest : List Token} {word group t : Token} {s : Statement}

theorem code_append (h : AnnotationTokens front word group) (rest : List Token) :
    code (front ++ rest) = word :: group :: code rest := by
  obtain ⟨gap, rfl, hgap⟩ := h.tokens
  have hnone : code gap = [] := code_trivia fun t ht => by simp [hgap t ht, TokenKind.isTrivia,
    TokenKind.isSpace]
  rw [List.cons_append, List.append_assoc, List.singleton_append,
    code_cons_of_isCode _ (Token.isCode_of_kind_word h.word), TokenList.code_append, hnone,
    List.nil_append, code_cons_of_isCode _ (Token.isCode_of_isGroup h.group)]

/-- An annotation word that every project has leaves nothing behind. -/
theorem bare_of_default (h : AnnotationTokens front word group)
    (hword : isWordAmong defaultAnnotations word = true) (rest : List Token) :
    withoutAnnotations defaultAnnotations (code (front ++ rest)) =
      withoutAnnotations defaultAnnotations (code rest) := by
  rw [h.code_append, withoutAnnotations_cons, if_pos hword, behindWord, if_pos h.group]

/-- Any other stays, with its group. -/
theorem bare_of_not_default (h : AnnotationTokens front word group)
    (hword : isWordAmong defaultAnnotations word = false) (rest : List Token) :
    withoutAnnotations defaultAnnotations (code (front ++ rest)) =
      word :: group :: withoutAnnotations defaultAnnotations (code rest) := by
  have hgroup : isWordAmong defaultAnnotations group = false := by
    simp [isWordAmong, Token.kind_of_isGroup h.group]
  rw [h.code_append, withoutAnnotations_cons, withoutAnnotations_cons, hword, hgroup]
  rfl

theorem isName_of_lookedPast (h : AnnotationTokens front word group) {kind : StatementKind}
    (hpast : LookedPast word.text kind) (hword : isWordAmong defaultAnnotations word = false) :
    isName word = true ∧ kind = .function := by
  rcases hpast with hdefault | ⟨hdigit, hreserved, hkind⟩
  · simp [isWordAmong, h.word, hdefault] at hword
  · refine ⟨?_, hkind⟩
    rw [isName, Token.isIdent, Token.chars, hdigit, hreserved, h.word]
    rfl

theorem goes_on (h : AnnotationTokens front word group) (rest : List Token) :
    split [] (front ++ rest) = split front rest := by
  obtain ⟨gap, rfl, hgap⟩ := h.tokens
  rw [split_append_part, List.nil_append]
  intro lead t later hsplit
  have ht : t ∈ word :: (gap ++ [group]) := hsplit ▸ by simp
  have hkind : t.kind = .word ∨ t.kind = .blanks ∨ t.kind = .group .paren := by
    rcases List.mem_cons.1 ht with rfl | ht
    · exact Or.inl h.word
    · rcases List.mem_append.1 ht with ht | ht
      · exact Or.inr (Or.inl (hgap t ht))
      · rw [List.mem_singleton.1 ht]
        exact Or.inr (Or.inr (Token.kind_of_isGroup h.group))
  rcases hkind with hkind | hkind | hkind <;>
    simp [hkind, Token.isSeparator, Token.isPunct, Token.isGroup]

/-- A brace group ends the statement behind the annotation if it ends it without. -/
theorem closesStatement_eq (h : AnnotationTokens front word group)
    (hpast : LookedPast word.text s.kind) (hfunction : s.kind.isFunction = true)
    (hs : code s.tokens = code (part ++ t :: rest)) (hbrace : t.isGroup .brace = true) :
    closesStatement (front ++ (part ++ [t])) = closesStatement (part ++ [t]) := by
  cases hword : isWordAmong defaultAnnotations word with
  | true => exact closesStatement_congr_bare (h.bare_of_default hword _)
  | false =>
    obtain ⟨hname, hkind⟩ := h.isName_of_lookedPast hpast hword
    have hother : isWordAmong defaultAnnotations t = false := by
      simp [isWordAmong, Token.kind_of_isGroup hbrace]
    have hplain : t.isGroup .paren = false := by
      simp [Token.isGroup, Token.kind_of_isGroup hbrace]
    have hcode (later : List Token) : code (part ++ t :: later) = code part ++ t :: code later := by
      rw [TokenList.code_append, code_cons_of_isCode _ (Token.isCode_of_isGroup hbrace)]
    let left := withoutAnnotations defaultAnnotations (code part)
    have hleft : withoutAnnotations defaultAnnotations (code (part ++ [t])) = left ++ [t] := by
      rw [hcode]
      exact (withoutAnnotations_append_cons _ hother hplain _ _).1
    have hbare : s.bareCode = left ++ t :: withoutAnnotations defaultAnnotations (code rest) := by
      rw [bareCode, hs, hcode]
      exact (withoutAnnotations_append_cons _ hother hplain _ _).1
    have hfunction' : (classifyCode s.bareCode).isFunction = true := by
      rw [← kind_of_isFunction_or_isRecord (Or.inl hfunction)]
      exact hfunction
    obtain ⟨head, list, behind, hf⟩ := exists_isFunction hfunction'
    have hassign : left.any (·.isPunct "=") = false := by
      have hall := (plain_of_isFunction hfunction').2
      rw [hbare, List.any_append, Bool.or_eq_false_iff] at hall
      exact hall.1
    have hwithout : closesStatement (part ++ [t]) = true :=
      closesStatement_of_paren hleft (hf.any_paren hbare hbrace) hassign
        (hf.afterRecordBody?_of_prefix ⟨withoutAnnotations defaultAnnotations (code rest), by
          rw [hbare, List.append_assoc, List.singleton_append]⟩)
    have hwith : closesStatement (front ++ (part ++ [t])) = true := by
      have hbehind : withoutAnnotations defaultAnnotations (code (front ++ (part ++ [t]))) =
          (word :: group :: left) ++ [t] := by
        rw [h.bare_of_not_default hword, hleft]
        rfl
      refine closesStatement_of_paren hbehind ?_ ?_ ?_
      · simp [h.group]
      · have hw : word.isPunct "=" = false := by simp [Token.isPunct, h.word]
        have hg : group.isPunct "=" = false := by
          simp [Token.isPunct, Token.kind_of_isGroup h.group]
        rw [List.any_cons, List.any_cons, hw, hg, hassign]
        rfl
      · exact afterRecordBody?_of_isName hname _
    rw [hwith, hwithout]

theorem classify_eq_classifyCode (h : AnnotationTokens front word group) (rest : List Token) :
    classify (front ++ rest) =
      classifyCode (withoutAnnotations defaultAnnotations (code (front ++ rest))) := by
  have hfirst : ((front ++ rest).find? fun t => !t.kind.isTrivia) = some word := by
    obtain ⟨gap, rfl, -⟩ := h.tokens
    simp [h.word, TokenKind.isTrivia, TokenKind.isSpace, TokenKind.isComment]
  rw [classify, hfirst, if_neg (by simp [h.word])]

/-- The annotation does not change the kind of the statement. -/
theorem classify_eq (h : AnnotationTokens front word group)
    (hpast : LookedPast word.text s.kind) (hfunction : s.kind.isFunction = true)
    (hs : code s.tokens = code part) : classify (front ++ part) = s.kind := by
  have hkind : s.kind = classifyCode s.bareCode := kind_of_isFunction_or_isRecord (Or.inl hfunction)
  rw [bareCode, hs] at hkind
  rw [h.classify_eq_classifyCode]
  cases hword : isWordAmong defaultAnnotations word with
  | true => rw [h.bare_of_default hword, hkind]
  | false =>
    obtain ⟨hname, hdefinition⟩ := h.isName_of_lookedPast hpast hword
    rw [h.bare_of_not_default hword, hdefinition]
    exact classifyCode_function hname h.group (hkind ▸ hdefinition)

/-- Behind an annotation a function ends where it ends without it. -/
theorem split_eq {trail body : List Token} (h : AnnotationTokens front word group)
    (hlead : ∀ t ∈ lead, t.kind.isTrivia = true) (htrail : ∀ t ∈ trail, t.kind.isTrivia = true)
    (hbody : ∀ t ∈ body.head?, t.isCode = true)
    (hsplit : split lead body = (lead ++ part, rest)) (hs : s.tokens = lead ++ part)
    (hpast : LookedPast word.text s.kind) (hfunction : s.kind.isFunction = true) :
    split (front ++ trail) body = (front ++ trail ++ part, rest) := by
  have hwhole : part ++ rest = body := append_eq_of_split hsplit
  refine split_others hsplit (hs ▸ isBareCall_of_isFunction hfunction) (Or.inr hbody) ⟨?_, ?_⟩
  · rintro before t later rfl hbrace
    have hcode : code s.tokens = code (trail ++ before ++ t :: later) := by
      rw [hs, code_append_trivia hlead, List.append_assoc, code_append_trivia htrail]
    calc closesStatement (front ++ trail ++ before ++ [t])
        = closesStatement (front ++ (trail ++ before ++ [t])) := by simp only [List.append_assoc]
      _ = closesStatement (trail ++ before ++ [t]) :=
          h.closesStatement_eq hpast hfunction hcode hbrace
      _ = closesStatement (lead ++ before ++ [t]) := closesStatement_congr (by
          simp only [List.append_assoc, code_append_trivia hlead, code_append_trivia htrail])
  · -- the first token of the function makes the annotation more than a call
    rintro before t later rfl hnewline hcall
    exfalso
    cases before with
    | nil =>
      have ht : t.isCode = true := hbody t (by rw [← hwhole]; rfl)
      simp [Token.isCode, hnewline, TokenKind.isTrivia, TokenKind.isSpace] at ht
    | cons u before =>
      have hu : u.isCode = true := hbody u (by rw [← hwhole]; rfl)
      have hcode : code (front ++ trail ++ (u :: before) ++ [t]) =
          word :: group :: u :: code (before ++ [t]) := by
        rw [List.append_assoc, List.append_assoc, h.code_append, code_append_trivia htrail,
          List.cons_append, code_cons_of_isCode _ hu]
      rw [isBareCall, hcode] at hcall
      simp at hcall

/-- The reader of functions skips the annotation. -/
theorem readParts?_eq (h : AnnotationTokens front word group) {annotations : List String}
    (hword : isWordAmong annotations word = true) (rest : List Token) :
    FunctionDecl.readParts? (FunctionDecl.withoutAnnotations annotations false (front ++ rest)) =
      FunctionDecl.readParts? (FunctionDecl.withoutAnnotations annotations false rest) := by
  obtain ⟨gap, rfl, hgap⟩ := h.tokens
  have hspace : ∀ t ∈ gap, t.kind.isSpace = true := fun t ht => by rw [hgap t ht]; rfl
  have hgroup : group.kind.isSpace = false := by rw [Token.kind_of_isGroup h.group]; rfl
  rw [List.cons_append, FunctionDecl.withoutAnnotations, if_neg (by simp), if_neg (by simp),
    if_pos hword, List.append_assoc, List.singleton_append,
    FunctionDecl.withoutAnnotations_skipping hspace, FunctionDecl.withoutAnnotations,
    if_neg (by simp [hgroup]), if_pos (by simp [h.group])]

/-- What is read off a function behind an annotation. Either the annotation starts the statement of
the function, or a line that ends behind it makes it a statement of its own; the statements behind
are the same. -/
theorem exists_ofTokens {trail body : List Token} {others : List Statement}
    (h : AnnotationTokens front word group)
    (hlead : ∀ t ∈ lead, t.kind.isTrivia = true) (htrail : ∀ t ∈ trail, t.kind.isTrivia = true)
    (hbody : ∀ t ∈ body.head?, t.kind.isTrivia = false) (hs : ofTokens (lead ++ body) = s :: others)
    (hpast : LookedPast word.text s.kind) (hfunction : s.kind.isFunction = true) :
    ∃ apart annotated, ofTokens (front ++ trail ++ body) = apart ++ annotated :: others ∧
      (∀ u ∈ apart, u.kind.isUnrecorded = true) ∧ annotated.kind = s.kind ∧
      ∀ annotations, isWordAmong annotations word = true →
        (FunctionDecl.ofTokens? annotations annotated.tokens).map FunctionDecl.parts =
          (FunctionDecl.ofTokens? annotations s.tokens).map FunctionDecl.parts := by
  have hcut : Cut s.tokens := cut_of_mem_ofTokens (hs ▸ List.mem_cons_self)
  obtain ⟨part, rest, hsplit, htokens, rfl⟩ := exists_split_of_ofTokens hlead hs
  obtain rfl := append_eq_of_split hsplit
  obtain ⟨t, later, rfl, ht⟩ := exists_head_isCode hlead
    (fun t ht => hbody t (by cases part <;> simp_all)) hcut htokens hfunction
  have hread (annotations : List String) : (FunctionDecl.ofTokens? annotations s.tokens).map
        FunctionDecl.parts =
      FunctionDecl.readParts? (FunctionDecl.withoutAnnotations annotations false (t :: later)) := by
    rw [FunctionDecl.map_parts_ofTokens?, htokens, FunctionDecl.readParts?_withoutAnnotations hlead]
  have hfront : front ≠ [] := by
    obtain ⟨gap, rfl, -⟩ := h.tokens
    simp
  rw [ofTokens_of_ne_nil (by simp [hfront]), List.append_assoc, h.goes_on]
  rcases split_append_trivia front htrail (t :: later ++ rest) with
    hone | ⟨hcall, line, behind, rfl, htwo⟩
  · rw [hone, h.split_eq hlead htrail (by simpa using ht) hsplit htokens hpast hfunction]
    refine ⟨[], ⟨front ++ trail ++ t :: later⟩, rfl, by simp, ?_, fun annotations hword => ?_⟩
    · rw [kind, List.append_assoc]
      exact h.classify_eq hpast hfunction (by
        rw [htokens, code_append_trivia hlead, code_append_trivia htrail])
    · rw [hread, FunctionDecl.map_parts_ofTokens?, List.append_assoc, h.readParts?_eq hword,
        FunctionDecl.readParts?_withoutAnnotations htrail]
  · have hbehind : ∀ u ∈ behind, u.kind.isTrivia = true :=
      fun u hu => htrail u (List.mem_append_right _ hu)
    rw [htwo, ofTokens_of_ne_nil (by simp), split_nil_append_trivia hbehind,
      split_eq_of_trivia hlead hbehind hsplit htokens hfunction]
    refine ⟨[⟨front ++ line⟩], ⟨behind ++ t :: later⟩, rfl, ?_, ?_, fun annotations hword => ?_⟩
    · simp only [List.mem_singleton, forall_eq]
      have hline : code line = [] := code_trivia fun u hu => htrail u (List.mem_append_left _ hu)
      rw [kind, h.classify_eq_classifyCode]
      have hfront : code (front ++ line) = code front := by
        rw [TokenList.code_append, hline, List.append_nil]
      exact isUnrecorded_of_isBareCall (isBareCall_congr hfront ▸ hcall)
    · have hkind := classify_append_trivia hlead (t :: later)
      rw [← htokens] at hkind
      rw [kind, kind, hkind, classify_append_trivia hbehind]
    · rw [hread, FunctionDecl.map_parts_ofTokens?,
        FunctionDecl.readParts?_withoutAnnotations hbehind]

end AnnotationTokens

end CBoundary
