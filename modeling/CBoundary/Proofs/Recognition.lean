import CBoundary.Proofs.AnnotationGroups
import CBoundary.Proofs.NamePlacement
import CBoundary.Proofs.RecordBody
import Mathlib.Data.List.TakeWhile

/-!
Reading what the classification recognises. A statement that is classified as a function is read as
one, with a body or without as the classification says, unless a comment splits an annotation word
from its group. A statement that is classified as a record is read as one wherever annotation words
stand in it, unless its tag is a reserved word. Main statements: `function_of_kind`,
`record_of_kind` and `recognised_read`.
-/
namespace CBoundary

open Keyword AdjacentComment Statement

theorem Token.Bracketed.exists_interior? {t : Token} {d : Delim} (h : t.Bracketed)
    (hgroup : t.isGroup d = true) : ∃ inner, t.interior? = some inner := by
  have hkind := kind_of_isGroup hgroup
  obtain ⟨inside, hchars⟩ := h d hkind
  exact ⟨_, interior?_of_bracketed hkind hchars⟩

theorem TokenList.any_group_code (d : Delim) (tokens : List Token) :
    (code tokens).any (·.isGroup d) = tokens.any (·.isGroup d) := by
  rw [code, List.any_filter]
  congr 1
  funext t
  cases hgroup : t.isGroup d with
  | false => simp
  | true => simp [Token.isCode_of_isGroup hgroup]

/-- The first group of some tokens is the first group of their code. -/
theorem TokenList.dropWhile_group {d : Delim} {tokens rest : List Token} {found : Token}
    (h : (code tokens).dropWhile (fun t => !t.isGroup d) = found :: rest) :
    ∃ behind, tokens.dropWhile (fun t => !t.isGroup d) = found :: behind ∧ code behind = rest := by
  rw [← code_dropWhile_group] at h
  have hfirst := List.head?_dropWhile_not (fun t : Token => !t.isGroup d) tokens
  cases hdrop : tokens.dropWhile (fun t => !t.isGroup d) with
  | nil => simp [hdrop, code] at h
  | cons u behind =>
    rw [hdrop, List.head?_cons] at hfirst
    have hgroup : u.isGroup d = true := by simpa using hfirst
    rw [hdrop, code_cons_of_isCode behind (Token.isCode_of_isGroup hgroup)] at h
    obtain ⟨rfl, hrest⟩ := List.cons.inj h
    exact ⟨behind, rfl, hrest⟩

namespace FunctionDecl

variable {annotations : List String} {tokens rest : List Token} {found : Token}

/-- A function is read where a name stands in front of the first group, and it has a body if a brace
group follows. -/
theorem ofTokens?_of_first_group (ht : ∀ t ∈ tokens, t.Bracketed)
    (hfirst : (TokenList.code (withoutAnnotations annotations false tokens)).dropWhile
      (fun t => !t.isGroup .paren) = found :: rest) (hfound : found.isGroup .paren = true) :
    (((TokenList.code (withoutAnnotations annotations false tokens)).takeWhile
        fun t => !t.isGroup .paren).getLast?.any isName = true →
      ∃ f, ofTokens? annotations tokens = some f) ∧
    ∀ f, ofTokens? annotations tokens = some f → f.hasBody = rest.any (·.isGroup .brace) := by
  let left := withoutAnnotations annotations false tokens
  have hmem : ∀ t ∈ left.drop (leading left).2, t.Bracketed := fun t hmem =>
    ht t (withoutAnnotations_subset annotations false (List.mem_of_mem_drop hmem))
  rw [← TokenList.code_drop_leading left] at hfirst ⊢
  obtain ⟨behind, hdrop, rfl⟩ := TokenList.dropWhile_group hfirst
  have hsub : ∀ t ∈ found :: behind, t.Bracketed := by
    intro t htmem
    rw [← hdrop] at htmem
    exact hmem t ((List.dropWhile_suffix _).subset htmem)
  obtain ⟨inner, hinner⟩ := (hsub found List.mem_cons_self).exists_interior? hfound
  constructor
  · intro hname
    rw [← TokenList.code_takeWhile_group] at hname
    obtain ⟨name, hlast, hisName⟩ := (Option.any_eq_true _ _).1 hname
    simp only [ofTokens?, Option.bind_eq_bind, Option.bind_eq_some_iff, Option.pure_def,
      Option.some.injEq, Option.filter_eq_some_iff]
    exact ⟨_, inner, ⟨found, by rw [hdrop, List.head?_cons], hinner⟩, name, ⟨hlast, hisName⟩, rfl⟩
  · intro f hf
    simp only [ofTokens?, Option.bind_eq_bind, Option.bind_eq_some_iff, Option.pure_def,
      Option.some.injEq] at hf
    obtain ⟨parameters, -, name, -, rfl⟩ := hf
    change (((List.dropWhile (fun t => !t.isGroup .paren) (left.drop (leading left).2)).tail.find?
      (·.isGroup .brace)).bind Token.interior?).isSome = _
    rw [hdrop, List.tail_cons, TokenList.any_group_code]
    cases hbody : behind.find? (·.isGroup .brace) with
    | none => simpa using hbody
    | some body =>
      have hbrace : body.isGroup .brace = true :=
        List.find?_some (p := fun t : Token => t.isGroup .brace) hbody
      have hbehind : body ∈ behind := List.mem_of_find?_eq_some hbody
      obtain ⟨inside, hinside⟩ :=
        (hsub body (List.mem_cons_of_mem _ hbehind)).exists_interior? hbrace
      rw [Option.bind_some, hinside]
      exact (List.any_eq_true.2 ⟨body, hbehind, hbrace⟩).symm

end FunctionDecl

namespace Classification

/-- The code of a function is words and stars up to the first group, the last of them a name, and a
brace group behind it makes it a definition. -/
structure IsFunction (code head : List Token) (group : Token) (behind : List Token)
    (kind : StatementKind) : Prop where
  split : code = head ++ group :: behind
  group : group.isGroup .paren = true
  plain : ∀ t ∈ head, t.isGroup .paren = false ∧ t.isGroup .brace = false
  name : head.getLast?.any isName = true
  body : behind.any (·.isGroup .brace) = true ↔ kind = .function

theorem isFunction_of_isTypeHead {least : Nat} {code behind : List Token} {group : Token}
    {kind : StatementKind}
    (hdrop : code.dropWhile (fun t => !t.isGroup .paren) = group :: behind)
    (hhead : isTypeHead least (code.takeWhile fun t => !t.isGroup .paren) = true)
    (hbody : behind.any (·.isGroup .brace) = true ↔ kind = .function) :
    IsFunction code (code.takeWhile fun t => !t.isGroup .paren) group behind kind := by
  simp only [isTypeHead, Bool.and_eq_true, List.all_eq_true, Bool.or_eq_true] at hhead
  obtain ⟨⟨hall, -⟩, hname⟩ := hhead
  have hgroup := List.head?_dropWhile_not (fun t : Token => !t.isGroup .paren) code
  rw [hdrop, List.head?_cons] at hgroup
  refine ⟨?_, by simpa using hgroup, ?_, hname, hbody⟩
  · rw [← hdrop, List.takeWhile_append_dropWhile]
  · intro t ht
    rcases hall t ht with hword | hstar
    · have hkind : t.kind = .word := by simp_all [Token.isIdent]
      exact ⟨Token.isGroup_of_kind_word hkind, Token.isGroup_of_kind_word hkind⟩
    · have hkind : t.kind = .punctuation := by simp_all [Token.isPunct]
      exact ⟨by simp [Token.isGroup, hkind], by simp [Token.isGroup, hkind]⟩

/-- What the rules can come to: neither a function nor a record, a record with its body, or what the
rules for declarations say. -/
theorem classifyCode_cases (code : List Token) :
    ((classifyCode code).isFunction = false ∧ (classifyCode code).isRecord = false) ∨
    (∃ behind isTypedef declares, afterRecordBody? code = some behind ∧
      classifyCode code = .record isTypedef declares) ∨
    classifyCode code = classifyDeclaration code := by
  unfold classifyCode
  split
  · exact Or.inl ⟨rfl, rfl⟩
  · split
    · exact Or.inl ⟨rfl, rfl⟩
    · split
      · exact Or.inl ⟨rfl, rfl⟩
      · dsimp only
        split
        · rename_i behind hbody
          exact Or.inr (Or.inl ⟨behind, _, _, hbody, rfl⟩)
        · split
          · exact Or.inl ⟨rfl, rfl⟩
          · exact Or.inr (Or.inr rfl)

theorem classifyDeclaration_isFunction {code : List Token}
    (h : (classifyDeclaration code).isFunction = true) :
    ∃ head group behind, IsFunction code head group behind (classifyDeclaration code) := by
  unfold classifyDeclaration at h ⊢
  by_cases hinitializer : code.any (·.isPunct "=") = true
  · rw [if_pos hinitializer] at h
    split at h <;> simp [StatementKind.isFunction] at h
  · rw [if_neg hinitializer] at h ⊢
    dsimp only at h ⊢
    cases hdrop : code.dropWhile (fun t => !t.isGroup .paren) with
    | nil =>
      rw [hdrop] at h
      dsimp only at h
      split at h <;> simp [StatementKind.isFunction] at h
    | cons group behind =>
      rw [hdrop] at h
      dsimp only at h ⊢
      refine ⟨code.takeWhile fun t => !t.isGroup .paren, group, behind, ?_⟩
      split at h
      · rename_i hfunction
        obtain ⟨hbody, hhead⟩ := Bool.and_eq_true_iff.1 hfunction
        rw [if_pos hfunction]
        exact isFunction_of_isTypeHead hdrop hhead (by simp [hbody])
      · split at h
        · simp [StatementKind.isFunction] at h
        · split at h
          · rename_i hfunction hpointer hprototype
            obtain ⟨hbody, hhead⟩ := Bool.and_eq_true_iff.1 hprototype
            rw [if_neg hfunction, if_neg hpointer, if_pos hprototype]
            rw [Bool.not_eq_true'] at hbody
            exact isFunction_of_isTypeHead hdrop hhead (by simp [hbody])
          · simp [StatementKind.isFunction] at h

/-- What is classified as a function has the form of one. -/
theorem exists_isFunction {code : List Token} (h : (classifyCode code).isFunction = true) :
    ∃ head group behind, IsFunction code head group behind (classifyCode code) := by
  rcases classifyCode_cases code with ⟨hnone, -⟩ | ⟨behind, isTypedef, declares, -, hrecord⟩ | heq
  · simp [hnone] at h
  · simp [hrecord, StatementKind.isFunction] at h
  · rw [heq] at h ⊢
    exact classifyDeclaration_isFunction h

/-- Qualifiers, a record word and perhaps a tag stand in front of the body of a record. -/
structure IsRecord (code lead : List Token) (word : Token) (tag : Option Token) (body : Token)
    (behind : List Token) : Prop where
  split : code = lead ++ word :: (tag.toList ++ body :: behind)
  lead : ∀ t ∈ lead, isWordAmong qualifiers t = true
  word : isWordAmong recordWords word = true
  tag : ∀ t ∈ tag, t.isIdent = true
  body : body.isGroup .brace = true

/-- The tag in the code of a record definition: the identifier behind the record word. -/
def recordTag? (code : List Token) : Option Token :=
  (code.dropWhile (isWordAmong qualifiers)).tail.head?.filter Token.isIdent

theorem exists_isRecord {code behind : List Token} (h : afterRecordBody? code = some behind) :
    ∃ lead word body, IsRecord code lead word (recordTag? code) body behind := by
  have hsplit := List.takeWhile_append_dropWhile (p := isWordAmong qualifiers) (l := code)
  have hlead : ∀ t ∈ code.takeWhile (isWordAmong qualifiers), isWordAmong qualifiers t = true :=
    fun t ht => List.mem_takeWhile_imp ht
  unfold afterRecordBody? at h
  unfold recordTag?
  cases hdrop : code.dropWhile (isWordAmong qualifiers) with
  | nil => simp [hdrop] at h
  | cons word rest =>
    rw [hdrop] at h hsplit
    by_cases hword : isWordAmong recordWords word = true
    · cases rest with
      | nil => simp at h
      | cons first rest =>
        rw [List.tail_cons, List.head?_cons]
        simp only [hword, if_true] at h
        by_cases hident : first.isIdent = true
        · rw [Option.filter_some_pos hident]
          simp only [hident, if_true] at h
          cases rest with
          | nil => simp at h
          | cons body rest =>
            obtain ⟨hbody, rfl⟩ := by simpa using h
            exact ⟨_, word, body, hsplit.symm, hlead, hword, by simpa using hident, hbody⟩
        · rw [Option.filter_some_neg (Bool.eq_false_iff.2 hident)]
          simp only [hident] at h
          obtain ⟨hbody, rfl⟩ := by simpa using h
          exact ⟨_, word, first, hsplit.symm, hlead, hword, by simp, hbody⟩
    · simp [hword] at h

theorem isRecord_classifyDeclaration (code : List Token) :
    (classifyDeclaration code).isRecord = false := by
  unfold classifyDeclaration
  split
  · split <;> rfl
  · dsimp only
    split
    · split <;> rfl
    · split
      · rfl
      · split
        · rfl
        · split <;> rfl

theorem afterRecordBody?_of_isRecord {code : List Token}
    (h : (classifyCode code).isRecord = true) : ∃ behind, afterRecordBody? code = some behind := by
  rcases classifyCode_cases code with ⟨-, hnone⟩ | ⟨behind, isTypedef, declares, hbody, -⟩ | heq
  · simp [hnone] at h
  · exact ⟨behind, hbody⟩
  · simp [heq, isRecord_classifyDeclaration] at h

end Classification

theorem Token.isWord_eq_isWordAmong (t : Token) (w : String) : t.isWord w = isWordAmong [w] t := by
  simp [Token.isWord, isWordAmong, Bool.beq_eq_decide_eq]

/-- No word is in two lists that share none. -/
theorem isWordAmong_of_disjoint {t : Token} {words others : List String}
    (hdisjoint : ∀ w ∈ words, w ∉ others) (h : isWordAmong words t = true) :
    isWordAmong others t = false := by
  simp only [isWordAmong, Bool.and_eq_true, List.contains_iff_mem] at h ⊢
  simpa using fun _ => hdisjoint t.text h.2

namespace Record

open Classification

section LeftOut

variable {t : Token} (h : CanGo defaultAnnotations t)

include h

theorem isSkippable_of_canGo : isSkippable t = true := by
  rcases h with h | h
  · simp [isSkippable, h]
  · simp [isSkippable, h]

theorem isWordAmong_of_canGo {others : List String}
    (hdisjoint : ∀ w ∈ defaultAnnotations, w ∉ others) : isWordAmong others t = false := by
  rcases h with h | h
  · simp [isWordAmong, Token.kind_of_isGroup h]
  · exact isWordAmong_of_disjoint hdisjoint h

theorem isGroup_brace_of_canGo : t.isGroup .brace = false := by
  rcases h with h | h
  · exact Token.isGroup_brace_of_paren h
  · exact Token.isGroup_of_kind_word (Token.kind_of_isWordAmong h)

theorem readKind?_of_canGo (isTypedef : Bool) (rest : List Token) :
    readKind? isTypedef (t :: rest) = readKind? isTypedef rest := by
  have htypedef : isWordAmong ["typedef"] t = false := isWordAmong_of_canGo h (by decide)
  have hword : isWordAmong recordWords t = false := isWordAmong_of_canGo h (by decide)
  rw [readKind?, Token.isWord_eq_isWordAmong, if_neg (by simp [htypedef]), if_neg (by simp [hword]),
    if_pos (isSkippable_of_canGo h)]

theorem readBody?_of_canGo (tag : Option Token) (rest : List Token) :
    readBody? tag (t :: rest) = readBody? tag rest := by
  rw [readBody?, if_neg (by simp [isGroup_brace_of_canGo h]), if_pos (isSkippable_of_canGo h)]

end LeftOut

variable {code kept behind : List Token} {t body word : Token}

theorem readKind?_qualifier (isTypedef : Bool) (rest : List Token)
    (h : isWordAmong qualifiers t = true) :
    ∃ flag, readKind? isTypedef (t :: rest) = readKind? flag rest := by
  have hword : isWordAmong recordWords t = false := isWordAmong_of_disjoint (by decide) h
  have hskip : isSkippable t = true := by simp [isSkippable, h]
  by_cases htypedef : t.isWord "typedef" = true
  · exact ⟨true, by rw [readKind?, if_pos htypedef]⟩
  · exact ⟨isTypedef, by rw [readKind?, if_neg htypedef, if_neg (by simp [hword]), if_pos hskip]⟩

/-- The record word is found behind qualifiers, wherever annotation words stand among them. -/
theorem exists_readKind? {lead : List Token} (isTypedef : Bool)
    (h : Leaves defaultAnnotations code kept) (hkept : kept = lead ++ word :: behind)
    (hlead : ∀ t ∈ lead, isWordAmong qualifiers t = true)
    (hword : isWordAmong recordWords word = true) :
    ∃ flag rest, readKind? isTypedef code = some (flag, word, rest) ∧
      Leaves defaultAnnotations rest behind := by
  induction code generalizing isTypedef kept lead with
  | nil => simp [h.eq_nil] at hkept
  | cons t rest ih =>
    rcases h.cons with ⟨hout, hrest⟩ | ⟨tail, htail, hrest⟩
    · rw [readKind?_of_canGo hout]
      exact ih isTypedef hrest hkept hlead
    · cases lead with
      | nil =>
        obtain ⟨rfl, rfl⟩ := List.cons.inj (htail.symm.trans hkept)
        have htypedef : isWordAmong ["typedef"] t = false :=
          isWordAmong_of_disjoint (by decide) hword
        refine ⟨isTypedef, rest, ?_, hrest⟩
        rw [readKind?, Token.isWord_eq_isWordAmong, if_neg (by simp [htypedef]), if_pos hword]
      | cons u lead =>
        obtain ⟨rfl, rfl⟩ := List.cons.inj (htail.symm.trans hkept)
        obtain ⟨flag, hflag⟩ := readKind?_qualifier isTypedef rest (hlead t List.mem_cons_self)
        rw [hflag]
        exact ih flag hrest rfl fun v hv => hlead v (List.mem_cons_of_mem t hv)

section Body

variable (hbody : body.isGroup .brace = true) (hinner : ∃ inner, body.interior? = some inner)

include hbody hinner

theorem readBody?_isSome_of_body (tag : Option Token) (h : Leaves defaultAnnotations code kept)
    (hkept : kept = body :: behind) : (readBody? tag code).isSome = true := by
  induction code generalizing kept with
  | nil => simp [h.eq_nil] at hkept
  | cons t rest ih =>
    rcases h.cons with ⟨hout, hrest⟩ | ⟨tail, htail, hrest⟩
    · rw [readBody?_of_canGo hout]
      exact ih hrest hkept
    · obtain ⟨rfl, rfl⟩ := List.cons.inj (htail.symm.trans hkept)
      obtain ⟨inner, hinner⟩ := hinner
      rw [readBody?, if_pos hbody, hinner]
      rfl

/-- The body is found behind the record word and a tag that is a name. -/
theorem readBody?_isSome {tag : Option Token} (h : Leaves defaultAnnotations code kept)
    (hkept : kept = tag.toList ++ body :: behind) (htag : ∀ t ∈ tag, isName t = true) :
    (readBody? none code).isSome = true := by
  cases tag with
  | none => exact readBody?_isSome_of_body hbody hinner none h hkept
  | some name =>
    have hname : isName name = true := htag name rfl
    induction code generalizing kept with
    | nil => simp [h.eq_nil] at hkept
    | cons t rest ih =>
      rcases h.cons with ⟨hout, hrest⟩ | ⟨tail, htail, hrest⟩
      · rw [readBody?_of_canGo hout]
        exact ih hrest hkept
      · obtain ⟨rfl, rfl⟩ := List.cons.inj (htail.symm.trans hkept)
        have hbehind (found : Option Token) : (readBody? found rest).isSome = true :=
          readBody?_isSome_of_body hbody hinner found hrest rfl
        have hkind : t.kind = .word := by simp_all [isName, Token.isIdent]
        rw [readBody?, if_neg (by simp [Token.isGroup_of_kind_word hkind])]
        split
        · exact hbehind none
        · rw [if_neg (by simp [hname])]
          exact hbehind (some t)

end Body

/-- A record is read where its code, without annotation words, has the form of one and a tag that is
a name. -/
theorem header?_isSome {tokens lead : List Token} {tag : Option Token}
    (ht : ∀ t ∈ tokens, t.Bracketed)
    (h : IsRecord (Classification.withoutAnnotations defaultAnnotations (TokenList.code tokens))
      lead word tag body behind)
    (htag : ∀ t ∈ tag, isReserved t.text = false) : (header? none tokens).isSome = true := by
  have hleaves : Leaves defaultAnnotations (TokenList.code tokens)
      (lead ++ word :: (tag.toList ++ body :: behind)) := Or.inl h.split
  have hmem : body ∈ TokenList.code tokens := Leaves.subset hleaves (by simp)
  have hinner := (ht body (List.mem_filter.1 hmem).1).exists_interior? h.body
  have hname : ∀ t ∈ tag, isName t = true := by
    intro t hmem
    rw [isName, h.tag t hmem, htag t hmem]
    rfl
  obtain ⟨flag, rest, hkind, hrest⟩ := exists_readKind? false hleaves rfl h.lead h.word
  obtain ⟨found, hfound⟩ :=
    Option.isSome_iff_exists.1 (readBody?_isSome h.body hinner hrest rfl hname)
  simp only [header?, Option.bind_eq_bind, Option.pure_def, TokenList.code_drop_leading, hkind,
    Option.bind_some, hfound, Option.isSome_some]

end Record

namespace StatementKind

theorem function_mem_facets {kind : StatementKind} :
    Facet.function ∈ kind.facets ↔ kind.isFunction = true := by
  cases kind with
  | record isTypedef declares => cases isTypedef <;> cases declares <;> decide
  | _ => decide

theorem functionBody_mem_facets {kind : StatementKind} :
    Facet.functionBody ∈ kind.facets ↔ kind = .function := by
  cases kind with
  | record isTypedef declares => cases isTypedef <;> cases declares <;> decide
  | _ => decide

theorem record_mem_facets {kind : StatementKind} :
    Facet.record ∈ kind.facets ↔ kind.isRecord = true := by
  cases kind with
  | record isTypedef declares => cases isTypedef <;> cases declares <;> decide
  | _ => decide

end StatementKind

namespace Statement

/-- The code of a statement without annotation words. -/
def bareCode (s : Statement) : List Token :=
  Classification.withoutAnnotations defaultAnnotations (TokenList.code s.tokens)

/-- A comment comes between an annotation word and its group, and for the reader of functions that
group is the first. -/
def CommentSplits (s : Statement) : Prop :=
  ∃ before word gap group behind,
    s.tokens = before ++ word :: (gap ++ group :: behind) ∧
    isWordAmong defaultAnnotations word = true ∧
    (∀ t ∈ gap, t.kind.isTrivia = true) ∧ (∃ t ∈ gap, t.kind.isComment = true) ∧
    (FunctionDecl.withoutAnnotations defaultAnnotations false s.tokens).find? (·.isGroup .paren) =
      some group

/-- No comment splits where none stands behind an annotation word. -/
theorem not_commentSplits {s : Statement}
    (h : ∀ t ∈ s.tokens.dropWhile fun t => !isWordAmong defaultAnnotations t,
      t.kind.isComment = false) : ¬ s.CommentSplits := by
  rintro ⟨before, word, gap, group, behind, htokens, hword, -, ⟨t, ht, hcomment⟩, -⟩
  have hmem : t ∈ s.tokens.dropWhile fun t => !isWordAmong defaultAnnotations t := by
    rw [htokens, List.dropWhile_append]
    split
    · simp [hword, ht]
    · simp [ht]
  simp [h t hmem] at hcomment

theorem kind_of_isFunction_or_isRecord {s : Statement}
    (h : s.kind.isFunction = true ∨ s.kind.isRecord = true) :
    s.kind = Classification.classifyCode s.bareCode := by
  unfold kind Classification.classify at h ⊢
  split at h
  · simp [StatementKind.isFunction, StatementKind.isRecord] at h
  · rename_i hdirective
    rw [if_neg hdirective]
    rfl

/-- In a statement, what keeps a group apart from its annotation word is a comment. -/
theorem Cut.commentSplits {s : Statement} {group : Token} (h : Cut s.tokens)
    (hgroup : group.isGroup .paren = true)
    (hapart : KeptApart defaultAnnotations s.tokens group)
    (hfirst : (FunctionDecl.withoutAnnotations defaultAnnotations false s.tokens).find?
      (·.isGroup .paren) = some group) : s.CommentSplits := by
  obtain ⟨lead, gap, behind, htokens, ⟨before, word, rfl, hword, hgap⟩, t, ht, hspace⟩ := hapart
  have htrivia : ∀ u ∈ gap, u.kind.isTrivia = true := by
    intro u hu
    have hfollows : Follows u group := by
      rw [htokens] at h
      exact (List.pairwise_append.1 h).2.2 u (by simp [hu]) group List.mem_cons_self
    have hcode := hgap u hu
    simp only [Token.isCode, Bool.not_eq_false', Bool.or_eq_true, beq_iff_eq] at hcode
    rcases hcode with (htrivia | hdirective) | hseparator
    · exact htrivia
    · exact absurd hdirective hfollows.1
    · exact absurd (hfollows.2.1 hseparator) (by simp_all [Token.isGroup, TokenKind.isTrivia,
        TokenKind.isSpace, TokenKind.isComment])
  have hcomment : t.kind.isComment = true := by
    simpa [TokenKind.isTrivia, hspace] using htrivia t ht
  exact ⟨before, word, gap, group, behind, by simpa using htokens, hword, htrivia,
    ⟨t, ht, hcomment⟩, hfirst⟩

variable {s : Statement}

/-- A statement that is classified as a function is read as one, unless a comment splits an
annotation word from its group, and what is read has a body if the classification says so. -/
theorem function_of_kind (hcut : Cut s.tokens) (ht : ∀ t ∈ s.tokens, t.Bracketed)
    (h : s.kind.isFunction = true) :
    (¬ s.CommentSplits → ∃ f, FunctionDecl.ofStatement? s = some f) ∧
    ∀ f, FunctionDecl.ofStatement? s = some f → (f.hasBody = true ↔ s.kind = .function) := by
  have hkind := kind_of_isFunction_or_isRecord (Or.inl h)
  rw [hkind] at h ⊢
  obtain ⟨head, group, behind, hf⟩ := Classification.exists_isFunction h
  obtain ⟨found, rest, hdrop, hfound, hbrace, hor⟩ :=
    (addsGroups defaultAnnotations s.tokens).first_group hf.split hf.group hf.plain
  obtain ⟨hread, hbody⟩ := FunctionDecl.ofTokens?_of_first_group ht hdrop hfound
  constructor
  · intro hsplits
    apply hread
    rcases hor with htake | hapart
    · rw [htake]
      exact hf.name
    · obtain ⟨_, hfirst, -⟩ := TokenList.dropWhile_group hdrop
      refine absurd (hcut.commentSplits hfound hapart ?_) hsplits
      rw [List.find?_eq_head?_dropWhile_not, hfirst, List.head?_cons]
  · intro f hf'
    rw [hbody f hf', hbrace]
    exact hf.body

/-- A statement that is classified as a record is read as one, unless its tag is reserved. -/
theorem record_of_kind (ht : ∀ t ∈ s.tokens, t.Bracketed) (h : s.kind.isRecord = true)
    (htag : ∀ t ∈ Classification.recordTag? s.bareCode, isReserved t.text = false) :
    ∃ r, RecordDecl.ofStatement? s = some r := by
  have hkind := kind_of_isFunction_or_isRecord (Or.inr h)
  rw [hkind] at h
  obtain ⟨behind, hbody⟩ := Classification.afterRecordBody?_of_isRecord h
  obtain ⟨lead, word, body, hrecord⟩ := Classification.exists_isRecord hbody
  exact RecordDecl.exists_ofTokens? none (Record.header?_isSome ht hrecord htag)

/-- What the classification recognises is read. -/
theorem recognised_read (base : Nat) (text : String) {s : Statement}
    (hs : s ∈ Statement.ofSource base text) :
    (Facet.function ∈ s.kind.facets →
      (¬ s.CommentSplits → ∃ f, FunctionDecl.ofStatement? s = some f) ∧
      ∀ f, FunctionDecl.ofStatement? s = some f →
        (f.hasBody = true ↔ Facet.functionBody ∈ s.kind.facets)) ∧
    (Facet.record ∈ s.kind.facets →
      (∀ tag ∈ Classification.recordTag? s.bareCode, isReserved tag.text = false) →
      ∃ r, RecordDecl.ofStatement? s = some r) := by
  have hcut : Cut s.tokens := cut_of_mem_ofTokens hs
  have ht : ∀ t ∈ s.tokens, t.Bracketed :=
    fun t hmem => (readFrom_of_mem_ofSource hs hmem).bracketed
  rw [StatementKind.function_mem_facets, StatementKind.functionBody_mem_facets,
    StatementKind.record_mem_facets]
  exact ⟨function_of_kind hcut ht, record_of_kind ht⟩

/-- A function behind a comment, an annotation word and its group, and a record with an annotation
word in front of its tag. -/
theorem annotated_function_and_record_read :
    ∃ s t f r, Statement.ofSource 0
        "/* c */ __attribute__ ((x)) int f(void) \x7b\x7d struct WT_INLINE s \x7b int a; \x7d;"
        = [s, t] ∧
      FunctionDecl.ofStatement? s = some f ∧ f.hasBody = true ∧
      RecordDecl.ofStatement? t = some r := by
  let text :=
    "/* c */ __attribute__ ((x)) int f(void) \x7b\x7d struct WT_INLINE s \x7b int a; \x7d;"
  have hread : ∃ s ∈ ofSource 0 text, ∃ t ∈ ofSource 0 text, ofSource 0 text = [s, t] ∧
      (Facet.function ∈ s.kind.facets ∧ Facet.functionBody ∈ s.kind.facets) ∧
      (∀ u ∈ s.tokens.dropWhile fun u => !isWordAmong defaultAnnotations u,
        u.kind.isComment = false) ∧
      Facet.record ∈ t.kind.facets ∧
      ∀ tag ∈ (Classification.recordTag? t.bareCode).toList, isReserved tag.text = false := by
    decide +kernel
  obtain ⟨s, hs, t, ht, htext, ⟨hfunction, hbody⟩, hcomment, hrecord, htag⟩ := hread
  obtain ⟨hread, hhas⟩ := (recognised_read 0 text hs).1 hfunction
  obtain ⟨f, hf⟩ := hread (not_commentSplits hcomment)
  obtain ⟨r, hr⟩ := (recognised_read 0 text ht).2 hrecord (by simpa using htag)
  exact ⟨s, t, f, r, htext, hf, (hhas f hf).2 hbody, hr⟩

/-- A comment between the annotation word and its group: what is classified as a prototype is not
read. -/
theorem commented_annotation_not_read :
    ∃ s, Statement.ofSource 0 "int __attribute__ /* c */ ((x)) f(void);" = [s] ∧
      Facet.function ∈ s.kind.facets ∧ FunctionDecl.ofStatement? s = none := by
  have hread : ∃ s ∈ Statement.ofSource 0 "int __attribute__ /* c */ ((x)) f(void);",
      Statement.ofSource 0 "int __attribute__ /* c */ ((x)) f(void);" = [s] ∧
      Facet.function ∈ s.kind.facets ∧ FunctionDecl.ofStatement? s = none := by
    decide +kernel
  obtain ⟨s, -, hs⟩ := hread
  exact ⟨s, hs⟩

end Statement

end CBoundary
