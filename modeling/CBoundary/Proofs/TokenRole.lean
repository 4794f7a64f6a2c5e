import CBoundary.Classification

/-!
What classification sees of a token: its category, of a group whether it is a pointer declarator,
and of anything else its text. Where a token stands and what else is in a group does not matter.
Main statements: `classify_map` and `classify_congr`.
-/
namespace CBoundary

open Keyword

/-- A change of tokens that classification does not see. -/
structure KeepsRole (f : Token → Token) : Prop where
  kind : ∀ t, (f t).kind = t.kind
  text : ∀ t, (∀ d, t.kind ≠ .group d) → (f t).text = t.text
  pointer : ∀ t, Classification.isPointerGroup (f t) = Classification.isPointerGroup t

namespace KeepsRole

variable {f : Token → Token} (hf : KeepsRole f) (t : Token)

include hf

theorem isGroup (d : Delim) : (f t).isGroup d = t.isGroup d := by
  rw [Token.isGroup, Token.isGroup, hf.kind]

/-- A test for a category that is no group and a text is passed as before. -/
theorem test {kind : TokenKind} (hkind : ∀ d, kind ≠ .group d) (p : String → Bool) :
    ((f t).kind == kind && p (f t).text) = (t.kind == kind && p t.text) := by
  rw [hf.kind]
  cases h : t.kind == kind with
  | false => rfl
  | true => rw [hf.text t fun d hd => hkind d (by rw [← hd, eq_of_beq h])]

theorem isPunct (p : String) : (f t).isPunct p = t.isPunct p :=
  hf.test t (by simp) (· == p)

theorem isWord (w : String) : (f t).isWord w = t.isWord w :=
  hf.test t (by simp) (· == w)

theorem isWordAmong (words : List String) :
    Keyword.isWordAmong words (f t) = Keyword.isWordAmong words t :=
  hf.test t (by simp) words.contains

theorem isIdent : (f t).isIdent = t.isIdent :=
  hf.test t (by simp) fun text => !(text.toList.head?.any Char.isDigit)

theorem isName : Keyword.isName (f t) = Keyword.isName t := by
  have hname (u : Token) : Keyword.isName u =
      (u.kind == .word && (!(u.text.toList.head?.any Char.isDigit) && !isReserved u.text)) :=
    Bool.and_assoc ..
  rw [hname, hname]
  exact hf.test t (by simp) fun text =>
    !(text.toList.head?.any Char.isDigit) && !isReserved text

theorem isSeparator : (f t).isSeparator = t.isSeparator := by
  rw [Token.isSeparator, Token.isSeparator, hf.isPunct, hf.isPunct]

theorem isCode : (f t).isCode = t.isCode := by
  rw [Token.isCode, Token.isCode, hf.kind, hf.isSeparator]

end KeepsRole

namespace Classification

variable {f : Token → Token} (hf : KeepsRole f)

include hf

theorem code_map (tokens : List Token) :
    TokenList.code (tokens.map f) = (TokenList.code tokens).map f := by
  have hsame : Token.isCode ∘ f = Token.isCode := funext hf.isCode
  rw [TokenList.code, List.filter_map, hsame, TokenList.code]

theorem withoutAnnotations_map (annotations : List String) (tokens : List Token) :
    withoutAnnotations annotations (tokens.map f) =
      (withoutAnnotations annotations tokens).map f := by
  fun_induction withoutAnnotations annotations tokens <;>
    simp_all [withoutAnnotations, hf.isWordAmong, hf.isGroup]

theorem afterRecordBody?_map (code : List Token) :
    afterRecordBody? (code.map f) = (afterRecordBody? code).map (List.map f) := by
  unfold afterRecordBody?
  rw [List.dropWhile_map]
  have hsame : isWordAmong qualifiers ∘ f = isWordAmong qualifiers :=
    funext fun t => hf.isWordAmong t qualifiers
  rw [hsame]
  cases code.dropWhile (isWordAmong qualifiers) with
  | nil => rfl
  | cons word rest =>
    by_cases hword : isWordAmong recordWords word = true
    · cases rest with
      | nil => simp [hword, hf.isWordAmong]
      | cons tag behind =>
        by_cases htag : tag.isIdent = true
        · cases behind with
          | nil => simp [hword, htag, hf.isWordAmong, hf.isIdent]
          | cons body behind =>
            by_cases hbody : body.isGroup .brace = true <;>
              simp [hword, htag, hbody, hf.isWordAmong, hf.isIdent, hf.isGroup]
        · by_cases hbody : tag.isGroup .brace = true <;>
            simp [hword, htag, hbody, hf.isWordAmong, hf.isIdent, hf.isGroup]
    · simp [hword, hf.isWordAmong]

theorem isDeclaratorHead_map (words : Nat) (pointer : Bool) (head : List Token) :
    isDeclaratorHead words pointer (head.map f) = isDeclaratorHead words pointer head := by
  fun_induction isDeclaratorHead words pointer head <;>
    simp_all [isDeclaratorHead, hf.isIdent, hf.isGroup, hf.isPunct, hf.pointer]

theorem isTypeHead_map (leastWords : Nat) (head : List Token) :
    isTypeHead leastWords (head.map f) = isTypeHead leastWords head := by
  simp only [isTypeHead, List.all_map, List.countP_map, List.getLast?_map, Option.any_map,
    Function.comp_def, hf.isIdent, hf.isPunct, hf.kind, hf.isName]

theorem classifyDeclaration_map (code : List Token) :
    classifyDeclaration (code.map f) = classifyDeclaration code := by
  unfold classifyDeclaration
  simp only [List.any_map, List.takeWhile_map, List.dropWhile_map, Function.comp_def,
    hf.isPunct, hf.isGroup, isDeclaratorHead_map hf]
  cases code.dropWhile fun t => !t.isGroup .paren with
  | nil => rfl
  | cons group behind =>
    simp only [List.map_cons, List.any_map, Function.comp_def, hf.isGroup, hf.pointer,
      isTypeHead_map hf]

theorem classifyCode_map (code : List Token) : classifyCode (code.map f) = classifyCode code := by
  cases code with
  | nil => rfl
  | cons start rest =>
    unfold classifyCode
    rw [List.map_cons, ← List.map_cons, afterRecordBody?_map hf, classifyDeclaration_map hf]
    simp only [List.map_cons, List.head?_map, Option.any_map, List.any_cons, List.any_map,
      Function.comp_def, hf.isWord, hf.isGroup, hf.kind, hf.isWordAmong]
    cases afterRecordBody? (start :: rest) with
    | none => rfl
    | some behind =>
      simp only [Option.map_some, List.any_map, Function.comp_def, hf.isName]

theorem classify_map (tokens : List Token) : classify (tokens.map f) = classify tokens := by
  rw [classify, classify, code_map hf, withoutAnnotations_map hf, classifyCode_map hf,
    List.find?_map, Option.any_map]
  simp only [Function.comp_def, hf.kind]

omit hf

/-- A token like this one for classification, with a text that depends on nothing else. -/
def role (t : Token) : Token where
  index := 0
  span := Span.nowhere
  kind := t.kind
  text := match t.kind with
    | .group _ => if isPointerGroup t then "(*" else ""
    | _ => t.text

theorem keepsRole_role : KeepsRole role where
  kind _ := rfl
  text t ht := by
    cases hkind : t.kind with
    | group d => exact absurd hkind (ht d)
    | _ => rw [role, hkind]
  pointer t := by
    cases hpointer : isPointerGroup t with
    | true =>
      have hparen : t.kind = .group .paren := by
        simp only [isPointerGroup, Token.isGroup, Bool.and_eq_true, beq_iff_eq] at hpointer
        exact hpointer.1
      simp only [role, hparen, hpointer, if_true]
      rfl
    | false =>
      cases hkind : t.kind with
      | group d =>
        simp only [role, hkind, hpointer, Bool.false_eq_true, if_false]
        exact Bool.and_false _
      | _ => simp [isPointerGroup, Token.isGroup, role, hkind]

theorem role_congr {t u : Token} (hkind : t.kind = u.kind) (htext : t.text = u.text) :
    role t = role u := by
  have hpointer : isPointerGroup t = isPointerGroup u := by
    rw [isPointerGroup, isPointerGroup, Token.isGroup, Token.isGroup, Token.chars, Token.chars,
      hkind, htext]
  rw [role, role, hkind, htext, hpointer]

theorem role_group_congr {t u : Token} {d : Delim} (ht : t.kind = .group d) (hu : u.kind = .group d)
    (hpointer : isPointerGroup t = isPointerGroup u) : role t = role u := by
  rw [role, role, ht, hu, hpointer]

/-- Tokens that are alike for classification make statements of one kind. -/
theorem classify_congr {tokens others : List Token} (h : tokens.map role = others.map role) :
    classify tokens = classify others := by
  rw [← classify_map keepsRole_role tokens, h, classify_map keepsRole_role]

end Classification

end CBoundary
