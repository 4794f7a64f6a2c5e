import CBoundary.FunctionDecl
import CBoundary.Proofs.NamePlacement
import CBoundary.Proofs.StatementSplit
import CBoundary.Proofs.TokenRole

/-!
A text that is read at another place. Its tokens are the same but for their positions, and nothing
that is read off tokens looks at positions: they are cut into the same statements of the same kinds,
and a function that is read off them has the same parts, each at its new place. Main statements:
`ofTokens_map_moved`, `map_parts_ofTokens?_moved` and `signature_moved`.
-/
namespace CBoundary

open Keyword

/-- The token when `places` tokens and `bytes` bytes more stand in front of it. -/
def Token.moved (places bytes : Nat) (t : Token) : Token :=
  { t with
    index := t.index + places
    span := ⟨t.span.start + bytes, t.span.stop + bytes⟩ }

section Tokens

variable (places bytes : Nat) (t : Token)

namespace Token

@[simp] theorem kind_moved : (t.moved places bytes).kind = t.kind := rfl

@[simp] theorem text_moved : (t.moved places bytes).text = t.text := rfl

@[simp] theorem chars_moved : (t.moved places bytes).chars = t.chars := rfl

@[simp] theorem isPunct_moved (p : String) : (t.moved places bytes).isPunct p = t.isPunct p := rfl

@[simp] theorem isWord_moved (w : String) : (t.moved places bytes).isWord w = t.isWord w := rfl

@[simp] theorem isGroup_moved (d : Delim) : (t.moved places bytes).isGroup d = t.isGroup d := rfl

end Token

@[simp] theorem Keyword.isName_moved : isName (t.moved places bytes) = isName t := rfl

@[simp] theorem Keyword.isWordAmong_moved (words : List String) :
    isWordAmong words (t.moved places bytes) = isWordAmong words t := rfl

end Tokens

variable {places bytes : Nat}

namespace TokenStream

/-- What stands in front of a text decides where its tokens are, and nothing else about them. -/
theorem ofChars_add (mode : Lexeme.Mode) (index offset places bytes : Nat) (text : List Char) :
    ofChars mode (index + places) (offset + bytes) text =
      (ofChars mode index offset text).map (Token.moved places bytes) := by
  induction hn : text.length using Nat.strongRecOn generalizing index offset text with
  | ind n ih =>
    match text with
    | [] => simp
    | c :: rest =>
      have hfirst := Lexeme.first_bounds mode c rest
      have hlt : ((c :: rest).drop (Lexeme.first mode c rest).2).length < n := by
        simp only [List.length_drop, List.length_cons] at hn ⊢
        omega
      rw [ofChars_cons, ofChars_cons, List.map_cons, ← ih _ hlt _ _ _ rfl,
        Nat.add_right_comm index, Nat.add_right_comm offset]
      rfl

theorem within_moved (t : Token) :
    within (t.moved places bytes) = (within t).map (Token.moved 0 bytes) :=
  ofChars_add .source 0 t.span.start 0 bytes t.chars

end TokenStream

namespace TokenList

@[simp] theorem code_map_moved (tokens : List Token) :
    code (tokens.map (Token.moved places bytes)) =
      (code tokens).map (Token.moved places bytes) := by
  rw [code, List.filter_map]
  rfl

@[simp] theorem texts_map_moved (tokens : List Token) :
    texts (tokens.map (Token.moved places bytes)) = texts tokens := by
  simp [texts]

end TokenList

/-- Classification does not see where tokens stand. -/
theorem keepsRole_moved (places bytes : Nat) : KeepsRole (Token.moved places bytes) :=
  ⟨fun _ => rfl, fun _ _ => rfl, fun _ => rfl⟩

namespace Statement

open Classification TokenList

/-- The statement when `places` tokens and `bytes` bytes more stand in front of it. -/
def moved (places bytes : Nat) (s : Statement) : Statement :=
  ⟨s.tokens.map (Token.moved places bytes)⟩

@[simp] theorem kind_moved (s : Statement) : (s.moved places bytes).kind = s.kind :=
  classify_map (keepsRole_moved places bytes) s.tokens

theorem splitTrailing_map_moved (tokens : List Token) :
    splitTrailing (tokens.map (Token.moved places bytes)) =
      ((splitTrailing tokens).1.map (Token.moved places bytes),
        (splitTrailing tokens).2.map (Token.moved places bytes)) := by
  fun_induction splitTrailing tokens <;> simp_all [splitTrailing]

theorem isBareCall_map_moved (tokens : List Token) :
    isBareCall (tokens.map (Token.moved places bytes)) = isBareCall tokens := by
  unfold isBareCall
  rw [code_map_moved]
  match code tokens with
  | [] | [_] | [_, _] | _ :: _ :: _ :: _ => rfl

theorem closesStatement_map_moved (tokens : List Token) :
    closesStatement (tokens.map (Token.moved places bytes)) = closesStatement tokens := by
  have hmoved := keepsRole_moved places bytes
  simp only [closesStatement, code_map_moved, withoutAnnotations_map hmoved, ← List.map_dropLast,
    afterRecordBody?_map hmoved, Option.isSome_map]
  cases (withoutAnnotations defaultAnnotations (code tokens)).dropLast with
  | nil => rfl
  | cons start rest =>
    simp only [List.map_cons, List.head?_map, Option.any_map, List.any_cons, List.any_map,
      Function.comp_def, Token.isWord_moved, Token.isPunct_moved, Token.isGroup_moved,
      Token.kind_moved]

theorem declarationFollows_map_moved (tokens : List Token) :
    declarationFollows (tokens.map (Token.moved places bytes)) = declarationFollows tokens := by
  unfold declarationFollows
  simp only [List.takeWhile_map, List.filter_map, Function.comp_def, Token.kind_moved]
  cases (tokens.takeWhile (·.kind != .directive)).filter fun t => !t.kind.isTrivia with
  | nil => rfl
  | cons start rest =>
    simp only [List.map_cons, List.head?_map, Option.any_map, Token.kind_moved,
      Token.text_moved, Token.isPunct_moved]

theorem split_map_moved (places bytes : Nat) (taken tokens : List Token) :
    split (taken.map (Token.moved places bytes)) (tokens.map (Token.moved places bytes)) =
      ((split taken tokens).1.map (Token.moved places bytes),
        (split taken tokens).2.map (Token.moved places bytes)) := by
  induction tokens generalizing taken with
  | nil => simp [split]
  | cons t rest ih =>
    have hconcat : taken.map (Token.moved places bytes) ++ [t.moved places bytes] =
        (taken ++ [t]).map (Token.moved places bytes) := by simp
    have hcode : (taken.map (Token.moved places bytes)).any Token.isCode =
        taken.any Token.isCode := by
      rw [List.any_map]
      rfl
    rw [List.map_cons, split, split, hconcat, hcode, isBareCall_map_moved,
      closesStatement_map_moved, declarationFollows_map_moved, splitTrailing_map_moved, ih]
    -- the conditions on the two sides are the same but for the names of the token
    change (if t.kind = .directive then _ else if (t.isSeparator || (t.isGroup .brace && _)) = true
      then _ else if (t.kind = .newline && _ && _) = true then _ else _) = _
    split
    · split <;> simp
    · split
      · simp
      · split <;> rfl

/-- Tokens at another place are cut into the same statements. -/
theorem ofTokens_map_moved (tokens : List Token) :
    ofTokens (tokens.map (Token.moved places bytes)) =
      (ofTokens tokens).map (moved places bytes) := by
  fun_induction ofTokens tokens with
  | case1 => simp [ofTokens]
  | case2 t rest ih =>
    have hsplit := split_map_moved places bytes [] (t :: rest)
    rw [List.map_nil, List.map_cons] at hsplit
    rw [List.map_cons, ofTokens, hsplit, ih, List.map_cons]
    rfl

theorem within_moved (t : Token) :
    within (t.moved places bytes) = (within t).map (moved 0 bytes) := by
  rw [within, TokenStream.within_moved, ofTokens_map_moved, within]

end Statement

namespace Token

theorem isGroup_of_isTrivia {t : Token} (h : t.kind.isTrivia = true) (d : Delim) :
    t.isGroup d = false := by
  cases hkind : t.kind <;>
    simp_all [TokenKind.isTrivia, TokenKind.isSpace, TokenKind.isComment, isGroup]

theorem interior?_moved {t : Token} (h : 0 < t.span.stop) :
    (t.moved places bytes).interior? = t.interior?.map (Token.moved places bytes) := by
  have hstop : t.span.stop + bytes - 1 = t.span.stop - 1 + bytes := by omega
  have hstart : t.span.start + bytes + 1 = t.span.start + 1 + bytes := by omega
  unfold interior?
  rw [kind_moved, chars_moved]
  split
  · simp only [moved, hstop, hstart, Option.map_some]
  · rfl

theorem bind_interior?_map_moved (places bytes : Nat) {found : Option Token}
    (h : ∀ t ∈ found, 0 < t.span.stop) :
    (found.map (Token.moved places bytes)).bind interior? =
      (found.bind interior?).map (Token.moved places bytes) := by
  cases found with
  | none => rfl
  | some t => exact interior?_moved (h t rfl)

end Token

namespace FunctionDecl

/-- What a declaration says of a function, without the comments around it. -/
structure Parts where
  typename : List Token
  name : Token
  parameters : Token
  body : Option Token

def parts (f : FunctionDecl) : Parts := ⟨f.typename, f.name, f.parameters, f.body⟩

/-- The parts when `places` tokens and `bytes` bytes more stand in front of the declaration. -/
def Parts.moved (places bytes : Nat) (p : Parts) : Parts where
  typename := p.typename.map (Token.moved places bytes)
  name := p.name.moved places bytes
  parameters := p.parameters.moved places bytes
  body := p.body.map (Token.moved places bytes)

/-- The parts of a function, read off tokens without annotation words. -/
def readParts? (tokens : List Token) : Option Parts := do
  let behind := tokens.dropWhile fun t => !t.isGroup .paren
  let parameters ← behind.head?.bind Token.interior?
  let head := (TokenList.code tokens).takeWhile fun t => !t.isGroup .paren
  let name ← head.getLast?.filter isName
  return {
    typename := withoutQualifiers head.dropLast
    name
    parameters
    body := (behind.tail.find? (·.isGroup .brace)).bind Token.interior? }

theorem dropWhile_drop_leading (tokens : List Token) :
    (tokens.drop (AdjacentComment.leading tokens).2).dropWhile (fun t => !t.isGroup .paren) =
      tokens.dropWhile fun t => !t.isGroup .paren := by
  induction tokens with
  | nil => rfl
  | cons t rest ih =>
    cases htrivia : t.kind.isTrivia with
    | false => rw [AdjacentComment.leading_cons_other rest htrivia, List.drop_zero]
    | true =>
      rw [List.dropWhile_cons_of_pos (by simp [Token.isGroup_of_isTrivia htrivia])]
      rcases TokenKind.isTrivia_iff.1 htrivia with hspace | hcomment
      · rw [AdjacentComment.leading_cons_space rest hspace, List.drop_succ_cons, ih]
      · rw [AdjacentComment.leading_cons_comment rest hcomment, List.drop_succ_cons,
          List.drop_zero]

/-- The comments around a function do not change its parts. -/
theorem map_parts_ofTokens? (annotations : List String) (tokens : List Token) :
    (ofTokens? annotations tokens).map parts =
      readParts? (withoutAnnotations annotations false tokens) := by
  simp only [ofTokens?, readParts?, TokenList.code_takeWhile_group, TokenList.code_drop_leading,
    dropWhile_drop_leading, Option.bind_eq_bind, Option.map_bind, Option.pure_def,
    Function.comp_def, Option.map_some, parts]

/-- Nor do space and comments in front of it. -/
theorem readParts?_append_trivia {lead : List Token} (h : ∀ t ∈ lead, t.kind.isTrivia = true)
    (tokens : List Token) : readParts? (lead ++ tokens) = readParts? tokens := by
  rw [readParts?, readParts?, TokenList.code_append_trivia h, List.dropWhile_append_of_pos]
  intro t ht
  simp [Token.isGroup_of_isTrivia (h t ht)]

theorem dropWhile_map_moved (tokens : List Token) :
    (tokens.map (Token.moved places bytes)).dropWhile (fun t => !t.isGroup .paren) =
      (tokens.dropWhile fun t => !t.isGroup .paren).map (Token.moved places bytes) := by
  rw [List.dropWhile_map]
  rfl

theorem takeWhile_map_moved (tokens : List Token) :
    (tokens.map (Token.moved places bytes)).takeWhile (fun t => !t.isGroup .paren) =
      (tokens.takeWhile fun t => !t.isGroup .paren).map (Token.moved places bytes) := by
  rw [List.takeWhile_map]
  rfl

theorem filter_isName_map_moved (found : Option Token) :
    (found.map (Token.moved places bytes)).filter isName =
      (found.filter isName).map (Token.moved places bytes) := by
  cases found with
  | none => rfl
  | some t =>
    rw [Option.map_some, Option.filter_some, Option.filter_some, isName_moved]
    split <;> rfl

theorem find?_brace_map_moved (tokens : List Token) :
    (tokens.map (Token.moved places bytes)).tail.find? (·.isGroup .brace) =
      (tokens.tail.find? (·.isGroup .brace)).map (Token.moved places bytes) := by
  rw [← List.map_tail, List.find?_map]
  rfl

theorem withoutQualifiers_map_moved (head : List Token) :
    withoutQualifiers (head.map (Token.moved places bytes)).dropLast =
      (withoutQualifiers head.dropLast).map (Token.moved places bytes) := by
  rw [← List.map_dropLast, withoutQualifiers, List.filter_map]
  rfl

theorem readParts?_map_moved {tokens : List Token} (h : ∀ t ∈ tokens, 0 < t.span.stop) :
    readParts? (tokens.map (Token.moved places bytes)) =
      (readParts? tokens).map (Parts.moved places bytes) := by
  have hstop : ∀ t ∈ tokens.dropWhile (fun t => !t.isGroup .paren), 0 < t.span.stop :=
    fun t ht => h t ((List.dropWhile_suffix _).subset ht)
  simp only [readParts?, dropWhile_map_moved, TokenList.code_map_moved, takeWhile_map_moved,
    List.head?_map, List.getLast?_map, filter_isName_map_moved]
  generalize tokens.dropWhile (fun t => !t.isGroup .paren) = behind at hstop
  have hfirst : ∀ t ∈ behind.head?, 0 < t.span.stop := fun t ht =>
    hstop t (List.mem_of_mem_head? ht)
  have hbrace : ∀ t ∈ behind.tail.find? (·.isGroup .brace), 0 < t.span.stop := fun t ht =>
    hstop t (List.mem_of_mem_tail (List.mem_of_find?_eq_some ht))
  rw [Token.bind_interior?_map_moved places bytes hfirst]
  cases behind.head?.bind Token.interior? with
  | none => rfl
  | some parameters =>
    cases ((TokenList.code tokens).takeWhile fun t => !t.isGroup .paren).getLast?.filter isName with
    | none => rfl
    | some name =>
      simp only [Option.map_some, find?_brace_map_moved, withoutQualifiers_map_moved,
        Token.bind_interior?_map_moved places bytes hbrace]
      rfl

@[simp] theorem withoutAnnotations_map_moved (annotations : List String) (skipping : Bool)
    (tokens : List Token) :
    withoutAnnotations annotations skipping (tokens.map (Token.moved places bytes)) =
      (withoutAnnotations annotations skipping tokens).map (Token.moved places bytes) := by
  induction tokens generalizing skipping with
  | nil => rfl
  | cons t rest ih =>
    simp only [List.map_cons, withoutAnnotations, Token.kind_moved, Token.isGroup_moved,
      isWordAmong_moved, ih, apply_ite (List.map (Token.moved places bytes))]

/-- A function that is read at another place has its parts there. -/
theorem map_parts_ofTokens?_moved (annotations : List String) {tokens : List Token}
    (h : ∀ t ∈ tokens, 0 < t.span.stop) :
    (ofTokens? annotations (tokens.map (Token.moved places bytes))).map parts =
      ((ofTokens? annotations tokens).map parts).map (Parts.moved places bytes) := by
  rw [map_parts_ofTokens?, map_parts_ofTokens?, withoutAnnotations_map_moved,
    readParts?_map_moved fun t ht => h t (withoutAnnotations_subset annotations false ht)]

theorem parameterType_moved (s : Statement) :
    parameterType (s.moved places bytes) = parameterType s := by
  have hcode : withoutQualifiers (TokenList.code (s.moved places bytes).tokens) =
      (withoutQualifiers (TokenList.code s.tokens)).map (Token.moved places bytes) := by
    rw [Statement.moved, TokenList.code_map_moved, withoutQualifiers, List.filter_map]
    rfl
  have hname (o : Option Token) :
      (o.map (Token.moved places bytes)).any isName = o.any isName := by cases o <;> rfl
  simp only [parameterType, hcode, List.countP_map, List.getLast?_map, hname, ← List.map_dropLast,
    Function.comp_def, Token.kind_moved, TokenList.shortRepr]
  split <;> rw [TokenList.texts_map_moved]

/-- The types of the parameters do not depend on where they stand. -/
theorem signature_moved {f g : FunctionDecl}
    (h : g.parameters = f.parameters.moved places bytes) : g.signature = f.signature := by
  unfold signature
  rw [h, Statement.within_moved, List.map_map]
  have hsame : parameterType ∘ Statement.moved 0 bytes = parameterType :=
    funext parameterType_moved
  rw [hsame]

end FunctionDecl

end CBoundary
